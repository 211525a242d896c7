/-! The suffixes of C and C++ files. -/

namespace CBuild.Source

def suffixes : List (List Char) :=
  [".cpp", ".c", ".cp", ".c++", ".cc", ".h", ".hh", ".hp", ".hpp", ".h++"].map String.toList

/-- Suffixes of implementation files, those first that a header is paired with first. -/
def implementationSuffixes : List (List Char) :=
  [".cpp", ".c", ".cp", ".c++"].map String.toList

def headerSuffixes : List (List Char) :=
  [".h", ".hh", ".hp", ".hpp", ".h++"].map String.toList

def suffixOf? (name : List Char) : Option (List Char) :=
  suffixes.find? fun s => s.isSuffixOf name

end CBuild.Source
