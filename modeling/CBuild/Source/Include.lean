import CBuild.Text.Lines
import CBuild.Text.Utf8

/-! Quoted includes. A line counts by its looks alone: it starts with the directive and has a quotation
mark. Comments and conditions are not understood. -/

namespace CBuild.Source

def includeDirective : List Char :=
  "#include".toList

def isIncludeLine (line : List Char) : Bool :=
  includeDirective.isPrefixOf line && line.contains '"'

/-- What stands between the first two quotation marks of an include line, or behind the only one. An empty
target names nothing. -/
def includeTarget? (line : List Char) : Option (List Char) :=
  if isIncludeLine line then
    let target := ((line.dropWhile (· ≠ '"')).drop 1).takeWhile (· ≠ '"')
    if target = [] then none else some target
  else none

def includeTargets (text : List Char) : List (List Char) :=
  (Text.lines text).filterMap includeTarget?

/-- The targets of a file; bytes that spell no character do not hide the lines around them. -/
def targetsIn (b : Bytes) : List (List Char) :=
  includeTargets (Utf8.decodeLossy b)

end CBuild.Source
