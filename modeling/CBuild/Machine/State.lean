import CBuild.Machine.Change

/-! A machine held in memory: a tree of files, the directory it works in, what has been printed, and what its
programs do. -/

namespace CBuild

/-- What a program finds on a machine, and what it leaves there. -/
structure Machine.State where
  tree : FileTree
  /-- The directory that relative paths start at. -/
  here : Location
  out : Bytes := []
  err : Bytes := []
  nextNumber : Nat := 4242

/-- Nothing is assumed of what a program does, given its arguments from its own name on. -/
structure Machine extends Machine.State where
  verbose : Bool := false
  programs : String → List (List Char) → Machine.State → ExitStatus × Machine.State := fun _ _ s => (.code 0, s)

namespace Machine

def print (m : Machine) (b : Bytes) : Machine :=
  { m with out := m.out ++ b }

def tell (m : Machine) (b : Bytes) : Machine :=
  { m with err := m.err ++ b }

def pathOf (l : Location) : Path :=
  ⟨'/' :: ['/'].intercalate l⟩

end Machine
end CBuild
