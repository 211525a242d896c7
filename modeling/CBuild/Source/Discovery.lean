import CBuild.Files
import CBuild.Source.Resolver

/-! The files and include directories that a project needs, found from one entry point. -/

namespace CBuild.Source

structure Discovery where
  /-- Header directories, the most recently reached first. -/
  includes : List String
  /-- The entry point, then implementation files, the most recently found first. -/
  files : List String
deriving DecidableEq

variable {m : Type → Type} [Monad m] [Host m]

def Note.message : Note → String
  | .stranger target file =>
    "`" ++ String.ofList target ++ "` included from " ++ file.toString ++
      " is not in the project, skipping"
  | .pair header companion => header.relative.toString ++ " pairs with " ++ companion.relative.toString

def Index.follow [PathText] (ix : Index) (entry : Path) : Action m Resolution := do
  match ← (ix.trace Host.readBytes (fun n => Host.log .debug n.message) entry : m _) with
  | .ok s => return s
  | .error (p, e) => throw (.refused .readSource p e)

def discover [PathText] (root entry : Path) : Action m Discovery := do
  let ix ← Index.build root
  let start := root / entry
  let found ← ix.follow start
  let name := (start.relativeTo root).slashed
  (Host.log .debug (String.ofList name ++ " reaches " ++ toString found.visited.length ++ " headers and " ++
    toString found.companions.length ++ " implementation files") : m Unit)
  return {
    includes := found.headerDirectories.map String.ofList
    files := (name :: found.implementationFiles.filter (· ≠ name)).map String.ofList }

end CBuild.Source
