import CBuild.Files
import CBuild.Glob.Pattern

/-! The files that a pattern matches. Directories are listed only where a component has more than literal
characters; a literal component is looked up as it stands, so `.` and `..` are understood there. -/

namespace CBuild.Glob

variable {m : Type → Type} [Monad m] [Host m]

/-- A name below a directory. Below `.` it stands for itself. -/
def child (directory : Path) (name : List Char) : Path :=
  if directory.components = [.current] then ⟨name⟩ else directory / ⟨name⟩

/-- What a path below a listed directory gives for the components from its own on. `below` searches under a
path. -/
def search (below : List (List Token) → Path → m (List Path)) (p : Path) :
    List (List Token) → m (List Path)
  | [] => return []
  | [.directories] :: rest => do
    let directory ← Host.isDirectory p
    let deeper ← if directory then below ([.directories] :: rest) p else pure []
    match rest.dropWhile (· = [.directories]) with
    | [] => return if directory then p :: deeper else []
    | component :: next => return deeper ++ (← named component next)
  | component :: rest => named component rest
where
  named (component : List Token) (rest : List (List Token)) : m (List Path) := do
    match p.fileName? with
    | none => return []
    | some name =>
      if matchesName component name then
        if rest = [] then return [p] else below rest p
      else return []

/-- The paths below a directory that the components match, with at most `depth` listings on the way. -/
def expandFrom (depth : Nat) (components : List (List Token)) (p : Path) : m (List Path) := do
  match components with
  | [] => return []
  | component :: rest =>
    let goOn (q : Path) : m (List Path) := if rest = [] then return [q] else expandFrom depth rest q
    match literal? component with
    | some name =>
      let q := child p name
      if name = ['.'] ∨ name = ['.', '.'] then
        if ← Host.isDirectory p then goOn q else return []
      else if ← Host.exists? q then goOn q
      else return []
    | none =>
      match depth with
      | 0 => return []
      | depth + 1 =>
        match ← Host.namesIn p with
        | .error _ => return []
        | .ok names =>
          let listed ← names.mapM fun n =>
            search (fun cs q => expandFrom depth cs q) (child p n) (component :: rest)
          let dots ←
            if component.head? = some (.char '.') then
              ([['.'], ['.', '.']].filter (matchesName component)).mapM fun n =>
                if rest = [] then return [p / ⟨n⟩] else expandFrom depth rest (p / ⟨n⟩)
            else pure []
          return listed.flatten ++ dots.flatten
termination_by (depth, components.length)

def files (base : Path) (pattern : List Char) : Action m (List Path) := do
  match Pattern.parse (base / ⟨pattern⟩).chars with
  | .error fault => throw (.badPattern pattern fault)
  | .ok pat =>
    let depth ← (Host.deepest : m Nat)
    let start : Path := if pat.absolute then ⟨['/']⟩ else ⟨['.']⟩
    let found ← (expandFrom (depth + 2 * pat.components.length) pat.components start : m _)
    let kept ← (found.filterM fun p => Host.isFile p : m _)
    let seen := if pat.wantsDirectory then [] else kept.map fun p => p.relativeTo base
    return dedup (seen.mergeSort Path.le)
where
  dedup : List Path → List Path
    | a :: b :: r => if a.same b then dedup (a :: r) else a :: dedup (b :: r)
    | l => l
  termination_by l => l.length

end CBuild.Glob
