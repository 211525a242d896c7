import CBuild.Path

/-! The way from one path to another, found from the spellings alone. -/

namespace CBuild.Path

/-- The components that lead from `base` to `target`, where `moved` says that some already did. Equal
components are passed until the first move. A `..` in the base that the target does not share leads
nowhere that the spellings know of. -/
def steps (moved : Bool) : (target base : List Component) → Option (List Component)
  | [], [] => some []
  | target, [] => some target
  | [], _ :: base => (steps true [] base).map (.parent :: ·)
  | c :: target, b :: base =>
    if !moved && c = b then steps false target base
    else if b = .current then (steps true target base).map (c :: ·)
    else if b = .parent then none
    else some (.parent :: base.map (fun _ => .parent) ++ c :: target)

/-- `p` as seen from `base`, or `p` itself where no way is known. -/
def relativeTo (p base : Path) : Path :=
  if p.isAbsolute = base.isAbsolute then
    match steps false p.components base.components with
    | some cs => ofComponents cs
    | none => p
  else p

end CBuild.Path
