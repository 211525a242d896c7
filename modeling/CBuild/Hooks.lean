import CBuild.Command

/-! Running the shell commands of a project. -/

namespace CBuild

inductive HookSet
  | all
  | before
  | after
  | seq
  | misc
deriving DecidableEq

namespace HookSet

def name : HookSet → String
  | all => "all"
  | before => "before"
  | after => "after"
  | seq => "seq"
  | misc => "misc"

def every : List HookSet :=
  [all, before, after, seq, misc]

def ofName? (s : String) : Option HookSet :=
  every.find? fun h => h.name.toList = s.toList.map Char.toLower

def unknownMessage (s : String) : String :=
  "invalid hook set '" ++ s ++ "'; expected one of: " ++ ", ".intercalate (every.map name)

def select (h : ShellHooks) : HookSet → List String
  | all => h.before ++ h.after ++ h.misc
  | before => h.before
  | after => h.after
  | seq => h.before ++ h.after
  | misc => h.misc

end HookSet

namespace Hooks

variable {m : Type → Type} [Monad m] [Host m]

/-- Runs the commands one after the other in a directory, whatever becomes of each, and counts those that
fail. -/
def run (directory : Path) : List String → Action m Nat
  | [] => return 0
  | line :: rest => do
    (Host.log .info ("$ " ++ line) : m Unit)
    let i := (Command.shell line).invocation directory
    let status ← Action.attempt .execute i.program (Host.start i)
    if !status.success then
      (Host.log .warn ("`" ++ line ++ "` exited with " ++ status.describe) : m Unit)
    return (if status.success then 0 else 1) + (← run directory rest)

end Hooks
end CBuild
