import CBuild.Hooks
import CBuild.Manifest.Lists
import CBuild.Manifest.Template
import CBuild.Source.Discovery

/-! What can be done with a project: its configuration made, read and refreshed, its sources found, and its
program built and run. A project is named by its root directory; paths in its configuration start there. -/

namespace CBuild

namespace Manifest

variable {m : Type → Type} [Monad m] [Host m]

def checkExtension (p : Path) : Action m Unit := do
  if p.extension? ≠ some "toml".toList then throw (.notTomlFile p)

def load (p : Path) : Action m Manifest := do
  checkExtension p
  if !(← (Host.exists? p : m Bool)) then throw (.configMissing p)
  match parse (← Files.readText p) with
  | .ok c => return c
  | .error e => throw (.badConfig p e)

def save (c : Manifest) (p : Path) : Action m Unit := do
  checkExtension p
  Files.writeText p c.render

def projectName (name : Option String) (config : Path) : String :=
  match name with
  | some n => n
  | none =>
    match config.parent?.bind Path.fileName? with
    | some n => String.ofList n
    | none => ({} : Manifest).name

def init (p : Path) (name compiler : Option String) : Action m Manifest := do
  if ← (Host.exists? p : m Bool) then throw (.configExists p)
  let fresh : Manifest := {}
  let c := { fresh with
    name := projectName name p
    compiler := compiler.getD fresh.compiler }
  c.save p
  (Host.log .debug ("created config file " ++ p.toString) : m Unit)
  return c

/-- How a configuration is refreshed: its values put into the template again, or all of it made anew. -/
inductive UpdateMode
  | restructure
  | recreate
deriving DecidableEq

def update (p : Path) : UpdateMode → Action m Manifest
  | .recreate => do
    (Host.log .debug ("recreating config file " ++ p.toString) : m Unit)
    Files.removeIfExists p
    init p none none
  | .restructure => do
    (Host.log .debug ("restructuring config file " ++ p.toString) : m Unit)
    let c ← load p
    c.save p
    return c

end Manifest

structure Project where
  root : Path
deriving DecidableEq

namespace Project

def resolve (pr : Project) (p : Path) : Path :=
  pr.root / p

def configPath (pr : Project) (config : Option Path) : Path :=
  pr.resolve (config.getD (Path.ofString Manifest.defaultFile))

variable {m : Type → Type} [Monad m] [Host m]

/-- Puts what is found from an entry point into the lists of the configuration, and writes the text to
`output` or back. Gives what was found and the path written. -/
def generate (pr : Project) (config entry : Path) (output : Option Path) :
    Action m (Source.Discovery × Path) := do
  let _ ← Manifest.load config
  let found ← Source.discover pr.root entry
  let content ← Files.readText config
  let lists := [("includes", found.includes), ("files", found.files)].map fun (key, values) =>
    (key.toList, values.map String.toList)
  match replaceLists? content.toList lists with
  | none => throw .badDocument
  | some text =>
    let target := (output.map pr.resolve).getD config
    Files.writeText target (String.ofList text)
    return (found, target)

/-- Runs the compiler once. With hooks, the commands before it run first whatever becomes of them, and those
after it when it has succeeded. Gives the command and the path of the program built. -/
def build (pr : Project) (c : Manifest) (withHooks : Bool) : Action m (Command × Path) := do
  if withHooks then
    let _ ← Hooks.run pr.root (HookSet.before.select c.shell)
  let command ← Command.compose c pr.root
  if !(← (Host.findsProgram c.compiler : m Bool)) then throw (.compilerMissing c.compiler)
  (Host.log .info ("Building " ++ c.name) : m Unit)
  (Host.log .debug command.pretty : m Unit)
  let i := command.invocation pr.root
  let status ← Action.attempt .execute i.program (Host.start i)
  if !status.success then throw (.buildFailed command.display status)
  if withHooks then
    let _ ← Hooks.run pr.root (HookSet.after.select c.shell)
  return (command, pr.resolve (Path.ofString c.output))

def run (pr : Project) (c : Manifest) (args : List String) : Action m ExitStatus := do
  let program := pr.resolve (Path.ofString c.output)
  if !(← (Host.exists? program : m Bool)) then throw (.notBuilt c.output)
  (Host.log .info ("Running " ++ c.name) : m Unit)
  Action.attempt .execute program (Host.start ⟨program, args, pr.root⟩)

def runShell (pr : Project) (c : Manifest) (which : HookSet) : Action m Nat := do
  if which.select c.shell = [] then
    (Host.log .debug ("no `" ++ which.name ++ "` shell commands configured") : m Unit)
  Hooks.run pr.root (which.select c.shell)

end Project
end CBuild
