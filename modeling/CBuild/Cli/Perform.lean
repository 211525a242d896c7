import CBuild.Cli.Request

/-! Doing what a command line asks for, and saying so. -/

namespace CBuild

namespace Source.Discovery

def quotedChar (c : Char) : List Char :=
  if c = '"' then ['\\', '"']
  else if c = '\\' then ['\\', '\\']
  else if c = '\n' then ['\\', 'n']
  else if c = '\r' then ['\\', 'r']
  else if c = '\t' then ['\\', 't']
  else if c = '\x08' then ['\\', 'b']
  else if c = '\x0c' then ['\\', 'f']
  else if c.val < 0x20 then "\\u".toList ++ (Nat.toDigits 16 (c.toNat + 0x10000)).drop 1
  else [c]

def quoted (s : String) : String :=
  "\"" ++ String.ofList (s.toList.flatMap quotedChar) ++ "\""

def listText (values : List String) : String :=
  match values with
  | [] => "[]"
  | vs => "[\n" ++ ",\n".intercalate (vs.map fun v => "    " ++ quoted v) ++ "\n  ]"

def json (d : Discovery) : String :=
  "\x7b\n  \"includes\": " ++ listText d.includes ++ ",\n  \"files\": " ++ listText d.files ++ "\n\x7d"

end Source.Discovery

namespace Cli

variable {m : Type → Type} [Monad m] [Host m]

def programName : String := "pmk"

def programVersion : String := "0.2.0"

def say (s : String) : Action m Unit :=
  (Host.tell (s ++ "\n") : m Unit)

def perform (pr : Project) : Request → Action m Unit
  | .init config name compiler => do
    let p := pr.configPath config
    let c ← Manifest.init p name compiler
    say ("     Created config for `" ++ c.name ++ "` at " ++ p.toString)
  | .build config withHooks => do
    let c ← Manifest.load (pr.configPath config)
    let (_, output) ← pr.build c withHooks
    say ("    Finished `" ++ c.name ++ "` -> " ++ output.toString)
  | .run config buildFirst args => do
    let c ← Manifest.load (pr.configPath config)
    if buildFirst then discard (pr.build c false)
    let status ← pr.run c args
    if !status.success then throw (.programFailed c.output status)
  | .generate config entry output asJson => do
    if asJson then
      let found ← Source.discover pr.root entry
      (Host.print (found.json ++ "\n") : m Unit)
    else
      let (found, written) ← pr.generate (pr.configPath config) entry output
      say ("     Updated " ++ written.toString ++ " (" ++ toString found.includes.length ++
        " include dirs, " ++ toString found.files.length ++ " files)")
  | .update config mode => do
    let p := pr.configPath config
    let _ ← Manifest.update p mode
    say ("     " ++ (if mode = .recreate then "Recreated " else "Updated ") ++ p.toString)
  | .shell config which => do
    let c ← Manifest.load (pr.configPath config)
    let failed ← pr.runShell c which
    if failed > 0 then say ("warning: " ++ toString failed ++ " shell command(s) failed")
  | .version => (Host.print (programVersion ++ "\n") : m Unit)

def usageText : String :=
  "Usage: " ++ programName ++ " [-v] <command> [options]\n\nCommands: " ++
    ", ".intercalate ["init", "build", "run", "generate", "update", "shell", "version"] ++ "\n"

/-- Carries a command line out in the directory of the process, and gives the exit code. -/
def execute (request : Except Refusal (Bool × Request)) : m Nat := do
  match request with
  | .error .usage =>
    Host.tell usageText
    return 2
  | .error .help =>
    Host.print usageText
    return 0
  | .error .programVersion =>
    Host.print (programName ++ " " ++ programVersion ++ "\n")
    return 0
  | .ok (_, r) =>
    match ← (perform ⟨← Host.workingDirectory⟩ r : Action m Unit).run with
    | .ok _ => return 0
    | .error f =>
      Host.tell ("error: " ++ f.report ++ "\n")
      return 1

end Cli
end CBuild
