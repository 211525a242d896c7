import CBuild.Cli.Arguments
import CBuild.Project

/-! What a command line asks for. -/

namespace CBuild.Cli

inductive Request
  | init (config : Option Path) (name compiler : Option String)
  | build (config : Option Path) (withHooks : Bool)
  | run (config : Option Path) (buildFirst : Bool) (args : List String)
  | generate (config : Option Path) (entry : Path) (output : Option Path) (asJson : Bool)
  | update (config : Option Path) (mode : Manifest.UpdateMode)
  | shell (config : Option Path) (which : HookSet)
  | version
deriving DecidableEq

/-- A command line that asks for no work: it is wrong, or asks about the program. -/
inductive Refusal
  | usage
  | help
  | programVersion
deriving DecidableEq

def helpFlag : Known := ⟨"help", some 'h', false⟩

def verboseFlag : Known := ⟨"verbose", some 'v', false⟩

def configOption : Known := ⟨"config", some 'c', true⟩

structure Form where
  options : List Known
  admits : List String → String → Bool := fun _ _ => false
  takesRest : Bool := false

namespace Form

def front : Form :=
  { options := [helpFlag, verboseFlag, ⟨"version", some 'V', false⟩] }

def ofOptions (known : List Known) : Form :=
  { options := helpFlag :: verboseFlag :: known }

def ofName? : String → Option Form
  | "init" => some (ofOptions [configOption, ⟨"name", none, true⟩, ⟨"compiler", none, true⟩])
  | "build" => some (ofOptions [configOption, ⟨"shell", some 's', false⟩])
  | "run" =>
    some { ofOptions [configOption, ⟨"build", some 'b', false⟩] with takesRest := true }
  | "generate" | "aigenerate" =>
    some { ofOptions [configOption, ⟨"output", some 'o', true⟩, ⟨"json", none, false⟩] with
      admits := fun before v => before = [] && v ≠ "" }
  | "update" => some (ofOptions [configOption, ⟨"new", some 'n', false⟩])
  | "shell" =>
    some { ofOptions [configOption] with
      admits := fun before v => before = [] && (HookSet.ofName? v).isSome }
  | "version" => some (ofOptions [])
  | _ => none

end Form

structure Given where
  flags : List String := []
  values : List (String × String) := []
  operands : List String := []
  rest : List String := []
deriving DecidableEq

namespace Given

def addOperand (form : Form) (g : Given) (v : String) : Except Refusal Given :=
  if form.admits g.operands v then .ok { g with operands := g.operands ++ [v] } else .error .usage

def add (form : Form) (g : Given) : Item → Except Refusal Given
  | .flag "help" => .error .help
  | .flag "version" => .error .programVersion
  | .flag w => if g.flags.contains w then .error .usage else .ok { g with flags := g.flags ++ [w] }
  | .value w v =>
    if (g.values.lookup w).isSome || v = "" && (w = "config" || w = "output") then .error .usage
    else .ok { g with values := g.values ++ [(w, v)] }
  | .operand v => addOperand form g v
  | .trailing v => if form.takesRest then .ok { g with rest := g.rest ++ [v] } else addOperand form g v
  | .mistake => .error .usage

def ofArgs (form : Form) (args : List String) : Except Refusal Given :=
  (items form.options args).foldlM (add form) {}

def has (g : Given) (word : String) : Bool :=
  g.flags.contains word

def path? (g : Given) (word : String) : Option Path :=
  (g.values.lookup word).map Path.ofString

end Given

/-- The request of a command with what it is given. The environment may name the configuration where the
command line does not, and must not leave it empty. -/
def requestOf (environment : Option String) (command : String) (g : Given) : Except Refusal Request := do
  let config ← match g.path? "config" with
    | some p => pure (some p)
    | none =>
      if command ≠ "version" && environment = some "" then throw .usage
      else pure (environment.map Path.ofString)
  match command with
  | "init" => return .init config (g.values.lookup "name") (g.values.lookup "compiler")
  | "build" => return .build config (g.has "shell")
  | "run" => return .run config (g.has "build") g.rest
  | "update" => return .update config (if g.has "new" then .recreate else .restructure)
  | "shell" => return .shell config ((g.operands.head?.bind HookSet.ofName?).getD .all)
  | "version" => return .version
  | _ =>
    match g.operands with
    | [] => throw .usage
    | e :: _ => return .generate config (Path.ofString e) (g.path? "output") (g.has "json")

/-- The words that help can be asked for. Only one may be given. -/
def topics : List String :=
  ["init", "build", "run", "generate", "aigenerate", "update", "shell", "version", "completions", "help"]

def help (asked : List String) : Refusal :=
  match asked with
  | [] => .help
  | [topic] => if topics.contains topic then .help else .usage
  | _ => .usage

def read (environment : Option String) (args : List String) : Except Refusal (Bool × Request) := do
  let front := args.takeWhile looksLikeOption
  let g ← Given.ofArgs .front front
  if front.contains "--" then throw .usage
  match args.drop front.length with
  | [] => throw .usage
  | "help" :: asked => throw (help asked)
  | command :: rest =>
    match Form.ofName? command with
    | none => throw .usage
    | some form =>
      let inner ← Given.ofArgs form rest
      return (g.has "verbose" || inner.has "verbose", ← requestOf environment command inner)

end CBuild.Cli
