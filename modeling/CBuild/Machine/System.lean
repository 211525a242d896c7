import CBuild.Files
import CBuild.Machine.Host
import CBuild.Shell.Evaluate

/-! Machines with a shell and the usual utilities, and what they are set up and compared by. -/

namespace CBuild

namespace Machine

def environment : List (List Char × List Char) :=
  [("HOME", "/root"), ("PATH", "/usr/local/sbin:/usr/local/bin:/usr/sbin:/usr/bin:/sbin:/bin")].map
    fun (n, v) => (n.toList, v.toList)

def utilities (program : String) (args : List (List Char)) (s : State) : ExitStatus × State :=
  let p : Process := { machine := { toState := s }, environment := environment }
  let (ending, q) := (Process.child ((Shell.engine Shell.depth).start program args)).run p
  let status := match ending with
    | .code n => ExitStatus.code n
    | .killed _ n => ExitStatus.signal n
  (status, q.machine.toState)

/-- A machine with nothing but its own programs, working in a fresh directory. -/
def standard (here : List Char) : Machine :=
  let location (l : List String) : Location := l.map String.toList
  let directories := [["dev"], ["root"], ["tmp"], ["usr"], ["usr", "bin"], ["usr", "sbin"], ["usr", "local"],
    ["usr", "local", "bin"], ["usr", "local", "sbin"]]
  let links := [(["bin"], "usr/bin"), (["sbin"], "usr/sbin"), (["usr", "bin", "sh"], "dash")]
  let names := ["dash", "bash"] ++ Utility.launchers.map Prod.fst ++ Utility.programs.map Prod.fst
  let here := ["tmp".toList, here]
  { tree := FileTree.ofEntries
      (directories.map (fun l => (location l, .directory)) ++
        links.map (fun (l, t) => (location l, .link (Path.ofString t))) ++
        names.map (fun n => (location ["usr", "bin", n], .file (Image.bytesOf n) true)) ++
        [(FileTree.nowhere, .file [] false), (here, .directory)])
    here := here
    programs := utilities }

def place (p : Path) (e : TreeEntry) : StateM Machine (Except OsError Unit) := do
  match e with
  | .directory => Files.makeAll p.ancestors
  | .file b x =>
    match ← makeParent p with
    | .error e => return .error e
    | .ok _ =>
      change fun m => do
        let t ← m.tree.writeFile m.here p b
        if x then t.setExecutable m.here p true else return t
  | .link target =>
    match ← makeParent p with
    | .error e => return .error e
    | .ok _ =>
      change fun m =>
        ((m.tree.removeAll m.here p).toOption.getD m.tree).makeLink m.here p target
where
  makeParent (p : Path) : StateM Machine (Except OsError Unit) :=
    match p.parent? with
    | some d => if d.chars = [] then return .ok () else Files.makeAll d.ancestors
    | none => return .ok ()

def remove (p : Path) : StateM Machine (Except OsError Unit) :=
  change fun m => m.tree.removeAll m.here p

def entryName (l : Location) (e : TreeEntry) : List Char :=
  ['/'].intercalate l ++ (if e = .directory then ['/'] else [])

def entries (m : Machine) : List (List Char × TreeEntry) :=
  (m.tree.below m.here).map fun (l, e) => (entryName l e, e)

def changed (m n : Machine) : List (List Char × TreeEntry) :=
  n.entries.filter fun x => !m.entries.contains x

def removed (m n : Machine) : List (List Char) :=
  ((m.entries.map Prod.fst).filter fun x => !(n.entries.map Prod.fst).contains x).mergeSort
    fun a b => (compare (String.ofList a) (String.ofList b)).isLE

end Machine
end CBuild
