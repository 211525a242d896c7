import CBuild.Cli.Perform

/-! The program: the command line carried out on the real system, as far as it is open to us. Files are read,
made and removed. Other programs are not started; asking for one is refused. -/

namespace CBuild

abbrev Terminal := ReaderT Bool IO

namespace Terminal

def reasonOf : IO.Error → OsError
  | .noFileOrDirectory .. => .notFound
  | .permissionDenied .. => .permissionDenied
  | .alreadyExists .. => .alreadyExists
  | .inappropriateType _ code _ => if code = 20 then .notADirectory else .isADirectory
  | _ => .notSupported

def asked (p : Path) (request : IO α) : Terminal (Except OsError α) :=
  if p.chars = [] then return .error .notFound
  else if p.chars.contains '\x00' then return .error .invalidName
  else do
    match ← request.toBaseIO with
    | .ok a => return .ok a
    | .error e => return .error (reasonOf e)

def typeOf (p : Path) : Terminal (Option IO.FS.FileType) := do
  let here ← IO.currentDir
  return ((← asked p (here / p.toString).metadata).toOption.map fun d => d.type)

def kindOf? (p : Path) : Terminal (Option FileKind) := do
  match ← typeOf p with
  | some .dir => return some .directory
  | some .file => return some .file
  | some _ => return some .other
  | none => return none

def entryKindOf? (e : IO.FS.DirEntry) : Terminal (Option EntryKind) := do
  match ← e.path.symlinkMetadata.toBaseIO with
  | .error _ => return none
  | .ok d =>
    match d.type with
    | .file => return some .file
    | .dir => return some .directory
    | .symlink => return some .link
    | .other => return some .other

instance : Host Terminal where
  kind? := kindOf?
  namesIn p := do
    let here ← IO.currentDir
    let entries ← asked p (here / p.toString).readDir
    return entries.map fun es => (es.toList.map fun e => e.fileName.toList)
  entriesIn p := do
    let here ← IO.currentDir
    match ← asked p (here / p.toString).readDir with
    | .error e => return .error e
    | .ok es => return .ok (← es.toList.filterMapM fun e => do
        return (← entryKindOf? e).map fun kind => (e.fileName.toList, kind))
  deepest := return 4096
  readBytes p := do return (← asked p (IO.FS.readBinFile p.toString)).map fun b => b.data.toList
  writeBytes p b := asked p (IO.FS.writeBinFile p.toString ⟨b.toArray⟩)
  makeDirectory p := asked p (IO.FS.createDir p.toString)
  removeFile p := asked p (IO.FS.removeFile p.toString)
  isExecutable p := do return (← kindOf? p) = some .file
  programDirectories := do
    let path ← IO.getEnv "PATH"
    return ((path.getD "").splitOn ":").map Path.ofString
  start _ := return .error .notSupported
  log level s := do
    if (← read) || level ≠ .debug then IO.eprint (level.line s)
  workingDirectory := do return Path.ofString (← IO.currentDir).toString
  print s := IO.print s
  tell s := IO.eprint s

end Terminal
end CBuild

open CBuild in
def main (args : List String) : IO UInt32 := do
  let request := Cli.read (← IO.getEnv "PMK_CONFIG") args
  let verbose := match request with
    | .ok (v, _) => v
    | .error _ => false
  let code ← (Cli.execute request : Terminal Nat).run verbose
  return code.toUInt32
