import CBuild.Files
import CBuild.Utility.Arguments

/-! Programs that make, move and take away files. -/

namespace CBuild.Utility

def lastName (a : List Char) : List Char :=
  let s := (a.reverse.dropWhile (· = '/')).reverse
  if s = [] then a.take 1 else (s.reverse.takeWhile (· ≠ '/')).reverse

def withoutLast (a : List Char) : List Char :=
  let s := (a.reverse.dropWhile (· = '/'))
  let above := s.dropWhile (· ≠ '/')
  if s = [] then (if a = [] then ['.'] else ['/'])
  else if above = [] then ['.']
  else
    match above.dropWhile (· = '/') with
    | [] => ['/']
    | r => r.reverse

def entryAt? (p : Process) (a : List Char) : Except OsError (Location × TreeEntry) := do
  match ← p.tree.place p.here ⟨a⟩ false with
  | .found l =>
    match p.tree.get? l with
    | some e => return (l, e)
    | none => throw .notFound
  | .free _ _ _ => throw .notFound

def isDirectory (p : Process) (a : List Char) : Bool :=
  match p.tree.find p.here ⟨a⟩ with
  | .ok (_, .directory) => true
  | _ => false

def inDirectory (d name : List Char) : List Char :=
  if d.getLast? = some '/' then d ++ name else d ++ '/' :: name

def touch : String × Program :=
  program "touch" (known "acfhm" "drt" [("no-create", 'c'), ("date", 'd'), ("reference", 'r')]) fun g => do
    if g.operands = [] then return (← missingOperand "touch" "file operand")
    each g.operands fun a =>
      change ("touch: cannot touch " ++ quoted a) fun p =>
        match p.tree.openFile p.here ⟨a⟩ (!g.has 'c') false with
        | .ok (t, _) => .ok t
        | .error .isADirectory => if isDirectory p a then .ok p.tree else .error .notFound
        | .error .notFound => if g.has 'c' then .ok p.tree else .error .notFound
        | .error e => .error e

def rm : String × Program :=
  program "rm" (known "dfiIrRv" "" [("recursive", 'r'), ("force", 'f'), ("dir", 'd'), ("verbose", 'v')]) fun g => do
    if g.operands = [] then
      return ← if g.has 'f' then pure 0 else missingOperand "rm" "operand"
    let isDeep := g.has 'r' || g.has 'R'
    each g.operands fun a => do
      let p ← get
      let told (isDirectory : Bool) : StateM Process Unit :=
        if g.has 'v' then
          sayLine ("removed ".toList ++ (if isDirectory then "directory ".toList else []) ++ (quoted a).toList)
        else return
      match entryAt? p a with
      | .error x =>
        if g.has 'f' && (x = .notFound || x = .notADirectory) then return 0
        refuseFor ("rm: cannot remove " ++ quoted a) x 1
      | .ok (l, .directory) =>
        if !isDeep && !g.has 'd' then return (← refuseFor ("rm: cannot remove " ++ quoted a) .isADirectory 1)
        if lastName a = ['.'] || lastName a = ['.', '.'] then
          return (← refuse ("rm: refusing to remove '.' or '..' directory: skipping " ++ quoted a) 1)
        if !isDeep && p.tree.namesIn l ≠ [] then
          return (← refuse ("rm: cannot remove " ++ quoted a ++ ": Directory not empty") 1)
        set (p.withTree (p.tree.prune l))
        told true
        return 0
      | .ok (l, _) =>
        set (p.withTree (p.tree.prune l))
        told false
        return 0

def makeAll (p : Process) (a : List Char) : Except OsError (FileTree × List (List Char)) :=
  (Path.ancestors ⟨a⟩).reverse.foldlM (fun (t, made) q =>
    if q.chars = [] then .ok (t, made)
    else
      match t.makeDirectory p.here q with
      | .error .alreadyExists =>
        match t.find p.here q with
        | .ok (_, .directory) => .ok (t, made)
        | _ => .error (if q.chars = a then .alreadyExists else .notADirectory)
      | .error x => .error x
      | .ok t => .ok (t, made ++ [q.chars])) (p.tree, [])

def mkdir : String × Program :=
  program "mkdir" (known "pv" "m" [("parents", 'p'), ("mode", 'm'), ("verbose", 'v')]) fun g => do
    if g.operands = [] then return (← missingOperand "mkdir" "operand")
    each g.operands fun a => do
      let p ← get
      let result := if g.has 'p' then makeAll p a
        else (p.tree.makeDirectory p.here ⟨a⟩).map fun t => (t, [a])
      match result with
      | .error x => refuseFor ("mkdir: cannot create directory " ++ quoted a) x 1
      | .ok (t, made) =>
        set (p.withTree t)
        if g.has 'v' then
          made.forM fun d => sayLine ("mkdir: created directory ".toList ++ (quoted d).toList)
        return 0

def rmdir : String × Program :=
  program "rmdir" (known "pv" "" [("parents", 'p'), ("verbose", 'v')]) fun g => do
    if g.operands = [] then return (← missingOperand "rmdir" "operand")
    let removeOne (a : List Char) : StateM Process Nat := do
      let p ← get
      let what := "rmdir: failed to remove " ++ quoted a
      match entryAt? p a with
      | .ok (l, .directory) =>
        if p.tree.namesIn l ≠ [] then return (← refuse (what ++ ": Directory not empty") 1)
        set (p.withTree (p.tree.prune l))
        return 0
      | .ok _ => refuseFor what .notADirectory 1
      | .error x => refuseFor what x 1
    each g.operands fun a => do
      let paths := if g.has 'p' then ((Path.ancestors ⟨a⟩).map Path.chars).filter (· ≠ []) else [a]
      let mut status := 0
      for q in paths do
        if status = 0 then status ← removeOne q
      return status

/-- The entries at a location and below it, each with where it is from there. -/
def subtree (t : FileTree) (l : Location) : List (Location × TreeEntry) :=
  (t.entries.filterMap fun (k, e) =>
    if l.isPrefixOf k then some (k.drop l.length, e) else none).mergeSort
      fun a b => a.1.length ≤ b.1.length

def plant (t : FileTree) (l : Location) (es : List (Location × TreeEntry)) : Except OsError FileTree :=
  es.foldlM (fun t (k, e) =>
    match e, t.get? (l ++ k) with
    | .directory, some .directory => .ok t
    | .directory, some _ => .error .notADirectory
    | e, _ => t.set (l ++ k) e) t

def locationFor (p : Process) (a : List Char) (follow : Bool) : Except OsError Location := do
  match ← p.tree.place p.here (FileTree.withoutEndSlashes ⟨a⟩) follow with
  | .found l => return l
  | .free d n _ => return d ++ [n]

/-- Sources and where each goes: into a directory, or under the name given. -/
def destinations (name : String) (g : Given) :
    StateM Process (Except Nat (List (List Char × List Char))) := do
  let p ← get
  let into (d : List Char) (sources : List (List Char)) : List (List Char × List Char) :=
    sources.map fun a => (a, inDirectory d (lastName a))
  match g.value? 't', g.operands.reverse with
  | some d, _ => return .ok (into d g.operands)
  | none, [] => return .error (← missingOperand name "file operand")
  | none, [a] =>
    Process.complain (name ++ ": missing destination file operand after " ++ quoted a)
    return .error (← refuse ("Try '" ++ name ++ " --help' for more information.") 1)
  | none, target :: sources =>
    let sources := sources.reverse
    if !g.has 'T' && isDirectory p target then return .ok (into target sources)
    match sources with
    | [a] => return .ok [(a, target)]
    | _ =>
      let x : OsError := match p.tree.find p.here ⟨target⟩ with
        | .error x => x
        | .ok _ => .notADirectory
      return .error (← refuseFor (name ++ ": target " ++ quoted target) x 1)

def copyOne (deep keepsLinks : Bool) (a b : List Char) : StateM Process Nat := do
  let p ← get
  let source := if keepsLinks then entryAt? p a else p.tree.find p.here ⟨a⟩
  match source with
  | .error x => refuseFor ("cp: cannot stat " ++ quoted a) x 1
  | .ok (l, e) =>
    if e = .directory && !deep then
      return (← refuse ("cp: -r not specified; omitting directory " ++ quoted a) 1)
    match locationFor p b true with
    | .error x => refuseFor ("cp: cannot create regular file " ++ quoted b) x 1
    | .ok k =>
      if k = l then return (← refuse ("cp: " ++ quoted a ++ " and " ++ quoted b ++ " are the same file") 1)
      match e, p.tree.get? k with
      | .directory, some .directory | .directory, none =>
        if l.isPrefixOf k then
          return (← refuse ("cp: cannot copy a directory, " ++ quoted a ++ ", into itself, " ++ quoted b) 1)
        change ("cp: cannot create directory " ++ quoted b) fun p => plant p.tree k (subtree p.tree l)
      | .directory, some _ =>
        refuse ("cp: cannot overwrite non-directory " ++ quoted b ++ " with directory " ++ quoted a) 1
      | .file content _, some (.file _ x) =>
        change ("cp: cannot create regular file " ++ quoted b) fun p => p.tree.set k (.file content x)
      | e, some .directory =>
        if e = .directory then return 0
        refuse ("cp: cannot overwrite directory " ++ quoted b ++ " with non-directory") 1
      | e, _ =>
        if b.getLast? = some '/' then
          return (← refuseFor ("cp: cannot create regular file " ++ quoted b) .notADirectory 1)
        change ("cp: cannot create regular file " ++ quoted b) fun p => p.tree.set k e

def longForFiles : List (String × Char) :=
  [("recursive", 'r'), ("archive", 'a'), ("force", 'f'), ("verbose", 'v'), ("no-clobber", 'n'),
    ("update", 'u'), ("target-directory", 't'), ("no-target-directory", 'T'), ("symbolic", 's'),
    ("interactive", 'i'), ("no-dereference", 'P'), ("dereference", 'L'), ("preserve", 'p')]

def cp : String × Program :=
  program "cp" (known "abdfHilLnpPrRTuvxs" "t" longForFiles) fun g => do
    match ← destinations "cp" g with
    | .error status => return status
    | .ok pairs =>
      let deep := g.has 'r' || g.has 'R' || g.has 'a'
      let keepsLinks := match g.last? ['L', 'P', 'd', 'a', 'H'] with
        | some c => c ≠ 'L' && c ≠ 'H'
        | none => deep
      let statuses ← pairs.mapM fun (a, b) => do
        let isThere := (entryAt? (← get) b).toOption.isSome
        if g.has 'n' && isThere then return 0
        let status ← copyOne deep keepsLinks a b
        if status = 0 && g.has 'v' then sayLine ((quoted a).toList ++ " -> ".toList ++ (quoted b).toList)
        return status
      return statuses.foldl max 0

def moveOne (a b : List Char) : StateM Process Nat := do
  let p ← get
  match entryAt? p a with
  | .error x => refuseFor ("mv: cannot stat " ++ quoted a) x 1
  | .ok (l, e) =>
    let what := "mv: cannot move " ++ quoted a ++ " to " ++ quoted b
    match locationFor p b false with
    | .error x => refuseFor what x 1
    | .ok k =>
      if k = l then return (← refuse ("mv: " ++ quoted a ++ " and " ++ quoted b ++ " are the same file") 1)
      if l.isPrefixOf k then
        return (← refuse ("mv: cannot move " ++ quoted a ++ " to a subdirectory of itself, " ++ quoted b) 1)
      let there := p.tree.get? k
      if there = some .directory && e ≠ .directory then
        return (← refuse ("mv: cannot overwrite directory " ++ quoted b ++ " with non-directory " ++ quoted a) 1)
      if e = .directory && there.isSome && there ≠ some .directory then
        return (← refuse ("mv: cannot overwrite non-directory " ++ quoted b ++ " with directory " ++ quoted a) 1)
      if there = some .directory && p.tree.namesIn k ≠ [] then
        return (← refuse (what ++ ": Directory not empty") 1)
      if there.isNone && e ≠ .directory && b.getLast? = some '/' then
        return (← refuseFor what .notADirectory 1)
      change what fun p => plant ((p.tree.prune k).prune l) k (subtree p.tree l)

def mv : String × Program :=
  program "mv" (known "bfinTuv" "tS" longForFiles) fun g => do
    match ← destinations "mv" g with
    | .error status => return status
    | .ok pairs =>
      let statuses ← pairs.mapM fun (a, b) => do
        let isThere := (entryAt? (← get) b).toOption.isSome
        if g.has 'n' && isThere then return 0
        let status ← moveOne a b
        if status = 0 && g.has 'v' then
          sayLine ("renamed ".toList ++ (quoted a).toList ++ " -> ".toList ++ (quoted b).toList)
        return status
      return statuses.foldl max 0

def ln : String × Program :=
  program "ln" (known "finsTvrLP" "t" longForFiles) fun g => do
    let g := match g.operands with
      | [a] => if (g.value? 't').isNone then { g with operands := [a, ['.']] } else g
      | _ => g
    let p ← get
    -- Without following it, a link to a directory is a name like any other.
    let isName := g.has 'n' && match g.operands.getLast? with
      | some b => match entryAt? p b with
        | .ok (_, .link _) => true
        | _ => false
      | none => false
    match ← destinations "ln" (if isName then g.add 'T' [] else g) with
    | .error status => return status
    | .ok pairs =>
      let statuses ← pairs.mapM fun (a, b) => do
        let kind := if g.has 's' then "symbolic" else "hard"
        let what := "ln: failed to create " ++ kind ++ " link " ++ quoted b
        let p ← get
        let entry : Except OsError TreeEntry :=
          if g.has 's' then .ok (.link ⟨a⟩) else (entryAt? p a).map Prod.snd
        match entry with
        | .error x => refuseFor ("ln: failed to access " ++ quoted a) x 1
        | .ok .directory => refuse ("ln: " ++ String.ofList a ++ ": hard link not allowed for directory") 1
        | .ok e =>
          change what fun p => do
            match p.tree.place p.here ⟨b⟩ false with
            | .error x => throw x
            | .ok (.free d n _) => p.tree.set (d ++ [n]) e
            | .ok (.found k) =>
              if g.has 'f' && !p.tree.IsDirectory k then p.tree.set k e else throw .alreadyExists
      return statuses.foldl max 0

def clause? (bits : Nat) (s : List Char) : Option Nat :=
  let who := s.takeWhile fun c => "ugoa".toList.contains c
  let everyone := who = [] || who.contains 'a'
  let reach := (if everyone || who.contains 'u' then 4 else 0) +
    (if everyone || who.contains 'g' then 2 else 0) + (if everyone || who.contains 'o' then 1 else 0)
  match s.drop who.length with
  | op :: permissions =>
    if !permissions.all fun c => "rwxXst".toList.contains c then none
    else
      let named := permissions.contains 'x' || permissions.contains 'X' && bits ≠ 0
      match op with
      | '+' => some (if named then bits ||| reach else bits)
      | '-' => some (if named then bits &&& (7 - reach) else bits)
      | '=' => some ((bits &&& (7 - reach)) ||| (if named then reach else 0))
      | _ => none
  | [] => none

def executableBy? (mode : List Char) (isExecutable : Bool) : Option Bool :=
  if mode ≠ [] && mode.length ≤ 4 && mode.all fun c => '0' ≤ c && c ≤ '7' then
    some ((mode.drop (mode.length - 3)).any fun c => c.toNat % 2 = 1)
  else
    ((mode.splitOn ',').foldlM clause? (if isExecutable then 7 else 0)).map (· ≠ 0)

def chmod : String × Program :=
  ("chmod", fun args => do
    let isOption (a : List Char) : Bool :=
      a.head? = some '-' && a.length > 1 && (a.drop 1).all fun c => "Rvcf-".toList.contains c
    let deep := (args.filter isOption).any (·.contains 'R')
    match args.filter (!isOption ·) with
    | [] => missingOperand "chmod" "operand"
    | [mode] => missingOperand "chmod" ("operand after " ++ quoted mode)
    | mode :: operands =>
      if (executableBy? mode true).isNone then
        Process.complain ("chmod: invalid mode: " ++ quoted mode)
        return (← refuse "Try 'chmod --help' for more information." 1)
      each operands fun a =>
        change ("chmod: cannot access " ++ quoted a) fun p => do
          let (l, _) ← p.tree.find p.here ⟨a⟩
          let targets := if deep then p.tree.entries.filter fun x => l.isPrefixOf x.1
            else p.tree.entries.filter fun x => x.1 = l
          targets.foldlM (fun t (k, e) =>
            match e with
            | .file b x => t.set k (.file b ((executableBy? mode x).getD x))
            | _ => .ok t) p.tree)

def install : String × Program :=
  program "install" (known "bcCdDpsTv" "gmot" [("mode", 'm'), ("directory", 'd'), ("target-directory", 't')])
    fun g => do
      if g.has 'd' then
        return ← each g.operands fun a =>
          change ("install: cannot create directory " ++ quoted a) fun p => (makeAll p a).map Prod.fst
      let x := (executableBy? ((g.value? 'm').getD "755".toList) false).getD true
      let above := match g.value? 't', g.operands.getLast? with
        | some d, _ => d
        | none, some b => withoutLast b
        | none, none => ['.']
      if g.has 'D' then
        discard (change "install: cannot create directory" fun p =>
          (makeAll p above).map Prod.fst)
      match ← destinations "install" g with
      | .error status => return status
      | .ok pairs =>
        let statuses ← pairs.mapM fun (a, b) => do
          let p ← get
          match p.tree.find p.here ⟨a⟩ with
          | .error x => refuseFor ("install: cannot stat " ++ quoted a) x 1
          | .ok (_, .directory) => refuse ("install: omitting directory " ++ quoted a) 1
          | .ok (_, e) =>
            let content := match e with
              | .file c _ => c
              | _ => []
            change ("install: cannot create regular file " ++ quoted b) fun p => do
              p.tree.set (← locationFor p b true) (.file content x)
        return statuses.foldl max 0

def basename : String × Program :=
  program "basename" (known "az" "s" [("suffix", 's'), ("multiple", 'a')]) fun g => do
    let cut (suffix a : List Char) : List Char :=
      if suffix ≠ [] && suffix ≠ a && suffix.isSuffixOf a then a.take (a.length - suffix.length) else a
    match g.operands with
    | [] => missingOperand "basename" "operand"
    | a :: rest =>
      if g.has 'a' || g.has 's' then
        g.operands.forM fun a => sayLine (cut ((g.value? 's').getD []) (lastName a))
        return 0
      else
        match rest with
        | [] | [_] =>
          sayLine (cut (rest.headD []) (lastName a))
          return 0
        | _ :: extra :: _ =>
          Process.complain ("basename: extra operand " ++ quoted extra)
          refuse "Try 'basename --help' for more information." 1

def dirname : String × Program :=
  program "dirname" (known "z" "" []) fun g => do
    if g.operands = [] then return (← missingOperand "dirname" "operand")
    g.operands.forM fun a => sayLine (withoutLast a)
    return 0

def pwd : String × Program :=
  program "pwd" (known "LP" "" []) fun _ => do
    sayLine (Machine.pathOf (← get).here).chars
    return 0

def readlink : String × Program :=
  program "readlink" (known "femnqsv" "" []) fun g =>
    each g.operands fun a => do
      let p ← get
      let say (s : List Char) : StateM Process Nat := do
        Process.say (if g.has 'n' then s else s ++ ['\n'])
        return 0
      if g.has 'f' || g.has 'e' || g.has 'm' then
        match locationFor p a true with
        | .ok l => say (Machine.pathOf l).chars
        | .error _ => return 1
      else
        match entryAt? p a with
        | .ok (_, .link t) => say t.chars
        | _ => return 1

def realpath : String × Program :=
  program "realpath" (known "emqsLPz" "" []) fun g =>
    each g.operands fun a => do
      match locationFor (← get) a true with
      | .ok l =>
        sayLine (Machine.pathOf l).chars
        return 0
      | .error x => refuseFor ("realpath: " ++ String.ofList a) x 1

def listed (g : Given) (t : FileTree) (l : Location) : List (List Char) :=
  let names := t.namesIn l
  let shown := if g.has 'a' then [['.'], ['.', '.']] ++ names
    else if g.has 'A' then names else names.filter (·.head? ≠ some '.')
  let names := sorted shown
  if g.has 'r' then names.reverse else names

def marked (g : Given) (e : Option TreeEntry) (name : List Char) : List Char :=
  match e with
  | some .directory => if g.has 'F' || g.has 'p' then name ++ ['/'] else name
  | some (.file _ true) => if g.has 'F' then name ++ ['*'] else name
  | some (.link _) => if g.has 'F' then name ++ ['@'] else name
  | _ => name

def listDirectory (g : Given) (t : FileTree) : (depth : Nat) → (path : List Char) → Location →
    List (List Char × List (List Char))
  | 0, _, _ => []
  | n + 1, path, l =>
    let names := listed g t l
    let below := if !g.has 'R' then []
      else names.flatMap fun name =>
        if name = ['.'] || name = ['.', '.'] then []
        else if t.get? (l ++ [name]) = some .directory then
          listDirectory g t n (inDirectory path name) (l ++ [name])
        else []
    (path, names.map fun name => marked g (t.get? (l ++ [name])) name) :: below

def ls : String × Program :=
  ("ls", withOptions "ls" (known "1aAdFlRrtpCmhSsinqgoGNU" "" [("all", 'a'), ("directory", 'd'),
      ("recursive", 'R'), ("reverse", 'r')]) 2 (fun g => do
    let operands := if g.operands = [] then [['.']] else g.operands
    let p ← get
    let found ← operands.filterMapM fun a => do
      match p.tree.find p.here ⟨a⟩, entryAt? p a with
      | .ok (l, e), _ => return some (a, l, e)
      | .error _, .ok (l, e) => return some (a, l, e)
      | .error x, .error _ =>
        Process.complain ("ls: cannot access " ++ quoted a ++ ": " ++ x.reason)
        return none
    let found := found.mergeSort fun x y => (compare (String.ofList x.1) (String.ofList y.1)).isLE
    let isListed (e : TreeEntry) : Bool := e = .directory && !g.has 'd'
    let files := found.filter fun x => !isListed x.2.2
    files.forM fun (a, _, e) => sayLine (marked g (some e) a)
    let directories := (found.filter fun x => isListed x.2.2).flatMap fun (a, l, _) =>
      listDirectory g p.tree (p.tree.height + 1) a l
    let hasHeads := operands.length > 1 || g.has 'R'
    let mut isFirst := files.isEmpty
    for (path, names) in directories do
      if !isFirst then sayLine []
      if hasHeads then sayLine (path ++ [':'])
      names.forM sayLine
      isFirst := false
    return if found.length < operands.length then 2 else 0) false)

def filePrograms : List (String × Program) :=
  [touch, rm, mkdir, rmdir, cp, mv, ln, chmod, install, basename, dirname, pwd, readlink, realpath, ls]

end CBuild.Utility
