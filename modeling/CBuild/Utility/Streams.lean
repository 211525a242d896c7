import CBuild.Utility.Arguments
import CBuild.Utility.Printing

/-! Programs that pass on what they read: all of it, some of it, or in another order. -/

namespace CBuild.Utility

def pieces : Bytes → List Bytes
  | [] => []
  | b :: r =>
    if b = 10 then [b] :: pieces r
    else
      match pieces r with
      | [] => [[b]]
      | p :: ps => (b :: p) :: ps

def textLines (found : List (List Char × Bytes)) : List (List Char) :=
  found.flatMap fun x => linesIn x.2

/-- A number that may have a sign in front, and a factor behind. -/
def count? (s : List Char) : Option (Char × Nat) :=
  let (sign, r) := match s with
    | '-' :: r => ('-', r)
    | '+' :: r => ('+', r)
    | r => (' ', r)
  let digits := r.takeWhile Char.isDigit
  let factor := match r.drop digits.length with
    | [] => some 1
    | ['b'] => some 512
    | ['k'] | ['K'] => some 1024
    | ['M'] => some (1024 * 1024)
    | _ => none
  match (String.ofList digits).toNat?, factor with
  | some n, some k => some (sign, n * k)
  | _, _ => none

def withCount : List (List Char) → List (List Char)
  | ('-' :: c :: r) :: rest =>
    if (c :: r).all Char.isDigit then ['-', 'n'] :: (c :: r) :: rest else ('-' :: c :: r) :: rest
  | args => args

/-- Works on the content of one file after the other, or on the standard input. What cannot be read is
complained of in its turn. -/
def eachContent (lead : String) (operands : List (List Char)) (work : List Char → Bytes → StateM Process Unit) :
    StateM Process Nat :=
  each (if operands = [] then [['-']] else operands) fun a => do
    match ← contentOf a with
    | .ok b =>
      work a b
      return 0
    | .error x => refuseFor (lead ++ String.ofList a) x 1

def numbered (g : Given) : (n : Nat) → (afterEmpty : Bool) → List Bytes → Bytes
  | _, _, [] => []
  | n, afterEmpty, p :: ps =>
    let isEmpty := p = [10]
    if g.has 's' && isEmpty && afterEmpty then numbered g n true ps
    else
      let shown := if (g.has 'E' || g.has 'A' || g.has 'e') && p.getLast? = some 10
        then p.dropLast ++ [36, 10] else p
      if (g.has 'n' && !g.has 'b') || (g.has 'b' && !isEmpty) then
        let digits := numberText (n + 1)
        Process.encode (List.replicate (6 - digits.length) ' ' ++ digits ++ ['\t']) ++ shown ++
          numbered g (n + 1) isEmpty ps
      else shown ++ numbered g n isEmpty ps

def cat : String × Program :=
  program "cat" (known "AbeEnstTuv" "" [("number", 'n'), ("squeeze-blank", 's')]) fun g => do
    if g.options = [] then eachContent "cat: " g.operands fun _ b => Process.sayBytes b
    else
      let (found, status) ← contents "cat: " 1 g.operands
      Process.sayBytes (numbered g 0 false (pieces (found.flatMap Prod.snd)))
      return status

def showParts (name : String) (g : Given) (part : Bytes → Bytes) : StateM Process Nat := do
  let hasHeads := (g.operands.length > 1 || g.has 'v') && !g.has 'q'
  let lead := name ++ ": cannot open "
  let shown (a : List Char) : List Char := if a = ['-'] then "standard input".toList else a
  let rec go : Bool → List (List Char) → StateM Process Nat
    | _, [] => return 0
    | isFirst, a :: rest => do
      match ← contentOf a with
      | .ok b =>
        if hasHeads then sayLine ((if isFirst then [] else ['\n']) ++ "==> ".toList ++ shown a ++ " <==".toList)
        Process.sayBytes (part b)
        go false rest
      | .error x =>
        let what := if x = .isADirectory then name ++ ": error reading " ++ quoted a
          else lead ++ quoted a ++ " for reading"
        discard (refuseFor what x 1)
        discard (go isFirst rest)
        return 1
  go true (if g.operands = [] then [['-']] else g.operands)

def invalidCount (name : String) (s : List Char) (isBytes : Bool) : StateM Process Nat :=
  refuse (name ++ ": invalid number of " ++ (if isBytes then "bytes" else "lines") ++ ": " ++ quoted s) 1

def head : String × Program :=
  ("head", fun args =>
    withOptions "head" (known "qvz" "nc" [("lines", 'n'), ("bytes", 'c'), ("quiet", 'q')]) 1 (fun g =>
      let (isBytes, s) := match g.value? 'c' with
        | some s => (true, s)
        | none => (false, (g.value? 'n').getD "10".toList)
      match count? s with
      | none => invalidCount "head" s isBytes
      | some (sign, n) => showParts "head" g fun b =>
        if isBytes then b.take (if sign = '-' then b.length - n else n)
        else
          let ps := pieces b
          (ps.take (if sign = '-' then ps.length - n else n)).flatten) false (withCount args))

def tail : String × Program :=
  ("tail", fun args =>
    withOptions "tail" (known "qvfFz" "ncs" [("lines", 'n'), ("bytes", 'c'), ("quiet", 'q')]) 1 (fun g =>
      let (isBytes, s) := match g.value? 'c' with
        | some s => (true, s)
        | none => (false, (g.value? 'n').getD "10".toList)
      match count? s with
      | none => invalidCount "tail" s isBytes
      | some (sign, n) => showParts "tail" g fun b =>
        if isBytes then b.drop (if sign = '+' then n - 1 else b.length - n)
        else
          let ps := pieces b
          (ps.drop (if sign = '+' then n - 1 else ps.length - n)).flatten) false (withCount args))

def tee : String × Program :=
  program "tee" (known "aip" "" [("append", 'a')]) fun g => do
    let b ← Process.input
    Process.sayBytes b
    each g.operands fun a => do
      match (← get).openFile a true (!g.has 'a') fun l => ⟨.file l, 0, g.has 'a', false, true⟩ with
      | .ok (k, p) =>
        set { p with machine := (p.machine.write? b k).getD p.machine }
        return 0
      | .error x => refuseFor ("tee: " ++ String.ofList a) x 1

def counts (b : Bytes) : List Nat :=
  let isBlank (c : Char) : Bool := " \t\n\x0b\x0c\r".toList.contains c
  let text := Utf8.decodeLossy b
  let words := (text.splitOnP isBlank).filter (· ≠ [])
  [b.count 10, words.length, text.length, b.length]

def wc : String × Program :=
  program "wc" (known "lwcmL" "" [("lines", 'l'), ("words", 'w'), ("bytes", 'c'), ("chars", 'm')]) fun g => do
    let letters := ['l', 'w', 'm', 'c']
    let chosen : List Bool := if letters.any g.has then letters.map g.has else [true, true, false, true]
    let p ← get
    let sizes := g.operands.map fun a =>
      match p.tree.find p.here ⟨a⟩ with
      | .ok (_, .file b _) => b.length
      | _ => 0
    let hasOthers := g.operands.any fun a => a = ['-'] || (p.tree.find p.here ⟨a⟩).toOption.any fun x =>
      match x.2 with
      | .file _ _ => false
      | _ => true
    let isOne := (chosen.filter id).length = 1 && g.operands.length ≤ 1
    let width := if isOne then 1
      else if g.operands = [] || hasOthers then 7
      else (numberText (sizes.foldl (· + ·) 0)).length
    let row (ns : List Nat) : List Char :=
      [' '].intercalate ((ns.zip chosen).filterMap fun (n, isChosen) =>
        let d := numberText n
        if isChosen then some (List.replicate (width - d.length) ' ' ++ d) else none)
    let rec go (total : List Nat) : List (List Char) → StateM Process Nat
      | [] => do
        if g.operands.length > 1 then sayLine (row total ++ " total".toList)
        return 0
      | a :: rest => do
        match ← contentOf a with
        | .ok b =>
          let ns := counts b
          sayLine (row ns ++ if g.operands = [] then [] else ' ' :: a)
          go (List.zipWith (· + ·) total ns) rest
        | .error x =>
          discard (refuseFor ("wc: " ++ String.ofList a) x 1)
          if x = .isADirectory then sayLine (row [0, 0, 0, 0] ++ ' ' :: a)
          discard (go total rest)
          return 1
    go [0, 0, 0, 0] (if g.operands = [] then [['-']] else g.operands)

/-- A decimal number at the start of a text, in units so small that a fraction can be compared. -/
def numericKey (s : List Char) : Int :=
  let s := s.dropWhile fun c => c = ' ' || c = '\t'
  let isNegative := s.head? = some '-'
  let r := if isNegative then s.drop 1 else s
  let whole := r.takeWhile Char.isDigit
  let fraction := match r.drop whole.length with
    | '.' :: f => f.takeWhile Char.isDigit
    | _ => []
  let digits := whole ++ (fraction ++ List.replicate 20 '0').take 20
  let n : Nat := digits.foldl (fun a (c : Char) => a * 10 + (c.toNat - 48)) 0
  if isNegative then -n else n

def keyOf (separator : Option Char) (from_ : Nat) (upTo : Option Nat) (line : List Char) : List Char :=
  let fields : List (List Char) := match separator with
    | some c => line.splitOn c
    | none =>
      let rec go : Nat → List Char → List (List Char)
        | 0, _ => []
        | _, [] => []
        | n + 1, s =>
          let blanks := s.takeWhile fun c => c = ' ' || c = '\t'
          let word := (s.drop blanks.length).takeWhile fun c => c ≠ ' ' && c ≠ '\t'
          (blanks ++ word) :: go n (s.drop (blanks.length + word.length))
      go (line.length + 1) line
  let chosen := match upTo with
    | some k => (fields.take k).drop (from_ - 1)
    | none => fields.drop (from_ - 1)
  (match separator with
    | some c => [c]
    | none => []).intercalate chosen

def compareLines (g : Given) (a b : List Char) : Ordering :=
  let separator := (g.value? 't').bind List.head?
  let key (line : List Char) : List Char × List Char := match g.value? 'k' with
    | none => (line, [])
    | some k =>
      let number (s : List Char) : Nat := ((String.ofList (s.takeWhile Char.isDigit)).toNat?).getD 1
      let start := k.takeWhile (· ≠ ',')
      let stop := (k.drop (start.length + 1)).takeWhile Char.isDigit
      (keyOf separator (number start) (if stop = [] then none else some (number stop)) line,
        k.filter Char.isAlpha)
  let (x, letters) := key a
  let (y, _) := key b
  let has (c : Char) : Bool := g.has c || letters.contains c
  let cut (s : List Char) : List Char :=
    let s := if has 'b' then s.dropWhile (· = ' ') else s
    if has 'f' then s.map Char.toUpper else s
  let byKey :=
    if has 'n' || has 'g' then compare (numericKey x) (numericKey y)
    else compare (String.ofList (cut x)) (String.ofList (cut y))
  let byKey := if has 'r' then byKey.swap else byKey
  if byKey ≠ .eq || g.has 's' || g.has 'u' then byKey
  else
    let byLine := compare (String.ofList a) (String.ofList b)
    if g.has 'r' then byLine.swap else byLine

def withoutRepeats (same : List Char → List Char → Bool) : List (List Char) → List (List Char)
  | a :: b :: r => if same a b then withoutRepeats same (a :: r) else a :: withoutRepeats same (b :: r)
  | r => r
termination_by ls => ls.length

def sort : String × Program :=
  ("sort", withOptions "sort" (known "bdfghiMnrRsuVzc" "tko" [("reverse", 'r'), ("numeric-sort", 'n'),
      ("unique", 'u'), ("key", 'k'), ("output", 'o'), ("field-separator", 't')]) 2 (fun g => do
    let (found, status) ← contents "sort: cannot read: " 2 g.operands
    if status ≠ 0 then return status
    let lines := textLines found
    let ordered := lines.mergeSort fun a b => (compareLines g a b).isLE
    if g.has 'c' then return if ordered = lines then 0 else 1
    let kept := if g.has 'u' then withoutRepeats (fun a b => compareLines g a b = .eq) ordered else ordered
    let text := kept.flatMap (· ++ ['\n'])
    match g.value? 'o' with
    | some a => change ("sort: open failed: " ++ String.ofList a) fun p =>
        p.tree.writeFile p.here ⟨a⟩ (Process.encode text)
    | none =>
      Process.say text
      return 0) false)

def runs (same : List Char → List Char → Bool) : List (List Char) → List (List Char × Nat)
  | [] => []
  | a :: r =>
    match runs same r with
    | (b, n) :: rest => if same a b then (a, n + 1) :: rest else (a, 1) :: (b, n) :: rest
    | [] => [(a, 1)]

def uniq : String × Program :=
  program "uniq" (known "cdiuDz" "fsw" [("count", 'c'), ("repeated", 'd'), ("unique", 'u'), ("ignore-case", 'i')])
    fun g => do
      let (found, status) ← contents "uniq: " 1 (g.operands.take 1)
      let same (a b : List Char) : Bool :=
        if g.has 'i' then a.map Char.toLower = b.map Char.toLower else a = b
      let shown := (runs same (textLines found)).filter fun (_, n) =>
        (!g.has 'd' || n > 1) && (!g.has 'u' || n = 1)
      let text := shown.flatMap fun (line, n) =>
        let digits := numberText n
        (if g.has 'c' then List.replicate (7 - digits.length) ' ' ++ digits ++ [' '] else []) ++ line ++ ['\n']
      match g.operands.drop 1 with
      | a :: _ => change ("uniq: " ++ String.ofList a) fun p => p.tree.writeFile p.here ⟨a⟩ (Process.encode text)
      | [] =>
        Process.say text
        return status

def characterClass? : String → Option (Char → Bool)
  | "alpha" => some Char.isAlpha
  | "digit" => some Char.isDigit
  | "alnum" => some Char.isAlphanum
  | "upper" => some Char.isUpper
  | "lower" => some Char.isLower
  | "space" => some fun c => " \t\n\x0b\x0c\r".toList.contains c
  | "blank" => some fun c => c = ' ' || c = '\t'
  | "punct" => some fun c => 33 ≤ c.toNat && c.toNat ≤ 126 && !c.isAlphanum
  | "xdigit" => some fun c => c.isDigit || "abcdefABCDEF".toList.contains c
  | "cntrl" => some fun c => c.toNat < 32 || c.toNat = 127
  | "print" => some fun c => 32 ≤ c.toNat && c.toNat ≤ 126
  | "graph" => some fun c => 33 ≤ c.toNat && c.toNat ≤ 126
  | _ => none

def setOf : (fuel : Nat) → List Char → List Char
  | 0, _ => []
  | _, [] => []
  | n + 1, '[' :: ':' :: r =>
    let name := r.takeWhile (· ≠ ':')
    match characterClass? (String.ofList name), r.drop name.length with
    | some f, ':' :: ']' :: rest =>
      ((List.range 128).map Char.ofNat).filter f ++ setOf n rest
    | _, _ => '[' :: setOf n (':' :: r)
  | n + 1, s =>
    let (c, r) := match s with
      | '\\' :: r =>
        let (b, rest) := Printing.escape r
        match b, r with
        | [92], d :: r' => if d = '\\' then ('\\', rest) else (d, r')
        | b, _ => (Char.ofNat ((b.headD 92).toNat), rest)
      | c :: r => (c, r)
      | [] => (' ', [])
    match r with
    | '-' :: d :: rest =>
      (List.range (d.toNat + 1 - c.toNat)).map (fun k => Char.ofNat (c.toNat + k)) ++ setOf n rest
    | _ => c :: setOf n r

def tr : String × Program :=
  ("tr", withOptions "tr" (known "cCdst" "" [("delete", 'd'), ("squeeze-repeats", 's'), ("complement", 'c')]) 1
    (fun g => do
      -- Characters here are single bytes.
      let single (b : Bytes) : List Char := b.map fun b => Char.ofNat b.toNat
      let sets := g.operands.map fun a => setOf (4 * a.length + 1) (single (Process.encode a))
      match sets with
      | [] => missingOperand "tr" "operand"
      | first :: rest =>
        if rest = [] && !g.has 'd' && !g.has 's' then
          return (← missingOperand "tr" ("operand after " ++ quoted (g.operands.headD [])))
        let text := single (← Process.input)
        let isComplement := g.has 'c' || g.has 'C'
        let inFirst (c : Char) : Bool := isComplement ^^ first.contains c
        let second := rest.headD []
        let mapped (c : Char) : Char :=
          if !inFirst c then c
          else if isComplement then (second.getLast?).getD c
          else (second[first.idxOf c]?).getD ((second.getLast?).getD c)
        let text := if g.has 'd' then text.filter (!inFirst ·)
          else if rest = [] then text else text.map mapped
        let squeezed : Char → Bool := if rest = [] then inFirst else second.contains
        let text := if !g.has 's' then text
          else (text.foldl (fun (acc : List Char) c =>
            if squeezed c && acc.head? = some c then acc else c :: acc) []).reverse
        Process.sayBytes (text.map fun c => c.toNat.toUInt8)
        return 0) true)

def ranges? (s : List Char) : Option (List (Nat × Option Nat)) :=
  (s.splitOn ',').mapM fun part =>
    let start := part.takeWhile (· ≠ '-')
    let number (s : List Char) : Option Nat := (String.ofList s).toNat?
    match part.drop start.length with
    | [] => (number start).map fun n => (n, some n)
    | ['-'] => (number start).map fun n => (n, none)
    | _ :: stop =>
      match if start = [] then some 1 else number start, number stop with
      | some a, some b => some (a, some b)
      | _, _ => none

def cut : String × Program :=
  program "cut" (known "snz" "bcdf" [("fields", 'f'), ("delimiter", 'd'), ("characters", 'c'), ("bytes", 'b'),
      ("only-delimited", 's')]) fun g => do
    let chosen (rs : List (Nat × Option Nat)) (k : Nat) : Bool :=
      rs.any fun (a, b) => a ≤ k && b.all (k ≤ ·)
    let pick {α : Type} (rs : List (Nat × Option Nat)) (xs : List α) : List α :=
      (xs.zipIdx 1).filterMap fun (x, k) => if chosen rs k then some x else none
    match g.last? ['b', 'c', 'f'] with
    | none =>
      Process.complain "cut: you must specify a list of bytes, characters, or fields"
      refuse "Try 'cut --help' for more information." 1
    | some kind =>
      match ranges? ((g.value? kind).getD []) with
      | none => refuse "cut: invalid field range" 1
      | some rs =>
        let (found, status) ← contents "cut: " 1 g.operands
        for line in textLines found do
          if kind = 'f' then
            let d := ((g.value? 'd').bind List.head?).getD '\t'
            if line.contains d then sayLine ([d].intercalate (pick rs (line.splitOn d)))
            else if !g.has 's' then sayLine line
          else
            Process.sayBytes (pick rs (Process.encode line) ++ [10])
        return status

def seq : String × Program :=
  ("seq", fun args => do
    let number? (s : List Char) : Option Int := match s with
      | '-' :: r => (String.ofList r).toNat?.map fun n => -(n : Int)
      | s => (String.ofList s).toNat?.map Int.ofNat
    let (separator, args) := match args with
      | ['-', 's'] :: s :: rest => (s, rest)
      | ('-' :: 's' :: s) :: rest => (s, rest)
      | args => (['\n'], args)
    match args.mapM number? with
    | none => refuse ("seq: invalid floating point argument: " ++
        quoted ((args.find? fun a => (number? a).isNone).getD [])) 1
    | some ns@(_ :: _) =>
      let (first, step, last) := match ns with
        | [a] => (1, 1, a)
        | [a, b] => (a, 1, b)
        | a :: s :: b :: _ => (a, s, b)
        | [] => (1, 1, 0)
      if step = 0 then return (← refuse "seq: invalid Zero increment value: '0'" 1)
      let count := ((last - first).fdiv step + 1).toNat
      if count > 0 then
        sayLine (separator.intercalate ((List.range count).map fun (k : Nat) =>
          (toString (first + step * k)).toList))
      return 0
    | _ => missingOperand "seq" "operand")

def rev : String × Program :=
  program "rev" {} fun g => do
    let (found, status) ← contents "rev: " 1 g.operands
    for line in textLines found do sayLine line.reverse
    return status

def tac : String × Program :=
  program "tac" {} fun g => do
    let (found, status) ← contents "tac: " 1 g.operands
    for (_, b) in found do Process.sayBytes (pieces b).reverse.flatten
    return status

def nl : String × Program :=
  program "nl" (known "p" "bsw" []) fun g => do
    let (found, status) ← contents "nl: " 1 g.operands
    let mut n := 0
    for line in textLines found do
      if line = [] && g.value? 'b' ≠ some ['a'] then sayLine (List.replicate 7 ' ')
      else
        n := n + 1
        let digits := numberText n
        sayLine (List.replicate (6 - digits.length) ' ' ++ digits ++ '\t' :: line)
    return status

def paste : String × Program :=
  program "paste" (known "sz" "d" [("delimiters", 'd'), ("serial", 's')]) fun g => do
    let d := ((g.value? 'd').bind List.head?).getD '\t'
    let (found, status) ← contents "paste: " 1 g.operands
    let columns := found.map fun x => linesIn x.2
    if g.has 's' then columns.forM fun c => sayLine ([d].intercalate c)
    else
      let height := (columns.map List.length).foldl max 0
      for k in List.range height do
        sayLine ([d].intercalate (columns.map fun c => c.getD k []))
    return status

def cmp : String × Program :=
  ("cmp", withOptions "cmp" (known "bls" "in" [("silent", 's'), ("quiet", 's')]) 2 (fun g => do
    match g.operands with
    | a :: rest =>
      let b := rest.headD ['-']
      match ← contentOf a, ← contentOf b with
      | .error x, _ => refuseFor ("cmp: " ++ String.ofList a) x 2
      | _, .error x => refuseFor ("cmp: " ++ String.ofList b) x 2
      | .ok x, .ok y =>
        if x = y then return 0
        let same := ((x.zip y).takeWhile fun (c, d) => c = d).length
        if !g.has 's' then
          if same = min x.length y.length then
            let short := if x.length < y.length then a else b
            Process.complain ("cmp: EOF on " ++ String.ofList short ++ " after byte " ++ toString same ++
              ", in line " ++ toString ((x.take same).count 10 + 1))
          else
            sayLine (a ++ [' '] ++ b ++ " differ: char ".toList ++ numberText (same + 1) ++ ", line ".toList ++
              numberText ((x.take same).count 10 + 1))
        return 1
    | [] => missingOperand "cmp" "operand after 'cmp'") false)

def streamPrograms : List (String × Program) :=
  [cat, head, tail, tee, wc, sort, uniq, tr, cut, seq, rev, tac, nl, paste, cmp]

end CBuild.Utility
