import CBuild.Shell.Script

/-! Reading scripts. A text is read a line of commands at a time, so that what stands before a mistake still
runs. Reading goes token by token; whether a word is a keyword depends on where it stands. -/

namespace CBuild.Shell

inductive Token
  | finish
  | newline
  | arrow (stream : Option Nat) (sign : String)
  | word (w : Word)
  | sign (s : String)

namespace Token

def name : Token → String
  | finish => "end of file"
  | newline => "newline"
  | arrow _ _ => "redirection"
  | word _ => "word"
  | sign s => "\"" ++ s ++ "\""

def isSign (s : String) : Token → Bool
  | sign t => s == t
  | _ => false

def closers : List String :=
  [")", ";;", "do", "done", "elif", "else", "esac", "fi", "then", "\x7d"]

def closes : Token → Bool
  | sign s => closers.contains s
  | _ => false

def keywords : List String :=
  ["!", "case", "do", "done", "elif", "else", "esac", "fi", "for", "if", "in", "then", "until", "while",
    "\x7b", "\x7d"]

def asKeyword : Token → Token
  | word w =>
    match (w.bare?).map String.ofList with
    | some s => if keywords.contains s then sign s else word w
    | none => word w
  | t => t

def pattern : Token → Word
  | word w => w
  | sign s => [.text s.toList]
  | _ => []

end Token

inductive Mistake
  | unexpected (t : Token) (instead : Option Token)
  | unclosedQuotation
  | unclosedBraces
  | unclosedSum
  | unclosedBackquote
  | badVariable
  | badFunction
  | badStream
  | tooLong

def Mistake.message : Mistake → String
  | unexpected t none => t.name ++ " unexpected"
  | unexpected t (some e) => t.name ++ " unexpected (expecting " ++ e.name ++ ")"
  | unclosedQuotation => "Unterminated quoted string"
  | unclosedBraces => "Missing '\x7d'"
  | unclosedSum => "Missing '))'"
  | unclosedBackquote => "EOF in backquote substitution"
  | badVariable => "Bad for loop variable"
  | badFunction => "Bad function name"
  | badStream => "Bad fd number"
  | tooLong => "word too long"

structure Source where
  rest : List Char
  line : Nat := 1
  /-- The lines that were taken out of the text after the present one. -/
  owed : Nat := 0
  ahead : Option Token := none

abbrev Reading := ExceptT Mistake (StateM Source)

namespace Reading

def advance (rest : List Char) : Reading Unit :=
  modify fun s => { s with rest := rest }

def newLine (rest : List Char) : Reading Unit :=
  modify fun s => { s with rest := rest, line := s.line + 1 + s.owed, owed := 0 }

def pass (c : Char) (rest : List Char) : Reading Unit :=
  if c = '\n' then newLine rest else advance rest

def passAll (run rest : List Char) : Reading Unit := do
  run.forM fun c => pass c rest
  advance rest

/-- A line that ends in a backslash goes on in the next one. -/
def joinLines : List Char → Nat → List Char × Nat
  | '\\' :: '\n' :: r, line => joinLines r (line + 1)
  | r, line => (r, line)

def peek : Reading (List Char) := do
  let s ← get
  let (rest, line) := joinLines s.rest s.line
  set { s with rest := rest, line := line }
  return rest

def isPlain (c : Char) : Bool :=
  !"\\$\x60\"'\x7d() \t\n;&|<>".toList.contains c

/-- Where a word, or a part of one, stands. -/
inductive Setting
  | bare
  | quoted
  | braced (inQuotes : Bool)
  | sum
  | here
deriving DecidableEq

namespace Setting

def inQuotes : Setting → Bool
  | bare => false
  | braced q => q
  | _ => true

def escapes (k : Setting) (c : Char) : Bool :=
  "$\x60\\".toList.contains c || c = '"' && k ≠ .here || c = '}' && k = .braced true

end Setting

def backquoted? (inQuotes : Bool) : List Char → Option (List Char × List Char)
  | [] => none
  | '\x60' :: r => some ([], r)
  | '\\' :: '\n' :: r => backquoted? inQuotes r
  | '\\' :: c :: r =>
    let kept := if "\\\x60$".toList.contains c || c = '"' && inQuotes then [c] else ['\\', c]
    (backquoted? inQuotes r).map fun (a, b) => (kept ++ a, b)
  | c :: r => (backquoted? inQuotes r).map fun (a, b) => (c :: a, b)

def specials : List Char :=
  "@*#?$!-".toList

def parameterUse (inner : Setting → Reading Word) (inQuotes : Bool) (name : List Char) :
    Reading Part := do
  let nullRest (r : List Char) : Bool × List Char :=
    match r with
    | ':' :: r => (true, r)
    | r => (false, r)
  let rest ← peek
  match rest with
  | '}' :: r =>
    advance r
    return .parameter name .value false []
  | '%' :: '%' :: r =>
    advance r
    return .parameter name (.cutBack true) false (← inner (.braced false))
  | '%' :: r =>
    advance r
    return .parameter name (.cutBack false) false (← inner (.braced false))
  | '#' :: '#' :: r =>
    advance r
    return .parameter name (.cutFront true) false (← inner (.braced false))
  | '#' :: r =>
    advance r
    return .parameter name (.cutFront false) false (← inner (.braced false))
  | _ =>
    let (nullCounts, r) := nullRest rest
    let use? : Option Use :=
      match r with
      | '-' :: _ => some .orElse
      | '=' :: _ => some .orAssign
      | '?' :: _ => some .orComplain
      | '+' :: _ => some .ifSet
      | _ => none
    match use? with
    | some use =>
      advance (r.drop 1)
      return .parameter name use nullCounts (← inner (.braced inQuotes))
    | none => return .parameter name .wrong false (← inner (.braced inQuotes))

def braced (inner : Setting → Reading Word) (inQuotes : Bool) : Reading Part := do
  let named (s : List Char) : List Char :=
    if (s.head?.map Char.isDigit).getD false then s.takeWhile Char.isDigit else s.takeWhile isNameChar
  let rest ← peek
  let name := named rest
  if name ≠ [] then
    advance (rest.drop name.length)
    parameterUse inner inQuotes name
  else
    match rest with
    | '#' :: r =>
      let counted := named r
      if counted ≠ [] then
        advance (r.drop counted.length)
        return .parameter counted .length false (← inner (.braced inQuotes))
      else
        match r with
        | c :: '}' :: r' =>
          if specials.contains c then
            advance r'
            return .parameter [c] .length false []
          else
            advance r
            parameterUse inner inQuotes ['#']
        | _ =>
          advance r
          parameterUse inner inQuotes ['#']
    | c :: r =>
      if specials.contains c then
        advance r
        parameterUse inner inQuotes [c]
      else return .parameter [] .wrong false (← inner (.braced inQuotes))
    | [] => throw .unclosedBraces

def within {α : Type} (text : List Char) (line : Nat) (read : Reading α) : Reading α := do
  let s ← get
  set { s with rest := text, line := line, owed := 0, ahead := none }
  let a ← read
  set s
  return a

def expansion (script : Reading (List Script)) (inner : Setting → Reading Word) (k : Setting) :
    Reading Part := do
  match ← peek with
  | '(' :: r =>
    advance r
    match ← peek with
    | '(' :: r =>
      advance r
      return .arithmetic (← inner .sum)
    | _ => return .output (← script)
  | '{' :: r =>
    advance r
    braced inner k.inQuotes
  | c :: r =>
    if isNameStart c then
      let name := (c :: r).takeWhile isNameChar
      advance ((c :: r).drop name.length)
      return .parameter name .value false []
    else if c.isDigit || specials.contains c then
      advance r
      return .parameter [c] .value false []
    else return .text ['$']
  | [] => return .text ['$']

/-- The parts of a word up to its end. The number counts the parentheses that are open in a sum, and the
quotation marks that are open in braces. A script in parentheses is read up to the closing one. -/
def parts (script backquote : Reading (List Script)) : (fuel : Nat) → Setting → Nat → Reading Word
  | 0, _, _ => throw .tooLong
  | n + 1, k, level => do
    let rest ← peek
    let run := rest.takeWhile isPlain
    if run ≠ [] then
      advance (rest.drop run.length)
      return Word.cons run (← parts script backquote n k level)
    match rest with
    | [] =>
      match k with
      | .quoted => throw .unclosedQuotation
      | .braced _ => throw .unclosedBraces
      | .sum => throw .unclosedSum
      | _ => return []
    | '\\' :: [] =>
      advance []
      return .literal ['\\'] :: (← parts script backquote n k level)
    | '\\' :: c :: r =>
      pass c r
      let kept := if k.inQuotes && !k.escapes c then ['\\', c] else [c]
      return .literal kept :: (← parts script backquote n k level)
    | '$' :: r =>
      advance r
      let p ← expansion script (fun k => parts script backquote n k 0) k
      return p :: (← parts script backquote n k level)
    | '\x60' :: r =>
      match backquoted? k.inQuotes r with
      | none => throw .unclosedBackquote
      | some (text, r') =>
        let body ← within text 1 backquote
        passAll (r.take (r.length - r'.length)) r'
        return .output body :: (← parts script backquote n k level)
    | '"' :: r =>
      advance r
      match k with
      | .quoted => return []
      | .braced true => parts script backquote n k (1 - level)
      | .here | .sum => return Word.cons ['"'] (← parts script backquote n k level)
      | .bare | .braced false =>
        let inner ← parts script backquote n .quoted 0
        return .quotation inner :: (← parts script backquote n k level)
    | '\'' :: r =>
      if k.inQuotes then
        advance r
        return Word.cons ['\''] (← parts script backquote n k level)
      else
        let quoted := r.takeWhile (· ≠ '\'')
        match r.drop quoted.length with
        | [] => throw .unclosedQuotation
        | _ :: r' =>
          passAll quoted r'
          return .literal quoted :: (← parts script backquote n k level)
    | c :: r =>
      match k, c with
      | .braced _, '}' =>
        advance r
        if level = 0 then return [] else return Word.cons [c] (← parts script backquote n k level)
      | .bare, '}' =>
        advance r
        return Word.cons [c] (← parts script backquote n k level)
      | .bare, _ => return []
      | .sum, '(' =>
        advance r
        return Word.cons [c] (← parts script backquote n k (level + 1))
      | .sum, ')' =>
        advance r
        if level ≠ 0 then return Word.cons [c] (← parts script backquote n k (level - 1))
        match ← peek with
        | ')' :: r' =>
          advance r'
          return []
        | _ => return Word.cons [c] (← parts script backquote n k level)
      | _, _ =>
        pass c r
        return Word.cons [c] (← parts script backquote n k level)

def afterBlanks : List Char → Nat → List Char × Nat
  | ' ' :: r, line => afterBlanks r line
  | '\t' :: r, line => afterBlanks r line
  | '\\' :: '\n' :: r, line => afterBlanks r (line + 1)
  | '#' :: r, line => (r.dropWhile (· ≠ '\n'), line)
  | r, line => (r, line)

def doubled (c : Char) : Reading Token := do
  match ← peek with
  | d :: r =>
    if d = c then
      advance r
      return .sign (String.ofList [c, c])
    else return .sign (String.singleton c)
  | [] => return .sign (String.singleton c)

def arrow (stream : Option Nat) (c : Char) : Reading Token := do
  let rest ← peek
  let known := if c = '>' then [">", "|", "&"] else ["<", "&", ">"]
  match rest with
  | d :: r =>
    if known.contains (String.singleton d) then
      advance r
      let sign := String.ofList [c, d]
      if sign = "<<" then
        match ← peek with
        | '-' :: r =>
          advance r
          return .arrow stream "<<-"
        | _ => return .arrow stream sign
      else return .arrow stream sign
    else return .arrow stream (String.singleton c)
  | [] => return .arrow stream (String.singleton c)

def fresh (script backquote : Reading (List Script)) : Reading Token := do
  let s ← get
  let (rest, line) := afterBlanks s.rest s.line
  set { s with rest := rest, line := line }
  match rest with
  | [] => return .finish
  | '\n' :: r =>
    newLine r
    return .newline
  | c :: r =>
    if "&|;".toList.contains c then
      advance r
      doubled c
    else if c = '(' || c = ')' then
      advance r
      return .sign (String.singleton c)
    else
      let w ← parts script backquote (rest.length + 2) .bare 0
      let digits :=
        match w.bare? with
        | some [] => some none
        | some [d] => if d.isDigit then some (some (d.toNat - 48)) else none
        | _ => none
      match digits, (← get).rest with
      | some stream, '<' :: r =>
        advance r
        arrow stream '<'
      | some stream, '>' :: r =>
        advance r
        arrow stream '>'
      | _, _ => return .word w

/-- How the next token is looked at. -/
structure Look where
  skipsNewlines : Bool := false
  knowsKeywords : Bool := false

def afterNewlines (read : Reading Token) : (fuel : Nat) → Reading Token
  | 0 => throw .tooLong
  | n + 1 => do
    match ← read with
    | .newline => afterNewlines read n
    | t => return t

def next (script backquote : Reading (List Script)) : Reading Token := do
  match (← get).ahead with
  | some t =>
    modify fun s => { s with ahead := none }
    return t
  | none => fresh script backquote

def putBack (t : Token) : Reading Unit :=
  modify fun s => { s with ahead := some t }

def delimiter : (fuel : Nat) → List Char → List Char × Bool × List Char
  | 0, s => ([], false, s)
  | n + 1, s =>
    match s with
    | '\'' :: r =>
      let quoted := r.takeWhile (· ≠ '\'')
      let (a, _, rest) := delimiter n (r.drop (quoted.length + 1))
      (quoted ++ a, true, rest)
    | '"' :: r =>
      let quoted := r.takeWhile (· ≠ '"')
      let (a, _, rest) := delimiter n (r.drop (quoted.length + 1))
      (quoted ++ a, true, rest)
    | '\\' :: '\n' :: r => delimiter n r
    | '\\' :: c :: r =>
      let (a, _, rest) := delimiter n r
      (c :: a, true, rest)
    | c :: r =>
      if " \t\n;&|<>()".toList.contains c then ([], false, s)
      else
        let (a, q, rest) := delimiter n r
        (c :: a, q, rest)
    | [] => ([], false, [])

def lineLength : (fuel : Nat) → List Char → Nat
  | 0, _ => 0
  | n + 1, s =>
    match s with
    | [] => 0
    | '\n' :: _ => 1
    | '\\' :: _ :: r => 2 + lineLength n r
    | '\'' :: r =>
      let quoted := r.takeWhile (· ≠ '\'')
      quoted.length + 2 + lineLength n (r.drop (quoted.length + 1))
    | '"' :: r =>
      let k := quotedLength r
      k + 1 + lineLength n (r.drop k)
    | _ :: r => 1 + lineLength n r
where
  quotedLength : List Char → Nat
    | '\\' :: _ :: r => 2 + quotedLength r
    | '"' :: _ => 1
    | _ :: r => 1 + quotedLength r
    | [] => 0

def hereLines (strips : Bool) (mark : List Char) : (fuel : Nat) → List Char →
    List Char × Nat × List Char
  | 0, s => ([], 0, s)
  | _, [] => ([], 0, [])
  | n + 1, s =>
    let line := s.takeWhile (· ≠ '\n')
    let after := s.drop (line.length + 1)
    let shown := if strips then line.dropWhile (· = '\t') else line
    let isEnded := line.length < s.length
    let here := if isEnded then 1 else 0
    if shown = mark then ([], here, after)
    else
      let (body, k, rest) := hereLines strips mark n after
      (shown ++ (if isEnded then ['\n'] else []) ++ body, k + here, rest)

/-- A text that stands in the lines after the present one, which it is cut out of. -/
def hereText (script backquote : Reading (List Script)) (strips : Bool) : Reading Word := do
  let s ← get
  let (rest, line) := afterBlanks s.rest s.line
  let (mark, isQuoted, rest) := delimiter (rest.length + 1) rest
  if mark = [] && !isQuoted then
    set { s with rest := rest, line := line }
    throw (.unexpected (← fresh script backquote) none)
  let k := lineLength (rest.length + 1) rest
  let (body, lines, after) := hereLines strips mark (rest.length + 1) (rest.drop k)
  set { s with rest := rest.take k ++ after, line := line, owed := s.owed + lines }
  if isQuoted then return [.literal body]
  else within body line (parts script backquote (body.length + 2) .here 0)

def wayOf (stream : Option Nat) (sign : String) : Nat × Way :=
  match sign with
  | "<" => (stream.getD 0, .read)
  | "<>" => (stream.getD 0, .readWrite)
  | "<&" => (stream.getD 0, .copy)
  | "<<" | "<<-" => (stream.getD 0, .here)
  | ">>" => (stream.getD 1, .append)
  | ">|" => (stream.getD 1, .clobber)
  | ">&" => (stream.getD 1, .copy)
  | _ => (stream.getD 1, .write)

/-- The kinds of lists of commands: a line of them, those of a body, which has at least one, and those of a
branch, which may have none. -/
inductive Form
  | line
  | body
  | branch
deriving DecidableEq

def reserved : List String :=
  [".", ":", "break", "continue", "eval", "exec", "exit", "export", "local", "readonly", "return", "set",
    "shift", "times", "trap", "unset"]

section

variable (commands : Form → Reading (List Script))

def substituted : Reading (List Script) := do
  let s ← get
  set { s with ahead := none }
  let body ← commands .branch
  let t ← match (← get).ahead with
    | some t => pure t
    | none => pure .finish
  modify fun s => { s with ahead := none }
  if t.isSign ")" then return body
  throw (.unexpected t (some (.sign ")")))

def token (look : Look) : Reading Token := do
  let read := next (substituted commands) (commands .branch)
  let t ← if look.skipsNewlines then afterNewlines read ((← get).rest.length + 2) else read
  return if look.knowsKeywords then t.asKeyword else t

def expect (s : String) (look : Look) : Reading Unit := do
  let t ← token commands look
  if !t.isSign s then throw (.unexpected t (some (.sign s)))

def target (stream : Option Nat) (sign : String) : Reading (Redirection Word) := do
  let (k, way) := wayOf stream sign
  if way = .here then
    return ⟨k, way, ← hereText (substituted commands) (commands .branch) (sign = "<<-")⟩
  match ← token commands {} with
  | .word w => return ⟨k, way, w⟩
  | t => throw (.unexpected t none)

def redirections : (fuel : Nat) → Reading (List (Redirection Word))
  | 0 => throw .tooLong
  | n + 1 => do
    match ← token commands ⟨false, true⟩ with
    | .arrow stream sign =>
      let r ← target commands stream sign
      return r :: (← redirections n)
    | t =>
      putBack t
      return []

structure Simple where
  assigned : List (List Char × Word) := []
  words : List Word := []
  redirections : List (Redirection Word) := []

def simple (command : Reading Script) (line : Nat) : (fuel : Nat) → Simple → Reading Script
  | 0, _ => throw .tooLong
  | n + 1, c => do
    let finish : Reading Script :=
      return .simple line c.assigned.reverse c.words.reverse c.redirections.reverse
    let t ← token commands {}
    match t with
    | .word w =>
      match if c.words.isEmpty then w.assignment? else none with
      | some a => simple command line n { c with assigned := a :: c.assigned }
      | none => simple command line n { c with words := w :: c.words }
    | .arrow stream sign =>
      let r ← target commands stream sign
      simple command line n { c with redirections := r :: c.redirections }
    | .sign "(" =>
      match c.words, c.assigned, c.redirections with
      | [w], [], [] =>
        expect commands ")" {}
        let name := (w.bare?).getD []
        if !isName name || reserved.contains (String.ofList name) then throw .badFunction
        let t ← token commands ⟨true, true⟩
        putBack t
        return .define name (← command)
      | _, _, _ =>
        putBack t
        finish
    | _ =>
      putBack t
      finish

def patterns : (fuel : Nat) → Token → Reading (List Word)
  | 0, _ => throw .tooLong
  | n + 1, t => do
    let w := t.pattern
    let t ← token commands {}
    if t.isSign "|" then return w :: (← patterns n (← token commands {}))
    if t.isSign ")" then return [w]
    throw (.unexpected t (some (.sign ")")))

def branches : (fuel : Nat) → Reading (List (List Word × List Script))
  | 0 => throw .tooLong
  | n + 1 => do
    let t ← token commands ⟨true, true⟩
    if t.isSign "esac" then return []
    let t ← if t.isSign "(" then token commands {} else pure t
    let ps ← patterns commands ((← get).rest.length + 2) t
    let body ← commands .branch
    let t ← token commands ⟨true, true⟩
    if t.isSign "esac" then return [(ps, body)]
    if !t.isSign ";;" then throw (.unexpected t (some (.sign ";;")))
    return (ps, body) :: (← branches n)

def choices : (fuel : Nat) → Reading Script
  | 0 => throw .tooLong
  | n + 1 => do
    let condition ← commands .body
    expect commands "then" {}
    let yes ← commands .body
    let t ← token commands {}
    if t.isSign "elif" then return .choose condition yes [← choices n]
    if t.isSign "else" then
      let no ← commands .body
      expect commands "fi" {}
      return .choose condition yes no
    if t.isSign "fi" then return .choose condition yes []
    throw (.unexpected t (some (.sign "fi")))

def loop (expected : Bool) : Reading Script := do
  let condition ← commands .body
  expect commands "do" {}
  let body ← commands .body
  expect commands "done" {}
  return .loop expected condition body

def values : (fuel : Nat) → Reading (List Word)
  | 0 => throw .tooLong
  | n + 1 => do
    match ← token commands {} with
    | .word w => return w :: (← values n)
    | .newline => return []
    | t => if t.isSign ";" then return [] else throw (.unexpected t none)

def each : Reading Script := do
  let line := (← get).line
  let name ← match ← token commands {} with
    | .word w =>
      match w.bare? with
      | some name => if isName name then pure name else throw .badVariable
      | none => throw .badVariable
    | _ => throw .badVariable
  let t ← token commands ⟨true, true⟩
  let words ←
    if t.isSign "in" then
      pure (some (← values commands ((← get).rest.length + 2)))
    else do
      if !t.isSign ";" then putBack t
      pure none
  expect commands "do" ⟨true, true⟩
  let body ← commands .body
  expect commands "done" {}
  return .each line name words body

def select : Reading Script := do
  let line := (← get).line
  match ← token commands {} with
  | .word w =>
    expect commands "in" ⟨true, true⟩
    return .select line w (← branches commands ((← get).rest.length + 2))
  | t => throw (.unexpected t (some (.word [])))

def command : (fuel : Nat) → Reading Script
  | 0 => throw .tooLong
  | n + 1 => do
    let line := (← get).line
    let limit := (← get).rest.length + 2
    let t ← token commands {}
    let compound (c : Script) : Reading Script := do
      let rs ← redirections commands limit
      return if rs.isEmpty then c else .redirected line c rs
    match t with
    | .sign "if" => compound (← choices commands limit)
    | .sign "while" => compound (← loop commands true)
    | .sign "until" => compound (← loop commands false)
    | .sign "for" => compound (← each commands)
    | .sign "case" => compound (← select commands)
    | .sign "(" =>
      let body ← commands .body
      expect commands ")" {}
      compound (.apart line body)
    | .sign "\x7b" =>
      let body ← commands .body
      expect commands "\x7d" {}
      compound (.grouped body)
    | .word _ | .arrow _ _ =>
      putBack t
      simple commands (command n) (← get).line limit {}
    | t => throw (.unexpected t none)

def stages (command : Reading Script) : (fuel : Nat) → Reading (List Script)
  | 0 => throw .tooLong
  | n + 1 => do
    let t ← token commands {}
    if t.isSign "|" then
      let t ← token commands ⟨true, true⟩
      putBack t
      let c ← command
      return c :: (← stages command n)
    else
      putBack t
      return []

def pipeline : Reading Script := do
  let t ← token commands {}
  let limit := (← get).rest.length + 2
  let isNegated := t.isSign "!"
  if isNegated then putBack (← token commands ⟨false, true⟩) else putBack t
  let c ← command commands limit
  let rest ← stages commands (command commands limit) limit
  let c := if rest.isEmpty then c else .pipe (c :: rest)
  return if isNegated then .negated c else c

def chain : (fuel : Nat) → Script → Reading Script
  | 0, _ => throw .tooLong
  | n + 1, a => do
    let t ← token commands {}
    if t.isSign "&&" || t.isSign "||" then
      putBack (← token commands ⟨true, true⟩)
      let b ← pipeline commands
      chain n (if t.isSign "&&" then .both a b else .either a b)
    else
      putBack t
      return a

def items (form : Form) : (fuel : Nat) → (isFirst : Bool) → Reading (List Script)
  | 0, _ => throw .tooLong
  | n + 1, isFirst => do
    let t ← token commands ⟨form ≠ .line, true⟩
    match t with
    | .newline => return []
    | .finish =>
      putBack t
      return []
    | _ =>
      putBack t
      if t.closes && (form = .branch || form = .body && !isFirst) then return []
      let limit := (← get).rest.length + 2
      let a ← chain commands limit (← pipeline commands)
      let t ← token commands {}
      let isApart := t.isSign "&"
      let a := if isApart then .background a else a
      match t with
      | .finish =>
        putBack t
        return [a]
      | .newline =>
        putBack t
        return a :: (← items form n false)
      | _ =>
        if isApart || t.isSign ";" then return a :: (← items form n false)
        if form = .line then throw (.unexpected t none)
        putBack t
        return [a]

end

def commands : (fuel : Nat) → Form → Reading (List Script)
  | 0, _ => throw .tooLong
  | n + 1, form => do
    items (commands n) form ((← get).rest.length + 2) true

end Reading

def Source.readLine (s : Source) : Except Mistake (List Script) × Source :=
  (Reading.commands (s.rest.length + 2) .line).run { s with ahead := none }

def Source.isFinished (s : Source) : Bool :=
  match s.ahead with
  | some .finish => true
  | _ => false

end CBuild.Shell
