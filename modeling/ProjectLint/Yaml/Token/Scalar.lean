import ProjectLint.Json.Reader
import ProjectLint.Yaml.Token

/-!
# Scalars of a document

Plain, quoted and block scalars. Lines are folded: one line break between two lines of text is a
space, further ones stand for themselves.
-/

namespace ProjectLint.Yaml

/-! ### Folding -/

def fold (first : Char) (breaks : List Char) : List Char :=
  if first != '\n' then first :: breaks
  else if breaks.isEmpty then [' ']
  else breaks

/-! ### Quoted scalars -/

def shortEscape? : Char → Option Char
  | '0' => some '\x00'
  | 'a' => some '\x07'
  | 'b' => some '\x08'
  | 't' => some '\t'
  | '\t' => some '\t'
  | 'n' => some '\n'
  | 'v' => some '\x0b'
  | 'f' => some '\x0c'
  | 'r' => some '\r'
  | 'e' => some '\x1b'
  | ' ' => some ' '
  | '"' => some '"'
  | '\\' => some '\\'
  | '/' => some '/'
  | 'N' => some '\x85'
  | '_' => some '\xa0'
  | 'L' => some '\u2028'
  | 'P' => some '\u2029'
  | _ => none

def escapeLength? : Char → Option Nat
  | 'x' => some 2
  | 'u' => some 4
  | 'U' => some 8
  | _ => none

def hexAhead? (cs : List Char) (n : Nat) : Option Nat :=
  if (cs.take n).length < n then none
  else
    (cs.take n).foldl (fun acc c => acc.bind fun v => (Json.hexDigit? c).map (16 * v + ·)) (some 0)

/-- Line breaks inside a quoted scalar, with the blanks at the line starts dropped. -/
def quotedBreaks : Nat → Position → List Char → Scan (List Char × Position)
  | 0, p, acc => .ok (acc.reverse, p)
  | fuel + 1, p, acc =>
    if p.atSeparator then badToken
    else
      let p := (p.takeWhile fun c => c == ' ' || c == '\t').2
      match p.lineBreak with
      | (some c, next) => quotedBreaks fuel next (c :: acc)
      | (none, _) => .ok (acc.reverse, p)

/-- Blanks inside a quoted scalar: kept within a line, folded where a line ends. -/
def quotedSpaces (fuel : Nat) (p : Position) : Scan (List Char × Position) :=
  let (blanks, p) := p.takeWhile fun c => c == ' ' || c == '\t'
  match p.peek with
  | none => badToken
  | some _ =>
    match p.lineBreak with
    | (some c, next) => do
      let (breaks, next) ← quotedBreaks fuel next []
      return (fold c breaks, next)
    | (none, _) => .ok (blanks, p)

/-- A run of a quoted scalar without blanks, up to a blank, the closing quote or the end. -/
def quotedRun (double : Bool) : Nat → Position → List Char → Scan (List Char × Position)
  | 0, p, acc => .ok (acc.reverse, p)
  | fuel + 1, p, acc =>
    match p.ahead with
    | [] => .ok (acc.reverse, p)
    | c :: rest =>
      if c == ' ' || c == '\t' || isBreak c then .ok (acc.reverse, p)
      else if !double && c == '\'' && rest.head? == some '\'' then
        quotedRun double fuel (p.skip 2) ('\'' :: acc)
      else if (if double then c == '"' else c == '\'') then .ok (acc.reverse, p)
      else if double && c == '\\' then
        match rest with
        | [] => badToken
        | e :: _ =>
          match shortEscape? e with
          | some d => quotedRun double fuel (p.skip 2) (d :: acc)
          | none =>
            match escapeLength? e with
            | some n =>
              let q := p.skip 2
              match hexAhead? q.ahead n with
              | none => badToken
              | some code =>
                if code ≥ 0x80000000 then .error .tooLarge
                else if code ≥ 0x110000 then .error (.badValue "the number is that of no character")
                else quotedRun double fuel (q.skip n) (Text.charOf code :: acc)
            | none =>
              if isBreak e then
                match quotedBreaks fuel p.next.lineBreak.2 [] with
                | .error f => .error f
                | .ok (breaks, q) => quotedRun double fuel q (breaks.reverse ++ acc)
              else badToken
      else quotedRun double fuel p.next (c :: acc)

/-- Alternates between blanks and runs until the closing quote. -/
def quotedRest (double : Bool) (mark : Char) : Nat → Position → List Char →
    Scan (List Char × Position)
  | 0, _, _ => badToken
  | fuel + 1, p, acc =>
    if p.peek == some mark then .ok (acc, p.next)
    else
      match quotedSpaces (fuel + 1) p with
      | .error f => .error f
      | .ok (blanks, p) =>
        match quotedRun double (fuel + 1) p [] with
        | .error f => .error f
        | .ok (run, p) => quotedRest double mark fuel p (acc ++ blanks ++ run)

def scanQuoted (p : Position) : Scan (Token × Position) := do
  let mark := p.peek.getD '"'
  let double := mark == '"'
  let fuel := p.ahead.length + 1
  let (run, p) ← quotedRun double fuel p.next []
  let (text, p) ← quotedRest double mark fuel p run
  return (.scalar (String.ofList text) false, p)

/-! ### Plain scalars -/

/-- Does a plain run stop before this text? -/
def stopsPlain (flow : Bool) : List Char → Bool
  | [] => true
  | c :: rest =>
    c == ' ' || c == '\t' || isBreak c ||
      (c == ':' && (endsWord rest.head? ||
        (flow && (match rest.head? with
          | some d => d == ',' || d == '[' || d == ']' || d == '\x7b' || d == '\x7d'
          | none => false)))) ||
      (flow && (c == ',' || c == '?' || c == '[' || c == ']' || c == '\x7b' || c == '\x7d'))

def plainRun (flow : Bool) : List Char → List Char
  | [] => []
  | c :: rest => if stopsPlain flow (c :: rest) then [] else c :: plainRun flow rest

/-- Spaces and line breaks after the first break behind a plain run; `none` before a document
marker. -/
def plainBreaks : Nat → Position → List Char → Option (List Char) × Position
  | 0, p, acc => (some acc.reverse, p)
  | fuel + 1, p, acc =>
    if p.peek == some ' ' then plainBreaks fuel p.next acc
    else
      match p.lineBreak with
      | (some c, next) =>
        if next.atSeparator then (none, next) else plainBreaks fuel next (c :: acc)
      | (none, _) => (some acc.reverse, p)

/-- What joins two plain runs, whether a line ended in it, and the place after it. -/
def plainSpaces (p : Position) : List Char × Bool × Position :=
  let (spaces, p) := p.takeWhile (· == ' ')
  match p.lineBreak with
  | (some c, next) =>
    if next.atSeparator then ([], true, next)
    else
      match plainBreaks (next.ahead.length + 1) next [] with
      | (none, q) => ([], true, q)
      | (some breaks, q) => (fold c breaks, true, q)
  | (none, _) => (spaces, false, p)

/-- The runs of a plain scalar. The flag tells whether the last thing passed was the end of a
line. -/
def plainRuns (flow : Bool) (indent : Int) :
    Nat → Position → List Char → List Char → Bool → List Char × Bool × Position
  | 0, p, acc, _, ended => (acc, ended, p)
  | fuel + 1, p, acc, spaces, ended =>
    if p.peek == some '#' then (acc, ended, p)
    else
      let run := plainRun flow p.ahead
      if run.isEmpty then (acc, ended, p)
      else
        let acc := acc ++ spaces ++ run
        let (spaces, ended, p) := plainSpaces (p.skip run.length)
        if spaces.isEmpty || p.peek == some '#' || (!flow && (p.column : Int) < indent) then
          (acc, ended, p)
        else plainRuns flow indent fuel p acc spaces ended

def scanPlain (flow : Bool) (indent : Int) (p : Position) : Token × Bool × Position :=
  let (text, ended, q) := plainRuns flow (indent + 1) (p.ahead.length + 1) p [] [] false
  (.scalar (String.ofList text) true, ended, q)

/-! ### Block scalars -/

/-- What happens to the line breaks at the end of a block scalar. -/
inductive Chomp where
  | strip
  | clip
  | keep
deriving DecidableEq

def chompOf? : Option Char → Option Chomp
  | some '+' => some .keep
  | some '-' => some .strip
  | _ => none

def increment? : Option Char → Scan (Option Nat)
  | some c =>
    if Json.isAsciiDigit c then (if c == '0' then badToken else .ok (some (c.toNat - '0'.toNat)))
    else .ok none
  | none => .ok none

def blockIndicators (p : Position) : Scan (Chomp × Option Nat × Position) := do
  let (chomp, increment, p) ←
    match chompOf? p.peek with
    | some chomp => do
      let p := p.next
      match ← increment? p.peek with
      | some n => pure (chomp, some n, p.next)
      | none => pure (chomp, none, p)
    | none => do
      match ← increment? p.peek with
      | some n =>
        let p := p.next
        match chompOf? p.peek with
        | some chomp => pure (chomp, some n, p.next)
        | none => pure (Chomp.clip, some n, p)
      | none => pure (Chomp.clip, none, p)
  if endsOrSpace p.peek then return (chomp, increment, p) else badToken

/-- Leading breaks of a block scalar whose indentation is still unknown, and the widest indentation
seen. -/
def blockIndentation : Nat → Position → List Char → Nat → List Char × Nat × Position
  | 0, p, acc, widest => (acc.reverse, widest, p)
  | fuel + 1, p, acc, widest =>
    if p.peek == some ' ' then
      let p := p.next
      blockIndentation fuel p acc (max widest p.column)
    else
      match p.lineBreak with
      | (some c, next) => blockIndentation fuel next (c :: acc) widest
      | (none, _) => (acc.reverse, widest, p)

def skipIndent (indent : Nat) (p : Position) : Position :=
  let spaces := (p.ahead.takeWhile (· == ' ')).length
  p.skip (min spaces (indent - p.column))

def blockBreaks (indent : Nat) : Nat → Position → List Char → List Char × Position
  | 0, p, acc => (acc.reverse, p)
  | fuel + 1, p, acc =>
    let p := skipIndent indent p
    match p.lineBreak with
    | (some c, next) => blockBreaks indent fuel next (c :: acc)
    | (none, _) => (acc.reverse, p)

def isBlankAt : Option Char → Bool
  | some c => c == ' ' || c == '\t'
  | none => false

/-- The lines of a block scalar: text so far, the last line break, the breaks after it. -/
def blockLines (folded : Bool) (indent : Nat) :
    Nat → Position → List Char → List Char → List Char × Option Char × List Char × Position
  | 0, p, acc, breaks => (acc, none, breaks, p)
  | fuel + 1, p, acc, breaks =>
    let acc := acc ++ breaks
    let startsWithText := !isBlankAt p.peek
    let (line, p) := p.takeWhile fun c => !isBreak c
    let acc := acc ++ line
    let (lineBreak, p) := p.lineBreak
    let (breaks, p) := blockBreaks indent (p.ahead.length + 1) p []
    if p.column == indent && p.peek.isSome then
      let join :=
        if folded && lineBreak == some '\n' && startsWithText && !isBlankAt p.peek then
          (if breaks.isEmpty then [' '] else [])
        else lineBreak.toList
      blockLines folded indent fuel p (acc ++ join) breaks
    else (acc, lineBreak, breaks, p)

def scanBlock (folded : Bool) (indent : Int) (p : Position) : Scan (Token × Position) := do
  let (chomp, increment, p) ← blockIndicators p.next
  let p ← p.ignoreLine
  let least := (max (indent + 1) 1).toNat
  let fuel := p.ahead.length + 1
  let (indent, breaks, p) :=
    match increment with
    | none =>
      let (breaks, widest, p) := blockIndentation fuel p [] 0
      (max least widest, breaks, p)
    | some n =>
      let indent := least + n - 1
      let (breaks, p) := blockBreaks indent fuel p []
      (indent, breaks, p)
  let (text, lineBreak, breaks, p) :=
    if p.column == indent && p.peek.isSome then blockLines folded indent fuel p [] breaks
    else ([], none, breaks, p)
  let text := if chomp == .strip then text else text ++ lineBreak.toList
  let text := if chomp == .keep then text ++ breaks else text
  return (.scalar (String.ofList text) false, p)

end ProjectLint.Yaml
