import ProjectLint.Yaml.Piece

/-!
# Laying out a document

Block style with an indentation of two; sequences under a key are not indented. Texts are written
plain where they read back as the same text, in single quotes where they hold nothing special, and
in double quotes with escapes otherwise. Lines are broken at single spaces beyond column 80.
-/

namespace ProjectLint.Yaml

/-- What has been written, and where the pen stands. -/
structure Sheet where
  out : String
  column : Nat
  /-- Nothing but blanks since the last mark. -/
  blank : Bool
  /-- Nothing but indentation and entry marks on this line. -/
  indented : Bool

namespace Sheet

def width : Nat := 80

def start : Sheet := ⟨"", 0, true, true⟩

def write (s : Sheet) (text : String) : Sheet :=
  { s with out := s.out ++ text, column := s.column + text.length }

def mark (s : Sheet) (text : String) (spaced : Bool) (entry : Bool) : Sheet :=
  let text := if s.blank || !spaced then text else " " ++ text
  let s := s.write text
  { s with blank := false, indented := s.indented && entry }

def lineBreak (s : Sheet) (text : String) : Sheet := ⟨s.out ++ text, 0, true, true⟩

def indent (s : Sheet) (column : Nat) : Sheet :=
  let s :=
    if !s.indented || s.column > column || (s.column == column && !s.blank) then s.lineBreak "\n"
    else s
  if s.column < column then
    let gap := String.ofList (List.replicate (column - s.column) ' ')
    { s with out := s.out ++ gap, column := column, blank := true }
  else s

def fold (s : Sheet) (column : Nat) : Sheet :=
  { s.indent column with blank := false, indented := false }

end Sheet

/-! ### How a text may be written -/

structure Analysis where
  empty : Bool
  multiline : Bool
  plain : Bool
  single : Bool
  literal : Bool

/-- What is seen while going through a text. -/
structure Traits where
  indicator : Bool := false
  breaks : Bool := false
  special : Bool := false
  breakSpace : Bool := false
  spaceBreak : Bool := false

def isFoldBreak (c : Char) : Bool :=
  c == '\n' || c == '\x85' || c == '\u2028' || c == '\u2029'

/-- Goes through a text. `before` is the character before, `first` tells that there is none. -/
def traits (first : Bool) (before : Char) (t : Traits) : List Char → Traits
  | [] => t
  | c :: rest =>
    let followed := endsWord rest.head?
    let preceded := endsWord (some before)
    let indicator :=
      if first then
        "#,[]\x7b\x7d&*!|>'\"%@\x60".toList.contains c ||
          ((c == '?' || c == ':' || c == '-') && followed)
      else (c == ':' && followed) || (c == '#' && preceded)
    let t : Traits :=
      { indicator := t.indicator || indicator
        breaks := t.breaks || isFoldBreak c
        special := t.special || !(c == '\n' || (0x20 ≤ c.toNat && c.toNat ≤ 0x7E))
        breakSpace := t.breakSpace || (!first && c == ' ' && isFoldBreak before)
        spaceBreak := t.spaceBreak || (!first && isFoldBreak c && before == ' ') }
    traits false c t rest

def startsLikeMarker : List Char → Bool
  | '-' :: '-' :: '-' :: _ => true
  | '.' :: '.' :: '.' :: _ => true
  | _ => false

def analyze (text : List Char) : Analysis :=
  if text.isEmpty then ⟨true, false, true, true, false⟩
  else
    let t := traits true ' ' {} text
    let first := text.head?.getD ' '
    let last := text.getLast?.getD ' '
    let edge := first == ' ' || isFoldBreak first || last == ' ' || isFoldBreak last
    let rough := t.breakSpace || t.spaceBreak || t.special
    { empty := false
      multiline := t.breaks
      plain := !(edge || rough || t.breaks || t.indicator || startsLikeMarker text)
      single := !rough
      literal := !(last == ' ' || t.spaceBreak || t.special) }

inductive Style where
  | plain
  | single
  | double
  | literal
deriving DecidableEq

def chooseStyle (tag : Tag) (text : String) (key : Bool) : Style :=
  let a := analyze text.toList
  if tag == .binary then (if !key && a.literal then .literal else .double)
  else if implicitTag text == tag && !(key && (a.empty || a.multiline)) && a.plain then .plain
  else if a.single && !(key && a.multiline) then .single
  else .double

/-! ### Writing texts -/

def runsBy {α : Type} [BEq α] (f : Char → α) : List Char → List (α × List Char)
  | [] => []
  | c :: rest =>
    match runsBy f rest with
    | [] => [(f c, [c])]
    | (k, run) :: runs => if k == f c then (k, c :: run) :: runs else (f c, [c]) :: (k, run) :: runs

/-- Writes a plain text; a single space may become a line break. -/
def Sheet.plain (s : Sheet) (text : String) (split : Bool) (column : Nat) : Sheet :=
  if text.isEmpty then s
  else
    let s := if s.blank then s else s.write " "
    let s := { s with blank := false, indented := false }
    (runsBy (· == ' ') text.toList).foldl
      (fun s (run : Bool × List Char) =>
        if run.1 && run.2.length == 1 && s.column > Sheet.width && split then s.fold column
        else s.write (String.ofList run.2)) s

inductive QuoteRun where
  | spaces
  | breaks
  | quote
  | other
deriving DecidableEq, BEq

def quoteRun (c : Char) : QuoteRun :=
  if c == ' ' then .spaces
  else if isFoldBreak c then .breaks
  else if c == '\'' then .quote
  else .other

/-- Runs of a single-quoted text; `place` counts the characters before. -/
def Sheet.singleRuns (split : Bool) (column length : Nat) :
    Nat → List (QuoteRun × List Char) → Sheet → Sheet
  | _, [], s => s
  | place, (kind, run) :: rest, s =>
    let after := place + run.length
    let s :=
      match kind with
      | .spaces =>
        if run.length == 1 && s.column > Sheet.width && split && place != 0 && after != length then
          s.indent column
        else s.write (String.ofList run)
      | .breaks =>
        let s := if run.head? == some '\n' then s.lineBreak "\n" else s
        (run.foldl (fun s c => s.lineBreak (String.singleton c)) s).indent column
      | .quote => s.write (String.ofList (run.flatMap fun c => [c, c]))
      | .other => s.write (String.ofList run)
    Sheet.singleRuns split column length after rest s

def Sheet.single (s : Sheet) (text : String) (split : Bool) (column : Nat) : Sheet :=
  let cs := text.toList
  let s := s.mark "'" true false
  (Sheet.singleRuns split column cs.length 0 (runsBy quoteRun cs) s).mark "'" false false

def upperHex (width n : Nat) : String :=
  String.ofList ((Text.hex width n).toList.map Char.toUpper)

def escapeText (c : Char) : String :=
  match c with
  | '\x00' => "\\0"
  | '\x07' => "\\a"
  | '\x08' => "\\b"
  | '\t' => "\\t"
  | '\n' => "\\n"
  | '\x0b' => "\\v"
  | '\x0c' => "\\f"
  | '\r' => "\\r"
  | '\x1b' => "\\e"
  | '"' => "\\\""
  | '\\' => "\\\\"
  | '\x85' => "\\N"
  | '\xa0' => "\\_"
  | '\u2028' => "\\L"
  | '\u2029' => "\\P"
  | _ =>
    let n := Text.codeOf c
    if n < 0x100 then "\\x" ++ upperHex 2 n
    else if n < 0x10000 then "\\u" ++ upperHex 4 n
    else "\\U" ++ upperHex 8 n

def needsEscape (c : Char) : Bool :=
  c == '"' || c == '\\' || !(0x20 ≤ c.toNat && c.toNat ≤ 0x7E)

/-- Writes a double-quoted text from `place` on; `run` is what has been passed and not yet
written. -/
def Sheet.doubleFrom (split : Bool) (column length : Nat) :
    Nat → List Char → List Char → Sheet → Sheet
  | _, run, [], s => s.write (String.ofList run)
  | place, run, c :: rest, s =>
    let inner := 0 < place && place + 1 < length && split
    if needsEscape c then
      let s := (s.write (String.ofList run)).write (escapeText c)
      let s :=
        if inner && s.column > Sheet.width + 1 then
          let s := (s.write "\\").fold column
          if rest.head? == some ' ' then s.write "\\" else s
        else s
      Sheet.doubleFrom split column length (place + 1) [] rest s
    else if inner && (c == ' ' || run.isEmpty) && s.column + run.length > Sheet.width then
      let s := ((s.write (String.ofList run)).write "\\").fold column
      let s := if c == ' ' then s.write "\\" else s
      Sheet.doubleFrom split column length (place + 1) [c] rest s
    else Sheet.doubleFrom split column length (place + 1) (run ++ [c]) rest s

def Sheet.double (s : Sheet) (text : String) (split : Bool) (column : Nat) : Sheet :=
  let cs := text.toList
  let s := s.mark "\"" true false
  (Sheet.doubleFrom split column cs.length 0 [] cs s).mark "\"" false false

/-- Lines of a literal block. -/
def Sheet.literal (s : Sheet) (text : String) (column : Nat) : Sheet :=
  let s := (s.mark "|" true false).lineBreak "\n"
  let lines := Text.split '\n' text
  (lines.foldl (fun (acc : Sheet × Bool) line =>
      let (s, first) := acc
      if line.isEmpty then (s, false)
      else
        let s := if first then s else s.lineBreak "\n"
        ((s.indent column).write line, false)) (s, true)).1

/-! ### Writing pieces -/

def deeper : Option Nat → Nat
  | none => 2
  | some n => n + 2

def blockIndent : Option Nat → Nat
  | none => 0
  | some n => n + 2

def Sheet.anchor (s : Sheet) : Option String → Sheet
  | none => s
  | some name => s.mark ("&" ++ name) true false

def Sheet.tag (s : Sheet) : Option String → Sheet
  | none => s
  | some tag => s.mark tag true false

/-- A scalar. `key` tells that it is a key that has to stay on its line. -/
def Sheet.scalar (s : Sheet) (outer : Option Nat) (key : Bool) (tag : Tag) (text : String) :
    Sheet :=
  let style := chooseStyle tag text key
  let column := deeper outer
  let implied := if style == .plain then implicitTag text == tag else tag == .str
  let s := if implied then s else s.mark tag.short true false
  match style with
  | .plain => s.plain text (!key) column
  | .single => s.single text (!key) column
  | .double => s.double text (!key) column
  | .literal => s.literal text column

def Piece.isSimpleKey : Piece → Bool
  | .alias name => name.length + 1 < 128
  | .scalar anchor tag text =>
    let a := analyze text.toList
    (anchor.getD "").length + tag.short.length + text.length < 128 && !a.empty && !a.multiline
  | .seq _ _ items => items.isEmpty
  | .map _ _ entries => entries.isEmpty

mutual

/-- Writes a piece. `outer` is the indentation around it, `inMap` tells that it stands in a mapping,
`key` that it is a key on its line. -/
def Sheet.piece (s : Sheet) (outer : Option Nat) (inMap key : Bool) : Piece → Sheet
  | .alias name => s.mark ("*" ++ name) true false
  | .scalar anchor tag text => (s.anchor anchor).scalar outer key tag text
  | .seq anchor tag items =>
    let s := (s.anchor anchor).tag tag
    if items.isEmpty then (s.mark "[" true false).mark "]" false false
    else
      let column := if inMap && !s.indented then outer.getD 0 else blockIndent outer
      Sheet.items s column items
  | .map anchor tag entries =>
    let s := (s.anchor anchor).tag tag
    if entries.isEmpty then (s.mark "\x7b" true false).mark "\x7d" false false
    else Sheet.entries s (blockIndent outer) entries

def Sheet.items (s : Sheet) (column : Nat) : List Piece → Sheet
  | [] => s
  | p :: rest =>
    let s := (s.indent column).mark "-" true true
    Sheet.items (Sheet.piece s (some column) false false p) column rest

def Sheet.entries (s : Sheet) (column : Nat) : List (Piece × Piece) → Sheet
  | [] => s
  | (k, v) :: rest =>
    let s := s.indent column
    let s :=
      if k.isSimpleKey then
        let s := (Sheet.piece s (some column) true true k).mark ":" false false
        Sheet.piece s (some column) true false v
      else
        let s := Sheet.piece (s.mark "?" true true) (some column) true false k
        let s := (s.indent column).mark ":" true true
        Sheet.piece s (some column) true false v
    Sheet.entries s column rest

end

def Document.write (d : Document) : String :=
  ((Sheet.start.piece none false false d.piece).indent 0).out

end ProjectLint.Yaml
