import ProjectLint.Fault

/-!
# Tokens of a document

The marks, names and scalars that a document text is made of, and the characters that matter to
telling them apart. `none` stands for the end of the text where a character is looked at.
-/

namespace ProjectLint.Yaml

inductive Token where
  | streamStart
  | streamEnd
  | directive (name : String) (version : Option (Nat × Nat)) (handle : Option (String × String))
  | documentStart
  | documentEnd
  | blockSequenceStart
  | blockMappingStart
  | blockEnd
  | flowSequenceStart
  | flowSequenceEnd
  | flowMappingStart
  | flowMappingEnd
  | blockEntry
  | flowEntry
  | key
  | value
  | alias (name : String)
  | anchor (name : String)
  | tag (handle : Option String) (suffix : String)
  | scalar (text : String) (plain : Bool)
deriving DecidableEq, Repr

abbrev Scan := Except Fault

def badToken {α : Type} : Scan α := .error (.badDocument .tokens)

def isBreak (c : Char) : Bool :=
  c == '\n' || c == '\r' || c == '\x85' || c == '\u2028' || c == '\u2029'

def isBreakAt : Option Char → Bool
  | none => false
  | some c => isBreak c

def endsLine : Option Char → Bool
  | none => true
  | some c => isBreak c

def endsOrSpace : Option Char → Bool
  | none => true
  | some c => c == ' ' || isBreak c

def endsWord : Option Char → Bool
  | none => true
  | some c => c == ' ' || c == '\t' || isBreak c

def isNameChar (c : Char) : Bool := c.isAlphanum || c == '-' || c == '_'

def isUriChar (c : Char) : Bool :=
  c.isAlphanum || "-;/?:@&=+$,_.!~*'()[]%".toList.contains c

/-- Characters that a document may hold at all. -/
def isAllowed (c : Char) : Bool :=
  let n := c.toNat
  n == 0x09 || n == 0x0A || n == 0x0D || (0x20 ≤ n && n ≤ 0x7E) || n == 0x85 ||
    (0xA0 ≤ n && n ≤ 0xD7FF) || (0xE000 ≤ n && n ≤ 0xFFFD) || 0x10000 ≤ n

/-! ### Position in the text -/

/-- What stands ahead, and where. -/
structure Position where
  ahead : List Char
  index : Nat
  line : Nat
  column : Nat

namespace Position

def start (text : List Char) : Position := ⟨text, 0, 0, 0⟩

def peek (p : Position) : Option Char := p.ahead.head?

def peekAt (p : Position) (n : Nat) : Option Char := p.ahead[n]?

/-- Passes one character and keeps count of lines and columns. -/
def next (p : Position) : Position :=
  match p.ahead with
  | [] => p
  | c :: rest =>
    if c == '\n' || c == '\x85' || c == '\u2028' || c == '\u2029' ||
        (c == '\r' && rest.head? != some '\n') then ⟨rest, p.index + 1, p.line + 1, 0⟩
    else if c == '\ufeff' then ⟨rest, p.index + 1, p.line, p.column⟩
    else ⟨rest, p.index + 1, p.line, p.column + 1⟩

def skip (p : Position) : Nat → Position
  | 0 => p
  | n + 1 => p.next.skip n

def takeWhile (p : Position) (f : Char → Bool) : List Char × Position :=
  let taken := p.ahead.takeWhile f
  (taken, p.skip taken.length)

def skipSpaces (p : Position) : Position := (p.takeWhile (· == ' ')).2

/-- Passes a line break, if one is here; all but the two separators count as a line feed. -/
def lineBreak (p : Position) : Option Char × Position :=
  match p.ahead with
  | '\r' :: '\n' :: _ => (some '\n', p.skip 2)
  | c :: _ =>
    if c == '\r' || c == '\n' || c == '\x85' then (some '\n', p.next)
    else if c == '\u2028' || c == '\u2029' then (some c, p.next)
    else (none, p)
  | [] => (none, p)

/-- Does a marker between documents stand here? -/
def atMarker (p : Position) (mark : Char) : Bool :=
  match p.ahead with
  | a :: b :: c :: rest => a == mark && b == mark && c == mark && endsWord rest.head?
  | _ => false

def atSeparator (p : Position) : Bool := p.atMarker '-' || p.atMarker '.'

def ignoreLine (p : Position) : Scan Position :=
  let p := p.skipSpaces
  let p := if p.peek == some '#' then (p.takeWhile fun c => !isBreak c).2 else p
  if endsLine p.peek then .ok p.lineBreak.2 else badToken

end Position

end ProjectLint.Yaml
