import ProjectLint.Decimal.Rounded
import ProjectLint.Text.Digit
import ProjectLint.Value.Access

/-!
# Layout of template fields

A layout says how a value is written into a template: in which width, filled up by what and on which
side, and for numbers also with which sign, digits and grouping: `[[fill] align] [sign] [z] [#] [0]
[width] [, or _] [. precision] [type]`.
-/

namespace ProjectLint.Template

def bad {α : Type} (reason : String) : Except Fault α := .error (.badValue reason)

def digitsValue? (cs : List Char) : Option Nat :=
  if cs.isEmpty then none
  else cs.foldl (fun n c => n.bind fun n => (Text.digit? c).map fun d => 10 * n + d) (some 0)

def index? (cs : List Char) : Except Fault (Option Nat) :=
  match digitsValue? cs with
  | some n =>
    if n < Decimal.twoTo 63 then .ok (some n) else bad "Too many decimal digits in format string"
  | none => .ok none

structure Layout where
  fill : Char
  align : Option Char
  sign : Option Char
  /-- A number that is rounded to zero loses its minus sign. -/
  plainZero : Bool
  alternate : Bool
  zeros : Bool
  width : Option Nat
  separator : Option Char
  precision : Option Nat
  type : Option Char

namespace Layout

def isAlign (c : Char) : Bool := c == '<' || c == '>' || c == '=' || c == '^'

def accept (wanted : Char → Bool) : List Char → Option Char × List Char
  | c :: rest => if wanted c then (some c, rest) else (none, c :: rest)
  | [] => (none, [])

def takeNumber (cs : List Char) : Except Fault (Option Nat × List Char) :=
  let digits := cs.takeWhile Text.isDecimalDigit
  (index? digits).map fun n => (n, cs.drop digits.length)

/-- Reads a layout. -/
def parse (cs : List Char) : Except Fault Layout := do
  let (fill, align, cs) := match cs with
    | c :: a :: rest => if isAlign a then (some c, some a, rest)
      else if isAlign c then (none, some c, a :: rest) else (none, none, cs)
    | [a] => if isAlign a then (none, some a, []) else (none, none, cs)
    | [] => (none, none, [])
  let (sign, cs) := accept (fun c => c == ' ' || c == '+' || c == '-') cs
  let (zero, cs) := accept (· == 'z') cs
  let (alternate, cs) := accept (· == '#') cs
  let (zeros, cs) := if fill.isNone then accept (· == '0') cs else (none, cs)
  let (width, cs) ← takeNumber cs
  let (comma, cs) := accept (· == ',') cs
  let (low, cs) := accept (· == '_') cs
  if comma.isSome && low.isSome then bad "Cannot specify both ',' and '_'."
  if low.isSome && cs.head? == some ',' then bad "Cannot specify both ',' and '_'."
  let (precision, cs) ← match cs with
    | '.' :: rest =>
      match ← takeNumber rest with
      | (some n, rest) => pure (some n, rest)
      | (none, _) => bad "Format specifier missing precision"
    | _ => pure (none, cs)
  let type ← match cs with
    | [] => pure none
    | [c] => pure (some c)
    | _ => bad "Invalid format specifier"
  let fill := fill.getD (if zeros.isSome then '0' else ' ')
  return ⟨fill, align, sign, zero.isSome, alternate.isSome, zeros.isSome, width,
    if comma.isSome then some ',' else if low.isSome then some '_' else none, precision, type⟩

def margins (fill align : Char) (gap : Nat) : List Char × List Char :=
  let left := if align == '>' then gap else if align == '^' then gap / 2 else 0
  (List.replicate left fill, List.replicate (gap - left) fill)

def pad (fill align : Char) (width : Nat) (cs : List Char) : List Char :=
  let (left, right) := margins fill align (width - cs.length)
  left ++ cs ++ right

/-- Lays out a text. -/
def text (l : Layout) (s : String) : Except Fault String := do
  if l.separator.isSome then bad "Cannot specify a separator with a text."
  if (l.type.getD 's') != 's' then bad "Unknown format code for a text."
  if l.sign.isSome then bad "Sign not allowed in string format specifier"
  if l.plainZero then bad "Negative zero coercion (z) not allowed in string format specifier"
  if l.alternate then bad "Alternate form (#) not allowed in string format specifier"
  if l.align == some '=' then bad "'=' alignment not allowed in string format specifier"
  let cs := match l.precision with
    | some n => s.toList.take n
    | none => s.toList
  return String.ofList (pad l.fill (l.align.getD '<') (l.width.getD 0) cs)

/-! ### Numbers -/

/-- The digits that a number is written with, and what stands around them. -/
structure Numeral where
  negative : Bool
  /-- The mark of another base. -/
  mark : List Char
  digits : List Char
  rest : List Char

def group (separator : Char) (size : Nat) (digits : List Char) : List Char :=
  let marked := (List.range digits.length).zip digits.reverse |>.flatMap fun (n, c) =>
    if n != 0 && n % size == 0 then [separator, c] else [c]
  marked.reverse

def groupedLength (grouping : Option (Char × Nat)) (count : Nat) : Nat :=
  match grouping with
  | some (_, size) => count + (count - 1) / size
  | none => count

def extend (grouping : Option (Char × Nat)) (least : Nat) : Nat → List Char → List Char
  | 0, digits => digits
  | fuel + 1, digits =>
    if groupedLength grouping digits.length < least then extend grouping least fuel ('0' :: digits)
    else digits

def signOf (l : Layout) (negative : Bool) : List Char :=
  if negative then ['-']
  else match l.sign with
    | some '+' => ['+']
    | some ' ' => [' ']
    | _ => []

/-- Groups the digits of a number and fills the number up. Zeros that fill up before the digits are
grouped with them. -/
def number (l : Layout) (groupSize : Nat) (n : Numeral) : String :=
  let grouping := l.separator.map fun c => (c, groupSize)
  let lead := l.signOf n.negative ++ n.mark
  let align := l.align.getD (if l.zeros then '=' else '>')
  let width := l.width.getD 0
  let least := if l.fill == '0' && align == '=' then width - (lead.length + n.rest.length) else 0
  let digits := if n.digits.isEmpty then [] else extend grouping least least n.digits
  let digits := match grouping with
    | some (c, size) => group c size digits
    | none => digits
  let gap := width - (lead.length + digits.length + n.rest.length)
  String.ofList <|
    if align == '=' then lead ++ List.replicate gap l.fill ++ digits ++ n.rest
    else
      let (left, right) := margins l.fill align gap
      left ++ lead ++ digits ++ n.rest ++ right

def isNumberType (c : Char) : Bool :=
  c == 'e' || c == 'E' || c == 'f' || c == 'F' || c == 'g' || c == 'G' || c == '%'

/-- The number of a finite double, rounded as a layout asks for. -/
def rounded (l : Layout) (type : Option Char) (b : Decimal.Binary) : Decimal.Parts :=
  let count := l.precision.getD 6
  match type with
  | none =>
    match l.precision with
    | none => b.briefest l.alternate
    | some n => b.general n true l.alternate
  | some 'f' | some '%' => b.fixed count l.alternate
  | some 'e' => b.scientific count l.alternate
  | _ => b.general count false l.alternate

/-- The numeral of a double. -/
def numeral (l : Layout) (type : Option Char) (x : Float) : Numeral :=
  let bits := x.toBits
  let negative := bits.toNat / Decimal.twoTo 63 = 1
  if bits.toNat / Decimal.twoTo 52 % Decimal.twoTo 11 = 2047 then
    if bits.toNat % Decimal.twoTo 52 = 0 then ⟨negative, [], [], "inf".toList⟩
    else ⟨false, [], [], "nan".toList⟩
  else
    let parts := l.rounded type (Decimal.Binary.ofBits bits)
    let mantissa := parts.digits ++ parts.rest.takeWhile (· != 'e')
    let isZero := mantissa.all fun c => c == '0' || c == '.'
    ⟨negative && !(l.plainZero && isZero), [], parts.digits, parts.rest⟩

/-- Lays out a double. -/
def float (l : Layout) (x : Float) : Except Fault String := do
  if let some c := l.type then
    if !(isNumberType c || c == 'n') then bad "Unknown format code for a number."
  if l.separator.isSome && l.type == some 'n' then bad "Cannot specify a separator with 'n'."
  let isPercentage := l.type == some '%'
  let n := l.numeral (l.type.map Char.toLower) (if isPercentage then x * 100 else x)
  let rest := if isPercentage then n.rest ++ ['%'] else n.rest
  let isUpper := l.type == some 'E' || l.type == some 'F' || l.type == some 'G'
  return l.number 3 { n with rest := if isUpper then rest.map Char.toUpper else rest }

def character (l : Layout) (n : Int) : Except Fault String := do
  if l.sign.isSome then bad "Sign not allowed with integer format specifier 'c'"
  if l.alternate then bad "Alternate form (#) not allowed with integer format specifier 'c'"
  if l.separator.isSome then bad "Cannot specify a separator with 'c'."
  if n < 0 || 0x10ffff < n then throw .tooLarge
  return l.number 3 ⟨false, [], [], [Text.charOf n.toNat]⟩

def base? (type : Char) : Option Nat :=
  match type with
  | 'd' | 'n' => some 10
  | 'b' => some 2
  | 'o' => some 8
  | 'x' | 'X' => some 16
  | _ => none

def integerIn (l : Layout) (type : Char) (base : Nat) (n : Int) : Except Fault String := do
  if l.separator.isSome && type == 'n' then bad "Cannot specify a separator with 'n'."
  if l.separator == some ',' && base != 10 then bad "Cannot specify ',' with this base."
  let digits := Nat.toDigits base n.natAbs
  let digits := if type == 'X' then digits.map Char.toUpper else digits
  let mark := if l.alternate && base != 10 then ['0', type] else []
  return l.number (if base == 10 then 3 else 4) ⟨n < 0, mark, digits, []⟩

/-- Lays out an integer. Types of fractions take it as a double, which it may be too large for. -/
def integer (l : Layout) (n : Int) : Except Fault String := do
  let type := l.type.getD 'd'
  if isNumberType type then
    let x := Float.ofInt n
    if x.isInf then throw .tooLarge
    l.float x
  else
    if l.precision.isSome then bad "Precision not allowed in integer format specifier"
    if l.plainZero then
      bad "Negative zero coercion (z) not allowed in format specifier with integer"
    if type == 'c' then l.character n
    else
      match base? type with
      | some base => l.integerIn type base n
      | none => bad "Unknown format code for a number."

end Layout

/-- Lays out a value. Only texts and numbers take a layout. -/
def layOut (v : Value) (spec : List Char) : Except Fault String :=
  if spec.isEmpty then .ok v.text
  else
    match v with
    | .str s => do (← Layout.parse spec).text s
    | .int n => do (← Layout.parse spec).integer n
    | .bool b => do (← Layout.parse spec).integer (if b then 1 else 0)
    | .float x => do (← Layout.parse spec).float x
    | _ => .error .wrongKind

end ProjectLint.Template
