import ProjectLint.Decimal.Layout
import ProjectLint.Text.Blank
import ProjectLint.Text.Digit

/-!
# Numbers in text

A number may be surrounded by blanks and carry a sign; its digits may come from any script. An
integer may also have single low lines between its digits.
-/

namespace ProjectLint.Text

/-- A digit of a base up to 36. -/
def baseDigit? (base : Nat) (c : Char) : Option Nat :=
  let value :=
    match digit? c with
    | some d => some d
    | none =>
      if 'a' ≤ c && c ≤ 'z' then some (c.toNat - 'a'.toNat + 10)
      else if 'A' ≤ c && c ≤ 'Z' then some (c.toNat - 'A'.toNat + 10)
      else none
  value.bind fun d => if d < base then some d else none

def digitsIn (base : Nat) : Bool → Nat → List Char → Option Nat
  | afterDigit, n, [] => if afterDigit then some n else none
  | afterDigit, n, c :: rest =>
    if c == '_' then (if afterDigit then digitsIn base false n rest else none)
    else (baseDigit? base c).bind fun d => digitsIn base true (base * n + d) rest

/-- A marker of the base, as `0x`, which may stand before the digits of that base. -/
def dropBaseMarker (base : Nat) (cs : List Char) : List Char :=
  match cs with
  | '0' :: m :: rest =>
    if (base == 16 && (m == 'x' || m == 'X')) || (base == 8 && (m == 'o' || m == 'O')) ||
        (base == 2 && (m == 'b' || m == 'B')) then
      (match rest with
       | '_' :: more => more
       | _ => rest)
    else cs
  | _ => cs

def isNumberBlank (c : Char) : Bool := isBlank c && !(28 ≤ c.toNat && c.toNat ≤ 31)

def splitSign : List Char → Bool × List Char
  | '-' :: rest => (true, rest)
  | '+' :: rest => (false, rest)
  | cs => (false, cs)

def mostDigits : Nat := 4300

def isPowerOfTwo (base : Nat) : Bool := [2, 4, 8, 16, 32].contains base

def integerIn? (base : Nat) (s : String) : Option Int :=
  let (negative, body) := splitSign (trimWhere isNumberBlank s.toList)
  let digits := dropBaseMarker base body
  if !isPowerOfTwo base && (digits.filter (· != '_')).length > mostDigits then none
  else
    (digitsIn base false 0 digits).map fun n => if negative then -(n : Int) else n

def integer? (s : String) : Option Int := integerIn? 10 s

def decimalValue (digits : List Char) : Nat :=
  (digits.filterMap digit?).foldl (fun n d => 10 * n + d) 0

/-- A plain decimal number without a sign: digits with an optional point and exponent. -/
def unsignedFloat? (cs : List Char) : Option Float :=
  let whole := cs.takeWhile isDecimalDigit
  let rest := cs.drop whole.length
  let (fraction, rest) := match rest with
    | '.' :: more => (more.takeWhile isDecimalDigit, more.dropWhile isDecimalDigit)
    | _ => ([], rest)
  if whole.isEmpty && fraction.isEmpty then none
  else
    let mantissa := decimalValue (whole ++ fraction)
    let places : Int := fraction.length
    match rest with
    | [] => some (Decimal.nearest mantissa (-places))
    | e :: more =>
      if e == 'e' || e == 'E' then
        let (negative, digits) := splitSign more
        if digits.isEmpty || !digits.all isDecimalDigit then none
        else
          let size : Int := decimalValue digits
          some (Decimal.nearest mantissa ((if negative then -size else size) - places))
      else none

/-- The double that a text writes: a decimal number, or a word for infinity or for no number, in
which case does not count. -/
def float? (cs : List Char) : Option Float :=
  let (negative, body) := splitSign (trimWhere isNumberBlank cs)
  let word := String.ofList (body.map Char.toLower)
  let size :=
    if word == "inf" || word == "infinity" then some Decimal.infinity
    else if word == "nan" then some Decimal.notANumber
    else unsignedFloat? body
  size.map fun x => if negative then -x else x

end ProjectLint.Text
