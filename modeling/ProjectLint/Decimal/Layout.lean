import ProjectLint.Decimal.Shortest

/-!
# Layout of decimals

How the digits of a number are written: positionally in a middle range, with an exponent outside of
it.
-/

namespace ProjectLint.Decimal

/-- The decisions of a decimal format. A number `0.d₁d₂… · 10 ^ point` is written positionally when
`least < point ≤ most`. -/
structure Layout where
  least : Int
  most : Int
  exponentWidth : Nat
  positive : String
  notANumber : String
  infinity : String

/-- Numbers in messages: sixteen places before the point and four zeros after it are still written
out, the exponent has a sign and two places. -/
def Layout.message : Layout :=
  ⟨-4, 16, 2, "+", "nan", "inf"⟩

def padLeft (width : Nat) (fill : Char) (s : String) : String :=
  String.ofList (List.replicate (width - s.length) fill) ++ s

def zerosText (n : Nat) : String := String.ofList (List.replicate n '0')

def positional (digits : String) (point : Int) : String :=
  if point ≤ 0 then "0." ++ zerosText (-point).toNat ++ digits
  else if digits.length ≤ point.toNat then digits ++ zerosText (point.toNat - digits.length) ++ ".0"
  else (digits.take point.toNat).toString ++ "." ++ (digits.drop point.toNat).toString

def Layout.scientific (l : Layout) (digits : String) (point : Int) : String :=
  let lead := (digits.take 1).toString
  let rest := (digits.drop 1).toString
  let exponent := point - 1
  let sign := if exponent < 0 then "-" else l.positive
  lead ++ (if rest.isEmpty then "" else "." ++ rest) ++ "e" ++ sign ++
    padLeft l.exponentWidth '0' (toString exponent.natAbs)

def Layout.digits (l : Layout) (d : Digits) : String :=
  let digits := toString d.digits
  if l.least < d.point && d.point ≤ l.most then positional digits d.point
  else l.scientific digits d.point

/-- The text of a double. -/
def Layout.float (l : Layout) (x : Float) : String :=
  let bits := x.toBits
  let sign := if bits.toNat / twoTo 63 = 1 then "-" else ""
  let scale : Nat := bits.toNat / twoTo 52 % twoTo 11
  if scale = 2047 then
    if bits.toNat % twoTo 52 = 0 then sign ++ l.infinity else l.notANumber
  else if bits.toNat % twoTo 63 = 0 then sign ++ "0.0"
  else sign ++ l.digits (Binary.ofBits bits).shortest

/-- The fraction that a finite double is equal to. -/
def fraction? (x : Float) : Option (Int × Nat) :=
  let bits := x.toBits
  let scale : Nat := bits.toNat / twoTo 52 % twoTo 11
  if scale = 2047 then none
  else
    let b := Binary.ofBits bits
    let size := b.mantissa * twoTo b.exponent.toNat
    some (if bits.toNat / twoTo 63 = 1 then -(size : Int) else size, twoTo (-b.exponent).toNat)

def integer? (x : Float) : Option Int :=
  (fraction? x).bind fun (num, den) => if num % den = 0 then some (num / den) else none

def intBelow (n : Int) (x : Float) : Bool :=
  match fraction? x with
  | some (num, den) => n * den < num
  | none => 0.0 < x

def belowInt (x : Float) (n : Int) : Bool :=
  match fraction? x with
  | some (num, den) => num < n * den
  | none => x < 0.0

def infinity : Float := Float.ofBits 0x7ff0000000000000
def notANumber : Float := Float.ofBits 0x7ff8000000000000

/-- The double nearest to `mantissa · 10 ^ exponent`. Exponents far outside the range of doubles are
settled without computing the power. -/
def nearest (mantissa : Nat) (exponent : Int) : Float :=
  let places := (Nat.toDigits 10 mantissa).length
  if mantissa = 0 then 0.0
  else if exponent + places > 400 then infinity
  else if exponent + places < -400 then 0.0
  else Float.ofScientific mantissa (exponent < 0) exponent.natAbs

end ProjectLint.Decimal
