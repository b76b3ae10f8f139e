import ProjectLint.Decimal.Layout

/-!
# Rounded decimals

A binary number rounded to a number of decimal places or of significant digits. Rounding goes to the
nearest decimal, and from the middle between two to the even one; the number itself is exact.

A rounded number is written in two parts, the digits before the point and all that follows, so that
the first part can be grouped and filled up.
-/

namespace ProjectLint.Decimal

def roundDiv (num den : Nat) : Nat :=
  let below := num / den
  let left := num % den
  if 2 * left < den then below
  else if den < 2 * left then below + 1
  else if below % 2 = 0 then below else below + 1

def Binary.scaled (b : Binary) (places : Int) : Nat :=
  roundDiv (b.mantissa * twoTo b.exponent.toNat * tenTo places.toNat)
    (twoTo (-b.exponent).toNat * tenTo (-places).toNat)

def Binary.significant (b : Binary) (count : Nat) : List Char × Int :=
  if b.mantissa = 0 then (List.replicate count '0', 1)
  else
    let point := b.interval.pointFrom 640 (-330)
    let rounded := b.scaled (count - point)
    if rounded = tenTo count then (Nat.toDigits 10 (tenTo (count - 1)), point + 1)
    else (Nat.toDigits 10 rounded, point)

/-- The digits before the point, and all that follows them. -/
structure Parts where
  digits : List Char
  rest : List Char

/-- Where a number is written positionally, and what becomes of its point. -/
structure Writing where
  /-- The largest exponent that is written positionally. -/
  most : Int
  /-- At least one digit stands behind the point. -/
  oneDecimal : Bool
  /-- The point stays with nothing behind it. -/
  keepPoint : Bool

def Writing.decimals (w : Writing) (digits : List Char) : List Char :=
  if digits.isEmpty then (if w.keepPoint then ['.'] else []) else '.' :: digits

def exponentText (exponent : Int) : List Char :=
  (if exponent < 0 then '-' else '+') :: (padLeft 2 '0' (toString exponent.natAbs)).toList

def Writing.scientific (w : Writing) (digits : List Char) (point : Int) : Parts :=
  ⟨digits.take 1, w.decimals (digits.drop 1) ++ 'e' :: exponentText (point - 1)⟩

def Writing.positional (w : Writing) (digits : List Char) (point : Int) : Parts :=
  if point ≤ 0 then ⟨['0'], w.decimals (List.replicate (-point).toNat '0' ++ digits)⟩
  else
    let whole := digits.take point.toNat
    let decimals := digits.drop point.toNat
    ⟨whole ++ List.replicate (point.toNat - whole.length) '0',
      w.decimals (if decimals.isEmpty && w.oneDecimal then ['0'] else decimals)⟩

/-- Writes digits that stand for `0.d₁d₂… · 10 ^ point`. -/
def Writing.parts (w : Writing) (digits : List Char) (point : Int) : Parts :=
  if point ≤ -4 || w.most < point then w.scientific digits point else w.positional digits point

def withoutZeros (digits : List Char) : List Char :=
  digits.take 1 ++ ((digits.drop 1).reverse.dropWhile (· == '0')).reverse

def Binary.fixed (b : Binary) (places : Nat) (keepPoint : Bool) : Parts :=
  let digits := (padLeft (places + 1) '0' (toString (b.scaled places))).toList
  let whole := digits.length - places
  ⟨digits.take whole, Writing.decimals ⟨0, false, keepPoint⟩ (digits.drop whole)⟩

def Binary.scientific (b : Binary) (places : Nat) (keepPoint : Bool) : Parts :=
  let (digits, point) := b.significant (places + 1)
  Writing.scientific ⟨0, false, keepPoint⟩ digits point

/-- The number with significant digits, the zeros at their end left out unless the point is kept.
With one decimal at least, the last digit before the point does not count as positional. -/
def Binary.general (b : Binary) (count : Nat) (oneDecimal keepPoint : Bool) : Parts :=
  let count := max count 1
  let (digits, point) := b.significant count
  Writing.parts ⟨if oneDecimal then count - 1 else count, oneDecimal, keepPoint⟩
    (if keepPoint then digits else withoutZeros digits) point

def Binary.briefest (b : Binary) (keepPoint : Bool) : Parts :=
  let (digits, point) :=
    if b.mantissa = 0 then (['0'], 1)
    else (Nat.toDigits 10 b.shortest.digits, b.shortest.point)
  Writing.parts ⟨16, true, keepPoint⟩ digits point

end ProjectLint.Decimal
