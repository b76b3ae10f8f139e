/-!
# Shortest decimals

A finite binary number stands for an interval of reals: those that round to it. Of the decimals in
that interval the shortest is taken, and of two equally short ones the nearer. All comparisons are
made on natural numbers, so nothing is rounded on the way.
-/

namespace ProjectLint.Decimal

def twoTo (n : Nat) : Nat := Nat.pow 2 n

def tenTo (n : Nat) : Nat := Nat.pow 10 n

/-- A positive number `mantissa · 2 ^ exponent`, with a flag for a mantissa that starts a new power
of two, below which the neighbours lie twice as close. -/
structure Binary where
  mantissa : Nat
  exponent : Int
  lowEdge : Bool

def Binary.ofBits (bits : UInt64) : Binary :=
  let fraction : Nat := bits.toNat % twoTo 52
  let scale : Nat := bits.toNat / twoTo 52 % twoTo 11
  if scale = 0 then ⟨fraction, -1074, false⟩
  else ⟨fraction + twoTo 52, (scale : Int) - 1075, fraction = 0 && scale > 1⟩

/-- The interval of a number as fractions over one denominator: the ends, the number between them,
and whether the ends belong to it. -/
structure Interval where
  low : Nat
  mid : Nat
  high : Nat
  denominator : Nat
  closed : Bool

def Binary.interval (b : Binary) : Interval :=
  let up := twoTo (b.exponent - 2).toNat
  let down := twoTo (2 - b.exponent).toNat
  let step := if b.lowEdge then 1 else 2
  ⟨(4 * b.mantissa - step) * up, 4 * b.mantissa * up, (4 * b.mantissa + 2) * up, down,
    b.mantissa % 2 = 0⟩

/-- Does the fraction `num / den` lie in the interval? -/
def Interval.holds (i : Interval) (num den : Nat) : Bool :=
  let low := i.low * den
  let high := i.high * den
  let x := num * i.denominator
  if i.closed then low ≤ x && x ≤ high else low < x && x < high

/-- The digits `digits` stand for `0.d₁d₂… · 10 ^ point`. -/
structure Digits where
  digits : Nat
  point : Int
deriving Repr, DecidableEq

def Interval.pointFrom (i : Interval) : Nat → Int → Int
  | 0, p => p
  | fuel + 1, p =>
    if i.mid * tenTo (-p).toNat < i.denominator * tenTo p.toNat then p else i.pointFrom fuel (p + 1)

/-- The neighbour of the middle with `count` digits that lies in the interval, if one does; the
nearer of two, and the even one of two equally near. -/
def Interval.onGrid? (i : Interval) (point : Int) (count : Nat) : Option Nat :=
  let scale := point - count
  let up := tenTo scale.toNat
  let down := tenTo (-scale).toNat
  let below := i.mid * down / (i.denominator * up)
  let hit := fun d => i.holds (d * up) down
  let gapBelow := i.mid * down - below * up * i.denominator
  let gapAbove := (below + 1) * up * i.denominator - i.mid * down
  if hit below && hit (below + 1) then
    if gapBelow < gapAbove then some below
    else if gapAbove < gapBelow then some (below + 1)
    else some (if below % 2 = 0 then below else below + 1)
  else if hit below then some below
  else if hit (below + 1) then some (below + 1)
  else none

def Interval.shortestFrom (i : Interval) (point : Int) : Nat → Nat → Digits
  | 0, count =>
    ⟨i.mid * tenTo (count - point).toNat / (i.denominator * tenTo (point - count).toNat), point⟩
  | fuel + 1, count =>
    match i.onGrid? point count with
    | some d => if d = tenTo count then ⟨1, point + 1⟩ else ⟨d, point⟩
    | none => i.shortestFrom point fuel (count + 1)

def Binary.shortest (b : Binary) : Digits :=
  let i := b.interval
  i.shortestFrom (i.pointFrom 640 (-330)) 17 1

end ProjectLint.Decimal
