import ProjectLint.Decimal.Layout

/-!
# Dates and moments

Calendar dates and points in time, as unquoted scalars of a document can name them.
-/

namespace ProjectLint

structure Date where
  year : Nat
  month : Nat
  day : Nat
deriving DecidableEq, Repr

/-- A date with a time of day and, if it was given one, a distance from universal time in
seconds. -/
structure Moment where
  date : Date
  hour : Nat
  minute : Nat
  second : Nat
  micro : Nat
  offset : Option Int
deriving DecidableEq, Repr

namespace Date

def isLeap (year : Nat) : Bool :=
  year % 4 = 0 && (year % 100 ≠ 0 || year % 400 = 0)

def daysIn (year month : Nat) : Nat :=
  if month = 2 then (if isLeap year then 29 else 28)
  else if month = 4 || month = 6 || month = 9 || month = 11 then 30
  else 31

def isValid (d : Date) : Bool :=
  1 ≤ d.year && d.year ≤ 9999 && 1 ≤ d.month && d.month ≤ 12 && 1 ≤ d.day &&
    d.day ≤ daysIn d.year d.month

private def padded (width n : Nat) : String := Decimal.padLeft width '0' (toString n)

def text (d : Date) : String :=
  padded 4 d.year ++ "-" ++ padded 2 d.month ++ "-" ++ padded 2 d.day

def literal (d : Date) : String :=
  s!"datetime.date({d.year}, {d.month}, {d.day})"

/-- Days since the beginning of the year 1. -/
def ordinal (d : Date) : Nat :=
  let y := d.year - 1
  let before := (List.range (d.month - 1)).foldl (fun days m => days + daysIn d.year (m + 1)) 0
  365 * y + y / 4 - y / 100 + y / 400 + before + d.day

end Date

namespace Moment

def isValid (m : Moment) : Bool :=
  m.date.isValid && m.hour < 24 && m.minute < 60 && m.second < 60 && m.micro < 1000000 &&
    (match m.offset with
     | none => true
     | some off => -86400 < off && off < 86400)

private def two (n : Nat) : String := Decimal.padLeft 2 '0' (toString n)

def offsetText (off : Int) : String :=
  let size := off.natAbs
  let seconds := if size % 60 = 0 then "" else ":" ++ two (size % 60)
  (if off < 0 then "-" else "+") ++ two (size / 3600) ++ ":" ++ two (size / 60 % 60) ++ seconds

/-- The moment in the usual order of its parts, date and time divided by `divider`. -/
def text (divider : String) (m : Moment) : String :=
  m.date.text ++ divider ++ two m.hour ++ ":" ++ two m.minute ++ ":" ++ two m.second ++
    (if m.micro = 0 then "" else "." ++ Decimal.padLeft 6 '0' (toString m.micro)) ++
    (match m.offset with
     | none => ""
     | some off => offsetText off)

def offsetLiteral (off : Int) : String :=
  if off = 0 then "datetime.timezone.utc"
  else
    let days := off.fdiv 86400
    let seconds := off.fmod 86400
    let parts := (if days = 0 then [] else [s!"days={days}"]) ++
      (if seconds = 0 then [] else [s!"seconds={seconds}"])
    "datetime.timezone(datetime.timedelta(" ++ ", ".intercalate parts ++ "))"

def literal (m : Moment) : String :=
  let d := m.date
  let base := s!"datetime.datetime({d.year}, {d.month}, {d.day}, {m.hour}, {m.minute}"
  let fine :=
    if m.micro ≠ 0 then s!", {m.second}, {m.micro}"
    else if m.second ≠ 0 then s!", {m.second}"
    else ""
  base ++ fine ++ (match m.offset with
    | none => ""
    | some off => ", tzinfo=" ++ offsetLiteral off) ++ ")"

def instant (m : Moment) : Int :=
  let seconds : Int := m.date.ordinal * 86400 + m.hour * 3600 + m.minute * 60 + m.second
  (seconds - m.offset.getD 0) * 1000000 + m.micro

/-- Two moments are compared as points in time; one with an offset never equals one without. -/
def same (a b : Moment) : Bool :=
  a.offset.isSome == b.offset.isSome && a.instant == b.instant

end Moment

end ProjectLint
