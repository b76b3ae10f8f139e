import ProjectLint.Json.Reader
import ProjectLint.Text.Casing
import ProjectLint.Value.Basic

/-!
# Tags

What a scalar is taken for. An untagged plain scalar gets its tag from its look: truth words,
numbers in several bases and in base sixty, dates, the empty text. All else is text.
-/

namespace ProjectLint.Yaml

inductive Tag where
  | null
  | bool
  | int
  | float
  | str
  | merge
  | value
  | timestamp
  | binary
  | seq
  | map
  | set
  | omap
  | pairs
  /-- A tag that has no meaning here. -/
  | other (name : String)
deriving DecidableEq, Repr

namespace Tag

def domain : String := "tag:yaml.org,2002:"

def known : List (String × Tag) :=
  [("null", .null), ("bool", .bool), ("int", .int), ("float", .float), ("str", .str),
   ("merge", .merge), ("value", .value), ("timestamp", .timestamp), ("binary", .binary),
   ("seq", .seq), ("map", .map), ("set", .set), ("omap", .omap), ("pairs", .pairs)]

def ofName (name : String) : Tag :=
  match known.find? fun k => domain ++ k.1 == name with
  | some (_, tag) => tag
  | none => .other name

def short (tag : Tag) : String :=
  match known.find? fun k => k.2 == tag with
  | some (name, _) => "!!" ++ name
  | none =>
    match tag with
    | .other name => name
    | _ => ""

end Tag

/-! ### The look of numbers -/

def dropSign : List Char → List Char
  | '+' :: rest => rest
  | '-' :: rest => rest
  | cs => cs

def isDigitOrLow (c : Char) : Bool := Json.isAsciiDigit c || c == '_'

/-- Groups `:n` with `n` below sixty, to the end of the text or up to a point. -/
def sixties : Nat → List Char → Option (List Char)
  | 0, _ => none
  | fuel + 1, cs =>
    match cs with
    | ':' :: a :: b :: rest =>
      if '0' ≤ a && a ≤ '5' && Json.isAsciiDigit b then
        (match rest with
         | ':' :: _ => sixties fuel rest
         | _ => some rest)
      else if Json.isAsciiDigit a then
        (if b == ':' then sixties fuel (b :: rest) else some (b :: rest))
      else none
    | [':', a] => if Json.isAsciiDigit a then some [] else none
    | _ => none

def digitRun? (f : Char → Bool) : List Char → Option (List Char)
  | c :: rest => if f c then some (rest.dropWhile isDigitOrLow) else none
  | [] => none

def isPositive (c : Char) : Bool := '1' ≤ c && c ≤ '9'

def nonEmptyAll (f : Char → Bool) (cs : List Char) : Bool := !cs.isEmpty && cs.all f

def looksInt (cs : List Char) : Bool :=
  let body := dropSign cs
  (match body with
   | '0' :: 'b' :: rest => nonEmptyAll (fun c => c == '0' || c == '1' || c == '_') rest
   | '0' :: 'x' :: rest => nonEmptyAll (fun c => (Json.hexDigit? c).isSome || c == '_') rest
   | '0' :: rest => rest.all fun c => ('0' ≤ c && c ≤ '7') || c == '_'
   | _ => false) ||
  (match digitRun? isPositive body with
   | some [] => true
   | some rest => sixties (rest.length + 1) rest == some []
   | none => false)

def endsWithExponent : List Char → Bool
  | [] => true
  | e :: s :: rest =>
    (e == 'e' || e == 'E') && (s == '+' || s == '-') && nonEmptyAll Json.isAsciiDigit rest
  | _ => false

def looksFloat (cs : List Char) : Bool :=
  let body := dropSign cs
  (match digitRun? Json.isAsciiDigit body with
   | some ('.' :: rest) => endsWithExponent (rest.dropWhile isDigitOrLow)
   | some rest =>
     (match sixties (rest.length + 1) rest with
      | some ('.' :: more) => more.all isDigitOrLow
      | _ => false)
   | none => false) ||
  (match cs with
   | '.' :: rest =>
     (match digitRun? Json.isAsciiDigit rest with
      | some more => endsWithExponent more
      | none => false)
   | _ => false) ||
  ([".inf", ".Inf", ".INF"].any fun w => w.toList == body) ||
  ([".nan", ".NaN", ".NAN"].any fun w => w.toList == cs)

/-! ### Dates -/

/-- One or two digits, as many as there are. -/
def oneOrTwo? : List Char → Option (Nat × Nat × List Char)
  | a :: b :: rest =>
    if Json.isAsciiDigit a then
      if Json.isAsciiDigit b then some (Json.digitsValue [a, b], 2, rest)
      else some (Json.digitsValue [a], 1, b :: rest)
    else none
  | [a] => if Json.isAsciiDigit a then some (Json.digitsValue [a], 1, []) else none
  | [] => none

def twoDigits? : List Char → Option (Nat × List Char)
  | a :: b :: rest =>
    if Json.isAsciiDigit a && Json.isAsciiDigit b then some (Json.digitsValue [a, b], rest)
    else none
  | _ => none

def expect? (f : Char → Bool) : List Char → Option (List Char)
  | c :: rest => if f c then some rest else none
  | [] => none

/-- A distance from universal time at the end of a moment: nothing, `Z`, or signed hours and
minutes. -/
def zone? (cs : List Char) : Option (Option Int) :=
  if cs.isEmpty then some none
  else
    match cs.dropWhile fun c => c == ' ' || c == '\t' with
    | ['Z'] => some (some 0)
    | sign :: rest =>
      if sign == '+' || sign == '-' then do
        let (hours, _, rest) ← oneOrTwo? rest
        let minutes ←
          match rest with
          | [] => some 0
          | ':' :: more => do
            let (m, after) ← twoDigits? more
            if after.isEmpty then some m else none
          | _ => none
        let size : Int := hours * 3600 + minutes * 60
        some (some (if sign == '-' then -size else size))
      else none
    | [] => none

/-- The parts of a date or moment: whether month and day have two digits each, the date, and the
time. -/
structure Stamp where
  wide : Bool
  date : Date
  time : Option (Nat × Nat × Nat × Nat × Option Int)

def microOf (digits : List Char) : Nat :=
  let six := digits.take 6
  Json.digitsValue six * Decimal.tenTo (6 - six.length)

def stamp? (cs : List Char) : Option Stamp := do
  let year := cs.take 4
  if !(year.length == 4 && year.all Json.isAsciiDigit) then none
  else
    let rest ← expect? (· == '-') (cs.drop 4)
    let (month, monthWidth, rest) ← oneOrTwo? rest
    let rest ← expect? (· == '-') rest
    let (day, dayWidth, rest) ← oneOrTwo? rest
    let wide := monthWidth == 2 && dayWidth == 2
    let date : Date := ⟨Json.digitsValue year, month, day⟩
    match rest with
    | [] => some ⟨wide, date, none⟩
    | c :: more =>
      let afterGap :=
        if c == 'T' || c == 't' then some more
        else if c == ' ' || c == '\t' then some (more.dropWhile fun c => c == ' ' || c == '\t')
        else none
      let rest ← afterGap
      let (hour, _, rest) ← oneOrTwo? rest
      let rest ← expect? (· == ':') rest
      let (minute, rest) ← twoDigits? rest
      let rest ← expect? (· == ':') rest
      let (second, rest) ← twoDigits? rest
      let (fraction, rest) :=
        match rest with
        | '.' :: more => (more.takeWhile Json.isAsciiDigit, more.dropWhile Json.isAsciiDigit)
        | _ => ([], rest)
      let zone ← zone? rest
      some ⟨wide, date, some (hour, minute, second, microOf fraction, zone)⟩

def looksTimestamp (cs : List Char) : Bool :=
  match stamp? cs with
  | some s => s.wide || s.time.isSome
  | none => false

/-! ### Implicit tags -/

def truthWords : List String :=
  ["yes", "Yes", "YES", "no", "No", "NO", "true", "True", "TRUE", "false", "False", "FALSE",
   "on", "On", "ON", "off", "Off", "OFF"]

def nullWords : List String := ["", "~", "null", "Null", "NULL"]

/-- The tag of an untagged plain scalar. -/
def implicitTag (text : String) : Tag :=
  let cs := text.toList
  if truthWords.contains text then .bool
  else if looksFloat cs then .float
  else if looksInt cs then .int
  else if text == "<<" then .merge
  else if nullWords.contains text then .null
  else if looksTimestamp cs then .timestamp
  else if text == "=" then .value
  else .str

end ProjectLint.Yaml
