import ProjectLint.Fault
import ProjectLint.Text.Half
import ProjectLint.Text.Number
import ProjectLint.Value.Basic

/-!
# Reading JSON

A reader over the list of characters that still stand ahead, with the offset of the first of them.
Beside the standard grammar it takes `NaN`, `Infinity` and `-Infinity` as numbers. A repeated key of
an object keeps its first place and takes its last value.
-/

namespace ProjectLint.Json

/-- Characters that stand ahead, and the offset of the first. -/
structure Cursor where
  pos : Nat
  ahead : List Char

inductive Problem where
  /-- What is wrong, and at which offset. -/
  | misplaced (what : String) (pos : Nat)
  /-- An integer has more digits than are read. -/
  | longInteger (digits : Nat)

def Cursor.skip (c : Cursor) (n : Nat) : Cursor := ⟨c.pos + n, c.ahead.drop n⟩

def isJsonBlank (c : Char) : Bool := c == ' ' || c == '\t' || c == '\n' || c == '\r'

def Cursor.skipBlanks (c : Cursor) : Cursor :=
  let blanks := c.ahead.takeWhile isJsonBlank
  c.skip blanks.length

/-! ### Texts -/

def hexDigit? (c : Char) : Option Nat :=
  if '0' ≤ c && c ≤ '9' then some (c.toNat - '0'.toNat)
  else if 'a' ≤ c && c ≤ 'f' then some (c.toNat - 'a'.toNat + 10)
  else if 'A' ≤ c && c ≤ 'F' then some (c.toNat - 'A'.toNat + 10)
  else none

def fourHex? (cs : List Char) : Option Nat :=
  if (cs.take 4).length < 4 then none
  else (cs.take 4).foldl (fun acc c => acc.bind fun n => (hexDigit? c).map (16 * n + ·)) (some 0)

def shortEscape? : Char → Option Char
  | '"' => some '"'
  | '\\' => some '\\'
  | '/' => some '/'
  | 'b' => some '\x08'
  | 'f' => some '\x0c'
  | 'n' => some '\n'
  | 'r' => some '\r'
  | 't' => some '\t'
  | _ => none

/-- The rest of a text whose opening quote stands at `start`. -/
def readText (start : Nat) : Nat → Cursor → List Char → Except Problem (String × Cursor)
  | 0, _, _ => .error (.misplaced "Unterminated string starting at" start)
  | fuel + 1, cur, acc =>
    match cur.ahead with
    | [] => .error (.misplaced "Unterminated string starting at" start)
    | '"' :: _ => .ok (String.ofList acc.reverse, cur.skip 1)
    | '\\' :: [] => .error (.misplaced "Unterminated string starting at" start)
    | '\\' :: 'u' :: rest =>
      match (if (rest.drop 4).isEmpty then none else fourHex? rest) with
      | none => .error (.misplaced "Invalid \\uXXXX escape" (cur.pos + 1))
      | some high =>
        let next := cur.skip 6
        match next.ahead with
        | '\\' :: 'u' :: more =>
          if 0xD800 ≤ high && high < 0xDC00 && !(more.drop 4).isEmpty then
            match fourHex? more with
            | none => .error (.misplaced "Invalid \\uXXXX escape" (next.pos + 1))
            | some low =>
              if 0xDC00 ≤ low && low < 0xE000 then
                readText start fuel (next.skip 6)
                  (Char.ofNat (0x10000 + (high - 0xD800) * 0x400 + (low - 0xDC00)) :: acc)
              else readText start fuel next (Text.charOf high :: acc)
          else readText start fuel next (Text.charOf high :: acc)
        | _ => readText start fuel next (Text.charOf high :: acc)
    | '\\' :: c :: _ =>
      match shortEscape? c with
      | some e => readText start fuel (cur.skip 2) (e :: acc)
      | none => .error (.misplaced "Invalid \\escape" cur.pos)
    | c :: _ =>
      if c.toNat < 0x20 then .error (.misplaced "Invalid control character at" cur.pos)
      else readText start fuel (cur.skip 1) (c :: acc)

/-! ### Numbers -/

def isAsciiDigit (c : Char) : Bool := '0' ≤ c && c ≤ '9'

def digitsValue (cs : List Char) : Nat :=
  cs.foldl (fun n c => 10 * n + (c.toNat - '0'.toNat)) 0

/-- The exponent part `e±digits`, if one stands here: its value and length. -/
def exponent? (cs : List Char) : Option (Int × Nat) :=
  match cs with
  | e :: rest =>
    if e == 'e' || e == 'E' then
      let (negative, signs, rest) := match rest with
        | '+' :: more => (false, 1, more)
        | '-' :: more => (true, 1, more)
        | _ => (false, 0, rest)
      let digits := rest.takeWhile isAsciiDigit
      if digits.isEmpty then none
      else
        let n : Int := digitsValue digits
        some (if negative then -n else n, 1 + signs + digits.length)
    else none
  | [] => none

/-- The number with the digits before and behind its point and the exponent: an integer if it has
only the first. -/
def numeral (negative : Bool) (digits fraction : List Char) (exponent : Option Int) :
    Except Problem Value :=
  if fraction.isEmpty && exponent.isNone then
    if digits.length > Text.mostDigits then .error (.longInteger digits.length)
    else
      let n : Int := digitsValue digits
      .ok (.int (if negative then -n else n))
  else
    let x := Decimal.nearest (digitsValue (digits ++ fraction)) (exponent.getD 0 - fraction.length)
    .ok (.float (if negative then -x else x))

/-- The number that stands at the cursor, if there is one. -/
def number? (cur : Cursor) : Option (Except Problem (Value × Cursor)) :=
  let (negative, body) := match cur.ahead with
    | '-' :: rest => (true, rest)
    | cs => (false, cs)
  let digits := match body with
    | '0' :: _ => ['0']
    | cs => cs.takeWhile isAsciiDigit
  let afterInt := body.drop digits.length
  let fraction := match afterInt with
    | '.' :: rest => rest.takeWhile isAsciiDigit
    | _ => []
  let afterFraction :=
    if fraction.isEmpty then afterInt else afterInt.drop (fraction.length + 1)
  let exponent := exponent? afterFraction
  let signLength := if negative then 1 else 0
  let fractionLength := if fraction.isEmpty then 0 else fraction.length + 1
  let exponentLength := (exponent.map (·.2)).getD 0
  if digits.isEmpty then none
  else some ((numeral negative digits fraction (exponent.map (·.1))).map fun v =>
    (v, cur.skip (signLength + digits.length + fractionLength + exponentLength)))

/-! ### Values -/

def startsWith (text : String) (cs : List Char) : Bool := text.toList.isPrefixOf cs

def word? (cur : Cursor) : Option (Value × Cursor) :=
  let words : List (String × Value) :=
    [("null", .null), ("true", .bool true), ("false", .bool false),
      ("NaN", .float Decimal.notANumber), ("Infinity", .float Decimal.infinity),
        ("-Infinity", .float (-Decimal.infinity))]
  (words.find? fun w => startsWith w.1 cur.ahead).map fun w => (w.2, cur.skip w.1.length)

def expectingValue (cur : Cursor) : Problem := .misplaced "Expecting value" cur.pos

mutual

def readValue : Nat → Cursor → Except Problem (Value × Cursor)
  | 0, cur => .error (expectingValue cur)
  | fuel + 1, cur =>
    match cur.ahead with
    | '"' :: _ =>
      match readText cur.pos (fuel + 1) (cur.skip 1) [] with
      | .error p => .error p
      | .ok (s, next) => .ok (.str s, next)
    | '\x7b' :: _ =>
      let first := (cur.skip 1).skipBlanks
      match first.ahead with
      | '\x7d' :: _ => .ok (.map [], first.skip 1)
      | _ => readMembers fuel first []
    | '[' :: _ =>
      let first := (cur.skip 1).skipBlanks
      match first.ahead with
      | ']' :: _ => .ok (.seq [], first.skip 1)
      | _ => readItems fuel first []
    | _ =>
      match word? cur with
      | some r => .ok r
      | none =>
        match number? cur with
        | some r => r
        | none => .error (expectingValue cur)

/-- The items of an array, from the first one on. -/
def readItems : Nat → Cursor → List Value → Except Problem (Value × Cursor)
  | 0, cur, _ => .error (expectingValue cur)
  | fuel + 1, cur, acc =>
    match readValue fuel cur with
    | .error p => .error p
    | .ok (v, next) =>
      let next := next.skipBlanks
      match next.ahead with
      | ']' :: _ => .ok (.seq (v :: acc).reverse, next.skip 1)
      | ',' :: _ => readItems fuel (next.skip 1).skipBlanks (v :: acc)
      | _ => .error (.misplaced "Expecting ',' delimiter" next.pos)

/-- The members of an object, from the first name on. -/
def readMembers : Nat → Cursor → Entries → Except Problem (Value × Cursor)
  | 0, cur, _ => .error (expectingValue cur)
  | fuel + 1, cur, acc =>
    match cur.ahead with
    | '"' :: _ =>
      match readText cur.pos (fuel + 1) (cur.skip 1) [] with
      | .error p => .error p
      | .ok (key, next) =>
        let colon := next.skipBlanks
        match colon.ahead with
        | ':' :: _ =>
          match readValue fuel (colon.skip 1).skipBlanks with
          | .error p => .error p
          | .ok (v, next) =>
            let next := next.skipBlanks
            let acc := acc.put key v
            match next.ahead with
            | '\x7d' :: _ => .ok (.map acc, next.skip 1)
            | ',' :: _ => readMembers fuel (next.skip 1).skipBlanks acc
            | _ => .error (.misplaced "Expecting ',' delimiter" next.pos)
        | _ => .error (.misplaced "Expecting ':' delimiter" colon.pos)
    | _ => .error (.misplaced "Expecting property name enclosed in double quotes" cur.pos)

end

/-- The fault that a problem is, with the line and column of its offset. -/
def Problem.fault (text : List Char) : Problem → Fault
  | .misplaced what pos =>
    let before := text.take pos
    let line := before.count '\n' + 1
    let column := (before.reverse.takeWhile (· != '\n')).length + 1
    .badJson what line column pos
  | .longInteger digits =>
    .badValue (s!"Exceeds the limit ({Text.mostDigits} digits) for integer string " ++
      s!"conversion: value has {digits} digits; " ++
        "use sys.set_int_max_str_digits() to increase the limit")

def readChars (cs : List Char) : Except Problem Value :=
  match cs with
  | '\ufeff' :: _ => .error (.misplaced "Unexpected UTF-8 BOM (decode using utf-8-sig)" 0)
  | _ =>
    match readValue (2 * cs.length + 2) (Cursor.skipBlanks ⟨0, cs⟩) with
    | .error p => .error p
    | .ok (v, next) =>
      let next := next.skipBlanks
      if next.ahead.isEmpty then .ok v else .error (.misplaced "Extra data" next.pos)

/-- The value that a JSON text writes. -/
def read (text : String) : Except Fault Value :=
  let cs := text.toList
  match readChars cs with
  | .ok v => .ok v
  | .error p => .error (p.fault cs)

end ProjectLint.Json
