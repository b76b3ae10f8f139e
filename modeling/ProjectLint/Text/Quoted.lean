import ProjectLint.Decimal.Layout
import ProjectLint.Text.Half
import ProjectLint.Text.Printable

/-!
# Quoted text

A text inside a collection is written in quotes: single ones, unless it holds a single quote and no
double one. Line ends, tabs and the escape sign have short escapes, characters that do not print are
written by number.
-/

namespace ProjectLint.Text

def hex (width n : Nat) : String :=
  Decimal.padLeft width '0' (String.ofList (Nat.toDigits 16 n))

/-- A character that is shown by its number. -/
def numbered (c : Char) : String :=
  let n := codeOf c
  if n < 0x100 then "\\x" ++ hex 2 n
  else if n < 0x10000 then "\\u" ++ hex 4 n
  else "\\U" ++ hex 8 n

def quotedChar (mark c : Char) : String :=
  if c == mark || c == '\\' then String.ofList ['\\', c]
  else if c == '\n' then "\\n"
  else if c == '\r' then "\\r"
  else if c == '\t' then "\\t"
  else if isPrintable c then String.singleton c
  else numbered c

def quoteMark (s : String) : Char :=
  if s.any (· == '\'') && !s.any (· == '"') then '"' else '\''

def quoted (s : String) : String :=
  let mark := quoteMark s
  String.singleton mark ++ String.join (s.toList.map (quotedChar mark)) ++ String.singleton mark

def quotedAscii (s : String) : String :=
  String.join ((quoted s).toList.map fun c =>
    if c.toNat < 128 then String.singleton c else numbered c)

def quotedByte (mark : Char) (b : UInt8) : String :=
  let c := Char.ofNat b.toNat
  if c == mark || c == '\\' then String.ofList ['\\', c]
  else if c == '\n' then "\\n"
  else if c == '\r' then "\\r"
  else if c == '\t' then "\\t"
  else if 32 ≤ b.toNat && b.toNat < 127 then String.singleton c
  else "\\x" ++ hex 2 b.toNat

/-- Bytes are quoted like text, after the letter `b`. -/
def quotedBytes (bytes : List UInt8) : String :=
  let mark := if bytes.any (· == 39) && !bytes.any (· == 34) then '"' else '\''
  "b" ++ String.singleton mark ++ String.join (bytes.map (quotedByte mark)) ++ String.singleton mark

end ProjectLint.Text
