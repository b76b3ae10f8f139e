import ProjectLint.Text.Quoted
import ProjectLint.Value.Basic

/-!
# Writing JSON

Values on one line, a blank after each comma and colon, everything beyond ASCII written by number.
-/

namespace ProjectLint.Json

/-- Numbers in JSON: as in messages, with the grammar's own names for what is no finite number. -/
def layout : Decimal.Layout :=
  { Decimal.Layout.message with notANumber := "NaN", infinity := "Infinity" }

def unitText (n : Nat) : String := "\\u" ++ Text.hex 4 n

def charText (c : Char) : String :=
  match c with
  | '"' => "\\\""
  | '\\' => "\\\\"
  | '\n' => "\\n"
  | '\r' => "\\r"
  | '\t' => "\\t"
  | '\x08' => "\\b"
  | '\x0c' => "\\f"
  | _ =>
    let n := Text.codeOf c
    if 0x20 ≤ n && n < 0x7F then String.singleton c
    else if n < 0x10000 then unitText n
    else unitText (0xD800 + (n - 0x10000) / 0x400) ++ unitText (0xDC00 + (n - 0x10000) % 0x400)

def writeText (s : String) : String :=
  "\"" ++ String.join (s.toList.map charText) ++ "\""

def writeScalar : Scalar → String
  | .null => "null"
  | .bool b => if b then "true" else "false"
  | .int n => toString n
  | .float x => layout.float x
  | .str s => writeText s
  | .bytes _ => "null"
  | .date d => writeText d.text
  | .moment m => writeText (m.text "T")

/-- A key of an object is always a text. -/
def writeKey : Scalar → String
  | .str s => writeText s
  | s => writeText (writeScalar s)

mutual

def write : Value → String
  | .scalar s => writeScalar s
  | .seq items => "[" ++ ", ".intercalate (writeItems items) ++ "]"
  | .map entries => "\x7b" ++ ", ".intercalate (writeMembers entries) ++ "\x7d"
  | .set members => "[" ++ ", ".intercalate (members.map writeScalar) ++ "]"
  | .pair a b => "[" ++ write a ++ ", " ++ write b ++ "]"
  | .enclosing _ => "null"

def writeItems : List Value → List String
  | [] => []
  | v :: rest => write v :: writeItems rest

def writeMembers : List (Scalar × Value) → List String
  | [] => []
  | (k, v) :: rest => (writeKey k ++ ": " ++ write v) :: writeMembers rest

end

end ProjectLint.Json
