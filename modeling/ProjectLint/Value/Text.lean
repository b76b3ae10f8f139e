import ProjectLint.Text.Quoted
import ProjectLint.Value.Basic

/-!
# The text of values

In a message a text stands as it is and every other value as it is written inside a collection:
texts in quotes there, sequences in brackets, mappings in braces.
-/

namespace ProjectLint

/-- A scalar as it is written inside a collection. -/
def Scalar.literal : Scalar → String
  | .null => "None"
  | .bool b => if b then "True" else "False"
  | .int n => toString n
  | .float x => Decimal.Layout.message.float x
  | .str s => Text.quoted s
  | .bytes b => Text.quotedBytes b
  | .date d => d.literal
  | .moment m => m.literal

/-- A scalar as it stands in a message. -/
def Scalar.text : Scalar → String
  | .str s => s
  | .date d => d.text
  | .moment m => m.text " "
  | s => s.literal

mutual

/-- A value as it is written inside a collection. -/
def Value.literal : Value → String
  | .scalar s => s.literal
  | .seq items => "[" ++ ", ".intercalate (literals items) ++ "]"
  | .map entries => "\x7b" ++ ", ".intercalate (entryLiterals entries) ++ "\x7d"
  | .set members =>
    if members.isEmpty then "set()"
    else "\x7b" ++ ", ".intercalate (members.map Scalar.literal) ++ "\x7d"
  | .pair a b => "(" ++ a.literal ++ ", " ++ b.literal ++ ")"
  | .enclosing .seq => "[...]"
  | .enclosing .map => "\x7b...\x7d"
  | .enclosing .set => "set(...)"

def literals : List Value → List String
  | [] => []
  | v :: rest => v.literal :: literals rest

def entryLiterals : List (Scalar × Value) → List String
  | [] => []
  | (k, v) :: rest => (k.literal ++ ": " ++ v.literal) :: entryLiterals rest

end

/-- A value as it stands in a message. -/
def Value.text : Value → String
  | .scalar s => s.text
  | v => v.literal

end ProjectLint
