import ProjectLint.Template.Layout

/-!
# Templates

A template is a text with fields in braces that are filled from named values. A field names a value,
may go into it by an index, may ask for its literal text, and may lay it out in a width: `field =
name index* [! conversion] [: layout]`. Doubled braces stand for single ones.
-/

namespace ProjectLint.Template

/-! ### Going into a value -/

/-- The item of a value at a number. -/
def itemAt (v : Value) (n : Nat) : Except Fault Value :=
  match v with
  | .str s => match s.toList[n]? with
    | some c => .ok (.str (String.singleton c))
    | none => .error .outOfRange
  | .seq items => match items[n]? with
    | some x => .ok x
    | none => .error .outOfRange
  | .map entries => match Entries.find? entries (.int n) with
    | some x => .ok x
    | none => .error .missingKey
  | _ => .error .wrongKind

/-- Goes into a value by what follows the name of a field. The first argument bounds the steps. -/
def descend : Nat → List Char → Value → Except Fault Value
  | 0, _, v => .ok v
  | fuel + 1, cs, v =>
    match cs with
    | [] => .ok v
    | '.' :: rest =>
      if (rest.takeWhile fun c => c != '.' && c != '[').isEmpty then
        bad "Empty attribute in format string"
      else .error .noSuchField
    | '[' :: rest => do
      let name := rest.takeWhile (· != ']')
      match rest.drop name.length with
      | [] => bad "Missing ']' in format string"
      | _ :: left =>
        if name.isEmpty then bad "Empty attribute in format string"
        else
          let item ← match ← index? name with
            | some n => itemAt v n
            | none => v.index (String.ofList name)
          descend fuel left item
    | _ => bad "Only '.' or '[' may follow ']' in format field specifier"

def lookUp (values : List (String × Value)) (field : List Char) : Except Fault Value := do
  let name := field.takeWhile fun c => c != '.' && c != '['
  if name.isEmpty || (← index? name).isSome then .error .outOfRange
  else
    match values.find? fun v => v.1 == String.ofList name with
    | some v => descend (field.length + 1) (field.drop name.length) v.2
    | none => .error .missingKey

/-! ### Fields -/

structure Field where
  name : List Char
  conversion : Option Char
  spec : List Char

/-- The length of a field name: up to a brace, a colon or an exclamation mark outside brackets. -/
def nameLength (cs : List Char) : Except Fault Nat :=
  go cs 0 false
where
  go : List Char → Nat → Bool → Except Fault Nat
    | [], n, _ => .ok n
    | c :: rest, n, inBrackets =>
      if inBrackets then go rest (n + 1) (c != ']')
      else if c == '\x7b' then bad "unexpected '\x7b' in field name"
      else if c == '\x7d' || c == ':' || c == '!' then .ok n
      else go rest (n + 1) (c == '[')

/-- The length of a layout: up to the brace that closes the field. -/
def specLength? : Nat → List Char → Option Nat
  | _, [] => none
  | depth, c :: rest =>
    if c == '\x7d' then
      (match depth with
       | 0 => some 0
       | d + 1 => (specLength? d rest).map (· + 1))
    else (specLength? (if c == '\x7b' then depth + 1 else depth) rest).map (· + 1)

def readSpec (name : List Char) (conversion : Option Char) (cs : List Char) :
    Except Fault (Field × List Char) :=
  match specLength? 0 cs with
  | some n => .ok (⟨name, conversion, cs.take n⟩, cs.drop (n + 1))
  | none => bad "unmatched '\x7b' in format spec"

/-- Reads a field behind its opening brace, and gives the rest behind it. -/
def readField (cs : List Char) : Except Fault (Field × List Char) := do
  let n ← nameLength cs
  let name := cs.take n
  match cs.drop n with
  | '\x7d' :: rest => return (⟨name, none, []⟩, rest)
  | ':' :: rest => readSpec name none rest
  | '!' :: rest =>
    match rest with
    | [] => bad "end of string while looking for conversion specifier"
    | [_] => bad "unmatched '\x7b' in format spec"
    | c :: '\x7d' :: left => return (⟨name, some c, []⟩, left)
    | c :: ':' :: left => readSpec name (some c) left
    | _ => bad "expected ':' after conversion specifier"
  | _ => bad "expected '\x7d' before end of string"

def convert (v : Value) : Option Char → Except Fault Value
  | none => .ok v
  | some 'r' => .ok (.str v.literal)
  | some 's' => .ok (.str v.text)
  | some 'a' => .ok (.str (match v with
    | .str s => Text.quotedAscii s
    | _ => v.literal))
  | some _ => bad "Unknown conversion specifier"

/-- Fills the fields of a template. Layouts may hold fields of their own, one level deep; the first
argument counts the levels, the second bounds the steps. -/
def fill (values : List (String × Value)) : Nat → Nat → List Char → Except Fault (List Char)
  | _, 0, cs => .ok cs
  | levels, fuel + 1, cs =>
    match cs with
    | [] => .ok []
    | '\x7b' :: '\x7b' :: rest => do return '\x7b' :: (← fill values levels fuel rest)
    | '\x7d' :: '\x7d' :: rest => do return '\x7d' :: (← fill values levels fuel rest)
    | '\x7d' :: _ => bad "Single '\x7d' encountered in format string"
    | ['\x7b'] => bad "Single '\x7b' encountered in format string"
    | '\x7b' :: rest => do
      let (field, left) ← readField rest
      let v ← convert (← lookUp values field.name) field.conversion
      let spec ← if field.spec.contains '\x7b' || field.spec.contains '\x7d' then
          (match levels with
           | 0 => bad "Max string recursion exceeded"
           | l + 1 => fill values l fuel field.spec)
        else pure field.spec
      let text ← layOut v spec
      return text.toList ++ (← fill values levels fuel left)
    | c :: rest => do return c :: (← fill values levels fuel rest)

/-- The text of a template with the values filled in. -/
def render (template : String) (values : List (String × Value)) : Except Fault String :=
  (fill values 1 (template.length + 1) template.toList).map String.ofList

end ProjectLint.Template
