import ProjectLint.Text.Base64
import ProjectLint.Text.Quoted
import ProjectLint.Yaml.Document

/-!
# Pieces of a written document

Before a document is laid out on lines, its value is turned into pieces: scalars with their text,
and collections. A part that stands at several places is written once, under an anchor, and by an
alias elsewhere; anchors are numbered in the order in which the repetitions are met.
-/

namespace ProjectLint.Yaml

inductive Piece where
  | alias (name : String)
  | scalar (anchor : Option String) (tag : Tag) (text : String)
  | seq (anchor : Option String) (tag : Option String) (items : List Piece)
  | map (anchor : Option String) (tag : Option String) (entries : List (Piece × Piece))

/-! ### Texts of scalars -/

/-- A float is written with a point, also before an exponent. -/
def floatText (x : Float) : String :=
  if x != x then ".nan"
  else if x == Decimal.infinity then ".inf"
  else if x == -Decimal.infinity then "-.inf"
  else
    let text := Decimal.Layout.message.float x
    if text.any (· == '.') then text
    else String.join (text.toList.map fun c => if c == 'e' then ".0e" else String.singleton c)

def base64Lines : Nat → List Char → List Char
  | 0, _ => []
  | _, [] => []
  | fuel + 1, cs => cs.take 76 ++ '\n' :: base64Lines fuel (cs.drop 76)

def scalarTagText : Scalar → Tag × String
  | .null => (.null, "null")
  | .bool b => (.bool, if b then "true" else "false")
  | .int n => (.int, toString n)
  | .float x => (.float, floatText x)
  | .str s => (.str, s)
  | .bytes b =>
    let chars := Text.Base64.encode b
    (.binary, String.ofList (base64Lines (chars.length + 1) chars))
  | .date d => (.timestamp, d.text)
  | .moment m => (.timestamp, m.text " ")

def scalarPiece (anchor : Option String) (s : Scalar) : Piece :=
  let (tag, text) := scalarTagText s
  .scalar anchor tag text

/-! ### Anchors -/

/-- Nodes met so far, and those met again, in order. -/
structure Met where
  seen : List Nat
  again : List Nat

/-- Notes a place; `none` if what stands there has been met before and is not entered again. -/
def Met.note (d : Document) (place : Place) (m : Met) : Bool × Met :=
  match d.shareAt? place with
  | none => (true, m)
  | some id =>
    if m.seen.contains id then
      (false, if m.again.contains id then m else { m with again := m.again ++ [id] })
    else (true, { m with seen := id :: m.seen })

mutual

def meet (d : Document) (place : Place) (m : Met) : Value → Met
  | .scalar _ => (m.note d place).2
  | .set _ => (m.note d place).2
  | .enclosing _ => (m.note d place).2
  | .seq items =>
    let (enter, m) := m.note d place
    if enter then meetItems d place 0 m items else m
  | .map entries =>
    let (enter, m) := m.note d place
    if enter then meetEntries d place 0 m entries else m
  | .pair a b => meet d (place ++ [1]) (meet d (place ++ [0]) m a) b

def meetItems (d : Document) (place : Place) (n : Nat) (m : Met) : List Value → Met
  | [] => m
  | v :: rest => meetItems d place (n + 1) (meet d (place ++ [n]) m v) rest

def meetEntries (d : Document) (place : Place) (n : Nat) (m : Met) : List (Scalar × Value) → Met
  | [] => m
  | (_, v) :: rest => meetEntries d place (n + 1) (meet d (place ++ [n]) m v) rest

end

def Document.anchored (d : Document) : List Nat :=
  if d.shares.isEmpty then [] else (meet d [] ⟨[], []⟩ d.root).again

def anchorName (n : Nat) : String := "id" ++ Decimal.padLeft 3 '0' (toString (n + 1))

def anchorAt (d : Document) (named : List Nat) (written : List Nat) (place : Place) :
    Option (Nat × String × Bool) :=
  match d.shareAt? place with
  | none => none
  | some id => (named.findIdx? (· == id)).map fun n => (id, anchorName n, written.contains id)

mutual

/-- The pieces of a value; the second result tells which anchors have been written. -/
def pieceOf (d : Document) (named : List Nat) (place : Place) (written : List Nat) :
    Value → Piece × List Nat
  | .scalar s =>
    match anchorAt d named written place with
    | some (_, name, true) => (.alias name, written)
    | some (id, name, false) => (scalarPiece (some name) s, id :: written)
    | none => (scalarPiece none s, written)
  | .set members =>
    let entries := members.map fun s => (scalarPiece none s, scalarPiece none .null)
    match anchorAt d named written place with
    | some (_, name, true) => (.alias name, written)
    | some (id, name, false) => (.map (some name) (some "!!set") entries, id :: written)
    | none => (.map none (some "!!set") entries, written)
  | .seq items =>
    match anchorAt d named written place with
    | some (_, name, true) => (.alias name, written)
    | some (id, name, false) =>
      let (pieces, written) := itemPieces d named place 0 (id :: written) items
      (.seq (some name) none pieces, written)
    | none =>
      let (pieces, written) := itemPieces d named place 0 written items
      (.seq none none pieces, written)
  | .map entries =>
    match anchorAt d named written place with
    | some (_, name, true) => (.alias name, written)
    | some (id, name, false) =>
      let (pieces, written) := entryPieces d named place 0 (id :: written) entries
      (.map (some name) none pieces, written)
    | none =>
      let (pieces, written) := entryPieces d named place 0 written entries
      (.map none none pieces, written)
  | .enclosing _ =>
    match anchorAt d named written place with
    | some (_, name, _) => (.alias name, written)
    | none => (scalarPiece none .null, written)
  | .pair a b =>
    let (first, written) := pieceOf d named (place ++ [0]) written a
    let (second, written) := pieceOf d named (place ++ [1]) written b
    (.seq none (some "!!python/tuple") [first, second], written)

def itemPieces (d : Document) (named : List Nat) (place : Place) (n : Nat) (written : List Nat) :
    List Value → List Piece × List Nat
  | [] => ([], written)
  | v :: rest =>
    let (piece, written) := pieceOf d named (place ++ [n]) written v
    let (pieces, written) := itemPieces d named place (n + 1) written rest
    (piece :: pieces, written)

def entryPieces (d : Document) (named : List Nat) (place : Place) (n : Nat) (written : List Nat) :
    List (Scalar × Value) → List (Piece × Piece) × List Nat
  | [] => ([], written)
  | (k, v) :: rest =>
    let (piece, written) := pieceOf d named (place ++ [n]) written v
    let (pieces, written) := entryPieces d named place (n + 1) written rest
    ((scalarPiece none k, piece) :: pieces, written)

end

def Document.piece (d : Document) : Piece := (pieceOf d d.anchored [] [] d.root).1

end ProjectLint.Yaml
