import ProjectLint.Value.Date

/-!
# Values

The data that project documents are made of. A mapping keeps its entries in the order in which their
keys first came; its keys are scalars. Numbers and truth values of equal size are one and the same
key and the same member of a collection, although they are written differently.

A document may hold itself: where a collection stands inside of itself, the inner place only says
so.
-/

namespace ProjectLint

inductive Scalar where
  | null
  | bool (b : Bool)
  | int (n : Int)
  | float (x : Float)
  | str (s : String)
  | bytes (b : List UInt8)
  | date (d : Date)
  | moment (m : Moment)

/-- The outer form of a collection. -/
inductive Shape where
  | seq
  | map
  | set
deriving DecidableEq, Repr

inductive Value where
  | scalar (s : Scalar)
  | seq (items : List Value)
  | map (entries : List (Scalar × Value))
  | set (members : List Scalar)
  | pair (first second : Value)
  /-- A collection that this very place stands in. -/
  | enclosing (shape : Shape)

abbrev Entries := List (Scalar × Value)

namespace Value

@[match_pattern] abbrev null : Value := .scalar .null
@[match_pattern] abbrev bool (b : Bool) : Value := .scalar (.bool b)
@[match_pattern] abbrev int (n : Int) : Value := .scalar (.int n)
@[match_pattern] abbrev float (x : Float) : Value := .scalar (.float x)
@[match_pattern] abbrev str (s : String) : Value := .scalar (.str s)

def strs (texts : List String) : Value := .seq (texts.map .str)

def record (fields : List (String × Value)) : Value :=
  .map (fields.map fun (k, v) => (.str k, v))

end Value

instance : Inhabited Scalar := ⟨.null⟩
instance : Inhabited Value := ⟨.null⟩

/-! ### Equality -/

namespace Scalar

/-- The integer that a truth value or an integral number stands for. -/
def integer? : Scalar → Option Int
  | .bool b => some (if b then 1 else 0)
  | .int n => some n
  | .float x => Decimal.integer? x
  | _ => none

def isNumber : Scalar → Bool
  | .bool _ | .int _ | .float _ => true
  | _ => false

/-- Equality of scalars: numbers by size whatever their kind, all else by kind and content. -/
def same : Scalar → Scalar → Bool
  | .null, .null => true
  | .str a, .str b => a == b
  | .bytes a, .bytes b => a == b
  | .date a, .date b => a == b
  | .moment a, .moment b => a.same b
  | .float a, .float b => a == b
  | a, b =>
    if a.isNumber && b.isNumber then
      match a.integer?, b.integer? with
      | some m, some n => m == n
      | _, _ => false
    else false

end Scalar

namespace Entries

def find? (entries : Entries) (key : Scalar) : Option Value :=
  (List.find? (fun e => e.1.same key) entries).map (·.2)

/-- The value under a text key. -/
def get? (entries : Entries) (key : String) : Option Value := find? entries (.str key)

def contains (entries : Entries) (key : Scalar) : Bool := entries.any fun e => e.1.same key

def insert (entries : Entries) (key : Scalar) (value : Value) : Entries :=
  match entries with
  | [] => [(key, value)]
  | (k, v) :: rest => if k.same key then (k, value) :: rest else (k, v) :: insert rest key value

def put (entries : Entries) (key : String) (value : Value) : Entries :=
  insert entries (.str key) value

def erase (entries : Entries) (key : String) : Entries :=
  List.filter (fun e => !e.1.same (.str key)) entries

def ofList (pairs : List (Scalar × Value)) : Entries :=
  pairs.foldl (fun es (k, v) => insert es k v) []

def update (entries more : Entries) : Entries :=
  List.foldl (fun es (e : Scalar × Value) => insert es e.1 e.2) entries more

end Entries

mutual

/-- Equality of values: sequences by place, mappings and sets by content whatever the order. -/
def Value.same : Value → Value → Bool
  | .scalar a, .scalar b => a.same b
  | .seq xs, .seq ys => sameItems xs ys
  | .map es, .map fs => es.length == fs.length && sameEntries es fs
  | .set xs, .set ys => xs.length == ys.length && xs.all fun x => ys.any (·.same x)
  | .pair a b, .pair c d => a.same c && b.same d
  | .enclosing a, .enclosing b => a == b
  | _, _ => false

def sameItems : List Value → List Value → Bool
  | [], [] => true
  | x :: xs, y :: ys => x.same y && sameItems xs ys
  | _, _ => false

def sameEntries : List (Scalar × Value) → List (Scalar × Value) → Bool
  | [], _ => true
  | (k, v) :: es, fs =>
    (match Entries.find? fs k with
     | some w => v.same w
     | none => false) && sameEntries es fs

end

/-! ### Truth -/

/-- Empty texts and collections, zero and null count as false. -/
def Value.truthy : Value → Bool
  | .scalar .null => false
  | .scalar (.bool b) => b
  | .scalar (.int n) => n != 0
  | .scalar (.float x) => x != 0.0
  | .scalar (.str s) => !s.isEmpty
  | .scalar (.bytes b) => !b.isEmpty
  | .scalar (.date _) => true
  | .scalar (.moment _) => true
  | .seq items => !items.isEmpty
  | .map entries => !entries.isEmpty
  | .set members => !members.isEmpty
  | .pair _ _ => true
  | .enclosing _ => true

def distinct (members : List Scalar) : List Scalar :=
  members.foldl (fun seen x => if seen.any (·.same x) then seen else seen ++ [x]) []

end ProjectLint
