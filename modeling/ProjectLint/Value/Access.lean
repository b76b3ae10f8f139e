import ProjectLint.Fault
import ProjectLint.Text.Split
import ProjectLint.Value.Text

/-!
# Asking values

Documents come from outside, so every question to a value may find it of the wrong kind. Fields are
asked of mappings only; sequences, texts and mappings can be walked through; members are looked for
by equality.
-/

namespace ProjectLint

namespace Value

def field? (v : Value) (key : String) : Except Fault (Option Value) :=
  match v with
  | .map entries => .ok (Entries.get? entries key)
  | _ => .error .noSuchField

/-- The value under a key, or a default. -/
def fieldD (v : Value) (key : String) (default : Value) : Except Fault Value :=
  (v.field? key).map (·.getD default)

def field (v : Value) (key : String) : Except Fault Value := v.fieldD key .null

def index (v : Value) (key : String) : Except Fault Value :=
  match v with
  | .map entries =>
    match Entries.get? entries key with
    | some x => .ok x
    | none => .error .missingKey
  | _ => .error .wrongKind

def entries (v : Value) : Except Fault Entries :=
  match v with
  | .map entries => .ok entries
  | _ => .error .noSuchField

def keys (v : Value) : Except Fault (List Scalar) := v.entries.map fun es => es.map (·.1)

def values (v : Value) : Except Fault (List Value) := v.entries.map fun es => es.map (·.2)

/-- Walks through a collection or text: a mapping by its keys, a text by its characters. -/
def items (v : Value) : Except Fault (List Value) :=
  match v with
  | .seq items => .ok items
  | .map entries => .ok (entries.map fun e => .scalar e.1)
  | .set members => .ok (members.map .scalar)
  | .pair a b => .ok [a, b]
  | .scalar (.str s) => .ok (s.toList.map fun c => .str (String.singleton c))
  | .scalar (.bytes b) => .ok (b.map fun n => .int n.toNat)
  | _ => .error .wrongKind

def key? (v : Value) : Except Fault Scalar :=
  match v with
  | .scalar s => .ok s
  | _ => .error .wrongKind

/-- Is the value a member of the collection, or a part of the text? -/
def isIn (x : Value) (v : Value) : Except Fault Bool :=
  match v with
  | .seq items => .ok (items.any fun y => y.same x)
  | .map entries => x.key?.map fun k => Entries.contains entries k
  | .set members => x.key?.map fun k => members.any (·.same k)
  | .pair a b => .ok (a.same x || b.same x)
  | .scalar (.str s) =>
    match x with
    | .scalar (.str part) => .ok (Text.contains s part)
    | _ => .error .wrongKind
  | _ => .error .wrongKind

def str? (v : Value) : Except Fault String :=
  match v with
  | .scalar (.str s) => .ok s
  | _ => .error .noSuchField

def toSet (v : Value) : Except Fault (List Scalar) := do
  let items ← v.items
  let keys ← items.mapM key?
  return distinct keys

end Value

def Value.textOnly : Value → Except Fault String
  | .scalar (.str s) => .ok s
  | _ => .error .wrongKind

def joinValues (divider : String) (items : List Value) : Except Fault String :=
  (items.mapM Value.textOnly).map divider.intercalate

/-! ### Order -/

def textBefore (a b : String) : Bool := a < b

/-- Is one scalar before another? Texts compare with texts, numbers with numbers, dates with
dates. -/
def Scalar.before? : Scalar → Scalar → Except Fault Bool
  | .str a, .str b => .ok (a < b)
  | .bytes a, .bytes b => .ok ((a.map (·.toNat)) < (b.map (·.toNat)))
  | .date a, .date b => .ok (a.ordinal < b.ordinal)
  | .moment a, .moment b =>
    if a.offset.isSome == b.offset.isSome then .ok (a.instant < b.instant) else .error .wrongKind
  | .float a, .float b => .ok (a < b)
  | a, b =>
    match a.integer?, b.integer?, a, b with
    | some m, some n, _, _ => .ok (m < n)
    | some m, none, _, .float y => .ok (Decimal.intBelow m y)
    | none, some n, .float x, _ => .ok (Decimal.belowInt x n)
    | _, _, _, _ => .error .wrongKind

mutual

/-- Is one value before another? Sequences and pairs compare by their first difference, and a set is
before one that holds all of its members and more. -/
def Value.before? : Value → Value → Except Fault Bool
  | .scalar a, .scalar b => a.before? b
  | .seq xs, .seq ys => itemsBefore? xs ys
  | .pair a b, .pair c d =>
    if a.same c then (if b.same d then .ok false else b.before? d) else a.before? c
  | .set xs, .set ys => .ok (xs.length < ys.length && xs.all fun x => ys.any (·.same x))
  | _, _ => .error .wrongKind

def itemsBefore? : List Value → List Value → Except Fault Bool
  | [], [] => .ok false
  | [], _ :: _ => .ok true
  | _ :: _, [] => .ok false
  | x :: xs, y :: ys => if x.same y then itemsBefore? xs ys else x.before? y

end

def insertOrdered {α : Type} (before : α → α → Except Fault Bool) (x : α) :
    List α → Except Fault (List α)
  | [] => .ok [x]
  | y :: rest => do
    if ← before x y then return x :: y :: rest
    else return y :: (← insertOrdered before x rest)

def sortBy {α : Type} (before : α → α → Except Fault Bool) (xs : List α) : Except Fault (List α) :=
  xs.foldlM (fun sorted x => insertOrdered before x sorted) []

end ProjectLint
