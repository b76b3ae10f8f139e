import ProjectLint.Yaml.Meaning

/-!
# Documents

A document is a value together with its shared parts: places that hold one and the same collection.
A change at one such place shows at all of them.
-/

namespace ProjectLint.Yaml

structure Document where
  root : Value
  /-- Places with the number of the node they share, for nodes that stand at more than one place. -/
  shares : List (Place × Nat)

namespace Document

def plain (v : Value) : Document := ⟨v, []⟩

def ofBuilt (b : Built) : Document :=
  let repeated := fun (id : Nat) => (b.marks.filter fun m => m.2 == id).length > 1
  ⟨b.value, b.marks.filter fun m => repeated m.2⟩

/-- Reads a document; a text without one reads as null. -/
def read (text : String) : Except Fault Document :=
  match nodeOf text with
  | .error f => .error f
  | .ok none => .ok (plain .null)
  | .ok (some node) =>
    match build (text.length + 2) 0 node with
    | .ok b => .ok (ofBuilt b)
    | .error f => .error f.fault

/-! ### Places -/

def shareAt? (d : Document) (place : Place) : Option Nat :=
  (d.shares.find? fun s => s.1 == place).map (·.2)

/-- All places that hold the same thing as `place`, which is given from its end. -/
def aliasesRev (d : Document) : List Nat → List Place
  | [] => [[]]
  | n :: above =>
    match d.shareAt? (n :: above).reverse with
    | some id => (d.shares.filter fun s => s.2 == id).map (·.1)
    | none => (d.aliasesRev above).map (· ++ [n])

def aliases (d : Document) (place : Place) : List Place := d.aliasesRev place.reverse

end Document

/-- The part of a value at a place. -/
def valueAt? (v : Value) : Place → Option Value
  | [] => some v
  | n :: rest =>
    match v with
    | .seq items => items[n]?.bind fun item => valueAt? item rest
    | .map entries => entries[n]?.bind fun e => valueAt? e.2 rest
    | .pair first second =>
      if n = 0 then valueAt? first rest else if n = 1 then valueAt? second rest else none
    | _ => none

/-- Changes the part of a value at a place. -/
def changeAt (f : Value → Value) (v : Value) : Place → Value
  | [] => f v
  | n :: rest =>
    match v with
    | .seq items => .seq (items.modify n fun item => changeAt f item rest)
    | .map entries => .map (entries.modify n fun e => (e.1, changeAt f e.2 rest))
    | .pair first second =>
      if n = 0 then .pair (changeAt f first rest) second
      else if n = 1 then .pair first (changeAt f second rest)
      else .pair first second
    | v => v

namespace Document

def at? (d : Document) (place : Place) : Option Value := valueAt? d.root place

def change (d : Document) (place : Place) (f : Value → Value) : Document :=
  { d with root := (d.aliases place).foldl (fun v p => changeAt f v p) d.root }

def forget (d : Document) (places : List Place) : Document :=
  { d with shares := d.shares.filter fun s => !(places.any fun p => p.isPrefixOf s.1) }

def pushItem (item : Value) : Value → Value
  | .seq items => .seq (items ++ [item])
  | v => v

def push (d : Document) (place : Place) (item : Value) : Document := d.change place (pushItem item)

def putField (key : String) (value : Value) : Value → Value
  | .map entries => .map (Entries.put entries key value)
  | v => v

def fieldIndex? (v : Value) (key : String) : Option Nat :=
  match v with
  | .map entries => entries.findIdx? fun e => e.1.same (.str key)
  | _ => none

def put (d : Document) (place : Place) (key : String) (value : Value) : Document :=
  let d :=
    match (d.at? place).bind fun v => fieldIndex? v key with
    | some n => d.forget ((d.aliases place).map (· ++ [n]))
    | none => d
  d.change place (putField key value)

end Document

end ProjectLint.Yaml
