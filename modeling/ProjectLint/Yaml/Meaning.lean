import ProjectLint.Text.Base64
import ProjectLint.Text.Number
import ProjectLint.Text.Split
import ProjectLint.Yaml.Node

/-!
# The value of a document

Every node is given the value that its tag asks for. Merge keys bring in the entries of other
mappings, which the mapping's own entries then override. A fault in an outer collection shows before
one further in, so faults carry the depth at which they arise.

The value keeps track of its shared parts: where the same node came in more than once, through an
alias or a merge, the places are marked with the number of that node.
-/

namespace ProjectLint.Yaml

/-- A place in a value: the indices of the items or entries that lead to it. -/
abbrev Place := List Nat

/-- A value together with the nodes that its collections and dates came from. -/
structure Built where
  value : Value
  marks : List (Place × Nat)

/-- A fault and the depth of the collection in which it arises. -/
structure DeepFault where
  depth : Nat
  fault : Fault

abbrev Building := Except DeepFault

def meaningless {α : Type} (depth : Nat) : Building α := .error ⟨depth, .badDocument .meaning⟩

def invalid {α : Type} (depth : Nat) (reason : String) : Building α :=
  .error ⟨depth, .badValue reason⟩

/-! ### Scalars -/

def withoutLowLines (s : String) : String := String.ofList (s.toList.filter (· != '_'))

def sixtySum (digits : List Int) : Int :=
  (digits.foldl (fun (acc : Int × Int) d => (acc.1 + d * acc.2, acc.2 * 60)) (0, 1)).1

/-- The integer after a sign, in the base that its first digits tell. -/
def unsignedInt? (body : List Char) : Option Int :=
  match body with
  | '0' :: 'b' :: digits => Text.integerIn? 2 (String.ofList digits)
  | '0' :: 'x' :: digits => Text.integerIn? 16 (String.ofList digits)
  | ['0'] => some 0
  | '0' :: _ => Text.integerIn? 8 (String.ofList body)
  | _ =>
    if body.contains ':' then
      ((Text.splitList ':' body).reverse.mapM fun d => Text.integer? (String.ofList d)).map sixtySum
    else Text.integer? (String.ofList body)

def intValue (depth : Nat) (text : String) : Building Value :=
  let (negative, body) := Text.splitSign (withoutLowLines text).toList
  if body.isEmpty then .error ⟨depth, .outOfRange⟩
  else
    match unsignedInt? body with
    | some n => .ok (.int (if negative then -n else n))
    | none => invalid depth "the text writes no integer"

def sixtyFloat : List Float → Float → Nat → Except Fault Float
  | [], sum, _ => .ok sum
  | d :: rest, sum, worth =>
    let place := Decimal.nearest worth 0
    if place == Decimal.infinity then .error .tooLarge
    else sixtyFloat rest (sum + d * place) (60 * worth)

/-- The double after a sign. -/
def unsignedFloat (body : List Char) : Except Fault Float :=
  let noNumber : Fault := .badValue "the text writes no number"
  if body == ".inf".toList then .ok Decimal.infinity
  else if body == ".nan".toList then .ok Decimal.notANumber
  else if body.contains ':' then
    match (Text.splitList ':' body).mapM Text.float? with
    | some digits => sixtyFloat digits.reverse 0 1
    | none => .error noNumber
  else
    match Text.float? body with
    | some x => .ok x
    | none => .error noNumber

def floatValue (depth : Nat) (text : String) : Building Value :=
  let whole := (Text.lower (withoutLowLines text)).toList
  let (negative, body) := Text.splitSign whole
  if whole.isEmpty then .error ⟨depth, .outOfRange⟩
  else
    match unsignedFloat body with
    | .ok x => .ok (.float (if negative then -x else x))
    | .error f => .error ⟨depth, f⟩

def boolValue (depth : Nat) (text : String) : Building Value :=
  let word := Text.lower text
  if word == "yes" || word == "true" || word == "on" then .ok (.bool true)
  else if word == "no" || word == "false" || word == "off" then .ok (.bool false)
  else .error ⟨depth, .missingKey⟩

def withoutLastNewline (cs : List Char) : List Char :=
  if cs.getLast? == some '\n' then cs.dropLast else cs

/-- The date or moment that a text writes; one newline may follow it. -/
def timeValue (depth : Nat) (text : String) : Building Value :=
  match stamp? (withoutLastNewline text.toList) with
  | none => .error ⟨depth, .noSuchField⟩
  | some ⟨_, date, none⟩ =>
    if date.isValid then .ok (.scalar (.date date))
    else invalid depth "day is out of range for month"
  | some ⟨_, date, some (hour, minute, second, micro, zone)⟩ =>
    let m : Moment := ⟨date, hour, minute, second, micro, zone⟩
    if m.isValid then .ok (.scalar (.moment m)) else invalid depth "value is out of range"

def binaryValue (depth : Nat) (text : String) : Building Value :=
  if text.toList.any fun c => c.toNat ≥ 128 then meaningless depth
  else
    match Text.Base64.decode text.toList with
    | some bytes => .ok (.scalar (.bytes bytes))
    | none => meaningless depth

/-- The value of a scalar with a tag. -/
def scalarValue (depth : Nat) (tag : Tag) (text : String) : Building Value :=
  match tag with
  | .null => .ok .null
  | .bool => boolValue depth text
  | .int => intValue depth text
  | .float => floatValue depth text
  | .str => .ok (.str text)
  | .timestamp => timeValue depth text
  | .binary => binaryValue depth text
  | _ => meaningless depth

/-! ### Merging -/

def YamlNode.tag : YamlNode → Tag
  | .scalar _ tag _ => tag
  | .seq _ tag _ => tag
  | .map _ tag _ => tag
  | .enclosing _ tag _ => tag

mutual

def flatten (depth : Nat) : Nat → List (YamlNode × YamlNode) → Building (List (YamlNode × YamlNode))
  | 0, _ => meaningless depth
  | fuel + 1, entries => do
    let merged ← entries.filterMapM fun (k, v) =>
      if k.tag == .merge then some <$> broughtIn depth fuel v else pure none
    let own := entries.filter fun e => e.1.tag != .merge
    return merged.flatten ++ own

/-- What a merge key brings in: the entries of a mapping, or of several with the last ones first. A
mapping that is merged into itself brings nothing new. -/
def broughtIn (depth : Nat) : Nat → YamlNode → Building (List (YamlNode × YamlNode))
  | 0, _ => meaningless depth
  | fuel + 1, source =>
    match source with
    | .map _ _ entries => flatten depth fuel entries
    | .enclosing _ _ .map => .ok []
    | .seq _ _ items => do
      let lists ← items.mapM fun item =>
        match item with
        | .map _ _ entries => flatten depth fuel entries
        | .enclosing _ _ .map => .ok []
        | _ => meaningless depth
      return lists.reverse.flatten
    | _ => meaningless depth

end

/-! ### Collections -/

def firstFault (a b : DeepFault) : DeepFault := if b.depth < a.depth then b else a

def both {α β : Type} (a : Building α) (b : Building β) : Building (α × β) :=
  match a, b with
  | .ok x, .ok y => .ok (x, y)
  | .ok _, .error g => .error g
  | .error f, .ok _ => .error f
  | .error f, .error g => .error (firstFault f g)

def sequence {α : Type} : List (Building α) → Building (List α)
  | [] => .ok []
  | r :: rest => (both r (sequence rest)).map fun p => p.1 :: p.2

def under (n : Nat) (b : Built) : List (Place × Nat) := b.marks.map fun m => (n :: m.1, m.2)

def underAll (n : Nat) : List Built → List (Place × Nat)
  | [] => []
  | b :: rest => under n b ++ underAll (n + 1) rest

def insertBuilt (key : Scalar) (b : Built) : List (Scalar × Built) → List (Scalar × Built)
  | [] => [(key, b)]
  | (k, old) :: rest => if k.same key then (k, b) :: rest else (k, old) :: insertBuilt key b rest

def keyOf (depth : Nat) (b : Built) : Building Scalar :=
  match b.value with
  | .scalar s => .ok s
  | _ => meaningless depth

def keyTag : Tag → Tag
  | .value => .str
  | tag => tag

def asKey : YamlNode → YamlNode
  | .scalar id tag text => .scalar id (keyTag tag) text
  | .seq id tag items => .seq id (keyTag tag) items
  | .map id tag entries => .map id (keyTag tag) entries
  | .enclosing id tag shape => .enclosing id (keyTag tag) shape

def Tag.isCollection : Tag → Bool
  | .seq | .map | .set | .omap | .pairs => true
  | _ => false

/-- The text of a node that stands for a scalar; a mapping may name one under the key `=`. -/
def scalarText (depth : Nat) : Nat → YamlNode → Building String
  | 0, _ => meaningless depth
  | fuel + 1, node =>
    match node with
    | .scalar _ _ text => .ok text
    | .map _ _ entries =>
      match entries.find? fun e => e.1.tag == .value with
      | some (_, v) => scalarText depth fuel v
      | none => meaningless depth
    | _ => meaningless depth

/-- Builds the value of a node. The first number bounds the depth of the tree, `depth` is the depth
of the collection that the node stands in. -/
def build : Nat → Nat → YamlNode → Building Built
  | 0, depth, _ => meaningless depth
  | fuel + 1, depth, node =>
    let items := fun (id : Nat) (nodes : List YamlNode) => do
      let built ← sequence (nodes.map (build fuel (depth + 1)))
      return (⟨.seq (built.map (·.value)), ([], id) :: underAll 0 built⟩ : Built)
    let entriesOf := fun (entries : List (YamlNode × YamlNode)) => do
      let flat ← flatten (depth + 1) (fuel + 1) entries
      let pairs ← sequence (flat.map fun (k, v) =>
        let k := asKey k
        let key := if k.tag.isCollection then meaningless (depth + 1) else build fuel (depth + 1) k
        match key with
        | .error f => .error f
        | .ok kb =>
          match keyOf (depth + 1) kb with
          | .error f => .error f
          | .ok key => (build fuel (depth + 1) v).map fun b => (key, b))
      return pairs.foldl (fun acc (p : Scalar × Built) => insertBuilt p.1 p.2 acc) []
    let pairsOf := fun (nodes : List YamlNode) =>
      sequence (nodes.map fun n =>
        match n with
        | .map _ _ [(k, v)] =>
          (both (build fuel (depth + 1) k) (build fuel (depth + 1) v)).map fun (kb, vb) =>
            (⟨.pair kb.value vb.value, under 0 kb ++ under 1 vb⟩ : Built)
        | _ => meaningless (depth + 1))
    match node.tag, node with
    | .seq, .enclosing id _ .seq => .ok ⟨.enclosing .seq, [([], id)]⟩
    | .omap, .enclosing id _ .seq => .ok ⟨.enclosing .seq, [([], id)]⟩
    | .pairs, .enclosing id _ .seq => .ok ⟨.enclosing .seq, [([], id)]⟩
    | .map, .enclosing id _ .map => .ok ⟨.enclosing .map, [([], id)]⟩
    | .set, .enclosing id _ .map => .ok ⟨.enclosing .set, [([], id)]⟩
    | .seq, .seq id _ nodes => items id nodes
    | .map, .map id _ entries => do
      let built ← entriesOf entries
      return ⟨.map (built.map fun e => (e.1, e.2.value)), ([], id) :: underAll 0 (built.map (·.2))⟩
    | .set, .map id _ entries => do
      let built ← entriesOf entries
      return ⟨.set (built.map (·.1)), [([], id)]⟩
    | .omap, .seq id _ nodes => do
      let built ← pairsOf nodes
      return ⟨.seq (built.map (·.value)), ([], id) :: underAll 0 built⟩
    | .pairs, .seq id _ nodes => do
      let built ← pairsOf nodes
      return ⟨.seq (built.map (·.value)), ([], id) :: underAll 0 built⟩
    | .seq, _ => meaningless (depth + 1)
    | .map, _ => meaningless (depth + 1)
    | .set, _ => meaningless (depth + 1)
    | .omap, _ => meaningless (depth + 1)
    | .pairs, _ => meaningless (depth + 1)
    | tag, node => do
      let text ← scalarText depth (fuel + 1) node
      let value ← scalarValue depth tag text
      let id := match node with
        | .scalar id _ _ => id
        | .seq id _ _ => id
        | .map id _ _ => id
        | .enclosing id _ _ => id
      let marks := match value with
        | .scalar (.date _) => [([], id)]
        | .scalar (.moment _) => [([], id)]
        | _ => []
      return ⟨value, marks⟩

end ProjectLint.Yaml
