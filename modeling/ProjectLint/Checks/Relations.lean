import ProjectLint.Checks.Findings
import ProjectLint.Project.Lineage

/-!
# Parents and children

Models and source tables are bounded in the number of nodes they depend on and of models that depend
on them. The parents of a model may have to lie in certain databases or schemas, or to be named in a
certain way. And a model with few children should not be built as a table.
-/

namespace ProjectLint.Relations

inductive Comparison where
  | less
  | greater
  | atMost
  | equal
deriving DecidableEq, Repr

/-- Compares two values, which must be of kinds that have an order. -/
def Comparison.holds (c : Comparison) (a b : Value) : Except Fault Bool :=
  match c with
  | .less => a.before? b
  | .greater => b.before? a
  | .atMost => (b.before? a).map (!·)
  | .equal => .ok (a.same b)

/-- A bound that is broken when the number on its side compares to the limit. A limit that is absent
or zero bounds nothing. -/
structure Bound where
  breaks : Comparison
  label : Value
  side : Value
  limit : Value

def Bound.isBroken (b : Bound) (number : Value) : Except Fault Bool :=
  if b.limit.truthy then b.breaks.holds number b.limit else .ok false

/-- The number on the side of a bound; an unknown side has none. -/
def Bound.number (b : Bound) (children parents : Nat) : Except Fault Value := do
  let side ← b.side.key?
  return if side.same (.str "childs") then .int children
    else if side.same (.str "parents") then .int parents
    else .null

def modelBound (name : Value) (children parents : Nat) (b : Bound) : Findings :=
  Findings.of do
    let number ← b.number children parents
    return if ← b.isBroken number then
      [name.text ++ ": has " ++ number.text ++ " " ++ b.side.text ++ " " ++ b.label.text ++
        ", but " ++ b.label.text ++ " " ++ b.limit.text ++ " is/are required."]
      else []

/-- The bounds that a model breaks. -/
def modelBounds (manifest : Value) (bounds : List Bound) (m : Model) : Findings :=
  .ofExcept do
    let children ← childModels manifest (.model (.str m.id))
    let above ← parents manifest (.model (.str m.id)) ["model", "source"]
    return Feed.flatMap (modelBound m.name children.length above.length) bounds

def checkModelBounds (manifest : Value) (bounds : List Bound) (r : Request) : Findings :=
  (r.givenModels manifest).bind (modelBounds manifest bounds)

def tableBound (label : String) (children : Nat) (b : Bound) : Findings :=
  Findings.of do
    return if ← b.isBroken (.int children) then
      [label ++ s!": has {children} " ++ b.label.text ++ ", but " ++ b.label.text ++ " " ++
        b.limit.text ++ "is/are required."]
      else []

def tableBounds (manifest : Value) (bounds : List Bound) (s : SourceTable) : Findings :=
  .ofExcept do
    let children ← childModels manifest (.sourceTable s.source s.table)
    return Feed.flatMap (tableBound s.label children.length) bounds

def checkTableBounds (t : Tree) (manifest : Value) (bounds : List Bound) (r : Request) : Findings :=
  (r.sourceTables t).bind (tableBounds manifest bounds)

/-! ### Materialization -/

def considerLine (name : Value) (children : Nat) (how : Value) (instead : String) : String :=
  name.text ++ s!": has {children} childs, but the materialization is " ++ how.text ++
    ". Consider changing the materialization to " ++ instead ++ "."

def modelMaterialization (manifest : Value) (threshold : Int) (m : Model) :
    Except Fault (List String) := do
  let children := (← childModels manifest (.model (.str m.id))).length
  let node ← (← manifest.fieldD "nodes" (.map [])).field m.id
  let how ← (← node.field "config").field "materialized"
  let isView := how.same (.str "view")
  return if (children : Int) > threshold && isView then
      [considerLine m.name children how "table or incremental"]
    else if (children : Int) ≤ threshold && !isView then
      [considerLine m.name children how "view or ephemeral"]
    else []

def checkMaterialization (manifest : Value) (threshold : Int) (r : Request) : Findings :=
  checkModels (r.givenModels manifest) (modelMaterialization manifest threshold)

/-! ### Where parents may come from -/

/-- What is allowed or forbidden. An empty list of what is allowed allows everything. -/
structure Lists where
  allowed : List String
  forbidden : List String

def Lists.refuses (l : Lists) (v : Value) : Bool :=
  (!l.allowed.isEmpty && !l.allowed.any fun a => v.same (.str a)) ||
    l.forbidden.any fun f => v.same (.str f)

def parentField (field : String) (l : Lists) (name : Value) (parent : Relative) : Findings :=
  Findings.of do
    let place ← parent.node.field field
    if l.refuses place then
      return [name.text ++ ": has parent " ++ (← parent.node.field "name").text ++
        " with invalid " ++ field ++ " " ++ place.text ++ "."]
    return []

def modelParentFields (manifest : Value) (field : String) (l : Lists) (m : Model) : Findings :=
  .ofExcept do
    return Feed.flatMap (parentField field l m.name)
      (← parents manifest (.model (.str m.id)) ["model", "source"])

def checkParentDatabase (t : Tree) (manifest : Value) (l : Lists) (r : Request) : Findings :=
  .ofExcept do
    let paths ← relatedFiles t manifest true (scriptSuffixes ++ propertySuffixes) r.exclude r.paths
    return (r.modelsIn manifest (scriptFiles paths)).bind (modelParentFields manifest "database" l)

def checkParentSchema (manifest : Value) (l : Lists) (r : Request) : Findings :=
  (r.modelsIn manifest (scriptFiles r.paths)).bind (modelParentFields manifest "schema" l)

def baseName (text : String) : String := lastPart (Text.split '/' text)

def Lists.refusesStart (l : Lists) (name : String) : Bool :=
  let starts := fun (beginning : String) => beginning.toList.isPrefixOf name.toList
  (!l.allowed.isEmpty && !l.allowed.any starts) || l.forbidden.any starts

def parentName (l : Lists) (name : Value) (parent : Relative) : Findings :=
  Findings.of do
    match parent with
    | .model m =>
      let base := baseName (← m.name.textOnly)
      if l.refusesStart base then
        return [name.text ++ ": has parent " ++ (← m.node.field "name").text ++
          " with invalid model name prefix " ++ base ++ "."]
      return []
    | _ => return []

def checkParentNames (manifest : Value) (l : Lists) (r : Request) : Findings :=
  (r.modelsIn manifest (scriptFiles r.paths)).bind fun m =>
    .ofExcept do
      return Feed.flatMap (parentName l m.name) (← parents manifest (.model (.str m.id)) ["model"])

end ProjectLint.Relations
