import ProjectLint.Project.Node

/-!
# Lineage

A manifest maps every node to the nodes that depend on it and to those it depends on. A model is
found in such a map by its id. A source table is found by its names, which have to be parts of the
id.
-/

namespace ProjectLint

/-- A test with the kind it is of and the name of its rule. -/
structure Test where
  id : String
  kind : String
  name : Value
  node : Value

structure Source where
  id : String
  source : Value
  table : Value
  filename : Value
  node : Value

/-- A model met on the way, under its path. -/
structure RelatedModel where
  id : String
  name : Value
  path : Value
  node : Value

inductive Relative where
  | test (t : Test)
  | model (m : RelatedModel)
  | source (s : Source)

namespace Relative

def node : Relative → Value
  | .test t => t.node
  | .model m => m.node
  | .source s => s.node

end Relative

/-- What is looked for in a lineage map. -/
inductive Subject where
  | model (id : Value)
  | modelEntry (name : Value)
  | sourceTable (source table : Value)
  | other

/-- Are all names parts of the id? -/
def namesIn (names : List Value) (parts : List String) : Except Fault Bool := do
  let keys ← names.mapM Value.key?
  return keys.all fun k => parts.any fun p => k.same (.str p)

def Subject.fits (s : Subject) (id : String) : Except Fault Bool :=
  match s with
  | .sourceTable source table => namesIn [.str "source", source, table] (idParts id)
  | .modelEntry name => namesIn [.str "model", name] (idParts id)
  | .model m => .ok (m.same (.str id))
  | .other => .ok false

def findTest (manifest : Value) (id : String) : Except Fault Test := do
  let node ← (← manifest.fieldD "nodes" (.map [])).field id
  let isData ← (Value.str "data").isIn (← node.fieldD "tags" (.seq []))
  let name ← (← node.fieldD "test_metadata" (.map [])).field "name"
  return ⟨id, if isData then "data" else "schema", if name.truthy then name else .str "data", node⟩

/-- The node under an id, as a test, a model, or else a source. -/
def relative (manifest : Value) (kind id : String) : Except Fault Relative := do
  if kind == "test" then return .test (← findTest manifest id)
  else if kind == "model" then
    let node ← (← manifest.fieldD "nodes" (.map [])).field id
    return .model ⟨id, ← node.fieldD "name" (.str ""), ← node.fieldD "path" (.str ""), node⟩
  else
    let node ← (← manifest.fieldD "sources" (.map [])).field id
    return .source ⟨id, ← node.fieldD "source_name" (.str ""), ← node.fieldD "name" (.str ""),
      ← node.fieldD "path" (.str ""), node⟩

/-- The node of a listed id, if its kind is wanted. -/
def listed (manifest : Value) (kinds : List String) (id : Value) :
    Except Fault (Option Relative) := do
  let id ← id.str?
  let kind := firstPart (idParts id)
  if kinds.contains kind then return some (← relative manifest kind id) else return none

def listedAll (manifest : Value) (kinds : List String) (ids : Value) :
    Except Fault (List Relative) := do
  return (← (← ids.items).mapM (listed manifest kinds)).filterMap id

/-- The nodes of the wanted kinds that a lineage map lists for the subject. -/
def relatives (manifest : Value) (subject : Subject) (lineage : String) (kinds : List String) :
    Except Fault (List Relative) := do
  let found ← (← sectionNodes manifest lineage).mapM fun entry => do
    let id ← idText entry.1
    if ← subject.fits id then listedAll manifest kinds entry.2 else return []
  return found.flatten

/-- The tests that depend on the subject. -/
def testsOf (manifest : Value) (subject : Subject) : Except Fault (List Test) := do
  return (← relatives manifest subject "child_map" ["test"]).filterMap fun r =>
    match r with
    | .test t => some t
    | _ => none

def childModels (manifest : Value) (subject : Subject) : Except Fault (List Relative) :=
  relatives manifest subject "child_map" ["model"]

def parents (manifest : Value) (subject : Subject) (kinds : List String) :
    Except Fault (List Relative) :=
  relatives manifest subject "parent_map" kinds

end ProjectLint
