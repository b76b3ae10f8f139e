import ProjectLint.Checks.Findings

/-!
# Contracts, constraints and tags

What the nodes of models have to declare: an enforced contract, certain constraints, a script with
properties, and no tags but the known ones.
-/

namespace ProjectLint.Contracts

/-- Does a constraint of a model have all that a required one asks for? -/
def isMetBy (modelConstraint : Value) : Entries → Except Fault Bool
  | [] => .ok true
  | (key, value) :: rest => do
    if !(← (Value.scalar key).isIn modelConstraint) then return false
    let actual ← match modelConstraint with
      | .map entries => pure ((Entries.find? entries key).getD .null)
      | _ => throw .wrongKind
    if !actual.same value then return false
    isMetBy modelConstraint rest

def constraintMet (required modelConstraint : Value) : Except Fault Bool := do
  isMetBy modelConstraint (← required.entries)

def isMetByAny (required : Value) : List Value → Except Fault Bool
  | [] => .ok false
  | c :: rest => do if ← constraintMet required c then return true else isMetByAny required rest

def areMet (modelConstraints : Value) : List Value → Except Fault Bool
  | [] => .ok true
  | required :: rest => do
    if ← isMetByAny required (← modelConstraints.items) then areMet modelConstraints rest
    else return false

/-- Does a node have the required constraints? -/
def hasConstraints (required node : Value) : Except Fault Bool := do
  let constraints ← node.fieldD "constraints" (.seq [])
  areMet constraints (← required.items)

def isTable (node : Value) : Except Fault Bool := do
  let how ← (← node.field "config").field "materialized"
  return how.same (.str "table") || how.same (.str "incremental")

def modelConstraints (required : Value) (m : Model) : Except Fault (List String) := do
  if !(← isTable m.node) then return []
  if ← hasConstraints required m.node then return []
  return [m.id ++ ": Doesn't have necessary constraints defined. Model constraints: " ++
    (← m.node.field "constraints").text]

def checkConstraints (t : Tree) (manifest required : Value) (r : Request) : Findings :=
  checkModels (r.models t manifest) (modelConstraints required)

def modelContract (m : Model) : Except Fault (List String) := do
  let config ← m.node.fieldD "config" (.map [])
  let enforced ← (← config.fieldD "contract" (.map [])).field "enforced"
  return if enforced.truthy then [] else [m.name.text ++ ": doesn't have contract defined."]

def checkContract (t : Tree) (manifest : Value) (r : Request) : Findings :=
  checkModels (r.models t manifest) modelContract

/-! ### Property files -/

/-- The scripts of models that no property file describes; snapshots need none. -/
def withoutProperties (manifest : Value) (r : Request) : Except Fault FileMap := do
  let files ← r.givenModelFiles manifest
  let ofSnapshots ← snapshotNames manifest
  let files : FileMap := files.filter fun f => !ofSnapshots.contains f.1
  let described ← (r.modelsIn manifest files |>.bind fun m => Feed.ofExcept do
    return Feed.ofList (if (← m.node.field "patch_path").truthy then [m.filename] else [])).toExcept
  return files.filter fun f => !described.contains f.1

def propertiesLine (file : Path) : String :=
  red file.text ++ ": does not have model properties defined in any .yml file."

/-- All models are described in a property file. -/
def checkProperties (manifest : Value) (r : Request) : Findings :=
  Findings.of do return (← withoutProperties manifest r).map fun f => propertiesLine f.2

/-! ### Tags -/

def modelTags (known : List String) (m : Model) : Except Fault (List String) := do
  let tags ← (← m.node.fieldD "tags" (.seq [])).toSet
  let invalid := minus tags (textSet known)
  if invalid.isEmpty then return []
  return [(← m.node.fieldD "original_file_path" (.str m.filename)).text ++
    ": has invalid tags:\n- " ++ (← bullets invalid)]

def checkModelTags (t : Tree) (manifest : Value) (known : List String) (r : Request) : Findings :=
  checkModels (r.models t manifest) (modelTags known)

def tableTags (known : List String) (s : SourceTable) : Except Fault (List String) := do
  let ofSource ← (← s.sourceBody.fieldD "tags" (.seq [])).toSet
  let ofTable ← (← s.tableBody.fieldD "tags" (.seq [])).toSet
  let invalid := minus (union ofSource ofTable) (textSet known)
  if invalid.isEmpty then return []
  return [s.label ++ ": has invalid tags:\n- " ++ (← bullets invalid)]

def checkTableTags (t : Tree) (known : List String) (r : Request) : Findings :=
  checkTables (r.sourceTables t) (tableTags known)

end ProjectLint.Contracts
