import ProjectLint.Checks.Findings
import ProjectLint.Project.NamePair

/-!
# Columns

The columns that a project describes are compared with those that the catalog found in the database.
Names are compared in lower case.
-/

namespace ProjectLint.Columns

def lowered (names : List String) : List String := (names.map Text.lower).eraseDups

def columnNames (columns : Value) : Except Fault (List String) := do
  return lowered (← (← columns.keys).mapM idText)

/-- The names on one side only: those that are described, and those in the catalog. -/
structure Difference where
  describedOnly : List String
  catalogOnly : List String

def difference (described catalog : List String) : Difference :=
  ⟨described.filter fun c => !catalog.contains c, catalog.filter fun c => !described.contains c⟩

def columnLines (paint : String → String) (columns : List String) : String :=
  "\n".intercalate ((columns.filter fun c => !c.isEmpty).map fun c => "- name: " ++ paint c)

/-! ### Models -/

def compareModel (catalogColumns modelColumns : Value) : Except Fault Difference := do
  let inCatalog ← columnNames catalogColumns
  let inModel ← columnNames modelColumns
  return difference inModel inCatalog

def notInCatalog (m : Model) : String :=
  "Unable to find model `" ++ red m.id ++
    "` in catalog file. Make sure you run `dbt docs generate` before executing this hook."

def modelLines (file described : String) (d : Difference) : List String :=
  (if d.describedOnly.isEmpty then []
    else ["Columns in " ++ yellow described ++ ", but not in Database (" ++ red file ++ "):\n" ++
      columnLines yellow d.describedOnly]) ++
  (if d.catalogOnly.isEmpty then []
    else ["Columns in Database (" ++ red file ++ "), but not in " ++ yellow described ++ ":\n" ++
      columnLines red d.catalogOnly])

def modelColumns (catalogNodes : Value) (files : FileMap) (m : Model) :
    Except Fault (List String) := do
  let node ← catalogNodes.fieldD m.id (.map [])
  if !node.truthy then return [notInCatalog m]
  let d ← compareModel (← node.fieldD "columns" (.map [])) (← m.node.fieldD "columns" (.map []))
  let patch ← m.node.fieldD "patch_path" (.str "schema")
  let described := if patch.truthy then patch.text else "any .yml file"
  return modelLines (files.shown (.str m.filename)) described d

/-- Every model has the columns that the catalog has for it. -/
def checkModels (t : Tree) (manifest catalog : Value) (r : Request) : Findings :=
  .ofExcept do
    let files ← r.modelFiles t manifest
    let nodes ← catalog.fieldD "nodes" (.map [])
    return ProjectLint.checkModels (r.modelsIn manifest files) (modelColumns nodes files)

/-! ### Source tables -/

def lastTwo (id : String) : Except Fault NamePair :=
  match (idParts id).reverse with
  | table :: source :: _ => .ok ⟨.str source, .str table⟩
  | _ => .error .outOfRange

/-- The sources of a catalog under the last two parts of their ids; of equal pairs the last one
counts. -/
def catalogSources (catalog : Value) : Except Fault (ByPair Value) := do
  (← sectionNodes catalog "sources").foldlM (fun m e => do
    return ByPair.put m (← lastTwo (← idText e.1)) e.2) []

/-- The names of the described columns of a source table; those without a name are left out. -/
def describedNames (columns : Value) : Except Fault (List String) := do
  let names ← (← columns.items).mapM fun column => do
    let name ← column.field "name"
    return if name.truthy then some name.text else none
  return lowered (names.filterMap id)

def compareTable (catalogColumns described : Value) : Except Fault Difference := do
  let inCatalog ← columnNames catalogColumns
  let inSchema ← describedNames described
  return difference inSchema inCatalog

def fullName (s : SourceTable) : Except Fault String := do
  return (← s.source.textOnly) ++ "." ++ (← s.table.textOnly)

def tableLines (s : SourceTable) (d : Difference) : Except Fault (List String) := do
  let described ← if d.describedOnly.isEmpty then pure []
    else pure [(← fullName s) ++ ": columns in " ++ s.file.stem ++
      " but not in db (catalog.json):\n" ++ columnLines id d.describedOnly]
  let catalog ← if d.catalogOnly.isEmpty then pure []
    else pure [(← fullName s) ++ ": columns in db (catalog.json) but not in " ++ s.file.stem ++
      ":\n" ++ columnLines id d.catalogOnly]
  return described ++ catalog

def tableColumns (sources : ByPair Value) (s : SourceTable) : Except Fault (List String) := do
  let pair : NamePair := ⟨← s.source.key?, ← s.table.key?⟩
  let node := (sources.get? pair).getD (.map [])
  if !node.truthy then
    return ["Unable to find source `" ++ s.label ++
      "` in catalog file. Make sure you run `dbt docs generate` before executing this hook."]
  tableLines s (← compareTable (← node.fieldD "columns" (.map []))
    (← s.tableBody.fieldD "columns" (.seq [])))

/-- Every source table has the columns that the catalog has for it. -/
def checkTables (t : Tree) (catalog : Value) (r : Request) : Findings :=
  .ofExcept do
    let sources ← catalogSources catalog
    return ProjectLint.checkTables (r.sourceTables t) (tableColumns sources)

end ProjectLint.Columns
