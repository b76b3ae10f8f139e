import ProjectLint.Checks.Findings

/-!
# Required keys

Resources carry keys in their meta data and labels. A check names the keys that have to be there;
others are allowed or not.
-/

namespace ProjectLint.Keys

/-- The keys that are asked for, as given, and whether others may stand beside them. -/
structure Required where
  keys : List String
  allowExtra : Bool

def Required.isMet (r : Required) (actual : List Scalar) : Bool :=
  isSubset (textSet r.keys) actual && (r.allowExtra || isSubset actual (textSet r.keys))

def mismatch (name : String) (r : Required) (actual : List Scalar) : Except Fault String := do
  return name ++ " meta keys don't match. \nProvided: " ++ yellow (", ".intercalate r.keys) ++
    "\nActual: " ++ red (← commaList actual) ++ "\n"

def metaKeys (body : Value) : Except Fault (List Scalar) := do
  keySet (← body.fieldD "meta" (.map []))

/-! ### Resources -/

def resourceMismatch (r : Required) (x : Resource) : Except Fault (Option String) := do
  let actual ← metaKeys x.body
  if r.isMet actual then return none else return some (← mismatch x.name.text r actual)

def judgeResource (r : Required) (x : Resource) : Report Status := do
  match ← resourceMismatch r x with
  | none => return 0
  | some line =>
    Report.say line
    return 1

def checkResources (r : Required) (items : Feed Resource) : Report Status :=
  items.fold 0 fun _ x => judgeResource r x

def checkExposures (t : Tree) (r : Required) (paths : List String) : Report Status :=
  checkResources r (exposures t paths)

def checkSeeds (manifest : Value) (r : Required) (paths : List String) : Report Status :=
  checkResources r (seeds manifest (propertyFiles paths).stems)

def checkSnapshots (manifest : Value) (r : Required) (paths : List String) : Report Status :=
  checkResources r (snapshots manifest ((propertyFiles paths).stems ++ (scriptFiles paths).stems))

def checkTests (manifest : Value) (r : Required) (paths : List String) : Report Status :=
  checkResources r (testNodes manifest (scriptFiles paths).stems)

/-- Macros named like property files. A macro has no properties to look at, so that the check breaks
off at the first one. -/
def checkMacros (manifest : Value) (paths : List String) : Report Status :=
  (macros manifest (propertyFiles paths).stems).fold 0 fun _ _ => Report.fail .noSuchField

/-! ### Models -/

def namesMet {α : Type} (keysOf : α → Except Fault (List Scalar)) (nameOf : α → Scalar)
    (r : Required) (items : Feed α) : Except Fault (List Scalar) := do
  let met ← (Feed.bind items fun x => Feed.ofExcept do
    return Feed.ofList (if r.isMet (← keysOf x) then [nameOf x] else [])).toExcept
  return met

/-- The scripts of models that meet the requirement neither in the manifest nor in a property
file. -/
def unmet (t : Tree) (manifest : Value) (modelKeys entryKeys : Value → Except Fault (List Scalar))
    (r : Required) (request : Request) : Except Fault (List Path) := do
  let files ← request.givenModelFiles manifest
  let inModels ← namesMet (fun (m : Model) => modelKeys m.node) (fun m => .str m.filename) r
    (request.modelsIn manifest files)
  let inEntries ← namesMet (fun (e : PropertyEntry) => entryKeys e.body) (·.name) r
    (modelEntries t (propertyFiles request.paths).files (.named files.stems))
  return (files.filter fun f => !(inModels ++ inEntries).any (·.same (.str f.1))).map (·.2)

def missingLine (what : String) (r : Required) (file : Path) : String :=
  file.text ++ ": does not have some of the " ++ what ++ " keys defined:\n- " ++
    "\n- ".intercalate r.keys

/-- Every model has the meta keys, in the manifest or in a property file. -/
def checkModelMeta (t : Tree) (manifest : Value) (r : Required) (request : Request) : Findings :=
  Findings.of do
    return (← unmet t manifest metaKeys metaKeys r request).map (missingLine "meta" r)

def labelKeys (labels : Value) : Except Fault (List Scalar) :=
  if labels.truthy then keySet labels else .ok []

def nodeLabels (node : Value) : Except Fault (List Scalar) := do
  match ← node.field "config" with
  | .null => return []
  | config => labelKeys (← config.field "labels")

def entryLabels (body : Value) : Except Fault (List Scalar) := do
  labelKeys (← (← body.field "config").field "labels")

/-- Every model has the label keys, in the manifest or in a property file. -/
def checkModelLabels (t : Tree) (manifest : Value) (r : Required) (request : Request) : Findings :=
  Findings.of do
    return (← unmet t manifest nodeLabels entryLabels r request).map (missingLine "labels" r)

/-! ### Source tables -/

def tableKeys (part : String) (s : SourceTable) : Except Fault (List Scalar) := do
  let ofSource ← keySet (← s.sourceBody.fieldD part (.map []))
  let ofTable ← keySet (← s.tableBody.fieldD part (.map []))
  return union ofSource ofTable

def tableMeta (r : Required) (s : SourceTable) : Except Fault (List String) := do
  let actual ← tableKeys "meta" s
  if r.isMet actual then return [] else return [← mismatch s.label r actual]

def checkTableMeta (t : Tree) (r : Required) (request : Request) : Findings :=
  checkTables (request.sourceTables t) (tableMeta r)

def tableLabels (keys : List String) (s : SourceTable) : Except Fault (List String) := do
  let missing := minus (textSet keys) (← tableKeys "labels" s)
  if missing.isEmpty then return []
  return [s.label ++ ": does not have some of the labels keys defined:\n- " ++ (← bullets missing)]

def checkTableLabels (t : Tree) (keys : List String) (request : Request) : Findings :=
  checkTables (request.sourceTables t) (tableLabels keys)

end ProjectLint.Keys
