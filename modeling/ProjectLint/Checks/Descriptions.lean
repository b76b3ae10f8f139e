import ProjectLint.Checks.Findings

/-!
# Descriptions

Models, macros and source tables have to be described, and so have their columns and arguments. What
counts is a description in the manifest or in a property file.
-/

namespace ProjectLint.Descriptions

def isDescribed (body : Value) : Except Fault Bool := do
  return (← body.field "description").truthy

/-- The names of the items that are described. -/
def describedNames {α : Type} (bodyOf : α → Value) (nameOf : α → Scalar) (items : Feed α) :
    Except Fault (List Scalar) :=
  (Feed.bind items fun x => Feed.ofExcept do
    return Feed.ofList (if ← isDescribed (bodyOf x) then [nameOf x] else [])).toExcept

def undescribedLines (files : FileMap) (described : List Scalar) : List String :=
  (files.filter fun f => !described.any (·.same (.str f.1))).map fun f =>
    red f.2.text ++ ": does not have defined description or properties file is missing."

/-- Every model is described. -/
def checkModels (t : Tree) (manifest : Value) (r : Request) : Findings :=
  Findings.of do
    let paths ← relatedFiles t manifest false propertySuffixes r.exclude r.paths
    let files ← modelFiles manifest r.withDisabled paths
    let inModels ← describedNames Model.node (fun m => .str m.filename) (r.modelsIn manifest files)
    let inEntries ← describedNames PropertyEntry.body PropertyEntry.name
      (modelEntries t (propertyFiles paths).files (.named files.stems))
    return undescribedLines files (inModels ++ inEntries)

/-- Every macro is described. -/
def checkMacros (t : Tree) (manifest : Value) (r : Request) : Findings :=
  Findings.of do
    let paths ← relatedFiles t manifest false (scriptSuffixes ++ propertySuffixes) r.exclude r.paths
    let files ← macroFiles manifest paths
    let inMacros ← describedNames Macro.body (fun m => .str m.filename)
        (macros manifest files.stems)
    let inEntries ← describedNames PropertyEntry.body PropertyEntry.name
      (macroEntries t (propertyFiles paths).files (.named files.stems))
    return undescribedLines files (inMacros ++ inEntries)

/-! ### Columns and arguments -/

def undescribedPart (part : Value) : Except Fault (Option Scalar) := do
  if ← isDescribed part then return none else return some (← (← part.field "name").key?)

/-- The names of the parts in a list that are not described. -/
def undescribed (parts : Value) : Except Fault (List Scalar) := do
  let names ← (← parts.items).mapM undescribedPart
  return distinct (names.filterMap id)

def undescribedColumn (column : Scalar × Value) : Except Fault (Option Scalar) := do
  match column.2 with
  | .map _ => if ← isDescribed column.2 then return none else return some column.1
  | _ => return none

def undescribedColumns (columns : Value) : Except Fault (List Scalar) := do
  let names ← (← columns.entries).mapM undescribedColumn
  return names.filterMap id

/-- What is not described, under the names of models or macros. -/
abbrev Gaps := List (Scalar × List Scalar)

namespace Gaps

def get (g : Gaps) (name : Scalar) : List Scalar :=
  ((g.find? fun e => e.1.same name).map (·.2)).getD []

def put (g : Gaps) (name : Scalar) (gap : List Scalar) : Gaps :=
  match g with
  | [] => [(name, gap)]
  | e :: rest => if e.1.same name then (e.1, gap) :: rest else e :: put rest name gap

def note (g : Gaps) (name : Scalar) (gap : List Scalar) : Gaps :=
  let before := g.get name
  if !before.isEmpty then g.put name (if gap.isEmpty then [] else union before gap)
  else if gap.isEmpty then g
  else g.put name gap

def complaints (g : Gaps) (what : String) (files : FileMap) : Findings :=
  Feed.flatMap (fun (e : Scalar × List Scalar) =>
    if e.2.isEmpty then .empty
    else Findings.of do
      return [red (files.shown e.1) ++ ": following " ++ what ++ " are missing description:\n- " ++
        yellow (← bullets e.2)]) g

end Gaps

def gapsOf (items : Feed (Scalar × List Scalar)) : Except Fault Gaps := do
  return (← items.toExcept).foldl (fun g e => g.note e.1 e.2) []

def withGaps {α : Type} (nameOf : α → Scalar) (gapOf : α → Except Fault (List Scalar))
    (items : Feed α) : Feed (Scalar × List Scalar) :=
  items.bind fun x => Feed.ofExcept do return Feed.ofList [(nameOf x, ← gapOf x)]

/-- The columns of models that are described neither in the manifest nor in a property file. -/
def columnGaps (t : Tree) (manifest : Value) (r : Request) : Except Fault (FileMap × Gaps) := do
  let files ← r.givenModelFiles manifest
  let inModels := withGaps (fun (m : Model) => .str m.filename)
    (fun m => do undescribedColumns (← m.node.fieldD "columns" (.map [])))
    (r.modelsIn manifest files)
  let inEntries := withGaps PropertyEntry.name
    (fun e => do undescribed (← e.body.fieldD "columns" (.seq [])))
    (modelEntries t (propertyFiles r.paths).files (.named files.stems))
  return (files, ← gapsOf (inModels ++ inEntries))

/-- All columns of all models are described. -/
def checkColumns (t : Tree) (manifest : Value) (r : Request) : Findings :=
  .ofExcept do
    let (files, gaps) ← columnGaps t manifest r
    return gaps.complaints "columns" files

/-- The arguments of macros that are described neither in the manifest nor in a property file. -/
def argumentGaps (t : Tree) (manifest : Value) (paths : List String) :
    Except Fault (FileMap × Gaps) := do
  let files ← macroFiles manifest paths
  let inMacros := withGaps (fun (m : Macro) => .str m.filename)
    (fun m => do undescribed (← m.body.fieldD "arguments" (.seq [])))
    (macros manifest files.stems)
  let inEntries := withGaps PropertyEntry.name
    (fun e => do undescribed (← e.body.fieldD "arguments" (.seq [])))
    (macroEntries t (propertyFiles paths).files (.named files.stems))
  return (files, ← gapsOf (inMacros ++ inEntries))

def checkArguments (t : Tree) (manifest : Value) (paths : List String) : Findings :=
  .ofExcept do
    let (files, gaps) ← argumentGaps t manifest paths
    return gaps.complaints "arguments" files

/-! ### Source tables -/

/-- The columns of a source table that are not described. A column without a name silences the
table. -/
def tableColumns (s : SourceTable) : Except Fault (List String) := do
  let missing ← undescribed (← s.tableBody.fieldD "columns" (.seq []))
  if missing.isEmpty || !missing.all fun c => (Value.scalar c).truthy then return []
  return [s.label ++ ": following columns are missing description:\n- " ++ (← bullets missing)]

/-- All columns of all source tables are described. -/
def checkTableColumns (t : Tree) (r : Request) : Findings :=
  checkTables (r.sourceTables t) tableColumns

def checkSourceTables (t : Tree) (r : Request) : Findings :=
  checkTables (r.sourceTables t) fun s => do
    return if ← isDescribed s.tableBody then []
      else [red s.label ++ ": does not have defined description."]

end ProjectLint.Descriptions
