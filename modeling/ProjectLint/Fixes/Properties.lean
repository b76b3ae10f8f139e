import ProjectLint.Checks.Findings
import ProjectLint.Fixes.Sources
import ProjectLint.Template

/-!
# Writing property files

A model that no property file describes is written to one, with the columns that the catalog has for
it. The path of the file is a template that is filled for each model.
-/

namespace ProjectLint.PropertyFiles

open Yaml (Document)

/-- The columns of a catalog node, in lower case. -/
def columnsOf (node : Value) : Except Fault Value := do
  let names ← (← node.fieldD "columns" (.map [])).keys
  let columns ← (names.filter fun n => (Value.scalar n).truthy).mapM fun n => do
    return Value.record [("name", .str (Text.lower (← idText n)))]
  return .seq columns

/-- What is written about a model, with a remark if the catalog does not have it. -/
structure Entry where
  fields : List (String × Value)
  remark : Option String

def entryOf (catalogNodes : Value) (m : Model) : Except Fault (Option Entry) := do
  if (← m.node.field "patch_path").truthy then return none
  let node ← catalogNodes.fieldD m.id (.map [])
  if node.truthy then return some ⟨[("name", m.name), ("columns", ← columnsOf node)], none⟩
  return some ⟨[("name", m.name)], some ("Unable to find model `" ++ m.id ++
    "` in catalog file. Model properties will be created without columns.")⟩

/-- Appends an entry to the models of a document. -/
def append (document : Document) (entry : Value) : Except Fault Document := do
  let models ← document.root.field "models"
  let document := if models.truthy then document else document.put [] "models" (.seq [])
  match Document.fieldIndex? document.root "models" with
  | none => return document
  | some n =>
    match document.at? [n] with
    | some (.seq _) => return document.push [n] entry
    | _ => throw .noSuchField

def fresh (entry : Value) : Document :=
  .plain (Value.record [("version", .int 2), ("models", .seq [entry])])

def makeDir (t : Tree) (dir : Path) : Except Fault Tree :=
  match t.follow dir.text with
  | .dir _ | .outside => .ok t
  | .file _ _ => .error (.alreadyExists dir.text)
  | .throughFile => .error (.notADirectory dir.text)
  | .absent place => .ok (t.putNode place .dir)
  | .noDirectory => .error (.noSuchFile dir.text)

def makeDirs (dir : Path) : Edit Unit := fun t =>
  let make := fun (d : Path) => Edit.change fun t => makeDir t d
  match t.follow dir.text with
  | .noDirectory => Edit.forEach make dir.ascent t
  | _ => make dir t

/-- Appends an entry to a file that is there, or makes a new one. -/
def writeEntry (file : Path) (entry : Entry) (name : Value) : Edit Unit := fun t =>
  let value := Value.record entry.fields
  let done := fun (what : String) =>
    Edit.say (file.text ++ ": the schema of the `" ++ name.text ++ "` model was " ++ what ++
      " the file.")
  let work : Edit Unit :=
    if t.exists? file.text then do
      let document ← Edit.ask fun t => t.readDocument file.text
      let document ← Edit.ofExcept (append document value)
      Edit.change fun t => t.writeDocument file.text document
      done "appended to"
    else do
      makeDirs file.parent
      Edit.change fun t => t.writeDocument file.text (fresh value)
      done "written to"
  work t

def templateValues (node : Value) : Except Fault (List (String × Value)) := do
  let values ← ["database", "schema", "alias", "name"].mapM fun field => do
    return (field, ← node.field field)
  return values.filter fun v => v.2.truthy

/-- Writes the entry of one model, if it needs one. -/
def writeModel (catalogNodes : Value) (template : String) (status : Status) (m : Model) :
    Edit Status := do
  match ← Edit.ofExcept (entryOf catalogNodes m) with
  | none => return status
  | some entry =>
    Edit.forEach Edit.say entry.remark.toList
    let values ← Edit.ofExcept (templateValues m.node)
    let path ← Edit.ofExcept (Template.render template values)
    writeEntry (Path.ofString path) entry m.name
    return 1

/-- Writes the entries of all models that no property file describes. -/
def generate (manifest catalog : Value) (template : String) (r : Request) : Edit Status := do
  let feed := r.modelsIn manifest (scriptFiles r.paths)
  let nodes ← Edit.ofExcept (catalog.fieldD "nodes" (.map []))
  let status ← Edit.foldl (writeModel nodes template) 0 feed.items
  match feed.stop with
  | some f => Edit.fail f
  | none => return status

end ProjectLint.PropertyFiles
