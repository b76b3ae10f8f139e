import ProjectLint.Checks.Scripts
import ProjectLint.Edit
import ProjectLint.Yaml.Sheet

/-!
# Adding missing sources

Source tables that scripts call and the manifest does not list are added to a property file, below
the source of their name. The file is written anew for every table.
-/

namespace ProjectLint

def Tree.writeDocument (t : Tree) (path : String) (document : Yaml.Document) : Except Fault Tree :=
  t.writeText path document.write

def Tree.isFile (t : Tree) (path : String) : Bool := t.exists? path && !t.isDir path

namespace Sources

open Yaml (Document Place)

/-- Adds a table to the source at a place, after those it has. -/
def addTable (document : Document) (place : Place) (source : Value) (table : String) :
    Except Fault Document :=
  let item := Value.record [("name", .str table)]
  match Document.fieldIndex? source "tables" with
  | none =>
    .ok ((document.put place "tables" (.seq [])).push
      (place ++ [(source.entries.map List.length).toOption.getD 0]) item)
  | some n =>
    match document.at? (place ++ [n]) with
    | some (.seq _) => .ok (document.push (place ++ [n]) item)
    | _ => .error .noSuchField

/-- Adds a table to the `n`-th source, if it has the name. -/
def addToSource (above : Place) (call : Scripts.SourceCall) (state : Document × Bool) (n : Nat) :
    Except Fault (Document × Bool) := do
  let (document, seen) := state
  let place := above ++ [n]
  let source := (document.at? place).getD .null
  if (← source.field "name").same (.str call.source) then
    return (← addTable document place source call.table, true)
  return (document, seen)

/-- Adds a table to every source of its name, and says whether there was one. -/
def addToDocument (document : Document) (call : Scripts.SourceCall) :
    Except Fault (Document × Bool) := do
  let sources ← document.root.fieldD "sources" (.seq [])
  let above := (Document.fieldIndex? document.root "sources").toList
  match sources with
  | .seq items => (List.range items.length).foldlM (addToSource above call) (document, false)
  | other =>
    let items ← other.items
    if items.isEmpty then return (document, false) else throw .noSuchField

/-- Adds one table to the property file. -/
def addToFile (path : String) (call : Scripts.SourceCall) : Edit Unit := do
  let place := (Path.ofString path).text
  let document ← Edit.ask fun t => t.readDocument place
  let (document, seen) ← Edit.ofExcept (addToDocument document call)
  if !seen then
    Edit.say ("Source `" ++ call.source ++ "` does not exists in `" ++ path ++
      "`. Please create it before adding tables.")
  Edit.say ("Generating missing source `" ++ call.source ++ "." ++ call.table ++ "`.")
  Edit.change fun t => t.writeDocument place document

def addAll (path : String) : List Scripts.SourceCall → Edit Unit
  | [] => Edit.pure ()
  | call :: rest => fun t =>
    if t.isFile (Path.ofString path).text then
      ((addToFile path call).bind fun _ => addAll path rest) t
    else
      Edit.say ("Path `" ++ path ++ "` does not exists. Please create this file or change path.") t

/-- Adds the missing sources; it fails if there are any. -/
def addMissing (path : String) (sources : List Scripts.SourceCall) : Edit Status := do
  addAll path sources
  return if sources.isEmpty then 0 else 1

/-- Reports what scripts call and the manifest does not list, and adds the source tables among
it. -/
def generate (manifest : Value) (path : String) (paths : List String) : Edit Status := do
  let missing ← Edit.ask fun t => Scripts.missing t manifest paths
  Edit.forEach Edit.say (Scripts.missingLines missing)
  addMissing path (missing.sources.map (·.2))

end Sources

end ProjectLint
