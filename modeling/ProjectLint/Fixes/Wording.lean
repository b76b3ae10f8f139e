import ProjectLint.Checks.Wording
import ProjectLint.Fixes.Sources

/-!
# Unifying descriptions

Where columns of one name are described in different words, the most frequent description is put
everywhere, unless two are equally frequent.
-/

namespace ProjectLint.Wording

open Yaml (Document Place)

/-- The places of the columns of a name in a document. -/
def placesOf (document : Document) (name : Value) : Except Fault (List Place) := do
  let models ← document.root.fieldD "models" (.seq [])
  let above := (Document.fieldIndex? document.root "models").toList
  let found ← ((← models.items).zipIdx).mapM fun (model, m) => do
    let columns ← model.fieldD "columns" (.seq [])
    let inside := (Document.fieldIndex? model "columns").toList
    let inModel ← ((← columns.items).zipIdx).mapM fun (column, c) => do
      return if name.same (← column.field "name") then [above ++ [m] ++ inside ++ [c]] else []
    return inModel.flatten
  return found.flatten

def describe (document : Document) (name description : Value) : Except Fault Document := do
  return (← placesOf document name).foldl (fun d place =>
    d.put place "description" description) document

def describeIn (file : Path) (name description : Value) : Edit Unit := do
  let document ← Edit.ask fun t => t.readDocument file.text
  let document ← Edit.ofExcept (describe document name description)
  Edit.change fun t => t.writeDocument file.text document
  Edit.say (file.text ++ ": replaced description of column `" ++ name.text ++ "` for `" ++
    description.text ++ "`")

def Tally.top? : Tally → Option (Scalar × Nat)
  | [] => none
  | e :: rest =>
    match Tally.top? rest with
    | none => some e
    | some f => if f.2 > e.2 then some f else some e

def Tally.without (t : Tally) (x : Scalar) : Tally := t.filter fun e => !e.1.same x

/-- Unifies the descriptions of one group of columns. -/
def unifyGroup (status : Status) (group : List Column) : Edit Status := do
  if (← Edit.ofExcept (tallyOf group)).length ≤ 1 then return status
  let tally ← Edit.ofExcept (Tally.of ((group.map (·.description)).filter Value.truthy))
  match tally.top? with
  | none => Edit.fail .outOfRange
  | some top =>
    match (Tally.without tally top.1).top? with
    | some second =>
      if second.2 == top.2 then
        let shown := fun (e : Scalar × Nat) => e.1.text ++ s!" (count: {e.2})"
        Edit.say ("I can't determine which label should be the default:\n- " ++ shown top ++
          "\n- " ++ shown second)
        return 1
    | none => pure ()
    let others := group.filter fun c => !c.description.same (.scalar top.1)
    Edit.forEach (fun c => describeIn c.file (groupName group) (.scalar top.1)) others
    return 1

/-- Unifies the descriptions of all columns in the property files among the paths. -/
def unify (ignored paths : List String) : Edit Status := do
  let found ← Edit.ask fun t => groups t ignored paths
  Edit.foldl unifyGroup 0 found

end ProjectLint.Wording
