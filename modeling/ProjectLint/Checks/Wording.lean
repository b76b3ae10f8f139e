import ProjectLint.Checks.Findings

/-!
# Wording of column descriptions

Columns of one name should be described in the same words wherever they occur. Columns are collected
from property files, sorted by name and grouped; the descriptions of a group are counted.
-/

namespace ProjectLint.Wording

structure Column where
  name : Value
  description : Value
  file : Path

def columnOf (file : Path) (ignored : List String) (column : Value) :
    Except Fault (Option Column) := do
  let description ← column.field "description"
  let name ← column.field "name"
  return if ignored.any fun i => name.same (.str i) then none else some ⟨name, description, file⟩

def columnsOfEntry (ignored : List String) (e : PropertyEntry) : Feed Column :=
  .ofExcept do
    return .filterMapE (columnOf e.file ignored) (← (← e.body.fieldD "columns" (.map [])).items)

/-- The columns of all named models in the property files among the paths. -/
def columns (t : Tree) (ignored paths : List String) : Feed Column :=
  (modelEntries t (propertyFiles paths).files .all).bind (columnsOfEntry ignored)

def runs : List Column → List (List Column)
  | [] => []
  | c :: rest =>
    match runs rest with
    | [] => [[c]]
    | [] :: more => [c] :: more
    | (d :: run) :: more =>
      if c.name.same d.name then (c :: d :: run) :: more else [c] :: (d :: run) :: more

/-- The columns by name: groups in the order of the names, each in the order of the files. -/
def groups (t : Tree) (ignored paths : List String) : Except Fault (List (List Column)) := do
  let all ← (columns t ignored paths).toExcept
  return runs (← sortBy (fun a b => a.name.before? b.name) all)

/-- Values with the number of times they were counted, in the order in which they first came. -/
abbrev Tally := List (Scalar × Nat)

def Tally.add (t : Tally) (x : Scalar) : Tally :=
  match t with
  | [] => [(x, 1)]
  | (y, n) :: rest => if y.same x then (y, n + 1) :: rest else (y, n) :: Tally.add rest x

def Tally.of (values : List Value) : Except Fault Tally := do
  return (← values.mapM Value.key?).foldl Tally.add []

def tallyOf (group : List Column) : Except Fault Tally := Tally.of (group.map (·.description))

def groupName (group : List Column) : Value := (group.head?.map (·.name)).getD .null

def groupLines (group : List Column) : Except Fault (List String) := do
  let tally ← tallyOf group
  return if tally.length > 1 then
      (red (groupName group).text ++ ": has different descriptions:") ::
        tally.map fun e => "  - " ++ yellow (toString e.2) ++ ": " ++ yellow e.1.text
    else []

/-- Columns of one name are described in the same words. -/
def check (t : Tree) (ignored paths : List String) : Findings :=
  .ofExcept do
    return Feed.flatMap (fun g => Findings.of (groupLines g)) (← groups t ignored paths)

end ProjectLint.Wording
