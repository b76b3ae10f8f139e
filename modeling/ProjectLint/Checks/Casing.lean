import ProjectLint.Checks.Findings

/-!
# Casing

Database and schema names have to be the same in the manifest and in the catalog, case included.
-/

namespace ProjectLint.Casing

def catalogField (node : Value) (field : String) : Except Fault Value := do
  (← node.fieldD "metadata" (.map [])).field field

def shownField (node : Value) (field : String) : Except Fault Value := do
  (← node.field "metadata").field field

def line (manifest catalog : String) : String :=
  red manifest ++ " in dbt project (manifest) does not match " ++ red catalog ++
    " in database (catalog)"

/-- The complaint about an object that differs, if it does. A differing schema is shown with its
database. -/
def objectLine (manifestNode catalogNode : Value) : Except Fault (Option String) := do
  let database ← manifestNode.field "database"
  let differs := !database.same (← catalogField catalogNode "database")
  let first ←
    if differs then pure (some (line database.text (← shownField catalogNode "database").text))
    else pure none
  let schema ← manifestNode.field "schema"
  if schema.same (← catalogField catalogNode "schema") then return first
  return some (line (database.text ++ "." ++ schema.text)
    ((← shownField catalogNode "database").text ++ "." ++ (← shownField catalogNode "schema").text))

def matching (manifestPart catalogPart : Value) : Except Fault (List (Value × Value)) := do
  let pairs ← (← manifestPart.entries).mapM fun e => do
    return (Entries.find? (← catalogPart.entries) e.1).map fun node => (e.2, node)
  return pairs.filterMap id

def differences (pairs : List (Value × Value)) : Except Fault (List String) := do
  return (← pairs.mapM fun p => objectLine p.1 p.2).filterMap id

/-- All objects that manifest and catalog share agree in database and schema. -/
def check (manifest catalog : Value) : Findings :=
  Findings.of do
    let part := fun (v : Value) (name : String) => v.fieldD name (.map [])
    let catalogNodes ← part catalog "nodes"
    let nodes ← matching (← part manifest "nodes") catalogNodes
    let catalogSources ← part catalog "sources"
    let sources ← matching (← part manifest "sources") catalogSources
    let lines := ((← differences nodes) ++ (← differences sources)).eraseDups
    return if lines.isEmpty then [] else "Found casing inconsistencies:" :: lines

end ProjectLint.Casing
