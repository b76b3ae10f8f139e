import ProjectLint.Checks.Findings

/-!
# Loading of sources

A source has to say what loads it, and how fresh its tables have to be.
-/

namespace ProjectLint.Freshness

def tableLoader (s : SourceTable) : Except Fault (List String) := do
  return if (← s.sourceBody.field "loader").truthy then []
    else [red s.label ++ ": does not have defined loader."]

def checkLoader (t : Tree) (r : Request) : Findings :=
  checkTables (r.sourceTables t) tableLoader

/-- The freshness rules of a source or table, which have to be a mapping. -/
def rulesOf (body : Value) : Except Fault Entries := do
  match ← body.fieldD "freshness" (.map []) with
  | .map entries => return entries
  | _ => throw .wrongKind

def rules (s : SourceTable) : Except Fault Entries := do
  return Entries.erase (Entries.update (← rulesOf s.sourceBody) (← rulesOf s.tableBody)) "filter"

def isComplete (rule : Value) : Except Fault Bool := do
  let keys ← rule.keys
  return isSubset keys (textSet ["count", "period"]) && isSubset (textSet ["count", "period"]) keys

/-- The names of the complete rules. -/
def completeRules : Entries → Except Fault (List Scalar)
  | [] => .ok []
  | (name, rule) :: rest => do
    let complete ← isComplete rule
    return (if complete then [name] else []) ++ (← completeRules rest)

def tableFreshness (required : List String) (s : SourceTable) : Except Fault (List String) := do
  let complete ← completeRules (← rules s)
  let ofTable ← s.tableBody.field "loaded_at_field"
  let loaded ← if ofTable.truthy then pure ofTable else s.sourceBody.field "loaded_at_field"
  let needed := textSet required
  let loadedLines := if loaded.truthy then []
    else [red s.label ++ ": is missing `loaded_at_field` which is required for freshness."]
  if isSubset complete needed && isSubset needed complete then return loadedLines
  return loadedLines ++ [red s.label ++ ": miss some required freshness parameters:\n- " ++
    yellow (← bullets (minus needed complete)) ++ " "]

def checkFreshness (t : Tree) (required : List String) (r : Request) : Findings :=
  checkTables (r.sourceTables t) (tableFreshness required)

end ProjectLint.Freshness
