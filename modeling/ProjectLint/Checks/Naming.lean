import ProjectLint.Checks.Findings

/-!
# Naming rules

Names have to follow patterns: those of models as such, and those of columns together with their
types, so that exactly the columns of the given types are named by the pattern.
-/

namespace ProjectLint.Naming

def catalogModels (t : Tree) (manifest catalog : Value) (r : Request) : Feed Model :=
  .ofExcept do return r.modelsIn catalog (scriptFiles (← r.withScripts t manifest))

def fits (pattern : String) (ignoreCase : Bool) (name : Value) : Except Fault Bool := do
  let compiled ← Pattern.compile pattern ignoreCase
  return compiled.pattern.matchesStart (← name.textOnly)

def modelName (pattern : String) (m : Model) : Except Fault (List String) := do
  return if ← fits pattern false (.str m.filename) then []
    else [m.filename ++ ": model does not match regex pattern " ++ pattern ++ "."]

/-- The names of all models follow the pattern. -/
def checkModels (t : Tree) (manifest catalog : Value) (pattern : String) (r : Request) : Findings :=
  ProjectLint.checkModels (catalogModels t manifest catalog r) (modelName pattern)

def isOfType (types : List String) (type : Value) : Except Fault Bool := do
  if types.isEmpty then return false
  let lowered := Text.lower (← type.str?)
  return types.any fun t => Text.lower t == lowered

def columnName (pattern : String) (types : List String) (m : Model) (column : Value) : Findings :=
  Findings.of do
    let name ← column.field "name"
    let type ← column.field "type"
    let head := "model " ++ red m.id ++ ", in file " ++ yellow (m.filename ++ ".sql") ++ " \n" ++
      yellow name.text
    let typed ← isOfType types type
    let named ← fits pattern true name
    return if typed && !named then
        [head ++ ": column is of type " ++ yellow type.text ++
          " and does not match regex pattern " ++ yellow pattern ++ "."]
      else if !typed && named then
        [head ++ ": name matches regex pattern " ++ yellow pattern ++ " and is of type " ++
          yellow type.text ++ " instead of " ++ yellow (", ".intercalate types) ++ "."]
      else []

/-- The columns of a model, which have to be given. -/
def columnsOf (m : Model) : Except Fault (List Value) := do
  (← m.node.fieldD "columns" (.seq [])).values

/-- Exactly the columns of the given types are named by the pattern. -/
def checkColumns (t : Tree) (manifest catalog : Value) (pattern : String) (types : List String)
    (r : Request) : Findings :=
  (catalogModels t manifest catalog r).bind fun m =>
    .ofExcept do return Feed.flatMap (columnName pattern types m) (← columnsOf m)

end ProjectLint.Naming
