import ProjectLint.Checks.Scripts
import ProjectLint.Edit
import ProjectLint.Pattern.Replace

/-!
# Replacing table names

Tables that a script names directly are replaced by calls: a model of that name by a reference, a
source by its names, and any other table with a dot by a source made up from its last two parts.
-/

namespace ProjectLint.TableNames

/-- A table name and the call to put in its place. -/
structure Substitution where
  table : String
  call : String

/-- What a stage found, and the tables that are left for the next. -/
structure Stage where
  found : Feed Substitution
  left : List String

def refCall (name : String) : String := "\x7b\x7b ref('" ++ name ++ "') \x7d\x7d"

def sourceCallText (source table : String) : String :=
  "\x7b\x7b source('" ++ source ++ "', '" ++ table ++ "') \x7d\x7d"

def byLastPart (tables : List String) : List (String × String) :=
  tables.foldl (fun m table =>
    let name := lastPart (idParts table)
    if m.any fun e => e.1 == name then m.map fun e => if e.1 == name then (name, table) else e
    else m ++ [(name, table)]) []

/-- Looks for the tables that are models, walking through the nodes of the manifest. -/
def refsFrom (names : List (String × String)) (left : List String) : Entries → Stage
  | [] => ⟨.empty, left⟩
  | (_, node) :: rest =>
    match node.field "alias" >>= Value.key? with
    | .error f => ⟨.broken f, left⟩
    | .ok key =>
      match names.find? fun e => key.same (.str e.1) with
      | none => refsFrom names left rest
      | some (name, table) =>
        let names := names.filter fun e => e.1 != name
        if table.isEmpty then refsFrom names left rest
        else
          let more := refsFrom names (left.erase table) rest
          ⟨⟨[⟨table, refCall name⟩], none⟩ ++ more.found, more.left⟩

def refs (manifest : Value) (tables : List String) : Stage :=
  match sectionNodes manifest "nodes" with
  | .error f => ⟨.broken f, tables⟩
  | .ok nodes => refsFrom (byLastPart tables) tables nodes

/-- The names that a source goes by. -/
def sourceNames (node : Value) : Except Fault (List Scalar) := do
  let names ← ["database", "schema", "name"].mapM fun field => node.field field
  names.mapM Value.key?

def coveredBy (names : List Scalar) (tables : List String) : Option String :=
  (tables.filter fun table => isSubset (textSet (idParts table)) names).getLast?

/-- Looks for the tables that are sources. All sources are compared with the same tables, so that a
table that two sources cover is a fault. -/
def sourcesFrom (tables left : List String) : Entries → Stage
  | [] => ⟨.empty, left⟩
  | (_, node) :: rest =>
    match sourceNames node with
    | .error f => ⟨.broken f, left⟩
    | .ok names =>
      match coveredBy names tables with
      | none => sourcesFrom tables left rest
      | some table =>
        if table.isEmpty then sourcesFrom tables left rest
        else if !left.contains table then ⟨.broken .missingKey, left⟩
        else
          match node.field "source_name", node.field "name" with
          | .ok source, .ok name =>
            let more := sourcesFrom tables (left.erase table) rest
            ⟨⟨[⟨table, sourceCallText source.text name.text⟩], none⟩ ++ more.found, more.left⟩
          | _, _ => ⟨.broken .noSuchField, left⟩

def sources (manifest : Value) (tables : List String) : Stage :=
  if tables.isEmpty then ⟨.empty, tables⟩
  else
    match sectionNodes manifest "sources" with
    | .error f => ⟨.broken f, tables⟩
    | .ok nodes => sourcesFrom tables tables nodes

/-- What is done with a table that is neither a model nor a source: a remark, and for a table with a
dot a substitution. -/
def unknown (table : String) : String × Option Substitution :=
  match (idParts table).reverse with
  | name :: source :: _ =>
    ("Unable to find " ++ table ++
      " in models or sources. It probably means that does not exists. Trying to " ++
      "replace " ++ table ++ " with source('" ++ source ++ "', '" ++ name ++ "')",
      some ⟨table, sourceCallText source name⟩)
  | _ => ("Unable to replace table " ++ table ++ " with ref or source.", none)

def substitute (script : String) (s : Substitution) : Except Fault String :=
  let edge := "([\\\\\\s\\n\\r\\t])"
  Pattern.replace (edge ++ s.table ++ edge) ("\\1" ++ s.call ++ "\\2") 2 script

def substituteAll (found : Feed Substitution) (script : String) : Except Fault String := do
  let script ← found.items.foldlM substitute script
  match found.stop with
  | some f => throw f
  | none => return script

def substituteUnknown (script : String) (table : String) : Edit String := do
  let (remark, substitution) := unknown table
  Edit.say remark
  match substitution with
  | none => return script
  | some s => Edit.ofExcept (substitute script s)

def substituted (manifest : Value) (tables : List String) (script : String) : Edit String := do
  let models := refs manifest tables
  let script ← Edit.ofExcept (substituteAll models.found script)
  let known := sources manifest models.left
  let script ← Edit.ofExcept (substituteAll known.found script)
  Edit.foldl substituteUnknown script known.left

/-- Replaces the tables of one file; the last status that is not zero stays. -/
def replaceIn (manifest : Value) (scans : Scripts.TableScans) (status : Status) (path : String) :
    Edit Status := do
  let file := (Path.ofString path).text
  let script ← Edit.ask fun t => t.readText file
  let scan := scans.get path
  if scan.status == 0 then return status
  let script ← substituted manifest scan.tables script
  Edit.change fun t => t.writeText file script
  return scan.status

/-- Replaces the tables that scripts name directly. -/
def replace (manifest : Value) (scans : Scripts.TableScans) (paths : List String) : Edit Status :=
  Edit.foldl (replaceIn manifest scans) 0 paths

end ProjectLint.TableNames
