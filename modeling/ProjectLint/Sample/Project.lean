import ProjectLint.Json.Writer
import ProjectLint.Tree
import ProjectLint.Value.Access
import ProjectLint.Yaml.Sheet

/-!
# Sample projects

Projects of any size to try the checks on. The models stand in a ring: each is built on the next one
and on a source table of its own. What a model lacks goes by its number, so that every check finds
something: models with an odd number lack a description, those with an even number lack keys and a
contract, and every fourth model has no property file.
-/

namespace ProjectLint.Sample

open Value (record strs)

def textField (key text : String) : String × Value := (key, .str text)

def isOdd (i : Nat) : Bool := i % 2 == 1

/-- A value for odd numbers and one for even numbers. -/
def byParity (i : Nat) (odd even : Value) : Value := if isOdd i then odd else even

def owner : Value := record [textField "owner" "me"]

def modelName (i : Nat) : String := s!"model_{i}"

def modelId (i : Nat) : String := "model.proj." ++ modelName i

def testName (i : Nat) : String := "unique_" ++ modelName i ++ "_id"

def testId (i : Nat) : String := "test.proj." ++ testName i

def tableName (i : Nat) : String := s!"tbl_{i}"

def tableId (i : Nat) : String := "source.proj.src." ++ tableName i

def macroName (i : Nat) : String := s!"my_macro_{i}"

def scriptPath (i : Nat) : String := "models/" ++ modelName i ++ ".sql"

def macroPath (i : Nat) : String := "macros/" ++ macroName i ++ ".sql"

def propertiesPath : String := "models/schema.yml"

/-! ### The manifest -/

def materialization (i : Nat) : String := ["view", "table", "incremental"].getD (i % 3) ""

def describedColumn (name description : String) : String × Value :=
  (name, record [textField "name" name, textField "description" description])

def config (how : String) (enabled : Bool) : Value :=
  record [textField "materialized" how, ("enabled", .bool enabled)]

def modelNode (i : Nat) : Value := record [
  textField "name" (modelName i), textField "alias" (modelName i),
  textField "path" ("nomatch/" ++ modelName i ++ ".sql"),
    textField "original_file_path" (scriptPath i),
  ("patch_path", if i % 4 == 0 then .null else .str ("proj/" ++ propertiesPath)),
  textField "database" "db", ("schema", byParity i (.str "bad_schema") (.str "sch")),
  ("description", byParity i (.str "") (.str "desc")), ("tags", strs ["foo", "illegal"]),
  ("meta", byParity i owner (.map [])),
  ("columns", record [describedColumn "id" "", describedColumn "is_active" "flag"]),
  ("config", record [textField "materialized" (materialization i), ("enabled", .bool true),
    ("labels", byParity i owner .null), ("contract", record [("enforced", .bool (isOdd i))])]),
  ("constraints", byParity i (.seq [record [textField "type" "primary_key",
    ("columns", strs ["id"])]]) (.seq []))]

def testNode (i : Nat) : Value := record [
  textField "name" (testName i), ("tags", byParity i (strs ["schema"]) (strs ["data"])),
  ("test_metadata", record [textField "name" "unique"]), ("config", config "test" true),
    ("meta", .map [])]

/-- The nodes that every project has. -/
def otherNodes : List (String × Value) := [
  ("model.proj.eph", record [textField "name" "eph", ("config", config "ephemeral" true)]),
  ("model.proj.ver.v2", record [textField "name" "ver", ("version", .int 2),
    ("config", config "table" true), ("columns", .map []), ("meta", .map [])]),
  ("model.proj.off", record [textField "name" "off", ("config", config "table" false)]),
  ("snapshot.proj.snap_0", record [textField "name" "snap_0", ("config", config "snapshot" true),
    ("meta", record [textField "owner" "me", ("extra", .int 1)])]),
  ("seed.proj.seed_0", record [textField "name" "seed_0", ("meta", owner)]),
  ("test.proj.data_0", record [textField "name" "data_0", ("config", config "test" true),
    ("tags", strs ["data"]), ("test_metadata", .map []), ("meta", .map [])])]

def sourceNode (i : Nat) : Value := record [
  textField "source_name" "src", textField "name" (tableName i), textField "database" "db",
  textField "schema" "raw", textField "path" propertiesPath]

def macroNode (i : Nat) : Value :=
  let description := if isOdd i then "" else "d"
  record [textField "name" (macroName i), textField "path" (macroPath i),
    textField "description" description,
    ("arguments", .seq [record [textField "name" "a", textField "description" description],
      record [textField "name" "b", textField "description" "d"]]),
    ("meta", .map [])]

/-- The next model in the ring. -/
def next (size i : Nat) : Nat := (i + 1) % size

def eachNumber {α : Type} (size : Nat) (f : Nat → List α) : List α := (List.range size).flatMap f

/-- The macros of a project that does not say how many it has. -/
def usualMacros (size : Nat) : Nat := max 2 (size / 4)

def manifest (size macros : Nat) : Value := record [
  ("metadata", record [textField "user_id" "uid", textField "project_name" "proj"]),
  ("nodes", record (eachNumber size (fun i => [(modelId i, modelNode i), (testId i, testNode i)]) ++
    otherNodes)),
  ("sources", record (eachNumber size fun i => [(tableId i, sourceNode i)])),
  ("macros", record (eachNumber macros fun i => [("macro.proj." ++ macroName i, macroNode i)])),
  ("child_map", record (eachNumber size fun i => [
    (modelId i, strs [testId i, modelId (next size i)]), (tableId i, strs [testId i, modelId i])])),
  ("parent_map", record (eachNumber size fun i =>
    [(modelId i, strs [modelId (next size i), tableId i])])),
  ("disabled", record [("model.proj.dis_0", .seq [record [textField "name" "dis_0"]]),
    ("seed.proj.dis_seed", .seq [record [textField "name" "dis_seed"]])])]

/-! ### The catalog -/

def typedColumn (name type : String) : String × Value :=
  (name, record [textField "name" name, textField "type" type])

def catalogModel (i : Nat) : Value := record [
  textField "name" (modelName i), ("config", record [("enabled", .bool true)]),
  ("metadata", record [("database", byParity i (.str "DB") (.str "db")),
    ("schema", byParity i (.str "SCH") (.str "sch"))]),
  ("columns", record [typedColumn "ID" "integer", typedColumn "is_active" "boolean",
    typedColumn "only_in_db" "text"])]

def catalogSource : Value := record [
  ("metadata", record [textField "database" "db", textField "schema" "raw"]),
  ("columns", record [("ID", .map []), ("VALUE", .map [])])]

def catalog (size : Nat) : Value := record [
  ("nodes", record (eachNumber size fun i => [(modelId i, catalogModel i)])),
  ("sources", record (eachNumber size fun i => [(tableId i, catalogSource)]))]

/-! ### The property file -/

def tableEntry (i : Nat) : Value := record [
  textField "name" (tableName i), ("description", byParity i (.str "d") (.str "")),
  ("columns", .seq [record [textField "name" "id"],
    record [textField "name" "extra", textField "description" "d"]]),
  ("tags", strs ["bad"])]

def modelEntry (i : Nat) : Value := record [
  textField "name" (modelName i), textField "description" "d", ("meta", owner),
    ("config", record [("labels", owner)]),
  ("columns", .seq [
    record [textField "name" "id", textField "description" "primary key"],
    record [textField "name" "name",
      ("description", byParity i (.str "alt") (.str "primary key"))]])]

def macroEntry (i : Nat) : Value := record [
  textField "name" (macroName i), textField "description" "d",
  ("arguments", .seq [record [textField "name" "a"],
    record [textField "name" "b", textField "description" "d"]])]

def exposureEntry (i : Nat) : Value := record [
  textField "name" s!"exp_{i}", ("meta", record [textField "owner" "me", ("extra", .int 1)])]

/-- The property file with some of the source tables, models and macros. -/
def properties (tables models macros : Nat) : Value := record [
  ("version", .int 2),
  ("sources", .seq [
    record [textField "name" "src", textField "loader" "fivetran", textField "loaded_at_field" "ts",
      ("freshness", record [
        ("warn_after", record [("count", .int 1), textField "period" "day"]),
          textField "filter" "x > 0"]),
      ("meta", owner), ("labels", owner), ("tags", strs ["foo", "illegal"]),
      ("tables", .seq (eachNumber tables fun i => [tableEntry i]))],
    record [textField "name" "src_off", ("config", record [("enabled", .bool false)]),
      ("tables", .seq [record [textField "name" "t"]])]]),
  ("models", .seq (eachNumber models fun i => [modelEntry i])),
  ("macros", .seq (eachNumber macros fun i => [macroEntry i])),
  ("exposures", .seq (eachNumber 2 fun i => [exposureEntry i]))]

mutual

/-- The value with the keys of all its mappings in order. -/
def inKeyOrder : Value → Value
  | .seq items => .seq (itemsInKeyOrder items)
  | .map entries =>
    .map ((entriesInKeyOrder entries).mergeSort fun a b => !((b.1.before? a.1).toOption.getD false))
  | v => v

def itemsInKeyOrder : List Value → List Value
  | [] => []
  | v :: rest => inKeyOrder v :: itemsInKeyOrder rest

def entriesInKeyOrder : List (Scalar × Value) → List (Scalar × Value)
  | [] => []
  | (k, v) :: rest => (k, inKeyOrder v) :: entriesInKeyOrder rest

end

/-! ### The files -/

/-- A project laid out in files. -/
structure Project where
  files : List (String × String)
  scripts : List String
  macroScripts : List String
  propertyFiles : List String
  otherFiles : List String

/-- The options that name the manifest and the settings. -/
def usualOptions : List String :=
  ["--manifest", "manifest.json", "--config", "cfg.yaml", "--is_test"]

def catalogOptions : List String := ["--catalog", "catalog.json"]

def settingsText : String := "version: 1\ndisable-tracking: true\n"

def modelScript (size i : Nat) : String :=
  "SELECT a FROM \x7b\x7b ref('" ++ modelName (next size i) ++
    "') \x7d\x7d JOIN \x7b\x7b source('src', '" ++
    tableName i ++ "') \x7d\x7d;\n"

def macroScript (i : Nat) : String :=
  "\x7b% macro " ++ macroName i ++ "(a, b) %\x7d a \x7b% endmacro %\x7d"

/-- The project of a size, with the given numbers of models, source tables and macros in its
property file. -/
def project (size macros describedModels describedTables describedMacros : Nat) : Project :=
  let numbers := List.range size
  let macroNumbers := List.range macros
  let text := (Yaml.Document.plain
    (inKeyOrder (properties describedTables describedModels describedMacros))).write
  { files :=
      numbers.map (fun i => (scriptPath i, modelScript size i)) ++
      macroNumbers.map (fun i => (macroPath i, macroScript i)) ++
      [("snap_0.sql", "select 1"), ("seed_0.yml", "version: 2\n"), ("data_0.sql", "select 1"),
        (propertiesPath, text), ("manifest.json", Json.write (manifest size macros)),
        ("catalog.json", Json.write (catalog size)), ("cfg.yaml", settingsText),
          ("cfg2.yml", settingsText)]
    scripts := numbers.map scriptPath
    macroScripts := macroNumbers.map macroPath
    propertyFiles := [propertiesPath]
    otherFiles := ["snap_0.sql", "seed_0.yml", "data_0.sql"] }

/-- The files of a project as a tree. -/
def Project.tree (p : Project) : Tree :=
  p.files.foldl (fun t f => t.addFile (Path.ofString f.1).parts f.2.toUTF8) Tree.empty

end ProjectLint.Sample
