import ProjectLint.Checks.Findings
import ProjectLint.Project.NamePair
import ProjectLint.Script.Calls
import ProjectLint.Script.Semicolon

/-!
# Scripts

What scripts name has to be known: the models and sources they call must be in the manifest, tables
must not be named directly, and a script must not end in a semicolon.
-/

namespace ProjectLint.Scripts

/-- A source table that a script calls. -/
structure SourceCall where
  source : String
  table : String

def SourceCall.pair (c : SourceCall) : NamePair := ⟨.str c.source, .str c.table⟩

/-- What scripts name: models, each once, and source tables under their pair of names. -/
structure Mentions where
  models : List String
  sources : ByPair SourceCall

def Mentions.empty : Mentions := ⟨[], []⟩

def sourceCall (argument : List Char) : Except Fault SourceCall :=
  match Text.splitList ',' argument with
  | source :: table :: _ =>
    .ok ⟨String.ofList (Text.trimList source), String.ofList (Text.trimList table)⟩
  | _ => .error .outOfRange

def Mentions.add (m : Mentions) (call : Script.Call) : Except Fault Mentions :=
  match call.callee with
  | .ref =>
    let name := String.ofList call.plain
    .ok (if m.models.contains name then m else { m with models := m.models ++ [name] })
  | .source => do
    let found ← sourceCall call.plain
    return { m with sources := m.sources.put found.pair found }

def Mentions.addFile (t : Tree) (m : Mentions) (file : Path) : Except Fault Mentions := do
  (Script.calls (← t.readText file.text)).foldlM Mentions.add m

def mentions (t : Tree) (paths : List String) : Except Fault Mentions :=
  (scriptFiles paths).files.foldlM (Mentions.addFile t) .empty

def unlistedModels (manifest : Value) (models : List String) : Except Fault (List String) := do
  if models.isEmpty then return []
  let names ← (← sectionNodes manifest "nodes").mapM fun e => do (← e.2.field "name").key?
  return models.filter fun m => !names.any fun n => n.same (.str m)

def unlistedSources (manifest : Value) (sources : ByPair SourceCall) :
    Except Fault (ByPair SourceCall) := do
  if sources.isEmpty then return []
  let pairs ← (← sectionNodes manifest "sources").mapM fun e => do
    let source ← e.2.field "source_name"
    let table ← e.2.field "name"
    return NamePair.mk (← source.key?) (← table.key?)
  return pairs.foldl ByPair.erase sources

/-- What scripts name and the manifest does not list. -/
def missing (t : Tree) (manifest : Value) (paths : List String) : Except Fault Mentions := do
  let named ← mentions t paths
  return ⟨← unlistedModels manifest named.models, ← unlistedSources manifest named.sources⟩

def missingLines (m : Mentions) : List String :=
  (m.sources.map fun e => "Missing source `" ++ red (e.2.source ++ "." ++ e.2.table) ++ "`") ++
    m.models.map fun name => "Missing model (ref) " ++ red name

/-- All models and sources that scripts call are in the manifest. -/
def checkCalls (t : Tree) (manifest : Value) (paths : List String) : Findings :=
  Findings.of do return missingLines (← missing t manifest paths)

/-! ### Semicolons -/

def fileSemicolon (t : Tree) (path : String) : Except Fault (List String) := do
  let bytes ← t.readBytes path
  let (found, _) ← (Script.Handle.opened bytes.toList).checkSemicolon false
  return if found != 0 then
    [red path ++ ": contains a semicolon at the end. dbt does not support that."] else []

/-- No file ends in a semicolon. -/
def checkSemicolon (t : Tree) (paths : List String) : Findings :=
  Feed.flatMap (fun path => Findings.of (fileSemicolon t path)) paths

/-! ### Tables named directly -/

/-- The tables that a script names directly, with a status, as a reader of the database's language
finds them. -/
structure TableScan where
  status : Status
  tables : List String

/-- What is found in scripts by their paths; in a script without an entry nothing is. -/
abbrev TableScans := List (String × TableScan)

def TableScans.get (s : TableScans) (path : String) : TableScan :=
  ((s.find? fun e => e.1 == path).map (·.2)).getD ⟨0, []⟩

def judgeTables (t : Tree) (scans : TableScans) (status : Status) (path : String) :
    Report Status := do
  let _ ← t.readText (Path.ofString path).text
  let scan := scans.get path
  if scan.status == 0 then return status
  Report.say (red path ++ ": does not use source() or ref() macros for tables:\n " ++ "- " ++
    yellow ("\n- ".intercalate scan.tables))
  return scan.status

/-- No script names a table directly. -/
def checkTables (t : Tree) (scans : TableScans) (paths : List String) : Report Status :=
  (Feed.ofList paths).fold 0 (judgeTables t scans)

end ProjectLint.Scripts
