import ProjectLint.Tree
import ProjectLint.Value.Access
import ProjectLint.Yaml.Document

/-!
# Settings

The settings file is optional; its name may end in either of the two usual suffixes. It must carry a
version tag with the value 1.
-/

namespace ProjectLint

/-- Reads the document of a file. -/
def Tree.readDocument (t : Tree) (path : String) : Except Fault Yaml.Document := do
  Yaml.Document.read (← t.readText path)

/-- The value of a document file, where an empty document counts as an empty mapping. -/
def Tree.readProperties (t : Tree) (path : String) : Except Fault Yaml.Document := do
  let d ← t.readDocument path
  return if d.root.truthy then d else .plain (.map [])

namespace Settings

def defaultPath : String := ".dbt-checkpoint.yaml"

def help : String :=
  "https://github.com/dbt-checkpoint/dbt-checkpoint/blob/main/HOOKS.md#check-column-desc-are-same"

def invalid (path issue : String) : Fault :=
  .badSettings <|
    "The yml property file at " ++ path ++ " is invalid because " ++ issue ++
      ". Please consult the documentation for more information on yml property file syntax:\n\n" ++
        help

def isInteger : Value → Bool
  | .scalar (.int _) => true
  | .scalar (.bool _) => true
  | _ => false

/-- The version tag must be there, be an integer, and be 1. -/
def checkVersion (path : String) (settings : Value) : Except Fault Unit := do
  if !(← (Value.str "version").isIn settings) then
    throw (invalid path ("the yml property file " ++ path ++ " is missing a version tag"))
  let version ← settings.index "version"
  if !isInteger version then
    throw (invalid path
      ("its 'version:' tag must be an integer (e.g. version: 2). " ++ version.text ++
        " is not an integer"))
  if !version.same (.int 1) then
    throw (invalid path ("its 'version:' tag is set to " ++ version.text ++
      ".  Only 1 is supported"))

def locate (t : Tree) (path : Path) : Path :=
  if t.exists? path.text then path
  else
    let other := path.withSuffix (if path.suffix == ".yaml" then ".yml" else ".yaml")
    if t.exists? other.text then other else path

/-- The settings at a path; without a file they are empty. -/
def load (t : Tree) (path : String) : Except Fault Value :=
  match t.readProperties (locate t (Path.ofString path)).text with
  | .error (.noSuchFile _) => .ok (.map [])
  | .error f => .error f
  | .ok d => do
    checkVersion path d.root
    return d.root

end Settings

end ProjectLint
