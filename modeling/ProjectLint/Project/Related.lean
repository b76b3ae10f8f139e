import ProjectLint.Path.Search
import ProjectLint.Pattern.Parser
import ProjectLint.Pattern.Matcher
import ProjectLint.Project.Node
import ProjectLint.Text.Casing

/-!
# Related files

A script and the property file that describes its node belong together. From given paths the related
files are looked up: the property files of a script, and the scripts that a property file describes.
Files below a target directory are left out.
-/

namespace ProjectLint

def filesAt (t : Tree) (path : String) : Except Fault (List String) := do
  let found ← Search.paths t ("**/" ++ path)
  return (found.map Path.text).filter fun file => !Text.contains (Text.lower file) "target/"

def withoutProject (path : String) : Except Fault String :=
  let p := Path.ofString path
  if p.components.isEmpty then .error .wrongKind else .ok p.tail.text

def propertyFilesOf (t : Tree) (script : String) (node : Value) : Except Fault (List String) := do
  let path ← node.field "path"
  if !path.truthy then return []
  if !(Text.contains script (← path.textOnly)) then return []
  let patch ← node.field "patch_path"
  if !patch.truthy then return []
  filesAt t (← withoutProject (← patch.textOnly))

/-- The scripts of a node, if the given property file describes it. -/
def scriptFilesOf (t : Tree) (properties : String) (node : Value) : Except Fault (List String) := do
  let described := "/".intercalate ((Path.ofString properties).components.drop 1)
  let patch ← node.field "patch_path"
  if !patch.truthy then return []
  if !(← (Value.str described).isIn patch) then return []
  let script ← (← node.fieldD "original_file_path" (.str "")).str?
  if !Text.contains (Text.lower script) ".sql" then return []
  filesAt t script

def fromNodes (find : Value → Except Fault (List String)) (withEphemeral : Bool) :
    Entries → Except Fault (List String)
  | [] => .ok []
  | (_, node) :: rest => do
    let passed ← if withEphemeral then pure false else isMaterialized node "ephemeral"
    let found ← if passed then pure [] else find node
    return found ++ (← fromNodes find withEphemeral rest)

/-- The files related to one path. -/
def relatedTo (t : Tree) (nodes : Value) (withEphemeral : Bool) (suffixes : List String)
    (path : String) : Except Fault (List String) :=
  let suffix := Text.lower (Path.ofString path).suffix
  if suffix == ".sql" && (suffixes.contains ".yml" || suffixes.contains ".yaml") then do
    fromNodes (propertyFilesOf t path) withEphemeral (← nodes.entries)
  else if (suffix == ".yml" || suffix == ".yaml") && suffixes.contains ".sql" then do
    fromNodes (scriptFilesOf t path) withEphemeral (← nodes.entries)
  else .ok []

def withRelated (t : Tree) (manifest : Value) (withEphemeral : Bool) (suffixes : List String)
    (paths : List String) : Except Fault (List String) := do
  let nodes ← manifest.fieldD "nodes" (.map [])
  let added ← if nodes.truthy then paths.mapM (relatedTo t nodes withEphemeral suffixes)
      else pure []
  return (paths ++ added.flatten).eraseDups

def excluding (pattern : String) (paths : List String) : Except Fault (List String) :=
  if pattern.isEmpty then .ok paths
  else do
    let compiled ← Pattern.compile pattern false
    return paths.filter fun p => !compiled.pattern.occursIn p

/-- The files to look at: the given paths with those related to them, but for the excluded ones. -/
def relatedFiles (t : Tree) (manifest : Value) (withEphemeral : Bool) (suffixes : List String)
    (exclude : String) (paths : List String) : Except Fault (List String) := do
  excluding exclude (← withRelated t manifest withEphemeral suffixes paths)

end ProjectLint
