import ProjectLint.Json.Reader
import ProjectLint.Options.Basic
import ProjectLint.Settings

/-!
# Artifacts

A project that has been compiled leaves two JSON files behind: the manifest, which lists its nodes,
and the catalog, which lists what the database holds. They are looked for at the path given on the
command line. If that is the usual path, the project directory of the settings comes before it.
-/

namespace ProjectLint

def Tree.readJson (t : Tree) (path : String) : Except Fault Value :=
  match t.readText (Path.ofString path).text >>= Json.read with
  | .ok v => .ok v
  | .error f => .error (.unloadable f.message)

inductive Artifact where
  | manifest
  | catalog
deriving DecidableEq, Repr

namespace Artifact

def name : Artifact → String
  | .manifest => "manifest"
  | .catalog => "catalog"

def option (a : Artifact) : String := "--" ++ a.name

def usualPath (a : Artifact) : String := "target/" ++ a.name ++ ".json"

/-- The path to load, from the one given and the settings. -/
def path (a : Artifact) (given : String) (projectDir : Value) : String :=
  if given == a.usualPath && projectDir.truthy then projectDir.text ++ "/" ++ a.usualPath else given

/-- Loads the artifact that the arguments and settings lead to. -/
def load (a : Artifact) (t : Tree) (arguments : Options.Arguments) (settings : Value) :
    Except Fault Value := do
  let projectDir ← settings.field "dbt-project-dir"
  t.readJson (a.path (arguments.text a.option) projectDir)

end Artifact

end ProjectLint
