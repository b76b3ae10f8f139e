import ProjectLint.Paint
import ProjectLint.Project.Files
import ProjectLint.Project.Properties
import ProjectLint.Project.Related
import ProjectLint.Value.Sets

/-!
# Findings

A check turns each item it looks at into complaints. The complaints are printed in order, and the
check fails when there is at least one. Since items and complaints are feeds, everything found
before a fault is printed.
-/

namespace ProjectLint

/-- Lines of complaint, and the fault at which the check breaks off. -/
abbrev Findings := Feed String

namespace Findings

/-- The complaints of a computation that may fail. -/
def of (e : Except Fault (List String)) : Findings := .ofExcept (e.map .ofList)

/-- Zero without complaints, one with any. -/
def status (lines : List String) : Status := if lines.isEmpty then 0 else 1

/-- Prints the complaints and gives the verdict. -/
def report (f : Findings) : Report Status :=
  ⟨f.items, match f.stop with
    | some fault => .error fault
    | none => .ok (status f.items)⟩

end Findings

/-- Which files a check is to look at. -/
structure Request where
  paths : List String
  exclude : String := ""
  withDisabled : Bool := false

namespace Request

/-- Models in the scope of a request: ephemeral ones never are. -/
def scope (r : Request) : Scope := ⟨false, r.withDisabled⟩

/-- The paths of a request with the scripts that its property files describe. -/
def withScripts (r : Request) (t : Tree) (manifest : Value) : Except Fault (List String) :=
  relatedFiles t manifest false scriptSuffixes r.exclude r.paths

/-- The scripts of models among the paths alone. -/
def givenModelFiles (r : Request) (manifest : Value) : Except Fault FileMap :=
  modelFiles manifest r.withDisabled r.paths

/-- The scripts of models among the paths and the scripts related to them. -/
def modelFiles (r : Request) (t : Tree) (manifest : Value) : Except Fault FileMap := do
  ProjectLint.modelFiles manifest r.withDisabled (← r.withScripts t manifest)

/-- The models that scripts are defined in. -/
def modelsIn (r : Request) (project : Value) (files : FileMap) : Feed Model :=
  models project files.stems r.scope

/-- The models that a request asks for, with related files looked up. -/
def models (r : Request) (t : Tree) (manifest : Value) : Feed Model :=
  .ofExcept do return r.modelsIn manifest (← r.modelFiles t manifest)

/-- The models whose scripts are among the paths alone. -/
def givenModels (r : Request) (manifest : Value) : Feed Model :=
  .ofExcept do return r.modelsIn manifest (← r.givenModelFiles manifest)

/-- The source tables in the paths, which are all taken for property files. -/
def sourceTables (r : Request) (t : Tree) : Feed SourceTable :=
  ProjectLint.sourceTables t r.withDisabled r.paths

end Request

/-- Complains about the models of a request, one by one. -/
def checkModels (items : Feed Model) (complaints : Model → Except Fault (List String)) : Findings :=
  items.bind fun m => Findings.of (complaints m)

/-- Complains about source tables, one by one. -/
def checkTables (items : Feed SourceTable) (complaints : SourceTable → Except Fault (List String)) :
    Findings :=
  items.bind fun s => Findings.of (complaints s)

/-! ### Keys and lists of names -/

def keySet (v : Value) : Except Fault (List Scalar) := v.keys

def bullets (members : List Scalar) : Except Fault String :=
  joinValues "\n- " (members.map .scalar)

def commaList (members : List Scalar) : Except Fault String :=
  joinValues ", " (members.map .scalar)

end ProjectLint
