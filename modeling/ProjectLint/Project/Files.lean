import ProjectLint.Path.Basic
import ProjectLint.Project.Node

/-!
# Files by stem

Files are known by the stem of their name. Of two files with one stem the later one counts, in the
place of the earlier. A script file is that of a macro or that of a model.
-/

namespace ProjectLint

/-- Paths under their stems. -/
abbrev FileMap := List (String × Path)

namespace FileMap

def put (m : FileMap) (stem : String) (file : Path) : FileMap :=
  match m with
  | [] => [(stem, file)]
  | (s, f) :: rest => if s = stem then (s, file) :: rest else (s, f) :: put rest stem file

def get? (m : FileMap) (stem : String) : Option Path := (m.find? fun e => e.1 == stem).map (·.2)

def contains (m : FileMap) (stem : String) : Bool := m.any fun e => e.1 == stem

def stems (m : FileMap) : List String := m.map (·.1)

def files (m : FileMap) : List Path := m.map (·.2)

/-- The file of a stem as it is shown; a stem without a file shows as nothing. -/
def shown (m : FileMap) (stem : Scalar) : String :=
  match stem with
  | .str s => match m.get? s with
    | some file => file.text
    | none => Scalar.text .null
  | _ => Scalar.text .null

def hasSuffix (suffixes : List String) (file : Path) : Bool :=
  suffixes.isEmpty || suffixes.contains file.suffix

def add (suffixes : List String) (m : FileMap) (file : Path) : FileMap :=
  if hasSuffix suffixes file then m.put file.stem file else m

def ofPaths (suffixes : List String) (paths : List String) : FileMap :=
  (paths.map Path.ofString).foldl (add suffixes) []

end FileMap

def scriptSuffixes : List String := [".sql"]

def propertySuffixes : List String := [".yml", ".yaml"]

/-- The script files among the paths. -/
def scriptFiles (paths : List String) : FileMap := .ofPaths scriptSuffixes paths

/-- The property files among the paths. -/
def propertyFiles (paths : List String) : FileMap := .ofPaths propertySuffixes paths

/-- The paths of all macros. -/
def macroPaths (manifest : Value) : Except Fault (List String) := do
  let macros ← (← manifest.fieldD "macros" (.map [])).values
  (← macros.mapM fun m => m.index "path").mapM Value.textOnly

/-- The script files that macros are defined in. -/
def macroFiles (manifest : Value) (paths : List String) : Except Fault FileMap := do
  let ofMacros := scriptFiles (← macroPaths manifest)
  return (scriptFiles paths).filter fun e => ofMacros.get? e.1 == some e.2

/-- The script files that models are defined in: no macro, and neither ephemeral nor disabled. -/
def modelFiles (manifest : Value) (withDisabled : Bool) (paths : List String) :
    Except Fault FileMap := do
  let ephemeral ← ephemeralNames manifest
  let ofMacros ← macroFiles manifest paths
  let disabled ← disabledNames manifest withDisabled
  return (scriptFiles paths).filter fun e =>
    !ofMacros.contains e.1 && !ephemeral.contains e.1 && !disabled.contains e.1

end ProjectLint
