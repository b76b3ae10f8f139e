import ProjectLint.Report
import ProjectLint.Value.Access

/-!
# Nodes of a manifest

A manifest lists its nodes under ids of the form `kind.project.name`. The last part of an id is the
name of the file that the node comes from; a versioned model has its version there, and the name
before it.
-/

namespace ProjectLint

structure Model where
  id : String
  name : Value
  filename : String
  node : Value

structure Macro where
  id : String
  name : Value
  filename : String
  body : Value

/-- A node, seed, snapshot, test or exposure with its name. -/
structure Resource where
  name : Value
  filename : String
  body : Value

def idText (id : Scalar) : Except Fault String :=
  match id with
  | .str s => .ok s
  | _ => .error .noSuchField

def idParts (id : String) : List String := Text.split '.' id

def lastPart (parts : List String) : String := parts.getLast?.getD ""

def firstPart (parts : List String) : String := parts.head?.getD ""

/-- The nodes under a section of a manifest; a manifest without the section has none. -/
def sectionNodes (manifest : Value) (part : String) : Except Fault Entries := do
  (← manifest.fieldD part (.map [])).entries

def materialization (node : Value) : Except Fault Value := do
  (← node.fieldD "config" (.map [])).field "materialized"

def isMaterialized (node : Value) (how : String) : Except Fault Bool :=
  (materialization node).map fun m => m.same (.str how)

def isEnabled (node : Value) : Except Fault Bool := do
  return (← (← node.fieldD "config" (.map [])).fieldD "enabled" (.bool true)).truthy

/-! ### Models -/

def modelFilename (parts : List String) (node : Value) : Except Fault String := do
  let version ← node.field "version"
  if version.truthy && lastPart parts == "v" ++ version.text then
    match parts.dropLast.getLast? with
    | some name => return name ++ "_v" ++ version.text
    | none => throw .outOfRange
  else return lastPart parts

/-- Which nodes count as models besides the usual ones. -/
structure Scope where
  ephemeral : Bool := false
  disabled : Bool := false

/-- The model of a node, if it is one of the given file names and in scope. -/
def model? (names : List String) (scope : Scope) (entry : Scalar × Value) :
    Except Fault (Option Model) := do
  let node := entry.2
  if !scope.ephemeral then
    if ← isMaterialized node "ephemeral" then return none
  if !scope.disabled then
    if !(← isEnabled node) then return none
  let id ← idText entry.1
  let filename ← modelFilename (idParts id) node
  if names.contains filename && firstPart (idParts id) == "model" then
    return some ⟨id, ← node.field "name", filename, node⟩
  return none

/-- The models of a manifest or catalog with the given file names, in its order. -/
def models (project : Value) (names : List String) (scope : Scope) : Feed Model :=
  .ofExcept do return .filterMapE (model? names scope) (← sectionNodes project "nodes")

def nameOfKind? (kind : String) (id : Scalar) : Except Fault (Option String) := do
  let parts := idParts (← idText id)
  return if firstPart parts == kind then some (lastPart parts) else none

def namesBuilt (kind how : String) : Entries → Except Fault (List String)
  | [] => .ok []
  | (id, node) :: rest => do
    let name ← if ← isMaterialized node how then nameOfKind? kind id else pure none
    return name.toList ++ (← namesBuilt kind how rest)

/-- The names of the models that are not built at all. -/
def ephemeralNames (manifest : Value) : Except Fault (List String) := do
  namesBuilt "model" "ephemeral" (← sectionNodes manifest "nodes")

def snapshotNames (manifest : Value) : Except Fault (List String) := do
  namesBuilt "snapshot" "snapshot" (← sectionNodes manifest "nodes")

/-- The names of the models that are listed as disabled, unless those are in scope. -/
def disabledNames (manifest : Value) (withDisabled : Bool) : Except Fault (List String) := do
  let names ← (← sectionNodes manifest "disabled").mapM fun e => nameOfKind? "model" e.1
  return if withDisabled then [] else names.filterMap id

/-! ### Other nodes -/

def resource? (kind : String) (names : List String) (entry : Scalar × Value) :
    Except Fault (Option Resource) := do
  match ← nameOfKind? kind entry.1 with
  | none => return none
  | some filename =>
    if names.contains filename then return some ⟨← entry.2.field "name", filename, entry.2⟩
    return none

def builtResource? (kind how : String) (names : List String) (entry : Scalar × Value) :
    Except Fault (Option Resource) := do
  if ← isMaterialized entry.2 how then resource? kind names entry else return none

def snapshots (manifest : Value) (names : List String) : Feed Resource :=
  .ofExcept do
    return .filterMapE (builtResource? "snapshot" "snapshot" names)
      (← sectionNodes manifest "nodes")

def testNodes (manifest : Value) (names : List String) : Feed Resource :=
  .ofExcept do
    return .filterMapE (builtResource? "test" "test" names) (← sectionNodes manifest "nodes")

def seeds (manifest : Value) (names : List String) : Feed Resource :=
  .ofExcept do return .filterMapE (resource? "seed" names) (← sectionNodes manifest "nodes")

def macroOf (names : List String) (entry : Scalar × Value) : Except Fault (Option Macro) := do
  let id ← idText entry.1
  let filename := lastPart (idParts id)
  if names.contains filename && firstPart (idParts id) == "macro" then
    return some ⟨id, ← entry.2.field "name", filename, entry.2⟩
  return none

/-- The macros of a manifest with the given file names. -/
def macros (manifest : Value) (names : List String) : Feed Macro :=
  .ofExcept do return .filterMapE (macroOf names) (← sectionNodes manifest "macros")

end ProjectLint
