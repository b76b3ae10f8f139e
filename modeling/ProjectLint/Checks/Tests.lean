import ProjectLint.Checks.Findings
import ProjectLint.Project.Lineage

/-!
# Tests

Models and source tables have to be tested: by a number of tests in all, by a number of tests of
each of some names or types, or by a number of tests out of a group.
-/

namespace ProjectLint.Tests

/-- How tests are labelled. -/
inductive Labelling where
  | byName
  | byKind

def Labelling.label (l : Labelling) (t : Test) : Value :=
  match l with
  | .byName => t.name
  | .byKind => .str t.kind

def grouped (labels : List Value) : Except Fault (List (List Scalar)) := do
  let sorted ← sortBy Value.before? labels
  return (← sorted.mapM Value.key?).splitBy Scalar.same

/-- The tests in groups of one label. -/
def Labelling.groups (l : Labelling) (tests : List Test) : Except Fault (List (List Scalar)) :=
  grouped (tests.map l.label)

def countOf (groups : List (List Scalar)) (label : String) : Nat :=
  ((groups.filter fun g => g.head?.any fun l =>
    l.same (.str label)).getLast?.map List.length).getD 0

/-- How many tests a subject needs under a label. At least one is always needed. -/
structure Requirement where
  label : String
  count : Int

def Requirement.isMissed (r : Requirement) (found : Nat) : Bool :=
  found == 0 || (found : Int) < r.count

def Requirement.line (r : Requirement) (subject : String) (found : Nat) : String :=
  subject ++ s!": has only {found} {r.label} tests, but {r.count} are required."

def missed (subject : String) (required : List Requirement) (groups : List (List Scalar)) :
    List String :=
  required.filterMap fun r =>
    let found := countOf groups r.label
    if r.isMissed found then some (r.line subject found) else none

def groupCount (group : List String) (groups : List (List Scalar)) : Nat :=
  (group.filter fun g => countOf groups g != 0).length

def groupLine (subject : String) (group : List String) (found : Nat) : String :=
  subject ++ s!": has only {found} test(s) from " ++ (Value.strs group).literal ++ "."

def groupMissed (subject : String) (group : List String) (count : Int)
    (groups : List (List Scalar)) : List String :=
  let found := groupCount group groups
  if (found : Int) < count then [groupLine subject group found] else []

/-! ### Models -/

def modelCount (manifest : Value) (count : Int) (m : Model) : Except Fault (List String) := do
  let found := (← testsOf manifest (.model (.str m.id))).length
  return if (found : Int) < count then
    [m.filename ++ s!": has only {found} tests, but {count} are required."] else []

def modelRequired (manifest : Value) (labelling : Labelling) (required : List Requirement)
    (m : Model) : Except Fault (List String) := do
  let groups ← labelling.groups (← testsOf manifest (.model (.str m.id)))
  return missed m.name.text required groups

def modelGroup (manifest : Value) (group : List String) (count : Int) (m : Model) :
    Except Fault (List String) := do
  let groups ← Labelling.byName.groups (← testsOf manifest (.model (.str m.id)))
  return groupMissed m.name.text group count groups

def checkModelCount (t : Tree) (manifest : Value) (count : Int) (r : Request) : Findings :=
  checkModels (r.models t manifest) (modelCount manifest count)

/-- Every model has the required tests. -/
def checkModelRequired (t : Tree) (manifest : Value) (labelling : Labelling)
    (required : List Requirement) (r : Request) : Findings :=
  checkModels (r.models t manifest) (modelRequired manifest labelling required)

/-- Every model has a number of tests out of a group. -/
def checkModelGroup (t : Tree) (manifest : Value) (group : List String) (count : Int)
    (r : Request) : Findings :=
  checkModels (r.models t manifest) (modelGroup manifest group count)

/-! ### Source tables -/

def subjectOf (s : SourceTable) : Subject := .sourceTable s.source s.table

def tableCount (manifest : Value) (count : Int) (s : SourceTable) : Except Fault (List String) := do
  let found := (← testsOf manifest (subjectOf s)).length
  return if (found : Int) < count then
    [red s.label ++ ": has " ++ yellow (toString found) ++ " tests, " ++ red (toString count) ++
      " are required."]
    else []

def tableRequired (manifest : Value) (labelling : Labelling) (required : List Requirement)
    (s : SourceTable) : Except Fault (List String) := do
  let groups ← labelling.groups (← testsOf manifest (subjectOf s))
  return missed s.label required groups

def tableGroup (manifest : Value) (group : List String) (count : Int) (s : SourceTable) :
    Except Fault (List String) := do
  let groups ← Labelling.byName.groups (← testsOf manifest (subjectOf s))
  return groupMissed s.label group count groups

def checkTableCount (t : Tree) (manifest : Value) (count : Int) (r : Request) : Findings :=
  checkTables (r.sourceTables t) (tableCount manifest count)

def checkTableRequired (t : Tree) (manifest : Value) (labelling : Labelling)
    (required : List Requirement) (r : Request) : Findings :=
  checkTables (r.sourceTables t) (tableRequired manifest labelling required)

def checkTableGroup (t : Tree) (manifest : Value) (group : List String) (count : Int)
    (r : Request) : Findings :=
  checkTables (r.sourceTables t) (tableGroup manifest group count)

end ProjectLint.Tests
