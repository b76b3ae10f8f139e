import ProjectLint.Checks.Scripts
import ProjectLint.Fixes.Properties
import ProjectLint.Fixes.Sources
import ProjectLint.Fixes.Tables
import ProjectLint.Fixes.Wording
import ProjectLint.Sample.Benchmark
import ProjectLint.Script.Comments
import ProjectLint.Script.Spacing

/-!
# Benchmarks of scripts and of fixes
-/

namespace ProjectLint.Sample

def scriptLine : String :=
  "select id from \x7b\x7b ref('orders') \x7d\x7d " ++
    "join \x7b\x7b source('webshop', 'customers') \x7d\x7d on id = key-- linked by key"

def script (lines : Nat) : String := "\n".intercalate (List.replicate lines scriptLine)

/-- Takes a script of so many lines apart. -/
def scriptWords (lines : Nat) : Benchmark :=
  let text := Script.withoutComments (script lines)
  let words := Text.words (Script.spaceParentheses text)
  let neighbours := Script.neighbours words
  let after := fun (word : String) =>
    numberOf (neighbours.map fun ns => ns.filter fun n => n.previous == some word)
  let unknown := ["raw.people", "people"].map TableNames.unknown
  { tree := Tree.empty
    run := silent <| listed [
      found fun _ => .ok (.int text.length),
      found fun _ => numberOf neighbours,
      found fun _ => after "from",
      found fun _ => after "join",
      found fun _ =>
        numberOf (TableNames.refs (manifest 0 0) ["raw.people", "people"]).found.toExcept,
      (Edit.forEach Edit.say (unknown.map (·.1))).bind fun _ =>
        Edit.pure (.int (unknown.filterMap (·.2)).length)] }

def summed (works : List (Edit Int)) : Edit Value :=
  (Edit.foldl (fun sum work => work.bind fun n => Edit.pure (sum + n)) 0 works).bind fun sum =>
    Edit.pure (.int sum)

def asNumber (b : Bool) : Int := if b then 1 else 0

def semicolonShows (bytes : List UInt8) : Int :=
  let dropped := Script.dropSemicolon bytes
  asNumber (Script.endsInSemicolon bytes) + asNumber (Script.endsInSemicolon (bytes ++ [13, 10])) +
    asNumber (Script.endsInSemicolon (dropped ++ [Script.semicolon])) +
    asNumber (dropped.length < bytes.length) +
    asNumber (Script.endsInSemicolon dropped)

/-- Looks for semicolons and for calls of what is not there. -/
def semicolonsAndCalls (size : Nat) : Benchmark :=
  let macros := usualMacros size
  let p := project size macros size size 2
  let m := manifest size macros
  let semicolons := p.scripts.map fun path =>
    Edit.ask fun t => (t.readBytes path).map fun bytes => semicolonShows bytes.toList
  let calls : Edit Int :=
    (Edit.ask fun t => Scripts.missing t m p.scripts).bind fun missing =>
      let lines := Scripts.missingLines missing
      (Edit.forEach Edit.say lines).bind fun _ =>
        Edit.pure (Findings.status lines + missing.models.length)
  { tree := p.tree
    run := silent (summed (semicolons ++ [calls])) }

/-! ### Fixes -/

/-- Gives every table of a list its place, and counts the places. -/
def tablePlaces (m : Value) (tables : List String) : Edit Int := do
  let refs := TableNames.refs m tables
  let known ← Edit.ofExcept refs.found.toExcept
  let sources := TableNames.sources m refs.left
  let covered ← Edit.ofExcept sources.found.toExcept
  let unknown := sources.left.map TableNames.unknown
  Edit.forEach Edit.say (unknown.map (·.1))
  return known.length + covered.length + (unknown.filterMap (·.2)).length

/-- All fixes, always on the same files. Only the first three scripts are handed to the slow
ones. -/
def fixes (size : Nat) : Benchmark :=
  let macros := usualMacros size
  let p := project size macros 3 3 2
  let m := manifest size macros
  let c := catalog size
  let few := p.scripts.take 3
  let tables := (List.range size).flatMap fun i => [modelName i, "raw." ++ tableName i]
  let generated := fun (template : String) => PropertyFiles.generate m c template { paths := few }
  let works : List (Edit Int) := [
    tablePlaces m (tables ++ ["x.y", "u.v", "dotless"]),
    Edit.ofReport fun t => (Wording.check t [] p.propertyFiles).report,
    Wording.unify [] p.propertyFiles,
    Sources.addMissing propertiesPath [⟨"src", "new"⟩, ⟨"other", "t"⟩],
    Sources.addMissing "absent.yml" [⟨"src", "new"⟩],
    Sources.generate m propertiesPath few,
    Sources.generate m "absent.yml" few,
    generated propertiesPath,
    generated "generated/\x7bname\x7d.yml",
    generated "generated/\x7bschema\x7d/\x7bname\x7d.yml"]
  { tree := p.tree
    run := fun _ => silent (summed works) p.tree }

end ProjectLint.Sample
