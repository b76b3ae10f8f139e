import ProjectLint.Checks.Keys
import ProjectLint.Commands
import ProjectLint.Project.Lineage
import ProjectLint.Sample.Benchmark
import ProjectLint.Settings

/-!
# Benchmarks of walks through the manifest, of events and of commands
-/

namespace ProjectLint.Sample

def links (m : Value) (numbers : List Nat) : Except Fault Nat := do
  let linked ← (numbers.zip numbers.tail).filterM fun (i, j) => do
    let children ← childModels m (.model (.str (modelId i)))
    return children.any fun
      | .model c => c.id == modelId j
      | _ => false
  return linked.length

/-- Looks up all kinds of nodes, and what the first ten models depend on. -/
def traversal (size : Nat) : Except Fault Benchmark := do
  let macros := usualMacros size
  let p := project size macros size size 2
  let m := manifest size macros
  let first := Subject.model (.str (modelId 0))
  let _ ← (← m.index "nodes").index (modelId 0)
  let numbers := List.range (min size 10)
  let subjects := numbers.map fun i => Subject.model (.str (modelId i))
  let stems := (scriptFiles p.scripts).stems
  let asked := fun (e : Except Fault Value) => found fun _ => e
  let judged := fun (keys : List String) =>
    statusOf fun _ => Keys.judgeResource ⟨keys, true⟩ ⟨.str "seed_0", "seed_0",
      Value.record [("meta", owner)]⟩
  let walks : List (Edit Value) := [
    asked (numberOf (models m stems ⟨false, false⟩).toExcept),
    asked (numberOf (modelFiles m false p.scripts)),
    asked (numberOf (ephemeralNames m)),
    asked (numberOf (snapshotNames m)),
    asked (numberOf (snapshots m ["snap_0"]).toExcept),
    asked (numberOf (testNodes m ["data_0"]).toExcept),
    asked (numberOf (seeds m ["seed_0"]).toExcept),
    asked (numberOf (ProjectLint.macros m [macroName 0]).toExcept),
    asked (numberOf (macroFiles m [macroPath 0])),
    asked (numberOf (disabledNames m true)),
    asked (numberOf ((subjects.mapM (childModels m)).map List.flatten)),
    asked (numberOf ((subjects.mapM (testsOf m)).map fun ts =>
      (ts.flatten.map (·.kind)).eraseDups)),
    asked (numberOf ((subjects.mapM (testsOf m)).map List.flatten)),
    asked (.ok (.str (((Commands.modelNames p.scripts "+" "+").head?).getD ""))),
    asked (.ok (.strs (Commands.flags ["++a", "++b"]))),
    asked (.ok (.strs (Commands.flags []))),
    asked ((links m numbers).map fun n => .int n),
    asked (numberOf (parents m first ["model", "source"])),
    found fun t => numberOf (exposures t p.propertyFiles).toExcept,
    found fun t => numberOf (Settings.load t "cfg.yaml" >>= Value.entries),
    asked ((first.fits (modelId 0)).map .bool),
    asked (((Subject.sourceTable (.str "src") (.str (tableName 0))).fits (tableId 0)).map .bool),
    asked ((Subject.other.fits (modelId 0)).map .bool),
    asked (.ok (.str (red "x" ++ yellow "y"))),
    judged ["owner"],
    judged ["team"],
    asked (.ok (.seq (Commands.withProjectDir [.str "dbt"] [] (.str "proj"))))]
  return ⟨p.tree, silent (listed walks)⟩

/-! ### Events -/

def trackedRun (settings m : Value) : Report (List Event) := do
  let ends ← [0, 1, 2].mapM fun (status : Int) =>
    Tracking.deliver none settings (.bool true) "Hook Executed"
      [(.str "hook_name", .str "check_model_tags.py"), (.str "status", .int status)] m
  return ends.flatten

/-- Reads the token and records events, as often as asked. The value is the length of all tokens
read. -/
def tracking (times : Nat) : Benchmark :=
  let settings := Value.record [("version", .int 1)]
  let m := manifest 1 0
  let step := fun (length : Nat) (events : List Event) => do
    let token ← Tracking.token settings (.bool true)
    return (length + token.length, events ++ (← trackedRun settings m))
  let work : Report (Nat × List Event) :=
    (List.range times).foldlM (fun s _ => step s.1 s.2) (0, [])
  { tree := Tree.empty
    run := (Edit.ofReport fun _ => work).bind fun (length, events) =>
      Edit.pure (.int length, events) }

/-! ### Commands -/

def wordCount (c : Commands.Command) (r : Commands.Request) (settings : Value) :
    Except Fault Int := do
  return (← Commands.commandLine c r settings).length

def spaced (bound : Int) : List Nat :=
  let step := max 1 (Int.fdiv bound 50).toNat
  (List.range bound.toNat).filter fun i => i != 0 && (i - 1) % step == 0

/-- Builds command lines with ever more flags. -/
def commandLines (size : Int) : Benchmark :=
  let given := (List.replicate (Int.fdiv size 3 + 1).toNat ["++debug", "+t", "dev"]).flatten
  let plain : Value := .map []
  let inDir := Value.record [textField "dbt-project-dir" "proj"]
  let flagged : Commands.Request := { globalFlags := given, commandFlags := given }
  let four : List String := ["a.sql", "b.sql", "c.sql", "d.sql"]
  let counts : List (Except Fault Int) := [
    wordCount .clean flagged inDir,
    wordCount .clean {} plain,
    wordCount .deps flagged inDir,
    wordCount .parse flagged plain,
    wordCount .docs flagged plain,
    wordCount .compile { flagged with paths := four } inDir,
    wordCount .run { flagged with models := ["tag:daily"] } plain,
    wordCount .test { flagged with paths := four } plain,
    wordCount .compile { paths := four.take 2 } plain,
    wordCount .run { paths := four } plain,
    wordCount .test { paths := four.take 2 } inDir,
    (spaced size).foldlM (fun sum i => do
      return sum + (← wordCount .docs
        { globalFlags := given.take i, commandFlags := given.take i } plain)) 0]
  { tree := Tree.empty
    run := silent (listed (counts.map fun e => found fun _ => e.map .int)) }

end ProjectLint.Sample
