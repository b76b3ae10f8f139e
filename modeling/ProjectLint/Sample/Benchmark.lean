import ProjectLint.Edit
import ProjectLint.Sample.Project
import ProjectLint.Tracking

/-!
# Benchmarks

A benchmark does a fixed amount of work on a sample project and gives back what came of it, so that
two runs can be compared. What a run changes in the files is there in the next run.
-/

namespace ProjectLint.Sample

/-- What one run gives: its value, how much it printed, and how many events it recorded. -/
structure Measured where
  value : Value
  printed : Nat
  events : Nat

structure Benchmark where
  tree : Tree
  run : Edit (Value × List Event)

namespace Benchmark

/-- The runs of a benchmark, one after another on the same files. -/
def runs (b : Benchmark) : Nat → Except Fault (List Measured)
  | count => go count b.tree
where
  go : Nat → Tree → Except Fault (List Measured)
    | 0, _ => .ok []
    | count + 1, t =>
      let done := b.run t
      match done.outcome with
      | .error f => .error f
      | .ok (value, events) => do
        return ⟨value, done.lines.length, events.length⟩ :: (← go count done.tree)

end Benchmark

def silent (work : Edit Value) : Edit (Value × List Event) := work.bind fun v => Edit.pure (v, [])

/-- Does one piece of work after another and lists what they give. -/
def listed (works : List (Edit Value)) : Edit Value :=
  (Edit.foldl (fun values work => work.bind fun v => Edit.pure (values ++ [v])) [] works).bind
    fun values => Edit.pure (.seq values)

def statusOf (look : Tree → Report Status) : Edit Value :=
  (Edit.ofReport look).bind fun status => Edit.pure (.int status)

def found (ask : Tree → Except Fault Value) : Edit Value := Edit.ask ask

def numberOf {α : Type} (e : Except Fault (List α)) : Except Fault Value :=
  e.map fun items => .int items.length

end ProjectLint.Sample
