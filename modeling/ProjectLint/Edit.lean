import ProjectLint.Report
import ProjectLint.Tree

/-!
# Edits

An edit works on the tree: it prints lines, changes files, and ends with an outcome. What was
changed before a fault stays changed.
-/

namespace ProjectLint

structure Edited (α : Type) where
  lines : List String
  tree : Tree
  outcome : Except Fault α

def Edit (α : Type) := Tree → Edited α

namespace Edit

def pure {α : Type} (a : α) : Edit α := fun t => ⟨[], t, .ok a⟩

def bind {α β : Type} (e : Edit α) (f : α → Edit β) : Edit β := fun t =>
  let first := e t
  match first.outcome with
  | .ok a =>
    let second := f a first.tree
    ⟨first.lines ++ second.lines, second.tree, second.outcome⟩
  | .error fault => ⟨first.lines, first.tree, .error fault⟩

instance : Monad Edit where
  pure := Edit.pure
  bind := Edit.bind

def ofExcept {α : Type} (e : Except Fault α) : Edit α := fun t => ⟨[], t, e⟩

instance : MonadLift (Except Fault) Edit where
  monadLift := ofExcept

def ofReport {α : Type} (r : Tree → Report α) : Edit α := fun t => ⟨(r t).lines, t, (r t).outcome⟩

def fail {α : Type} (f : Fault) : Edit α := ofExcept (.error f)

def say (line : String) : Edit Unit := fun t => ⟨[line], t, .ok ()⟩

def ask {α : Type} (f : Tree → Except Fault α) : Edit α := fun t => ⟨[], t, f t⟩

/-- Changes the tree, which is kept as it is if the change fails. -/
def change (f : Tree → Except Fault Tree) : Edit Unit := fun t =>
  match f t with
  | .ok t' => ⟨[], t', .ok ()⟩
  | .error fault => ⟨[], t, .error fault⟩

/-- Works through a list, carrying a state. -/
def foldl {α σ : Type} (step : σ → α → Edit σ) : σ → List α → Edit σ
  | s, [] => Edit.pure s
  | s, x :: rest => (step s x).bind fun s' => foldl step s' rest

/-- Does the work for every element of a list. -/
def forEach {α : Type} (work : α → Edit Unit) : List α → Edit Unit
  | [] => Edit.pure ()
  | x :: rest => (work x).bind fun _ => forEach work rest

end Edit

end ProjectLint
