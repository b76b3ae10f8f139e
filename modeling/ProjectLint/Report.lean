import ProjectLint.Fault

/-!
# Reports and feeds

A check prints lines and ends with an outcome. A `Report` is both together, so what was printed
before a fault is kept. A `Feed` is a supply of items that may break off with a fault: the items
before it are still handed on.
-/

namespace ProjectLint

/-- Zero for success; one for findings. -/
abbrev Status := Int

structure Report (α : Type) where
  lines : List String
  outcome : Except Fault α

namespace Report

def pure {α : Type} (a : α) : Report α := ⟨[], .ok a⟩

def fail {α : Type} (f : Fault) : Report α := ⟨[], .error f⟩

def ofExcept {α : Type} (e : Except Fault α) : Report α := ⟨[], e⟩

def say (line : String) : Report Unit := ⟨[line], .ok ()⟩

def bind {α β : Type} (r : Report α) (f : α → Report β) : Report β :=
  match r.outcome with
  | .ok a => ⟨r.lines ++ (f a).lines, (f a).outcome⟩
  | .error e => ⟨r.lines, .error e⟩

instance : Monad Report where
  pure := Report.pure
  bind := Report.bind

instance : MonadExceptOf Fault Report where
  throw := fail
  tryCatch r handle :=
    match r.outcome with
    | .ok _ => r
    | .error e => ⟨r.lines ++ (handle e).lines, (handle e).outcome⟩

instance : MonadLift (Except Fault) Report where
  monadLift := ofExcept

theorem bind_error {α β : Type} {r : Report α} {e : Fault} (f : α → Report β)
    (h : r.outcome = .error e) : r.bind f = ⟨r.lines, .error e⟩ := by
  simp [bind, h]

end Report

/-- Items, and the fault at which their supply breaks off. -/
structure Feed (α : Type) where
  items : List α
  stop : Option Fault

namespace Feed

def empty {α : Type} : Feed α := ⟨[], none⟩

def ofList {α : Type} (items : List α) : Feed α := ⟨items, none⟩

def broken {α : Type} (f : Fault) : Feed α := ⟨[], some f⟩

def append {α : Type} (a b : Feed α) : Feed α :=
  match a.stop with
  | some _ => a
  | none => ⟨a.items ++ b.items, b.stop⟩

instance {α : Type} : Append (Feed α) := ⟨append⟩

def flatMap {α β : Type} (f : α → Feed β) : List α → Feed β
  | [] => empty
  | a :: rest => f a ++ flatMap f rest

def ofExcept {α : Type} (e : Except Fault (Feed α)) : Feed α :=
  match e with
  | .ok feed => feed
  | .error f => broken f

def bind {α β : Type} (a : Feed α) (f : α → Feed β) : Feed β :=
  flatMap f a.items ++ ⟨[], a.stop⟩

/-- The items that a test lets pass; the feed breaks off where the test fails. -/
def filterMapE {α β : Type} (f : α → Except Fault (Option β)) : List α → Feed β
  | [] => empty
  | a :: rest =>
    match f a with
    | .error e => broken e
    | .ok none => filterMapE f rest
    | .ok (some b) => ⟨[b], none⟩ ++ filterMapE f rest

/-- All items, or the fault. -/
def toExcept {α : Type} (a : Feed α) : Except Fault (List α) :=
  match a.stop with
  | some f => .error f
  | none => .ok a.items

/-- Works through the items one by one, carrying a state, and ends with the fault of the feed if it
has one. -/
def fold {α σ : Type} (a : Feed α) (init : σ) (step : σ → α → Report σ) : Report σ :=
  go a.items init
where
  go : List α → σ → Report σ
    | [], s => ⟨[], match a.stop with
      | some f => .error f
      | none => .ok s⟩
    | x :: rest, s => (step s x).bind (go rest)

end Feed

end ProjectLint
