import ProjectLint.Value.Sets

/-!
# Pairs of names

A source table is known by two names, of which it does not matter which is first.
-/

namespace ProjectLint

structure NamePair where
  first : Scalar
  second : Scalar

def NamePair.members (p : NamePair) : List Scalar := distinct [p.first, p.second]

def NamePair.same (p q : NamePair) : Bool :=
  isSubset p.members q.members && isSubset q.members p.members

/-- Things under pairs of names. -/
abbrev ByPair (α : Type) := List (NamePair × α)

namespace ByPair

/-- Puts a thing under a pair: in its place if the pair is there, at the end otherwise. -/
def put {α : Type} (m : ByPair α) (pair : NamePair) (x : α) : ByPair α :=
  match m with
  | [] => [(pair, x)]
  | e :: rest => if e.1.same pair then (e.1, x) :: rest else e :: put rest pair x

def get? {α : Type} (m : ByPair α) (pair : NamePair) : Option α :=
  (m.find? fun e => e.1.same pair).map (·.2)

def erase {α : Type} (m : ByPair α) (pair : NamePair) : ByPair α := m.filter fun e => !e.1.same pair

end ByPair

end ProjectLint
