import ProjectLint.Proofs.Yaml.Sharing
import ProjectLint.Yaml.Sheet

/-!
# Reading back

A document **reads back** if the text it is written to is read as the same value, with the same
parts shared.  For a given document this can be tried out: the value that comes is compared with the
one that was written, key by key in their order (`eq_of_yields`).
-/

namespace ProjectLint.Yaml

def SameShares (d e : Document) : Prop := ∀ p q, q ∈ d.aliases p ↔ q ∈ e.aliases p

theorem sameShares_of_shares {d e : Document} (h : d.shares = e.shares) : SameShares d e := by
  intro p q
  rw [Document.aliases, Document.aliases, Document.aliasesRev_congr h]

/-- **What is written can be read back**: the same value comes, with the same parts shared. -/
def ReadsBack (d : Document) : Prop :=
  ∃ e, Document.read (Text.unifyNewlines d.write) = .ok e ∧ e.root = d.root ∧ SameShares e d

/-! ### Trying it out -/

/-- The scalars are one and the same.  Fractions, bytes and dates are not compared. -/
def alikeScalar : Scalar → Scalar → Bool
  | .null, .null => true
  | .bool a, .bool b => a == b
  | .int m, .int n => m == n
  | .str s, .str r => s == r
  | _, _ => false

theorem eq_of_alikeScalar {a b : Scalar} (h : alikeScalar a b = true) : a = b := by
  unfold alikeScalar at h
  split at h
  · rfl
  · rw [beq_iff_eq.mp h]
  · rw [beq_iff_eq.mp h]
  · rw [beq_iff_eq.mp h]
  · cases h

mutual

/-- The values are one and the same, with their keys in the same order. -/
def alike : Value → Value → Bool
  | .scalar a, .scalar b => alikeScalar a b
  | .seq items, .seq items' => alikeItems items items'
  | .map entries, .map entries' => alikeEntries entries entries'
  | _, _ => false

def alikeItems : List Value → List Value → Bool
  | [], [] => true
  | v :: items, w :: items' => alike v w && alikeItems items items'
  | _, _ => false

def alikeEntries : List (Scalar × Value) → List (Scalar × Value) → Bool
  | [], [] => true
  | (k, v) :: entries, e :: entries' =>
    alikeScalar k e.1 && alike v e.2 && alikeEntries entries entries'
  | _, _ => false

end

mutual

theorem eq_of_alike : ∀ v w : Value, alike v w = true → v = w
  | .scalar a, w, h => by
    cases w with
    | scalar b => rw [eq_of_alikeScalar h]
    | _ => cases h
  | .seq items, w, h => by
    cases w with
    | seq items' => rw [eq_of_alikeItems items items' h]
    | _ => cases h
  | .map entries, w, h => by
    cases w with
    | map entries' => rw [eq_of_alikeEntries entries entries' h]
    | _ => cases h
  | .set _, w, h => by cases w <;> cases h
  | .pair _ _, w, h => by cases w <;> cases h
  | .enclosing _, w, h => by cases w <;> cases h

theorem eq_of_alikeItems : ∀ items items' : List Value, alikeItems items items' = true →
    items = items'
  | [], items', h => by
    cases items' with
    | nil => rfl
    | cons => cases h
  | v :: items, items', h => by
    cases items' with
    | nil => cases h
    | cons w items' =>
      obtain ⟨hv, hitems⟩ := (Bool.and_eq_true _ _).mp h
      rw [eq_of_alike v w hv, eq_of_alikeItems items items' hitems]

theorem eq_of_alikeEntries : ∀ entries entries' : List (Scalar × Value),
    alikeEntries entries entries' = true → entries = entries'
  | [], entries', h => by
    cases entries' with
    | nil => rfl
    | cons => cases h
  | (k, v) :: entries, entries', h => by
    cases entries' with
    | nil => cases h
    | cons e entries' =>
      obtain ⟨k', w⟩ := e
      obtain ⟨hkv, hentries⟩ := (Bool.and_eq_true _ _).mp h
      obtain ⟨hk, hv⟩ := (Bool.and_eq_true _ _).mp hkv
      rw [eq_of_alikeScalar hk, eq_of_alike v w hv, eq_of_alikeEntries entries entries' hentries]

end

theorem eq_ok_of_alike {outcome : Except Fault Value} {v : Value}
    (h : outcome.toOption.any (alike · v) = true) :
    outcome = .ok v := by
  cases outcome with
  | ok w => rw [eq_of_alike w v h]
  | error f => cases h

def yields (outcome : Except Fault Document) (d : Document) : Bool :=
  match outcome with
  | .ok e => alike e.root d.root && e.shares == d.shares
  | .error _ => false

theorem eq_of_yields {outcome : Except Fault Document} {d : Document}
    (h : yields outcome d = true) :
    outcome = .ok d := by
  unfold yields at h
  split at h
  · rename_i e
    obtain ⟨hroot, hshares⟩ := (Bool.and_eq_true _ _).mp h
    have heq : e = ⟨d.root, d.shares⟩ := by rw [← eq_of_alike _ _ hroot, ← beq_iff_eq.mp hshares]
    rw [heq]
  · cases h

theorem readsBack_of_yields {d : Document}
    (h : yields (Document.read (Text.unifyNewlines d.write)) d = true) :
    ReadsBack d := ⟨d, eq_of_yields h, rfl, sameShares_of_shares rfl⟩

end ProjectLint.Yaml
