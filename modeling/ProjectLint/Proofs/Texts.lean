import Mathlib.Data.List.Basic
import ProjectLint.Value.Access
import ProjectLint.Value.Sets

/-!
# Texts among scalars

Equality of scalars is coarser than identity: `1`, `1.0` and `true` are one key.  Texts are not
touched by this, so on texts the equality of the library is plain equality (`same_str_iff`), and a
set of texts has the members that one expects (`mem_textSet`).
-/

namespace ProjectLint

namespace Scalar

theorem same_str_iff (a : Scalar) (s : String) : a.same (.str s) = true ↔ a = .str s := by
  cases a with
  | str b => simp [same]
  | _ => simp [same, isNumber]

theorem str_same_iff (s : String) (a : Scalar) : (Scalar.str s).same a = true ↔ a = .str s := by
  cases a with
  | str b => simp only [same, beq_iff_eq, str.injEq]; exact eq_comm
  | _ => simp [same, isNumber]

end Scalar

/-! ### Lists without repetitions -/

theorem nodup_eraseDups {α : Type} [BEq α] [LawfulBEq α] : ∀ l : List α, l.eraseDups.Nodup := by
  intro l
  induction hn : l.length using Nat.strongRecOn generalizing l with
  | ind n ih =>
    cases l with
    | nil => exact List.nodup_nil
    | cons a rest =>
      have hlength : (rest.filter fun b => !b == a).length < n := by
        rw [← hn, List.length_cons]
        exact Nat.lt_succ_of_le (List.length_filter_le _ _)
      rw [List.eraseDups_cons]
      refine List.nodup_cons.mpr ⟨fun hmem => ?_, ih _ hlength _ rfl⟩
      have hne := (List.mem_filter.mp (List.mem_eraseDups.mp hmem)).2
      simp at hne

/-! ### Sets of texts -/

/-- One more member is kept, unless an equal one was seen. -/
theorem mem_distinct_step {a x : Scalar} {seen : List Scalar} {s : String} (hx : x = .str s) :
    a ∈ (if seen.any (·.same x) then seen else seen ++ [x]) ↔ a ∈ seen ∨ a = x := by
  subst hx
  by_cases h : seen.any (·.same (.str s)) = true
  · rw [if_pos h]
    obtain ⟨y, hy, hs⟩ := List.any_eq_true.mp h
    rw [(Scalar.same_str_iff y s).mp hs] at hy
    constructor
    · exact Or.inl
    · rintro (h | rfl)
      · exact h
      · exact hy
  · rw [if_neg h]
    simp

theorem mem_foldl_distinct {a : Scalar} : ∀ (texts : List String) (seen : List Scalar),
    a ∈ (texts.map Scalar.str).foldl (fun seen x => if seen.any (·.same x) then seen else seen ++
      [x]) seen ↔ a ∈ seen ∨ ∃ s ∈ texts, a = .str s := by
  intro texts
  induction texts with
  | nil => simp
  | cons s rest ih =>
    intro seen
    rw [List.map_cons, List.foldl_cons, ih, mem_distinct_step rfl]
    simp only [List.mem_cons, exists_eq_or_imp, or_assoc]

variable {texts : List String}

theorem mem_textSet {a : Scalar} : a ∈ textSet texts ↔ ∃ s ∈ texts, a = .str s := by
  rw [textSet, distinct, mem_foldl_distinct]
  simp

theorem isSubset_textSet_iff {b : List Scalar} : isSubset (textSet texts) b = true ↔
    ∀ s ∈ texts, Scalar.str s ∈ b := by
  rw [isSubset, List.all_eq_true]
  constructor
  · intro h s hs
    obtain ⟨y, hy, he⟩ := List.any_eq_true.mp (h (.str s) (mem_textSet.mpr ⟨s, hs, rfl⟩))
    rwa [(Scalar.same_str_iff y s).mp he] at hy
  · intro h a ha
    obtain ⟨s, hs, rfl⟩ := mem_textSet.mp ha
    exact List.any_eq_true.mpr ⟨.str s, h s hs, (Scalar.same_str_iff _ s).mpr rfl⟩

theorem isSubset_to_textSet_iff {b : List Scalar} :
    isSubset b (textSet texts) = true ↔ ∀ a ∈ b, ∃ s ∈ texts, a = .str s := by
  rw [isSubset, List.all_eq_true]
  constructor
  · intro h a ha
    obtain ⟨y, hy, he⟩ := List.any_eq_true.mp (h a ha)
    obtain ⟨s, hs, rfl⟩ := mem_textSet.mp hy
    exact ⟨s, hs, (Scalar.str_same_iff s a).mp he⟩
  · intro h a ha
    obtain ⟨s, hs, rfl⟩ := h a ha
    exact List.any_eq_true.mpr ⟨.str s, mem_textSet.mpr ⟨s, hs, rfl⟩,
      (Scalar.same_str_iff _ s).mpr rfl⟩

/-- Only scalars are keys. -/
theorem key?_eq_ok {v : Value} {s : Scalar} (h : v.key? = .ok s) : v = .scalar s := by
  cases v with
  | scalar a => rw [Except.ok.inj h]
  | _ => cases h

end ProjectLint
