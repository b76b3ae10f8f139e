import ProjectLint.Proofs.Outcomes
import ProjectLint.Value.Access

/-!
# Sorting

A list is sorted by comparisons that may fail.  If none of them fails there is a result
(`exists_sortBy`).  The result has the elements of the list (`perm_of_sortBy`), in any order that
the answers of the comparison speak for (`Compares.pairwise_of_sortBy`), and **elements of one key
stay in the order in which they were** (`filter_sortBy`). Values can be compared in many ways, but
**a text is compared with texts only** (`before?_cases`), so a list that was sorted holds texts only
or none at all.
-/

namespace ProjectLint

section

variable {α : Type} {before : α → α → Except Fault Bool}

theorem perm_of_insertOrdered {x : α} : ∀ {l l' : List α}, insertOrdered before x l = .ok l' →
    l'.Perm (x :: l) := by
  intro l
  induction l with
  | nil => intro l' h; cases h; exact List.Perm.refl _
  | cons y l ih =>
    intro l' h
    obtain ⟨first, -, h⟩ := bind_eq_ok_iff.mp h
    cases first with
    | true => cases h; exact List.Perm.refl _
    | false =>
      obtain ⟨rest, hrest, h⟩ := bind_eq_ok_iff.mp h
      cases h
      exact ((ih hrest).cons y).trans (List.Perm.swap x y l)

theorem perm_of_foldlM : ∀ {l acc sorted : List α},
    l.foldlM (fun sorted x => insertOrdered before x sorted) acc = .ok sorted →
      sorted.Perm (l ++ acc) := by
  intro l
  induction l with
  | nil => intro acc sorted h; cases h; exact List.Perm.refl _
  | cons x l ih =>
    intro acc sorted h
    rw [List.foldlM_cons] at h
    obtain ⟨acc', hinsert, h⟩ := bind_eq_ok_iff.mp h
    exact (ih h).trans (((perm_of_insertOrdered hinsert).append_left l).trans List.perm_middle)

/-- **Sorting keeps the elements.** -/
theorem perm_of_sortBy {l sorted : List α} (h : sortBy before l = .ok sorted) : sorted.Perm l := by
  have hperm := perm_of_foldlM h
  rw [List.append_nil] at hperm
  exact hperm

theorem exists_insertOrdered {x : α} :
    ∀ {l : List α}, (∀ y ∈ l, ∃ answer, before x y = .ok answer) →
    ∃ l', insertOrdered before x l = .ok l' := by
  intro l
  induction l with
  | nil => intro _; exact ⟨[x], rfl⟩
  | cons y l ih =>
    intro h
    obtain ⟨⟨answer, hanswer⟩, hl⟩ := List.forall_mem_cons.mp h
    obtain ⟨rest, hrest⟩ := ih hl
    rw [insertOrdered, hanswer, ok_bind]
    cases answer with
    | true => exact ⟨_, rfl⟩
    | false => exact ⟨y :: rest, by rw [hrest]; rfl⟩

theorem exists_foldlM : ∀ {l acc : List α}, (∀ x ∈ l, ∀ y ∈ l ++
    acc, ∃ answer, before x y = .ok answer) →
    ∃ sorted, l.foldlM (fun sorted x => insertOrdered before x sorted) acc = .ok sorted := by
  intro l
  induction l with
  | nil => intro acc _; exact ⟨acc, rfl⟩
  | cons x l ih =>
    intro acc h
    obtain ⟨hx, hl⟩ := List.forall_mem_cons.mp h
    obtain ⟨acc', hinsert⟩ := exists_insertOrdered fun y hy => hx y (List.mem_append_right _ hy)
    rw [List.foldlM_cons, hinsert]
    refine ih fun z hz y hy => hl z hz y ?_
    have hperm := (perm_of_insertOrdered hinsert).append_left l
    exact List.perm_middle.mem_iff.mp (hperm.mem_iff.mp hy)

theorem exists_sortBy {l : List α} (h : ∀ x ∈ l, ∀ y ∈ l, ∃ answer, before x y = .ok answer) :
    ∃ sorted, sortBy before l = .ok sorted :=
  exists_foldlM fun x hx y hy => h x hx y (by simpa using hy)

end

/-! ### Order -/

/-- What the answers of a comparison say about an order. -/
structure Compares {α : Type} (before : α → α → Except Fault Bool) (R : α → α → Prop) : Prop where
  of_true : ∀ {a b}, before a b = .ok true → R a b
  of_false : ∀ {a b}, before a b = .ok false → R b a
  trans : ∀ {a b c}, R a b → R b c → R a c

namespace Compares

variable {α : Type} {before : α → α → Except Fault Bool} {R : α → α → Prop} (hc : Compares before R)

include hc

theorem pairwise_of_insertOrdered {x : α} : ∀ {l l' : List α}, insertOrdered before x l = .ok l' →
    l.Pairwise R →
    l'.Pairwise R := by
  intro l
  induction l with
  | nil =>
    intro l' h _
    cases h
    exact List.pairwise_singleton _ _
  | cons y l ih =>
    intro l' h hl
    obtain ⟨hy, htail⟩ := List.pairwise_cons.mp hl
    obtain ⟨first, hfirst, h⟩ := bind_eq_ok_iff.mp h
    cases first with
    | true =>
      cases h
      refine List.pairwise_cons.mpr ⟨fun z hz => ?_, hl⟩
      rcases List.mem_cons.mp hz with rfl | hz
      · exact hc.of_true hfirst
      · exact hc.trans (hc.of_true hfirst) (hy z hz)
    | false =>
      obtain ⟨rest, hrest, h⟩ := bind_eq_ok_iff.mp h
      cases h
      refine List.pairwise_cons.mpr ⟨fun z hz => ?_, ih hrest htail⟩
      rcases List.mem_cons.mp ((perm_of_insertOrdered hrest).mem_iff.mp hz) with rfl | hz
      · exact hc.of_false hfirst
      · exact hy z hz

theorem pairwise_of_foldlM : ∀ {l acc sorted : List α},
    l.foldlM (fun sorted x => insertOrdered before x sorted) acc = .ok sorted → acc.Pairwise R →
      sorted.Pairwise R := by
  intro l
  induction l with
  | nil => intro acc sorted h hacc; cases h; exact hacc
  | cons x l ih =>
    intro acc sorted h hacc
    rw [List.foldlM_cons] at h
    obtain ⟨acc', hinsert, h⟩ := bind_eq_ok_iff.mp h
    exact ih h (hc.pairwise_of_insertOrdered hinsert hacc)

/-- **Sorting brings into order.** -/
theorem pairwise_of_sortBy {l sorted : List α} (h : sortBy before l = .ok sorted) :
    sorted.Pairwise R :=
  hc.pairwise_of_foldlM h List.Pairwise.nil

end Compares

/-! ### Stability -/

section

variable {α : Type} {before : α → α → Except Fault Bool} {key : α → String}

/-- **An element goes behind those of its key.** -/
theorem filter_insertOrdered {x : α} (k : String) : ∀ {l l' : List α},
    (∀ y ∈ l, before x y = .ok (decide (key x < key y))) → l.Pairwise (fun a b => key a ≤ key b) →
      insertOrdered before x l = .ok l' →
        l'.filter (fun a => key a == k) =
          l.filter (fun a => key a == k) ++ [x].filter fun a => key a == k := by
  intro l
  induction l with
  | nil =>
    intro l' _ _ h
    cases h
    rfl
  | cons y l ih =>
    intro l' hbefore hsorted h
    obtain ⟨hy, hl⟩ := List.forall_mem_cons.mp hbefore
    obtain ⟨hfirst, htail⟩ := List.pairwise_cons.mp hsorted
    rw [insertOrdered, hy, ok_bind] at h
    by_cases hlt : key x < key y
    · rw [if_pos (decide_eq_true hlt)] at h
      cases h
      -- the keys of the list are behind that of the element
      have hbehind : ∀ z ∈ y :: l, key x < key z := by
        exact List.forall_mem_cons.mpr ⟨hlt, fun z hz => Std.lt_of_lt_of_le hlt (hfirst z hz)⟩
      have hone : (y :: l).filter (fun a => key a == k) = [] ∨
          [x].filter (fun a => key a == k) = [] := by
        by_cases hx : key x = k
        · refine .inl (List.filter_eq_nil_iff.mpr fun z hz => ?_)
          have hne : key x ≠ key z := Std.ne_of_lt (hbehind z hz)
          simpa [← hx] using hne.symm
        · exact .inr (by simp [hx])
      rw [← List.singleton_append, List.filter_append]
      rcases hone with hnone | hnone <;> rw [hnone, List.nil_append, List.append_nil]
    · rw [if_neg (by simpa using hlt)] at h
      obtain ⟨rest, hrest, h⟩ := bind_eq_ok_iff.mp h
      cases h
      rw [List.filter_cons, List.filter_cons, ih hl htail hrest]
      split <;> rfl

def KeyedBy (before : α → α → Except Fault Bool) (key : α → String) (l : List α) : Prop :=
  ∀ a ∈ l, ∀ b ∈ l, before a b = .ok (decide (key a < key b))

theorem filter_foldlM (hc : Compares before fun a b => key a ≤ key b) (k : String) :
    ∀ {l acc sorted : List α},
    KeyedBy before key (l ++ acc) → acc.Pairwise (fun a b => key a ≤ key b) →
      l.foldlM (fun sorted x => insertOrdered before x sorted) acc = .ok sorted →
        sorted.filter (fun a => key a == k) = (acc ++ l).filter fun a => key a == k := by
  intro l
  induction l with
  | nil =>
    intro acc sorted _ _ h
    cases h
    rw [List.append_nil]
  | cons x l ih =>
    intro acc sorted hkeys hacc h
    rw [List.foldlM_cons] at h
    obtain ⟨acc', hinsert, h⟩ := bind_eq_ok_iff.mp h
    have hperm := (perm_of_insertOrdered hinsert).append_left l
    have hmem : ∀ a ∈ l ++ acc', a ∈ x :: l ++ acc :=
      fun a ha => List.perm_middle.mem_iff.mp (hperm.mem_iff.mp ha)
    have hinsert' := filter_insertOrdered k (fun y hy => hkeys x List.mem_cons_self y
      (List.mem_append_right _ hy)) hacc hinsert
    rw [ih (fun a ha b hb => hkeys a (hmem a ha) b (hmem b hb))
      (hc.pairwise_of_insertOrdered hinsert hacc) h, List.filter_append, hinsert',
        ← List.filter_append, ← List.filter_append, List.append_assoc,
      List.singleton_append]

/-- **Sorting keeps the order of elements that have one key.** -/
theorem filter_sortBy (hc : Compares before fun a b => key a ≤ key b) {l sorted : List α}
    (hkeys : KeyedBy before key l) (h : sortBy before l = .ok sorted) (k : String) :
    sorted.filter (fun a => key a == k) = l.filter fun a => key a == k :=
  filter_foldlM hc k (by rwa [List.append_nil]) List.Pairwise.nil h

end

/-! ### Texts -/

theorem before?_of_text {s : String} {b : Value} {answer : Bool}
    (h : (Value.str s).before? b = .ok answer) :
    ∃ t, b = .str t ∧ answer = decide (s < t) := by
  cases b with
  | scalar k =>
    cases k with
    | str t => exact ⟨t, rfl, (Except.ok.inj h).symm⟩
    | float x => simp [Value.before?, Scalar.before?, Scalar.integer?] at h
    | _ => cases h
  | _ => cases h

theorem text_of_before? {a : Value} {t : String} {answer : Bool}
    (h : a.before? (.str t) = .ok answer) :
    ∃ s, a = .str s := by
  cases a with
  | scalar k =>
    cases k with
    | str s => exact ⟨s, rfl⟩
    | float x => simp [Value.before?, Scalar.before?, Scalar.integer?] at h
    | _ => cases h
  | _ => cases h

/-- **A text is compared with texts only.** -/
theorem before?_cases {a b : Value} {answer : Bool} (h : a.before? b = .ok answer) :
    (∃ s t, a = .str s ∧ b = .str t ∧ answer = decide (s < t)) ∨
      (∀ s, a ≠ .str s) ∧ ∀ s, b ≠ .str s := by
  by_cases ha : ∃ s, a = .str s
  · obtain ⟨s, rfl⟩ := ha
    obtain ⟨t, rfl, hanswer⟩ := before?_of_text h
    exact .inl ⟨s, t, rfl, rfl, hanswer⟩
  · refine .inr ⟨fun s hs => ha ⟨s, hs⟩, fun s hs => ha ?_⟩
    subst hs
    exact text_of_before? h

end ProjectLint
