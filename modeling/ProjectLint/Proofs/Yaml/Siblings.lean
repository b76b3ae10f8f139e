import Mathlib.Data.List.Nodup
import ProjectLint.Proofs.Yaml.Sharing

/-!
# Items that share

Every part of a value is built at one place, so no place of a document has two marks
(`nodup_build`).  Two items of one sequence share if they have the same mark, hence **sharing
divides the items of a sequence into classes** (`mem_aliases_sibling_congr`): a change at one of
them reaches a whole class and no item of another one.
-/

namespace ProjectLint.Yaml

/-! ### One mark for a place -/

def OneEach (marks : List (Place × Nat)) : Prop :=
  ∀ p id id', (p, id) ∈ marks → (p, id') ∈ marks → id = id'

theorem mem_underAll {p : Place} {id : Nat} :
    ∀ {built : List Built} {start : Nat}, (p, id) ∈ underAll start built →
    ∃ i b q, built[i]? = some b ∧ p = (start + i) :: q ∧ (q, id) ∈ b.marks := by
  intro built
  induction built with
  | nil => intro start h; cases h
  | cons b built ih =>
    intro start h
    rcases List.mem_append.mp h with h | h
    · obtain ⟨m, hm, heq⟩ := List.mem_map.mp h
      cases heq
      exact ⟨0, b, m.1, rfl, rfl, hm⟩
    · obtain ⟨i, b', q, hb', hp, hq⟩ := ih h
      exact ⟨i + 1, b', q, hb', by rw [hp, Nat.add_right_comm]; rfl, hq⟩

variable {built : List Built}

theorem nil_not_mem_underAll {start id : Nat} : ([], id) ∉ underAll start built := by
  intro h
  obtain ⟨i, b, q, -, hq, -⟩ := mem_underAll h
  cases hq

theorem nodup_underAll (h : ∀ b ∈ built, (b.marks.map (·.1)).Nodup) (start : Nat) :
    ((underAll start built).map (·.1)).Nodup := by
  induction built generalizing start with
  | nil => exact List.nodup_nil
  | cons b built ih =>
    rw [underAll, List.map_append, List.nodup_append]
    refine ⟨?_, ih (fun b' hb' => h b' (List.mem_cons_of_mem b hb')) _, fun p hp p' hp' heq => ?_⟩
    · have hhead := (h b List.mem_cons_self).map (List.cons_injective (a := start))
      rw [List.map_map] at hhead
      rw [under, List.map_map]
      exact hhead
    · -- the two places differ in their first index
      obtain ⟨m, hm, rfl⟩ := List.mem_map.mp hp
      obtain ⟨⟨p', id⟩, hm', rfl⟩ := List.mem_map.mp hp'
      obtain ⟨k, -, hk⟩ := List.mem_map.mp hm
      obtain ⟨i, b', q, -, rfl, -⟩ := mem_underAll hm'
      rw [← hk] at heq
      have hfirst := (List.cons.inj heq).1
      omega

/-- **No two marks of what is built stand at one place.** -/
theorem nodup_build : ∀ (fuel depth : Nat) (n : YamlNode) (b : Built), build fuel depth n = .ok b →
    (b.marks.map (·.1)).Nodup := by
  have hparts : ∀ {n v built}, BuiltOf (fun _ b => (b.marks.map (·.1)).Nodup) n v built →
      ((underAll 0 built).map (·.1)).Nodup := by
    intro n v built h
    refine nodup_underAll (fun b hb => ?_) 0
    obtain ⟨i, hi⟩ := List.mem_iff_getElem?.mp hb
    obtain ⟨-, -, hnodup, -⟩ := h i b hi
    exact hnodup
  apply build_induction
  case pair =>
    intro n b built hmarks h
    rw [hmarks]
    exact hparts h
  case top =>
    intro fuel depth n b _ hmarks
    rcases hmarks with hmarks | ⟨hmarks, -⟩
    · rw [hmarks]
      exact List.nodup_nil
    · rw [hmarks]
      exact List.nodup_singleton _
  case whole =>
    intro fuel depth n b built _ _ hmarks h
    rw [hmarks, List.map_cons, List.nodup_cons]
    refine ⟨fun hmem => ?_, hparts h⟩
    obtain ⟨⟨p, id⟩, hm, rfl⟩ := List.mem_map.mp hmem
    exact nil_not_mem_underAll hm

theorem nodup_of_read {text : String} {d : Document} (h : Document.read text = .ok d) :
    (d.shares.map (·.1)).Nodup := by
  rcases read_cases h with hnone | ⟨root, _, _, b, -, hb, rfl⟩
  · rw [hnone]
    exact List.nodup_nil
  · exact (nodup_build _ _ root b hb).sublist (List.filter_sublist.map _)

theorem oneEach_of_read {text : String} {d : Document} (h : Document.read text = .ok d) :
    OneEach d.shares :=
  fun _ _ _ hid hid' => congrArg Prod.snd (List.inj_on_of_nodup_map (nodup_of_read h) hid hid' rfl)

/-! ### Items that share -/

namespace Document

variable {d : Document}

/-- Two items of one sequence share just if they are one and the same, or have one number. -/
theorem mem_aliases_sibling_iff (hd : OneEach d.shares) {above i j : Nat} :
    [above, j] ∈ d.aliases [above, i] ↔ j = i ∨ ∃ id, ([above, i], id) ∈ d.shares ∧
      ([above, j], id) ∈ d.shares := by
  have hrev : [i, above].reverse = [above, i] := rfl
  change [above, j] ∈ d.aliasesRev [i, above] ↔ _
  rw [aliasesRev, hrev]
  cases hshare : d.shareAt? [above, i] with
  | some id =>
    have hmem := mem_shares_of_shareAt? hshare
    constructor
    · intro h
      obtain ⟨s, hs, heq⟩ := List.mem_map.mp h
      obtain ⟨hs, hid⟩ := List.mem_filter.mp hs
      refine .inr ⟨id, hmem, ?_⟩
      rw [← heq, ← eq_of_beq hid]
      exact hs
    · rintro (rfl | ⟨id', hi, hj⟩)
      · exact List.mem_map.mpr ⟨([above, j], id), List.mem_filter.mpr ⟨hmem, beq_self_eq_true id⟩,
          rfl⟩
      · obtain rfl := hd _ _ _ hmem hi
        exact List.mem_map.mpr ⟨([above, j], id), List.mem_filter.mpr ⟨hj, beq_self_eq_true id⟩,
          rfl⟩
  | none =>
    constructor
    · intro h
      obtain ⟨q, -, heq⟩ := List.mem_map.mp h
      have hlast := congrArg List.getLast? heq
      rw [List.getLast?_append] at hlast
      exact .inl (Option.some.inj hlast).symm
    · rintro (rfl | ⟨id, hi, -⟩)
      · exact List.mem_map.mpr ⟨_, d.mem_aliasesRev_self [above], rfl⟩
      · rw [shareAt?, Option.map_eq_none_iff, List.find?_eq_none] at hshare
        exact absurd (beq_self_eq_true _) (hshare _ hi)

/-- **Sharing divides the items of a sequence into classes.** -/
theorem mem_aliases_sibling_congr (hd : OneEach d.shares) {above i j : Nat}
    (h : [above, j] ∈ d.aliases [above, i]) (n : Nat) :
    [above, i] ∈ d.aliases [above, n] ↔ [above, j] ∈ d.aliases [above, n] := by
  rcases (mem_aliases_sibling_iff hd).mp h with rfl | ⟨id, hi, hj⟩
  · exact Iff.rfl
  · -- a sibling with the number is shared by the n-th item just if that has the number too
    have hclass : ∀ k, ([above, k], id) ∈ d.shares →
        ([above, k] ∈ d.aliases [above, n] ↔ ([above, n], id) ∈ d.shares) := by
      intro k hk
      rw [mem_aliases_sibling_iff hd]
      constructor
      · rintro (rfl | ⟨id', hn, hk'⟩)
        · exact hk
        · rw [hd _ _ _ hk hk']
          exact hn
      · exact fun hn => .inr ⟨id, hn, hk⟩
    rw [hclass i hi, hclass j hj]

end Document

end ProjectLint.Yaml
