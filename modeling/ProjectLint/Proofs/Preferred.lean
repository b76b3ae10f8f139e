import Mathlib.Data.List.Induction
import ProjectLint.Proofs.ColumnGroups

/-!
# The preferred description

Of the descriptions of a group the one is preferred that occurs more often than every other, if the
descriptions differ at all; the empty text and no description do not count (`preferred?`).  **This
is what a group is unified to** (`unifyGroup_cases`): the group is counted, the most frequent
description is found and compared with the next.
-/

namespace ProjectLint.Wording

/-! ### Preferred descriptions -/

/-- The descriptions that say something. -/
def words (descriptions : List (Option String)) : List String :=
  descriptions.filterMap fun d => d.filter (· ≠ "")

/-- A description that occurs more often than every other. -/
def Prevails (texts : List String) (d : String) : Prop :=
  d ∈ texts ∧ ∀ e ∈ texts, e ≠ d → texts.count e < texts.count d

def AllSame (descriptions : List (Option String)) : Prop :=
  ∀ a ∈ descriptions, ∀ b ∈ descriptions, a = b

instance (texts : List String) (d : String) : Decidable (Prevails texts d) :=
  inferInstanceAs (Decidable (d ∈ texts ∧ ∀ e ∈ texts, e ≠ d → texts.count e < texts.count d))

instance (descriptions : List (Option String)) : Decidable (AllSame descriptions) :=
  inferInstanceAs (Decidable (∀ a ∈ descriptions, ∀ b ∈ descriptions, a = b))

/-- **The preferred description**: if not all are the same, the one that says something and
prevails. -/
def preferred? (descriptions : List (Option String)) : Option String :=
  if AllSame descriptions then none
  else (words descriptions).find? fun d => Prevails (words descriptions) d

theorem Prevails.unique {texts : List String} {d e : String} (hd : Prevails texts d)
    (he : Prevails texts e) :
    d = e := by
  by_contra hne
  have h₁ := hd.2 e he.1 (Ne.symm hne)
  have h₂ := he.2 d hd.1 hne
  omega

variable {descriptions : List (Option String)}

theorem preferred?_eq_some_iff {d : String} :
    preferred? descriptions = some d ↔ ¬ AllSame descriptions ∧
      Prevails (words descriptions) d := by
  unfold preferred?
  by_cases hsame : AllSame descriptions
  · simp [hsame]
  · rw [if_neg hsame]
    constructor
    · intro h
      exact ⟨hsame, by simpa using List.find?_some h⟩
    · rintro ⟨-, hd⟩
      cases hfind : (words descriptions).find? fun d => Prevails (words descriptions) d with
      | none =>
        rw [List.find?_eq_none] at hfind
        exact absurd (decide_eq_true hd) (hfind d hd.1)
      | some e =>
        have he : Prevails (words descriptions) e := by simpa using List.find?_some hfind
        rw [hd.unique he]

theorem preferred?_of_allSame (h : AllSame descriptions) : preferred? descriptions = none :=
  if_pos h

theorem preferred?_of_no_prevails (h : ∀ d, ¬ Prevails (words descriptions) d) :
    preferred? descriptions = none := by
  cases hd : preferred? descriptions with
  | none => rfl
  | some d => exact absurd (preferred?_eq_some_iff.mp hd).2 (h d)

theorem preferred?_perm {descriptions' : List (Option String)}
    (h : descriptions.Perm descriptions') :
    preferred? descriptions = preferred? descriptions' := by
  have hwords : (words descriptions).Perm (words descriptions') := h.filterMap _
  have hsame : AllSame descriptions ↔ AllSame descriptions' := by
    simp only [AllSame, h.mem_iff]
  have hprevails : ∀ d, Prevails (words descriptions) d ↔ Prevails (words descriptions') d := by
    intro d
    simp only [Prevails, hwords.mem_iff, hwords.count_eq]
  refine Option.ext fun d => ?_
  rw [preferred?_eq_some_iff, preferred?_eq_some_iff, hsame, hprevails]

/-! ### Counting -/

section

variable {α : Type} [DecidableEq α] {key : α → Scalar}
    (hkey : ∀ a b, (key a).same (key b) = true ↔ a = b)

include hkey

theorem add_map (n : α → Nat) (a : α) : ∀ {seen : List α}, seen.Nodup →
    Tally.add (seen.map fun b => (key b, n b)) (key a) =
      if a ∈ seen then seen.map fun b => (key b, if b = a then n b + 1 else n b)
      else seen.map (fun b => (key b, n b)) ++ [(key a, 1)] := by
  intro seen
  induction seen with
  | nil => intro _; rfl
  | cons b seen ih =>
    intro hnodup
    obtain ⟨hb, hseen⟩ := List.nodup_cons.mp hnodup
    rw [List.map_cons, Tally.add]
    by_cases hba : b = a
    · subst hba
      rw [if_pos ((hkey b b).mpr rfl), if_pos List.mem_cons_self, List.map_cons, if_pos rfl]
      congr 1
      refine List.map_congr_left fun c hc => ?_
      have hne : c ≠ b := fun h => hb (h ▸ hc)
      rw [if_neg hne]
    · rw [if_neg fun h => hba ((hkey b a).mp h), ih hseen]
      by_cases ha : a ∈ seen
      · rw [if_pos ha, if_pos (List.mem_cons_of_mem _ ha), List.map_cons, if_neg hba]
      · rw [if_neg ha, if_neg (by simp [Ne.symm hba, ha])]
        rfl

/-- **A tally lists every value once, with the number of times it occurs.** -/
theorem foldl_add : ∀ xs : List α, ∃ seen : List α, seen.Nodup ∧ (∀ a, a ∈ seen ↔ a ∈ xs) ∧
    (xs.map key).foldl Tally.add [] = seen.map fun a => (key a, xs.count a) := by
  intro xs
  induction xs using List.reverseRecOn with
  | nil => exact ⟨[], List.nodup_nil, fun a => Iff.rfl, rfl⟩
  | append_singleton xs a ih =>
    obtain ⟨seen, hnodup, hmem, heq⟩ := ih
    rw [List.map_append, List.foldl_append, heq, List.map_singleton, List.foldl_cons,
      List.foldl_nil, add_map hkey _ a hnodup]
    by_cases ha : a ∈ seen
    · refine ⟨seen, hnodup, fun b => ?_, ?_⟩
      · rw [hmem b, List.mem_append, List.mem_singleton]
        exact ⟨.inl, fun h => h.elim id fun hb => hb ▸ (hmem a).mp ha⟩
      · rw [if_pos ha]
        refine List.map_congr_left fun b _ => ?_
        by_cases hba : b = a
        · simp [hba]
        · simp [hba, List.count_eq_zero]
    · have hax : a ∉ xs := fun h => ha ((hmem a).mpr h)
      refine ⟨seen ++ [a], ?_, fun b => ?_, ?_⟩
      · exact List.nodup_append.mpr ⟨hnodup, by simp, fun b hb c hc => by
          rw [List.mem_singleton.mp hc]; exact fun h => ha (h ▸ hb)⟩
      · rw [List.mem_append, List.mem_append, hmem b]
      · rw [if_neg ha, List.map_append]
        congr 1
        · refine List.map_congr_left fun b hb => ?_
          have hba : b ≠ a := fun h => ha (h ▸ hb)
          simp [hba, List.count_eq_zero]
        · simp [List.count_eq_zero.mpr hax]

theorem without_map (n : α → Nat) (a : α) (seen : List α) :
    Tally.without (seen.map fun b => (key b, n b)) (key a) =
      (seen.filter fun b => b ≠ a).map fun b => (key b, n b) := by
  rw [Tally.without, List.filter_map]
  congr 1
  refine List.filter_congr fun b _ => ?_
  by_cases hba : b = a
  · simp [hba, (hkey a a).mpr rfl]
  · have hfalse : (key b).same (key a) = false := by
      rw [← Bool.not_eq_true]
      exact fun h => hba ((hkey b a).mp h)
    simp [hba, hfalse]

omit hkey [DecidableEq α] in
/-- The entry that is found counts at least as much as every other. -/
theorem top?_map (n : α → Nat) : ∀ {seen : List α}, seen ≠ [] →
    ∃ a ∈ seen, Tally.top? (seen.map fun b => (key b, n b)) = some (key a, n a) ∧
      ∀ b ∈ seen, n b ≤ n a := by
  intro seen
  induction seen with
  | nil => intro h; exact absurd rfl h
  | cons b seen ih =>
    intro _
    rw [List.map_cons, Tally.top?]
    by_cases hseen : seen = []
    · subst hseen
      refine ⟨b, List.mem_cons_self, rfl, fun c hc => ?_⟩
      obtain rfl := List.mem_singleton.mp hc
      exact Nat.le_refl _
    · obtain ⟨a, ha, htop, hmax⟩ := ih hseen
      rw [htop]
      dsimp only
      by_cases hlt : n a > n b
      · rw [if_pos hlt]
        refine ⟨a, List.mem_cons_of_mem _ ha, rfl, fun c hc => ?_⟩
        rcases List.mem_cons.mp hc with rfl | hc
        · omega
        · exact hmax c hc
      · rw [if_neg hlt]
        refine ⟨b, List.mem_cons_self, rfl, fun c hc => ?_⟩
        rcases List.mem_cons.mp hc with rfl | hc
        · exact Nat.le_refl _
        · have := hmax c hc
          omega

end

theorem Tally.of_map {α : Type} (key : α → Scalar) (xs : List α) :
    Tally.of (xs.map fun a => .scalar (key a)) = .ok ((xs.map key).foldl Tally.add []) := by
  have hwalk : (xs.map fun a => Value.scalar (key a)).mapM Value.key? = .ok (xs.map key) := by
    induction xs with
    | nil => rfl
    | cons a xs ih =>
      rw [List.map_cons, List.mapM_cons, ih]
      rfl
  rw [Tally.of, hwalk]
  rfl

theorem tallyOf_eq {group : List Column}
    (hdesc : group.map (·.description) = descriptions.map wordValue) :
    tallyOf group = .ok ((descriptions.map wordScalar).foldl Tally.add []) := by
  rw [tallyOf, hdesc]
  exact Tally.of_map wordScalar descriptions

theorem wordScalar_same (a b : Option String) : (wordScalar a).same (wordScalar b) = true ↔
    a = b := by
  cases a with
  | none => cases b <;> simp [wordScalar, Scalar.same, Scalar.isNumber]
  | some s => cases b <;> simp [wordScalar, Scalar.same, Scalar.isNumber]

theorem filter_truthy (descriptions : List (Option String)) :
    (descriptions.map wordValue).filter Value.truthy =
      (words descriptions).map fun s => .scalar (.str s) := by
  induction descriptions with
  | nil => rfl
  | cons d descriptions ih =>
    cases d with
    | none => exact ih
    | some s =>
      by_cases hs : s = ""
      · subst hs
        exact ih
      · have htruthy : (wordValue (some s)).truthy = true := by
          simp [wordValue, wordScalar, Value.truthy, hs]
        have hwords : words (some s :: descriptions) = s :: words descriptions :=
          List.filterMap_cons_some (by simp [Option.filter, hs])
        rw [List.map_cons, List.filter_cons_of_pos htruthy, ih, hwords]
        rfl

/-- **The tally of a group is short just if its descriptions are the same.** -/
theorem length_tally_le_one_iff (descriptions : List (Option String)) :
    ((descriptions.map wordScalar).foldl Tally.add []).length ≤ 1 ↔ AllSame descriptions := by
  obtain ⟨seen, hnodup, hmem, heq⟩ := foldl_add wordScalar_same descriptions
  rw [heq, List.length_map]
  constructor
  · intro hle a ha b hb
    match seen, hle with
    | [], _ => exact absurd ((hmem a).mpr ha) (by simp)
    | [c], _ =>
      rw [List.mem_singleton.mp ((hmem a).mpr ha), List.mem_singleton.mp ((hmem b).mpr hb)]
  · intro hsame
    match seen with
    | [] => simp
    | [c] => simp
    | c :: c' :: rest =>
      have hcc : c = c' := hsame c ((hmem c).mp (by simp)) c' ((hmem c').mp (by simp))
      rw [hcc] at hnodup
      simp at hnodup

/-! ### Unifying a group -/

def others (d : String) (group : List Column) : List Column :=
  group.filter fun c => !c.description.same (.str d)

def describeOthers (d : String) (group : List Column) : Edit Unit :=
  Edit.forEach (fun c => describeIn c.file (groupName group) (.str d)) (others d group)

/-- **What a tally of texts tells**: there is none, or a most frequent one.  That one prevails if no
other is counted as often, and else none does. -/
theorem top?_cases (texts : List String) {tally : Tally}
    (htally : tally = (texts.map Scalar.str).foldl Tally.add []) :
    (texts = [] ∧ tally.top? = none) ∨
      ∃ a ∈ texts, tally.top? = some (.str a, texts.count a) ∧
        ((∃ b, (tally.without (.str a)).top? = some (.str b, texts.count a) ∧
          ∀ d, ¬ Prevails texts d) ∨ Prevails texts a ∧
            ∀ second, (tally.without (.str a)).top? = some second → second.2 ≠ texts.count a) := by
  have hstr : ∀ a b : String, (Scalar.str a).same (.str b) = true ↔ a = b := by
    intro a b
    simp [Scalar.same]
  obtain ⟨seen, -, hmem, heq⟩ := foldl_add hstr texts
  rw [htally, heq]
  by_cases hnil : seen = []
  · subst hnil
    exact .inl ⟨List.eq_nil_iff_forall_not_mem.mpr fun a ha => List.not_mem_nil ((hmem a).mpr ha),
      rfl⟩
  obtain ⟨a, ha, htop, hmax⟩ := @top?_map String Scalar.str (fun b => texts.count b) seen hnil
  refine .inr ⟨a, (hmem a).mp ha, htop, ?_⟩
  rw [without_map hstr]
  by_cases hrest : (seen.filter fun b => b ≠ a) = []
  · rw [hrest]
    refine .inr ⟨⟨(hmem a).mp ha, fun e he hne => ?_⟩, fun second hsecond => by cases hsecond⟩
    exact absurd (decide_eq_true hne) (List.filter_eq_nil_iff.mp hrest e ((hmem e).mpr he))
  obtain ⟨b, hb, hsecond, hnext⟩ :=
    @top?_map String Scalar.str (fun b => texts.count b) (seen.filter fun b => b ≠ a) hrest
  obtain ⟨hb, hba⟩ := List.mem_filter.mp hb
  have hba : b ≠ a := of_decide_eq_true hba
  rw [hsecond]
  by_cases htie : texts.count b = texts.count a
  · refine .inl ⟨b, by rw [htie], fun d hd => ?_⟩
    -- one of the two is another text than the one that prevails, and counts no less
    by_cases hda : d = a
    · have hless := hd.2 b ((hmem b).mp hb) (hda ▸ hba)
      rw [hda] at hless
      omega
    · have hless := hd.2 a ((hmem a).mp ha) (Ne.symm hda)
      have hle := hmax d ((hmem d).mpr hd.1)
      omega
  · refine .inr ⟨⟨(hmem a).mp ha, fun e he hne => ?_⟩, fun second h => ?_⟩
    · have hle := hnext e (List.mem_filter.mpr ⟨(hmem e).mpr he, decide_eq_true hne⟩)
      have hle' := hmax b hb
      omega
    · cases h
      exact htie

/-- **What is done for a group**: nothing if all descriptions are the same, a complaint if two are
preferred alike, a fault if there is none to choose, and else the others are described anew. -/
theorem unifyGroup_cases {group : List Column}
    (hdesc : group.map (·.description) = descriptions.map wordValue) (status : Status) :
    (AllSame descriptions ∧ unifyGroup status group = pure status) ∨
      (¬ AllSame descriptions ∧ words descriptions = [] ∧
        unifyGroup status group = Edit.fail .outOfRange) ∨
      (¬ AllSame descriptions ∧ preferred? descriptions = none ∧ words descriptions ≠ [] ∧
        ∃ line, unifyGroup status group = (do Edit.say line; return 1)) ∨
      ∃ d, preferred? descriptions = some d ∧
        unifyGroup status group = (do describeOthers d group; return 1) := by
  obtain ⟨tally, htally⟩ : ∃ tally, tally = ((words descriptions).map Scalar.str).foldl Tally.add
      [] := ⟨_, rfl⟩
  have hwords : Tally.of ((group.map (·.description)).filter Value.truthy) = .ok tally := by
    rw [hdesc, filter_truthy, htally]
    exact Tally.of_map Scalar.str (words descriptions)
  unfold unifyGroup
  rw [tallyOf_eq hdesc, hwords]
  simp only [Edit.ofExcept_ok_bind]
  by_cases hsame : AllSame descriptions
  · rw [if_pos ((length_tally_le_one_iff descriptions).mpr hsame)]
    exact .inl ⟨hsame, rfl⟩
  rw [if_neg fun h => hsame ((length_tally_le_one_iff descriptions).mp h)]
  rcases top?_cases _ htally with ⟨hnone, htop⟩
      | ⟨a, ha, htop, ⟨b, hsecond, hno⟩ | ⟨hprevails, hsecond⟩⟩
  · rw [htop]
    exact .inr (.inl ⟨hsame, hnone, rfl⟩)
  · rw [htop]
    dsimp only
    rw [hsecond]
    dsimp only
    rw [if_pos (beq_self_eq_true _)]
    exact .inr (.inr (.inl ⟨hsame, preferred?_of_no_prevails hno, List.ne_nil_of_mem ha, _, rfl⟩))
  · rw [htop]
    dsimp only
    refine .inr (.inr (.inr ⟨a, preferred?_eq_some_iff.mpr ⟨hsame, hprevails⟩, ?_⟩))
    cases hnext : (tally.without (.str a)).top? with
    | none => rfl
    | some second =>
      dsimp only
      rw [if_neg fun h => hsecond second hnext (eq_of_beq h)]
      rfl

end ProjectLint.Wording
