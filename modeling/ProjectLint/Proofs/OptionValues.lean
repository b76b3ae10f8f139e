import Mathlib.Data.List.Nodup
import ProjectLint.Options.Reader
import ProjectLint.Proofs.Outcomes

/-!
# What options hold

A command line that is read leaves a value under the name of each option.  Words are read only for
the options that they name (`known_of_classify`), and one option taken with its words keeps every
value in its place (`Held.take`).  By induction on the words, **an option for an integer holds its
default or an integer** (`value_of_read`).
-/

namespace ProjectLint.Options

variable {c : CommandLine}

/-! ### Words name options -/

variable {p : Parameter} {words : List String}

theorem mem_all_of_spellings {spelling : String} (h : (spelling, p) ∈ c.spellings) : p ∈ c.all := by
  obtain ⟨q, hq, h⟩ := List.mem_flatMap.mp h
  obtain ⟨s, -, heq⟩ := List.mem_map.mp h
  cases heq
  exact hq

theorem mem_all_of_named? {name : String} (h : named? c name = some p) : p ∈ c.all := by
  obtain ⟨s, hs, rfl⟩ := Option.map_eq_some_iff.mp h
  exact mem_all_of_spellings (List.mem_of_find?_eq_some hs)

theorem mem_all_of_candidates {word spelling : String} {attached : Option String}
    (h : (p, spelling, attached) ∈ candidates c word) : p ∈ c.all := by
  unfold candidates at h
  split at h
  · generalize Text.cutList '=' word.toList = cut at h
    obtain ⟨⟨s, q⟩, hs, h⟩ := List.mem_filterMap.mp h
    dsimp only at h
    split at h
    · cases h
      exact mem_all_of_spellings hs
    · cases h
  · obtain ⟨⟨s, q⟩, hs, h⟩ := List.mem_filterMap.mp h
    dsimp only at h
    split at h
    · cases h
      exact mem_all_of_spellings hs
    split at h
    · cases h
      exact mem_all_of_spellings hs
    · cases h

def Known (c : CommandLine) (w : Word) : Prop :=
  ∀ p spelling attached, w = .given p spelling attached → p ∈ c.all

theorem known_of_classify {word : String} {w : Word} (h : classify c word = .ok w) : Known c w := by
  rintro p spelling attached rfl
  unfold classify at h
  split at h
  · split at h
    · rename_i q hq
      cases h
      exact mem_all_of_named? hq
    · dsimp only at h
      split at h
      · rename_i after q hafter hq
        cases h
        exact mem_all_of_named? hq
      · split at h
        · rename_i q s a hone
          cases h
          exact mem_all_of_candidates (hone ▸ List.mem_singleton.mpr rfl)
        · split at h <;> cases h
        · cases h
  · cases h

theorem known_of_classifyAll : ∀ {words : List String} {kinds : List Word},
    classifyAll c words = .ok kinds →
    ∀ w ∈ kinds, Known c w := by
  intro words
  induction words with
  | nil =>
    intro kinds h w hw
    cases h
    cases hw
  | cons word words ih =>
    intro kinds h w hw
    rw [classifyAll] at h
    split at h
    · cases h
      rintro p spelling attached rfl
      simp at hw
    · obtain ⟨first, hfirst, h⟩ := bind_eq_ok_iff.mp h
      obtain ⟨rest, hrest, h⟩ := bind_eq_ok_iff.mp h
      cases h
      rcases List.mem_cons.mp hw with rfl | hw
      · exact known_of_classify hfirst
      · exact ih hrest w hw

/-! ### Options take their words -/

def Fits (p : Parameter) (v : Value) : Prop :=
  v = p.initial ∨ (p.reading = .integer → p.arity = .one → ∃ n, v = .int n)

/-- Every option has a place, and what is in it fits an option of that name. -/
structure Held (c : CommandLine) (a : Arguments) : Prop where
  names : a.values.map (·.1) = c.all.map (·.name)
  fits : ∀ e ∈ a.values, ∃ p ∈ c.all, p.name = e.1 ∧ Fits p e.2

theorem Held.start (c : CommandLine) : Held c (Options.start c).arguments where
  names := by simp [Options.start, Function.comp_def]
  fits e he := by
    obtain ⟨p, hp, rfl⟩ := List.mem_map.mp he
    exact ⟨p, hp, rfl, .inl rfl⟩

theorem Held.set {a : Arguments} (h : Held c a) (hp : p ∈ c.all) {v : Value} (hv : Fits p v) :
    Held c (a.set p.name v) where
  names := by
    rw [← h.names, Arguments.set, List.map_map]
    refine List.map_congr_left fun e _ => ?_
    rw [Function.comp_apply]
    split
    · rename_i heq
      exact (beq_iff_eq.mp heq).symm
    · rfl
  fits e he := by
    obtain ⟨e₀, he₀, rfl⟩ := List.mem_map.mp he
    split
    · exact ⟨p, hp, rfl, hv⟩
    · exact h.fits e₀ he₀

theorem fits_wordsValue {values : List Value} (hone : p.arity = .one → ∃ word, words = [word])
    (h : wordValues p words = .ok values) : Fits p (wordsValue p values) := by
  refine .inr fun hreading harity => ?_
  obtain ⟨word, rfl⟩ := hone harity
  obtain ⟨read, hread, h⟩ := bind_eq_ok_iff.mp h
  obtain ⟨_, -, h⟩ := bind_eq_ok_iff.mp h
  cases h
  rw [List.mapM_cons, List.mapM_nil, hreading] at hread
  obtain ⟨v, hv, hread⟩ := bind_eq_ok_iff.mp hread
  cases hread
  have hvalue : wordsValue p [v] = v := by simp [wordsValue, harity]
  rw [hvalue]
  change integerWord p word = .ok v at hv
  rw [integerWord] at hv
  split at hv
  · rename_i n hn
    cases hv
    exact ⟨n, rfl⟩
  · cases hv

/-- **One option taken with its words** keeps every value in its place. -/
theorem Held.take {s s' : Progress} (hs : Held c s.arguments) (hp : p ∈ c.all)
    (hone : p.arity = .one → ∃ word, words = [word]) (h : Options.take p words s = .ok s') :
    Held c s'.arguments := by
  obtain ⟨values, hvalues, h⟩ := bind_eq_ok_iff.mp h
  split at h
  · cases h
  -- what is read for an option that is not for integers always fits
  have hother : p.reading ≠ .integer → ∀ v, Fits p v :=
    fun hne _ => .inr fun hreading => absurd hreading hne
  obtain ⟨v, hv, rfl⟩ : ∃ v, Fits p v ∧
      { s with arguments := s.arguments.set p.name v, seen := p.name :: s.seen } = s' := by
    dsimp only at h
    split at h
    · cases h
    · rename_i hreading
      exact ⟨_, hother (by simp [hreading]) _, Except.ok.inj h⟩
    · rename_i hreading
      obtain ⟨v, -, h⟩ := bind_eq_ok_iff.mp h
      exact ⟨v, hother (by simp [hreading]) v, Except.ok.inj h⟩
    · rename_i hreading
      obtain ⟨v, -, h⟩ := bind_eq_ok_iff.mp h
      exact ⟨v, hother (by simp [hreading]) v, Except.ok.inj h⟩
    · exact ⟨_, fits_wordsValue hone hvalues, Except.ok.inj h⟩
  exact hs.set hp hv

theorem one_of_taken {rest : List Word} {given : List String} (h : taken p rest = .ok given)
    (harity : p.arity = .one) :
    ∃ word, given = [word] := by
  rw [taken, harity] at h
  split at h
  · rename_i hnone
    cases hnone
  · exact ⟨_, (Except.ok.inj h).symm⟩
  · rename_i hsome _
    cases hsome
  · rename_i hany
    cases hany
  · cases h

theorem one_of_takenAttached {spelling attached : String} {given : List String}
    (h : takenAttached p spelling attached = .ok given) (harity : p.arity = .one) :
    ∃ word, given = [word] := by
  rw [takenAttached, harity] at h
  exact ⟨attached, (Except.ok.inj h).symm⟩

theorem Held.takeRun {s : Progress} (hs : Held c s.arguments) (run : List Word) :
    Held c (Options.takeRun c run s).arguments := by
  rw [Options.takeRun]
  split
  · exact ⟨hs.names, hs.fits⟩
  · exact hs

/-- **All words taken** keep every value in its place. -/
theorem Held.takeAll : ∀ {fuel : Nat} {words : List Word} {s s' : Progress},
    (∀ w ∈ words, Known c w) →
    Held c s.arguments → Options.takeAll c fuel words s = .ok s' → Held c s'.arguments := by
  intro fuel
  induction fuel with
  | zero =>
    intro words s s' _ hs h
    cases h
    exact hs
  | succ fuel ih =>
    intro words s s' hknown hs h
    -- a run of words that belong to no option
    have hrun : ∀ {words : List Word}, (∀ w ∈ words, Known c w) →
        Options.takeAll c fuel (words.dropWhile fun w => !w.isOption)
          (Options.takeRun c (words.takeWhile fun w => !w.isOption) s) = .ok s' →
            Held c s'.arguments :=
      fun hknown h => ih (fun w hw => hknown w (List.dropWhile_suffix _ |>.mem hw)) (hs.takeRun _) h
    cases words with
    | nil =>
      cases h
      exact hs
    | cons w rest =>
      have hrest : ∀ w ∈ rest, Known c w := fun w hw => hknown w (List.mem_cons_of_mem _ hw)
      cases w with
      | plain text => exact hrun hknown h
      | divider => exact hrun hknown h
      | unknown text => exact ih (s := { s with extra := s.extra ++ [text] }) hrest hs h
      | given p spelling attached =>
        have hp : p ∈ c.all := hknown _ List.mem_cons_self p spelling attached rfl
        cases attached with
        | some attached =>
          obtain ⟨given, hgiven, h⟩ := bind_eq_ok_iff.mp h
          obtain ⟨next, hnext, h⟩ := bind_eq_ok_iff.mp h
          exact ih hrest (hs.take hp (one_of_takenAttached hgiven) hnext) h
        | none =>
          obtain ⟨given, hgiven, h⟩ := bind_eq_ok_iff.mp h
          obtain ⟨next, hnext, h⟩ := bind_eq_ok_iff.mp h
          exact ih (fun w hw => hrest w (List.mem_of_mem_drop hw))
            (hs.take hp (one_of_taken hgiven) hnext) h

/-- **What an option for an integer holds** after reading is its default or an integer. -/
theorem value_of_read {a : Arguments} (h : read c words = .ok a)
    (hnames : (c.all.map (·.name)).Nodup) (hp : p ∈ c.all)
    (hreading : p.reading = .integer) (harity : p.arity = .one) :
    a.value p.name = p.initial ∨ ∃ n, a.value p.name = .int n := by
  have hheld : Held c a := by
    obtain ⟨kinds, hkinds, h⟩ := bind_eq_ok_iff.mp h
    obtain ⟨s, hs, h⟩ := bind_eq_ok_iff.mp h
    have hall := (Held.start c).takeAll (known_of_classifyAll hkinds) hs
    dsimp only at h
    split at h
    · cases h
    split at h
    · cases h
    cases h
    exact hall
  obtain ⟨e, he, hname⟩ : ∃ e ∈ a.values, e.1 = p.name := by
    have hmem : p.name ∈ a.values.map (·.1) := hheld.names ▸ List.mem_map_of_mem hp
    exact List.mem_map.mp hmem
  obtain ⟨found, hfound⟩ : ∃ found, a.values.find? (fun v => v.1 == p.name) = some found :=
    Option.isSome_iff_exists.mp (List.find?_isSome.mpr ⟨e, he, beq_iff_eq.mpr hname⟩)
  have hvalue : a.value p.name = found.2 := by
    rw [Arguments.value, hfound]
    rfl
  have hsame := List.find?_some hfound
  rw [beq_iff_eq] at hsame
  obtain ⟨q, hq, hqname, hfits⟩ := hheld.fits found (List.mem_of_find?_eq_some hfound)
  -- no two options share a name
  obtain rfl : q = p := List.inj_on_of_nodup_map hnames hq hp (hqname.trans hsame)
  rw [hvalue]
  exact hfits.imp_right fun hint => hint hreading harity

end ProjectLint.Options
