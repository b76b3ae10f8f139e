import ProjectLint.Proofs.ModelEntries

/-!
# The history of a property file

Entries are written to a property file one after another.  Each of them is appended, or starts a new
file in the place of the old one.  So the file is what it was before with the entries that came
since, or a new one with the entries since the last that started one (`History.based`).  It is the
file that is asked for, with all entries behind what it was, **just if no entry that started a new
file took anything away and the models it had before are alone** (`History.asked_iff`).
-/

namespace ProjectLint.PropertyFiles

open Yaml (Document rebuild)
open Sources (under? itemsUnder slot)

/-! ### One entry after another -/

/-- The file after some writings. -/
inductive History (old : Option ByteArray) : List Writing → Option ByteArray → Prop
  | nil : History old [] old
  | snoc {ws : List Writing} {last : Option ByteArray} {w : Writing} {new : ByteArray}
      (before : History old ws last)
      (rewrites : Rewrites w last new) : History old (ws ++ [w]) (some new)

namespace History

variable {old last : Option ByteArray} {ws : List Writing}

theorem eq_nil_or_snoc (h : History old ws last) : (ws = [] ∧ last = old) ∨
    ∃ before w mid new, ws = before ++ [w] ∧ History old before mid ∧ Rewrites w mid new ∧
      last = some new := by
  cases h with
  | nil => exact .inl ⟨rfl, rfl⟩
  | snoc before rewrites => exact .inr ⟨_, _, _, _, rfl, before, rewrites, rfl⟩

theorem unique (h : History old ws last) : ∀ {last' : Option ByteArray}, History old ws last' →
    last' = last := by
  induction h with
  | nil =>
    intro last' h'
    rcases h'.eq_nil_or_snoc with ⟨-, heq⟩ | ⟨before, w, mid, new, hnil, -⟩
    · exact heq
    · simp at hnil
  | snoc before rewrites ih =>
    intro last' h'
    rcases h'.eq_nil_or_snoc with ⟨hnil, -⟩ | ⟨before', w', mid, new', heq, hbefore', hrewrites',
        rfl⟩
    · simp at hnil
    · obtain ⟨rfl, hw⟩ := List.append_inj' heq rfl
      cases hw
      cases ih hbefore'
      rw [rewrites.unique hrewrites']

theorem of_append (after : List Writing) : ∀ {ws : List Writing} {last : Option ByteArray},
    History old (ws ++ after) last → ∃ mid, History old ws mid := by
  induction after using List.reverseRecOn with
  | nil =>
    intro ws last h
    exact ⟨last, by rw [List.append_nil] at h; exact h⟩
  | append_singleton after w ih =>
    intro ws last h
    rcases h.eq_nil_or_snoc with ⟨hnil, -⟩ | ⟨before, w', mid, new, heq, hbefore, -⟩
    · simp at hnil
    · rw [← List.append_assoc] at heq
      obtain ⟨rfl, -⟩ := List.append_inj' heq rfl
      exact ih hbefore

end History

/-! ### What the file goes back to -/

/-- **Where the base of a file comes from**: it is the file as it was, if that had models; the file
as it was with the first entry for its models; or a new file with the last entry that started
one. -/
inductive Origin (old : Option ByteArray) : List Writing → Document → List Value → Prop
  | kept {content : ByteArray} {b : Document} (there : old = some content)
      (read : documentOf content = .ok b)
      (models : itemsUnder "models" b.root ≠ []) : Origin old [] b []
  | filled {content : ByteArray} {d b : Document} {es : Entries} {w : Writing}
      (there : old = some content)
      (read : documentOf content = .ok d) (map : d.root = .map es)
        (blank : itemsUnder "models" d.root = [])
      (appended : w.anew = false) (root : b.root = withEntries [w.entry] d.root)
      (alone : b.Alone (modelsPlace b.root)) : Origin old [w] b []
  | renewed (before : List Writing) {b : Document} {w : Writing} (anew : w.anew = true)
      (root : b.root = newRoot [w.entry]) (alone : b.Alone (modelsPlace b.root)) :
        Origin old (before ++ [w]) b []
  | more {ws : List Writing} {b : Document} {entries : List Value} {w : Writing}
      (h : Origin old ws b entries)
      (appended : w.anew = false) : Origin old (ws ++ [w]) b (entries ++ [w.entry])

variable {old : Option ByteArray} {ws : List Writing} {entries : List Value} {root entry : Value}

/-- **A file to which entries were written** is a base with the entries since. -/
theorem History.based {last : Option ByteArray} (h : History old ws last) :
    (ws = [] ∧ last = old) ∨
      ∃ content b entries, last = some content ∧ Based b entries content ∧
        Origin old ws b entries := by
  induction h with
  | nil => exact .inl ⟨rfl, rfl⟩
  | @snoc ws last w new before rewrites ih =>
    refine .inr ?_
    cases hw : w.anew with
    | true =>
      obtain ⟨b, hbased, hroot, halone⟩ := Based.of_fresh hw rewrites
      exact ⟨new, b, [], rfl, hbased, .renewed ws hw hroot halone⟩
    | false =>
      rcases ih with ⟨rfl, rfl⟩ | ⟨content, b, entries, rfl, hbased, horigin⟩
      · obtain ⟨content, d, d', rfl, read, append, -⟩ := rewrites.of_appended hw
        rcases append_cases append with ⟨items, hne, hitems, -⟩ | ⟨hblank, -⟩
        · have hmodels : itemsUnder "models" d.root ≠ [] := by
            rw [itemsUnder, hitems]
            exact hne
          exact ⟨new, d, [w.entry], rfl, (Based.start read ⟨items, hne, hitems⟩).append hw rewrites,
            .more (.kept rfl read hmodels) hw⟩
        · obtain ⟨⟨es, hmap⟩, b, hbased, hroot, halone⟩ := Based.of_blank read hw hblank rewrites
          exact ⟨new, b, [], rfl, hbased, .filled rfl read hmap hblank hw hroot halone⟩
      · exact ⟨new, b, entries ++ [w.entry], rfl, hbased.append hw rewrites, .more horigin hw⟩

/-! ### The file that is asked for -/

/-- **The file is as asked for**: it reads as the document it was, with the entries behind its
models; if there was no file then as a new document with the entries. -/
def Asked (old : Option ByteArray) (entries : List Value) (new : Option ByteArray) : Prop :=
  ∃ content d, new = some content ∧ documentOf content = .ok d ∧
    match old with
    | none => d.root = newRoot entries
    | some before => ∃ d₀, documentOf before = .ok d₀ ∧ d.root = withEntries entries d₀.root

theorem asked_some_iff {old new : ByteArray} {d₀ d : Document} (hold : documentOf old = .ok d₀)
    (hnew : documentOf new = .ok d) : Asked (some old) entries (some new) ↔
      d.root = withEntries entries d₀.root := by
  constructor
  · rintro ⟨content, d', heq, hread, d₀', hread₀, hroot⟩
    cases heq
    cases hnew.symm.trans hread
    cases hold.symm.trans hread₀
    exact hroot
  · exact fun hroot => ⟨new, d, rfl, hnew, d₀, hold, hroot⟩

/-- The file says nothing that a new one with the entry does not say. -/
def Bare (content : ByteArray) (entry : Value) : Prop :=
  ∃ d, documentOf content = .ok d ∧ withEntries [entry] d.root = newRoot [entry]

def SparesOld (old : Option ByteArray) (ws : List Writing) : Prop :=
  ∀ before w after content, ws = before ++ w :: after → w.anew = true →
    History old before (some content) →
    Bare content w.entry

def ModelsAlone (old : Option ByteArray) : Prop :=
  ∀ content d, old = some content → documentOf content = .ok d → itemsUnder "models" d.root ≠ [] →
    d.Alone (modelsPlace d.root)

theorem map_of_withEntries {entries' : List Value}
    (h : withEntries entries root = newRoot entries') :
    ∃ es, root = .map es := by
  cases root with
  | map es => exact ⟨es, rfl⟩
  | _ => cases h

theorem models_of_withEntries {entries' : List Value}
    (h : withEntries entries root = newRoot entries') :
    itemsUnder "models" root ++ entries = entries' := by
  obtain ⟨es, rfl⟩ := map_of_withEntries h
  have hitems := congrArg (itemsUnder "models") h
  rw [itemsUnder_withEntries] at hitems
  exact hitems

theorem withEntries_eq_newRoot_iff {before after : List Value} :
    withEntries (before ++ entry :: after) root = newRoot (entry :: after) ↔
      before = [] ∧ withEntries [entry] root = newRoot [entry] := by
  constructor
  · intro h
    have hlength := congrArg List.length (models_of_withEntries h)
    simp only [List.length_append, List.length_cons] at hlength
    have hbefore : before = [] := List.length_eq_zero_iff.mp (by omega)
    have hnone : itemsUnder "models" root = [] := List.length_eq_zero_iff.mp (by omega)
    refine ⟨hbefore, ?_⟩
    -- the models of either document may be taken back to the first entry
    have hback := congrArg (Document.putField "models" (.seq [entry])) h
    rw [withEntries, putField_putField] at hback
    rw [withEntries, hnone]
    exact hback
  · rintro ⟨rfl, h⟩
    obtain ⟨es, rfl⟩ := map_of_withEntries h
    have hcons : ([] : List Value) ++ entry :: after = [entry] ++ after := rfl
    rw [hcons, ← withEntries_withEntries, h, withEntries_newRoot]
    rfl

/-- A file that was started anew is as asked for just if it has all entries and what was there
before was bare. -/
theorem asked_newRoot_iff {content : ByteArray} {d : Document} {before after : List Value}
    (hread : documentOf content = .ok d) (hroot : d.root = newRoot (entry :: after)) :
    Asked old (before ++ entry :: after) (some content) ↔
      before = [] ∧ ∀ was, old = some was → Bare was entry := by
  cases old with
  | none =>
    constructor
    · rintro ⟨content', d', heq, hread', hasked⟩
      cases heq
      cases hread.symm.trans hread'
      have hmodels : entry :: after = before ++ entry :: after :=
        congrArg (itemsUnder "models") (hroot.symm.trans hasked)
      have hlength := congrArg List.length hmodels
      simp only [List.length_append, List.length_cons] at hlength
      exact ⟨List.length_eq_zero_iff.mp (by omega), fun was hwas => nomatch hwas⟩
    · rintro ⟨rfl, -⟩
      exact ⟨content, d, rfl, hread, hroot⟩
  | some was =>
    constructor
    · rintro ⟨content', d', heq, hread', d₀, hread₀, hasked⟩
      cases heq
      cases hread.symm.trans hread'
      obtain ⟨hbefore, hbare⟩ := withEntries_eq_newRoot_iff.mp (hasked.symm.trans hroot)
      refine ⟨hbefore, fun was' hwas => ?_⟩
      cases hwas
      exact ⟨d₀, hread₀, hbare⟩
    · rintro ⟨hbefore, hbare⟩
      obtain ⟨d₀, hread₀, hroot₀⟩ := hbare was rfl
      exact ⟨content, d, rfl, hread, d₀, hread₀,
        hroot.trans (withEntries_eq_newRoot_iff.mpr ⟨hbefore, hroot₀⟩).symm⟩

theorem Bare.models_eq_nil {content : ByteArray} {d : Document} (h : Bare content entry)
    (hread : documentOf content = .ok d) : itemsUnder "models" d.root = [] := by
  obtain ⟨d', hread', hroot⟩ := h
  cases hread.symm.trans hread'
  have hlength := congrArg List.length (models_of_withEntries hroot)
  simp only [List.length_append, List.length_cons, List.length_nil] at hlength
  exact List.length_eq_zero_iff.mp (by omega)

/-- What the last entry that started a new file leaves of the history. -/
theorem Origin.cases {b : Document} (h : Origin old ws b entries) :
    (∃ content, old = some content ∧ documentOf content = .ok b ∧ itemsUnder "models" b.root ≠ [] ∧
      (∀ w ∈ ws, w.anew = false) ∧ entries = ws.map Writing.entry) ∨
    (∃ content d es w rest, old = some content ∧ documentOf content = .ok d ∧ d.root = .map es ∧
      itemsUnder "models" d.root = [] ∧ ws = w :: rest ∧ (∀ w ∈ ws, w.anew = false) ∧
      entries = rest.map Writing.entry ∧ b.root = withEntries [w.entry] d.root ∧
        b.Alone (modelsPlace b.root)) ∨
    (∃ before w rest, ws = before ++ w :: rest ∧ w.anew = true ∧ (∀ w ∈ rest, w.anew = false) ∧
      entries = rest.map Writing.entry ∧ b.root = newRoot [w.entry] ∧
      b.Alone (modelsPlace b.root)) := by
  have hconcat : ∀ {ws : List Writing} {w : Writing}, (∀ w ∈ ws, w.anew = false) → w.anew = false →
      ∀ v ∈ ws ++ [w], v.anew = false := by
    intro ws w hws hw v hv
    rcases List.mem_append.mp hv with hv | hv
    · exact hws v hv
    · rw [List.mem_singleton.mp hv, hw]
  induction h with
  | kept there read models => exact .inl ⟨_, there, read, models, by simp, rfl⟩
  | @filled content d b es w there read map blank appended root alone =>
    exact .inr (.inl ⟨content, d, es, w, [], there, read, map, blank, rfl, by simpa using appended,
      rfl, root, alone⟩)
  | @renewed before b w anew root alone =>
    exact .inr (.inr ⟨before, w, [], rfl, anew, by simp, rfl, root, alone⟩)
  | @more ws b entries w h appended ih =>
    rcases ih with ⟨content, there, read, models, hws, rfl⟩ |
      ⟨content, d, es, v, rest, there, read, map, blank, rfl, hws, rfl, root, alone⟩ |
      ⟨before, v, rest, rfl, anew, hrest, rfl, root, alone⟩
    · exact .inl ⟨content, there, read, models, hconcat hws appended, by simp⟩
    · exact .inr (.inl ⟨content, d, es, v, rest ++ [w], there, read, map, blank, rfl,
        hconcat hws appended, by simp, root, alone⟩)
    · exact .inr (.inr ⟨before, v, rest ++ [w], by simp, anew, hconcat hrest appended, by simp,
        root, alone⟩)

theorem sparesOld_of_appended (old : Option ByteArray) (h : ∀ w ∈ ws, w.anew = false) :
    SparesOld old ws := by
  rintro before w after content rfl hw -
  rw [h w (by simp)] at hw
  cases hw

theorem sparesOld_cons_iff {w : Writing} {rest : List Writing} (hw : w.anew = true)
    (hrest : ∀ w ∈ rest, w.anew = false) :
    SparesOld old (w :: rest) ↔ ∀ content, old = some content → Bare content w.entry := by
  constructor
  · rintro h content rfl
    exact h [] w rest content rfl hw .nil
  · intro h before v after content heq hv hbefore
    cases before with
    | nil =>
      cases heq
      rcases hbefore.eq_nil_or_snoc with ⟨-, hold⟩ | ⟨before, _, _, _, hnil, -⟩
      · exact h content hold.symm
      · simp at hnil
    | cons u before =>
      obtain ⟨-, rfl⟩ := List.cons.inj heq
      rw [hrest v (by simp)] at hv
      cases hv

theorem eq_nil_of_sparesOld {last : Option ByteArray} {before rest : List Writing} {w : Writing}
    (h : History old (before ++ w :: rest) last) (hw : w.anew = true)
    (hspares : SparesOld old (before ++ w :: rest)) :
    before = [] := by
  by_contra hne
  obtain ⟨mid, hmid⟩ := h.of_append (w :: rest)
  rcases hmid.based with ⟨hnil, -⟩ | ⟨content, b, entries, rfl, hbased, -⟩
  · exact hne hnil
  · have hbare := hspares before w rest content rfl hw hmid
    obtain ⟨d, hread, -⟩ := hbased.grown
    exact hbased.models_ne_nil hread (hbare.models_eq_nil hread)

/-- **The file is as asked for just if nothing was taken away and nothing else has grown.** -/
theorem History.asked_iff {last : Option ByteArray} (h : History old ws last) (hne : ws ≠ []) :
    Asked old (ws.map Writing.entry) last ↔ SparesOld old ws ∧ ModelsAlone old := by
  rcases h.based with ⟨hnil, -⟩ | ⟨content, b, entries, rfl, hbased, horigin⟩
  · exact absurd hnil hne
  rcases horigin.cases with ⟨before, rfl, hread, hmodels, hws, rfl⟩ |
    ⟨before, d₀, es, w, rest, rfl, hread, hmap, hblank, rfl, hws, rfl, hroot, halone⟩ |
    ⟨before, w, rest, rfl, hw, hrest, rfl, hroot, halone⟩
  · -- the file has grown from what it was
    obtain ⟨items, -, hitems⟩ := hbased.listing
    obtain ⟨d, hread', hgrows⟩ := hbased.grown
    rw [asked_some_iff hread hread', hgrows.root,
      grow_entries_eq_iff hbased.coherent hitems (by simpa using hne)]
    refine ⟨fun halone => ⟨sparesOld_of_appended _ hws, ?_⟩, fun ⟨_, hmodelsAlone⟩ =>
      hmodelsAlone before b rfl hread hmodels⟩
    intro content' d' heq hd' _
    cases heq
    cases hread.symm.trans hd'
    exact halone
  · -- the models were made new, so that nothing shares with them
    obtain ⟨d, hread', hd⟩ := hbased.root_of_alone halone
    rw [asked_some_iff hread hread']
    refine ⟨fun _ => ⟨sparesOld_of_appended _ hws, ?_⟩, fun _ => ?_⟩
    · intro content' d' heq hd' hmodels
      cases heq
      cases hread.symm.trans hd'
      exact absurd hblank hmodels
    · rw [hd, hroot, hmap, withEntries_withEntries]
      rfl
  · -- the file was started anew with the last entries
    obtain ⟨d, hread', hd⟩ := hbased.root_of_alone halone
    rw [hroot, withEntries_newRoot, List.singleton_append] at hd
    rw [List.map_append, List.map_cons, asked_newRoot_iff hread' hd, List.map_eq_nil_iff]
    constructor
    · rintro ⟨rfl, hbare⟩
      refine ⟨(sparesOld_cons_iff hw hrest).mpr hbare, fun was d₀ hwas hd₀ hmodels => ?_⟩
      exact absurd ((hbare was hwas).models_eq_nil hd₀) hmodels
    · rintro ⟨hspares, -⟩
      obtain rfl := eq_nil_of_sparesOld h hw hspares
      exact ⟨rfl, (sparesOld_cons_iff hw hrest).mp hspares⟩

end ProjectLint.PropertyFiles
