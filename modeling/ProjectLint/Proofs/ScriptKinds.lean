import ProjectLint.Proofs.FileMaps
import ProjectLint.Proofs.Outcomes

/-!
# Scripts of macros and scripts of models

A script belongs to a macro if its path is that of a macro, and else it is taken for that of a
model.  The paths are compared in full, but both the given files and those of the macros are looked
up by their stems, where only the last file of a stem is kept.  So a script is told by its path just
if it is **the last of its stem among the given files, and among the files of macros** if it is one
of them; `kinds_by_path_iff` says which scripts are mistaken or lost otherwise.
-/

namespace ProjectLint

namespace FileMap

theorem get?_cons (s : String) (f : Path) (m : FileMap) (stem : String) :
    get? ((s, f) :: m) stem = if s = stem then some f else get? m stem := by
  by_cases h : s = stem <;> simp [get?, h]

theorem get?_eq_some_iff {stem : String} {file : Path} : ∀ {m : FileMap}, m.stems.Nodup →
    (get? m stem = some file ↔ (stem, file) ∈ m) := by
  intro m
  induction m with
  | nil => intro _; simp [get?]
  | cons e m ih =>
    obtain ⟨s, f⟩ := e
    intro h
    obtain ⟨hs, hm⟩ := List.nodup_cons.mp h
    rw [get?_cons, List.mem_cons, Prod.mk.injEq]
    by_cases heq : s = stem
    · have hnot : (stem, file) ∉ m := fun hin => hs (List.mem_map.mpr ⟨_, hin, heq.symm⟩)
      rw [if_pos heq, Option.some.injEq]
      exact ⟨fun hf => .inl ⟨heq.symm, hf.symm⟩, fun hor => (hor.resolve_right hnot).2.symm⟩
    · rw [if_neg heq, ih hm]
      exact ⟨.inr, fun hor => hor.resolve_left fun hin => heq hin.1.symm⟩

theorem mem_ofPaths_iff {suffixes paths : List String} {stem : String} {file : Path} :
    (stem, file) ∈ ofPaths suffixes paths ↔ stem = file.stem ∧
      LastOfStem (given suffixes paths) file := by
  have hkept := kept_ofPaths suffixes paths
  rw [← mem_files_ofPaths]
  constructor
  · intro h
    exact ⟨hkept.stem _ h, List.mem_map.mpr ⟨_, h, rfl⟩⟩
  · rintro ⟨rfl, h⟩
    obtain ⟨e, he, rfl⟩ := List.mem_map.mp h
    rw [← hkept.stem e he]
    exact he

end FileMap

theorem LastOfStem.eq_of_stem {f g : Path} : ∀ {files : List Path}, LastOfStem files f →
    LastOfStem files g →
    f.stem = g.stem → f = g := by
  intro files
  induction files using List.reverseRecOn with
  | nil => intro hf _ _; cases hf.mem
  | append_singleton files x ih =>
    intro hf hg hstem
    rcases lastOfStem_concat.mp hf with rfl | ⟨hf, hfx⟩
    · rcases lastOfStem_concat.mp hg with rfl | ⟨-, hgx⟩
      · rfl
      · exact absurd hstem.symm hgx
    · rcases lastOfStem_concat.mp hg with rfl | ⟨hg, -⟩
      · exact absurd hstem hfx
      · exact ih hf hg hstem

theorem lastOfStem_of_eq {f : Path} : ∀ {files : List Path}, (∀ g ∈ files, g.stem = f.stem →
    g = f) → f ∈ files →
    LastOfStem files f := by
  intro files
  induction files using List.reverseRecOn with
  | nil => intro _ hf; cases hf
  | append_singleton files g ih =>
    intro h hf
    rw [lastOfStem_concat]
    by_cases heq : f = g
    · exact .inl heq
    · have hne : f.stem ≠ g.stem := fun hstem => heq (h g (by simp) hstem.symm).symm
      refine .inr ⟨ih (fun x hx => h x (List.mem_append_left _ hx)) ?_, hne⟩
      exact (List.mem_append.mp hf).resolve_right fun hlast => heq (List.mem_singleton.mp hlast)

/-- The scripts among some paths, with all that share a stem. -/
abbrev scriptsAmong (paths : List String) : List Path := FileMap.given scriptSuffixes paths

theorem mem_scriptsAmong {paths : List String} {f : Path} :
    f ∈ scriptsAmong paths ↔ f ∈ paths.map Path.ofString ∧
      FileMap.hasSuffix scriptSuffixes f = true :=
  List.mem_filter

section

variable {manifest : Value} {paths macroTexts : List String}
    (hmacros : macroPaths manifest = .ok macroTexts)

include hmacros

/-- **The scripts of macros**: the last of their stem, among the given files and among those of
macros. -/
theorem exists_macroFiles (paths : List String) : ∃ ms, macroFiles manifest paths = .ok ms ∧
    ∀ stem f, (stem, f) ∈ ms ↔
      stem = f.stem ∧ LastOfStem (scriptsAmong paths) f ∧
      LastOfStem (scriptsAmong macroTexts) f := by
  refine ⟨_, by rw [macroFiles, hmacros]; rfl, fun stem f => ?_⟩
  have hnodup := (FileMap.kept_ofPaths scriptSuffixes macroTexts).nodup
  rw [List.mem_filter, beq_iff_eq, scriptFiles, scriptFiles, FileMap.get?_eq_some_iff hnodup,
    FileMap.mem_ofPaths_iff, FileMap.mem_ofPaths_iff]
  tauto

/-- **The scripts of models**: the last of their stem among the given files, unless they are the
last of it among those of macros, or the stem is that of an ephemeral or disabled model. -/
theorem exists_modelFiles {withDisabled : Bool} {ephemeral disabled : List String}
    (hephemeral : ephemeralNames manifest = .ok ephemeral)
    (hdisabled : disabledNames manifest withDisabled = .ok disabled) (paths : List String) :
    ∃ ks, modelFiles manifest withDisabled paths = .ok ks ∧ ∀ f, f ∈ ks.files ↔
      LastOfStem (scriptsAmong paths) f ∧ ¬ LastOfStem (scriptsAmong macroTexts) f ∧
      f.stem ∉ ephemeral ∧ f.stem ∉ disabled := by
  obtain ⟨ms, hms, hmem⟩ := exists_macroFiles hmacros paths
  refine ⟨_, by rw [modelFiles, hephemeral, ok_bind, hms, ok_bind, hdisabled]; rfl, fun f => ?_⟩
  -- a stem is among those of macros just if the one file that is kept under it is a macro's
  have hstem : LastOfStem (scriptsAmong paths) f →
      (ms.contains f.stem = true ↔ LastOfStem (scriptsAmong macroTexts) f) := by
    intro hlast
    rw [FileMap.contains, List.any_eq_true]
    constructor
    · rintro ⟨⟨s, g⟩, hg, heq⟩
      obtain ⟨hs, hgiven, hmacro⟩ := (hmem s g).mp hg
      obtain rfl : f = g := hlast.eq_of_stem hgiven ((hs.symm.trans (beq_iff_eq.mp heq)).symm)
      exact hmacro
    · intro hmacro
      exact ⟨(f.stem, f), (hmem _ _).mpr ⟨rfl, hlast, hmacro⟩, beq_self_eq_true _⟩
  rw [FileMap.files, List.mem_map]
  constructor
  · rintro ⟨⟨s, g⟩, he, rfl⟩
    obtain ⟨he, hpass⟩ := List.mem_filter.mp he
    obtain ⟨rfl, hlast⟩ := FileMap.mem_ofPaths_iff.mp he
    simp only [Bool.and_eq_true, Bool.not_eq_true', List.contains_eq_mem, decide_eq_false_iff_not]
      at hpass
    exact ⟨hlast, fun hmacro => by simp [(hstem hlast).mpr hmacro] at hpass, hpass.1.2, hpass.2⟩
  · rintro ⟨hlast, hmacro, hno, hno'⟩
    refine ⟨(f.stem, f), List.mem_filter.mpr ⟨FileMap.mem_ofPaths_iff.mpr ⟨rfl, hlast⟩, ?_⟩, rfl⟩
    have hfalse : ms.contains f.stem = false := by
      rw [← Bool.not_eq_true, hstem hlast]
      exact hmacro
    simp [hfalse, hno, hno']

end

/-! ### When paths decide -/

/-- The scripts of macros are the given ones at the path of a macro. -/
def MacrosByPath (paths macroTexts : List String) (ms : FileMap) : Prop :=
  ∀ f, f ∈ ms.files ↔ f ∈ scriptsAmong paths ∧ f ∈ macroTexts.map Path.ofString

/-- The scripts of models are the given ones at no path of a macro whose stem is none of those left
out. -/
def ModelsByPath (paths macroTexts ephemeral disabled : List String) (ks : FileMap) : Prop :=
  ∀ f, f ∈ ks.files ↔
    f ∈ scriptsAmong paths ∧ f ∉ macroTexts.map Path.ofString ∧ f.stem ∉ ephemeral ∧
      f.stem ∉ disabled

/-- No two different files have one stem. -/
def StemsApart (files : List Path) : Prop := ∀ f ∈ files, ∀ g ∈ files, f.stem = g.stem → f = g

instance (files : List Path) : Decidable (StemsApart files) :=
  inferInstanceAs (Decidable (∀ f ∈ files, ∀ g ∈ files, f.stem = g.stem → f = g))

theorem StemsApart.lastOfStem {files : List Path} (h : StemsApart files) {f : Path}
    (hf : f ∈ files) :
    LastOfStem files f :=
  lastOfStem_of_eq (fun g hg heq => h g hg f hf heq) hf

section

variable {paths macroTexts ephemeral disabled : List String} {ms ks : FileMap}

theorem macro_path_of_last {f : Path} (h : LastOfStem (scriptsAmong macroTexts) f) :
    f ∈ macroTexts.map Path.ofString :=
  (mem_scriptsAmong.mp h.mem).1

theorem macrosByPath_iff
    (h : ∀ f, f ∈ ms.files ↔ LastOfStem (scriptsAmong paths) f ∧
      LastOfStem (scriptsAmong macroTexts) f) :
    MacrosByPath paths macroTexts ms ↔ ∀ f ∈ scriptsAmong paths, f ∈ macroTexts.map Path.ofString →
      LastOfStem (scriptsAmong paths) f ∧ LastOfStem (scriptsAmong macroTexts) f := by
  constructor
  · intro hby f hf hmacro
    exact (h f).mp ((hby f).mpr ⟨hf, hmacro⟩)
  · intro hlast f
    rw [h]
    exact ⟨fun hf => ⟨hf.1.mem, macro_path_of_last hf.2⟩, fun hf => hlast f hf.1 hf.2⟩

theorem modelsByPath_iff
    (h : ∀ f, f ∈ ks.files ↔ LastOfStem (scriptsAmong paths) f ∧
      ¬ LastOfStem (scriptsAmong macroTexts) f ∧ f.stem ∉ ephemeral ∧ f.stem ∉ disabled) :
    ModelsByPath paths macroTexts ephemeral disabled ks ↔
      ∀ f ∈ scriptsAmong paths, f.stem ∉ ephemeral → f.stem ∉ disabled →
        (f ∉ macroTexts.map Path.ofString → LastOfStem (scriptsAmong paths) f) ∧
        (f ∈ macroTexts.map Path.ofString → LastOfStem (scriptsAmong paths) f →
          LastOfStem (scriptsAmong macroTexts) f) := by
  constructor
  · intro hby f hf hno hno'
    refine ⟨fun hmacro => ((h f).mp ((hby f).mpr ⟨hf, hmacro, hno, hno'⟩)).1,
      fun hmacro hlast => ?_⟩
    by_contra hnot
    exact ((hby f).mp ((h f).mpr ⟨hlast, hnot, hno, hno'⟩)).2.1 hmacro
  · intro hlasts f
    rw [h]
    constructor
    · rintro ⟨hlast, hnot, hno, hno'⟩
      exact ⟨hlast.mem, fun hmacro => hnot ((hlasts f hlast.mem hno hno').2 hmacro hlast), hno,
        hno'⟩
    · rintro ⟨hf, hmacro, hno, hno'⟩
      exact ⟨(hlasts f hf hno hno').1 hmacro, fun hlast => hmacro (macro_path_of_last hlast), hno,
        hno'⟩

end

/-- **When scripts are told by their paths.**  Those of macros are, just if each given script at the
path of a macro is the last of its stem, among the given scripts and among those of macros.  Those
of models are, just if each given script at no path of a macro is the last of its stem, and none at
the path of a macro is kept while a later macro has its stem; scripts that are left out by their
stem do not count here.  Both are so if neither two given scripts nor two scripts of macros share a
stem. -/
theorem kinds_by_path_iff {manifest : Value} {withDisabled : Bool}
    {macroTexts ephemeral disabled : List String} (hmacros : macroPaths manifest = .ok macroTexts)
    (hephemeral : ephemeralNames manifest = .ok ephemeral)
    (hdisabled : disabledNames manifest withDisabled = .ok disabled) (paths : List String) :
    ∃ ms ks, macroFiles manifest paths = .ok ms ∧ modelFiles manifest withDisabled paths = .ok ks ∧
      (MacrosByPath paths macroTexts ms ↔
        ∀ f ∈ scriptsAmong paths, f ∈ macroTexts.map Path.ofString →
          LastOfStem (scriptsAmong paths) f ∧ LastOfStem (scriptsAmong macroTexts) f) ∧
      (ModelsByPath paths macroTexts ephemeral disabled ks ↔
        ∀ f ∈ scriptsAmong paths, f.stem ∉ ephemeral → f.stem ∉ disabled →
          (f ∉ macroTexts.map Path.ofString → LastOfStem (scriptsAmong paths) f) ∧
          (f ∈ macroTexts.map Path.ofString → LastOfStem (scriptsAmong paths) f →
            LastOfStem (scriptsAmong macroTexts) f)) ∧
      (StemsApart (scriptsAmong paths) → StemsApart (scriptsAmong macroTexts) →
        MacrosByPath paths macroTexts ms ∧
        ModelsByPath paths macroTexts ephemeral disabled ks) := by
  obtain ⟨ms, hms, hmem⟩ := exists_macroFiles hmacros paths
  obtain ⟨ks, hks, hmodel⟩ := exists_modelFiles hmacros hephemeral hdisabled paths
  have hmacro : ∀ f, f ∈ ms.files ↔
      LastOfStem (scriptsAmong paths) f ∧ LastOfStem (scriptsAmong macroTexts) f := by
    intro f
    rw [FileMap.files, List.mem_map]
    constructor
    · rintro ⟨⟨s, g⟩, hg, rfl⟩
      exact ((hmem s g).mp hg).2
    · intro h
      exact ⟨(f.stem, f), (hmem _ _).mpr ⟨rfl, h⟩, rfl⟩
  refine ⟨ms, ks, hms, hks, macrosByPath_iff hmacro, modelsByPath_iff hmodel,
    fun hgiven hapart => ?_⟩
  have hlast : ∀ f ∈ scriptsAmong paths, f ∈ macroTexts.map Path.ofString →
      LastOfStem (scriptsAmong macroTexts) f :=
    fun f hf hfm => hapart.lastOfStem (mem_scriptsAmong.mpr ⟨hfm, (mem_scriptsAmong.mp hf).2⟩)
  exact ⟨(macrosByPath_iff hmacro).mpr fun f hf hfm => ⟨hgiven.lastOfStem hf, hlast f hf hfm⟩,
    (modelsByPath_iff hmodel).mpr fun f hf _ _ =>
      ⟨fun _ => hgiven.lastOfStem hf, fun hfm _ => hlast f hf hfm⟩⟩

def withMacros (paths : List String) : Value :=
  .record [("nodes", .record [("model.p.m", .record [("name", .str "m")])]),
    ("macros", .record (paths.map fun path => ("macro." ++ path, .record [("path", .str path)])))]

/-- Of a script of a model and one of a macro with different stems, each is told by its path. -/
theorem kinds_apart : ∃ ms ks,
    macroFiles (withMacros ["macros/x.sql"]) ["models/m.sql", "macros/x.sql"] = .ok ms ∧
    modelFiles (withMacros ["macros/x.sql"]) false ["models/m.sql", "macros/x.sql"] = .ok ks ∧
    MacrosByPath ["models/m.sql", "macros/x.sql"] ["macros/x.sql"] ms ∧
    ModelsByPath ["models/m.sql", "macros/x.sql"] ["macros/x.sql"] [] [] ks := by
  have hmacros : macroPaths (withMacros ["macros/x.sql"]) = .ok ["macros/x.sql"] :=
    eq_ok_of_toOption (by decide +kernel)
  have hephemeral : ephemeralNames (withMacros ["macros/x.sql"]) = .ok [] :=
    eq_ok_of_toOption (by decide +kernel)
  have hdisabled : disabledNames (withMacros ["macros/x.sql"]) false = .ok [] :=
    eq_ok_of_toOption (by decide +kernel)
  obtain ⟨ms, ks, hms, hks, -, -, happly⟩ :=
    kinds_by_path_iff hmacros hephemeral hdisabled ["models/m.sql", "macros/x.sql"]
  exact ⟨ms, ks, hms, hks, happly (by decide +kernel) (by decide +kernel)⟩

/-- Of two macros with one stem the later one counts.  The script of the other is not found to be
one of a macro, and is taken for that of a model. -/
theorem kinds_not_apart :
    macroPaths (withMacros ["macros/x.sql", "macros/sub/x.sql"]) =
      .ok ["macros/x.sql", "macros/sub/x.sql"] ∧
    macroFiles (withMacros ["macros/x.sql", "macros/sub/x.sql"]) ["macros/x.sql"] = .ok [] ∧
    modelFiles (withMacros ["macros/x.sql", "macros/sub/x.sql"]) false ["macros/x.sql"] =
      .ok [("x", Path.ofString "macros/x.sql")] ∧
    ¬ MacrosByPath ["macros/x.sql"] ["macros/x.sql", "macros/sub/x.sql"] [] ∧
    ¬ ModelsByPath ["macros/x.sql"] ["macros/x.sql", "macros/sub/x.sql"] [] []
      [("x", Path.ofString "macros/x.sql")] := by
  refine ⟨eq_ok_of_toOption (by decide +kernel), eq_ok_of_toOption (by decide +kernel),
    eq_ok_of_toOption (by decide +kernel), fun h => ?_, fun h => ?_⟩
  · have hfound := (h (Path.ofString "macros/x.sql")).mpr ⟨by decide +kernel, by simp⟩
    cases hfound
  · have hmodel := (h (Path.ofString "macros/x.sql")).mp (by simp [FileMap.files])
    exact hmodel.2.1 (by simp)

end ProjectLint
