import Mathlib.Tactic.Choose
import ProjectLint.Proofs.Findings
import ProjectLint.Proofs.Unify

/-!
# Columns that differ

The check on the wording of columns fails if some group has different descriptions
(`outcome_check`).  Since a group is all the columns of one name, that is so **if two columns of one
name differ** in the files that are kept (`differ_iff`).  A file is not kept if a later one has its
stem; what only differs from the columns of such a file is not found (`check_finds_differing_iff`).
-/

namespace ProjectLint

open Yaml

namespace Wording

/-! ### The verdict on groups -/

/-- **The lines of a group**: there are some if its descriptions differ. -/
theorem groupLines_spec {group : List Column} {descriptions : List (Option String)}
    (hdesc : group.map (·.description) = descriptions.map wordValue) :
    ∃ lines, groupLines group = .ok lines ∧ (lines = [] ↔ AllSame descriptions) := by
  have hlength := length_tally_le_one_iff descriptions
  rw [groupLines, tallyOf_eq hdesc, ok_bind]
  refine ⟨_, rfl, ?_⟩
  by_cases hsame : AllSame descriptions
  · have hle := hlength.mpr hsame
    simp only [hsame, iff_true]
    exact if_neg (by omega)
  · have hlt : ((descriptions.map wordScalar).foldl Tally.add []).length > 1 := by
      have hnot := mt hlength.mp hsame
      omega
    rw [if_pos hlt]
    simp [hsame]

/-- **The verdict on groups**: it is good if all descriptions of each group are the same. -/
theorem outcome_check {t : Tree} {ignored paths : List String} {found : List (List Column)}
    (hgroups : groups t ignored paths = .ok found)
    (hdesc : ∀ g ∈ found, g.map (·.description) = (wordsOf g).map wordValue) :
    (check t ignored paths).report.outcome = .ok (if ∀ g ∈ found, AllSame (wordsOf g) then 0
      else 1) := by
  rw [Findings.outcome_report, check, Feed.toExcept_ofExcept, hgroups, ok_bind, pure_bind,
    Feed.toExcept_flatMap]
  simp only [Findings.toExcept_of]
  choose! lines hlines hnil using fun g hg => groupLines_spec (hdesc g hg)
  rw [mapM_eq_ok_map hlines, ok_map, ok_map, Findings.status]
  refine congrArg Except.ok ?_
  have hempty : (found.map lines).flatten.isEmpty = true ↔ ∀ g ∈ found, AllSame (wordsOf g) := by
    rw [List.isEmpty_iff, List.flatten_eq_nil_iff]
    simp only [List.forall_mem_map]
    exact forall₂_congr hnil
  by_cases hall : ∀ g ∈ found, AllSame (wordsOf g)
  · rw [if_pos hall, if_pos (hempty.mpr hall)]
  · rw [if_neg hall, if_neg fun h => hall (hempty.mp h)]

/-- **Groups without differences** are those of columns that do not differ. -/
theorem allSame_groups_iff {l : List Column} {found : List (List Column)} (h : Grouped l found) :
    (∀ g ∈ found, AllSame (wordsOf g)) ↔ ∀ c ∈ l, ∀ c' ∈ l, c.key = c'.key →
      c.text? = c'.text? := by
  constructor
  · intro hsame c hc c' hc' hkey
    obtain ⟨g, hg, hcg⟩ := h.cover c hc
    have hgroup := (h.group g hg).2 c hcg
    have hcg' : c' ∈ g := by
      rw [hgroup]
      exact List.mem_filter.mpr ⟨hc', beq_iff_eq.mpr hkey.symm⟩
    exact hsame g hg _ (List.mem_map_of_mem hcg) _ (List.mem_map_of_mem hcg')
  · intro hall g hg a ha b hb
    obtain ⟨c, hc, rfl⟩ := List.mem_map.mp ha
    obtain ⟨c', hc', rfl⟩ := List.mem_map.mp hb
    have hgroup := (h.group g hg).2 c' hc'
    have hkey : c.key = c'.key := key_of_mem_named (hgroup ▸ hc)
    exact hall c (h.mem hg hc) c' (h.mem hg hc') hkey

/-! ### Columns that differ -/

def listedIn (t : Tree) (f : Path) : List Value := listedColumns (docOf t f).root

/-- **Two columns differ** in the given files: they have one name, which is not ignored, and
different descriptions. -/
def Differ (t : Tree) (ignored : List String) (P : Path → Prop) : Prop :=
  ∃ f f', P f ∧ P f' ∧ ∃ x ∈ listedIn t f, ∃ x' ∈ listedIn t f',
    nameOf x = nameOf x' ∧ nameOf x ∉ ignored ∧ descriptionOf x ≠ descriptionOf x'

theorem Differ.mono {t : Tree} {ignored : List String} {P Q : Path → Prop} (h : ∀ f, P f → Q f)
    (hdiffer : Differ t ignored P) : Differ t ignored Q := by
  obtain ⟨f, f', hf, hf', hrest⟩ := hdiffer
  exact ⟨f, f', h f hf, h f' hf', hrest⟩

section

variable {t : Tree} {ignored paths : List String} {sorted : List Column}
    {found : List (List Column)}
  (hperm : sorted.Perm ((propertyFiles paths).files.flatMap fun f =>
    keptColumns ignored f (listedIn t f)))

include hperm

theorem mem_sorted {c : Column} : c ∈ sorted ↔ ∃ f ∈ (propertyFiles paths).files,
    ∃ x ∈ listedIn t f, nameOf x ∉ ignored ∧ c = columnFor f x := by
  rw [hperm.mem_iff, List.mem_flatMap]
  simp only [mem_keptColumns]

theorem differ_iff (hfound : Grouped sorted found) :
    Differ t ignored (· ∈ (propertyFiles paths).files) ↔ ¬ ∀ g ∈ found, AllSame (wordsOf g) := by
  rw [allSame_groups_iff hfound]
  constructor
  · rintro ⟨f, f', hf, hf', x, hx, x', hx', hname, hin, hne⟩ hall
    have hc := (mem_sorted hperm).mpr ⟨f, hf, x, hx, hin, rfl⟩
    have hc' := (mem_sorted hperm).mpr ⟨f', hf', x', hx', hname ▸ hin, rfl⟩
    have hsame := hall _ hc _ hc' hname
    rw [text?_columnFor, text?_columnFor] at hsame
    exact hne hsame
  · intro hnot
    by_contra hno
    refine hnot fun c hc c' hc' hkey => ?_
    obtain ⟨f, hf, x, hx, hin, rfl⟩ := (mem_sorted hperm).mp hc
    obtain ⟨f', hf', x', hx', hin', rfl⟩ := (mem_sorted hperm).mp hc'
    rw [text?_columnFor, text?_columnFor]
    by_contra hne
    exact hno ⟨f, f', hf, hf', x, hx, x', hx', hkey, hin, hne⟩

end

/-- **What the check finds.**  If the property files among the paths are in order, the check comes
to an end, and it fails if two columns differ in the files that are the last of their stems.  So it
finds every difference in the files just if there is none, or one is left in these files; it does if
no two files have one stem. -/
theorem check_finds_differing_iff {t : Tree} {ignored paths : List String}
    (hfiles : ∀ f ∈ FileMap.given propertySuffixes paths, ∃ d, t.readProperties f.text = .ok d ∧
      Listable d.root) :
    ((check t ignored paths).report.outcome = .ok 0 ∨
      (check t ignored paths).report.outcome = .ok 1) ∧
    ((check t ignored paths).report.outcome = .ok 1 ↔
      Differ t ignored (LastOfStem (FileMap.given propertySuffixes paths))) ∧
    (((check t ignored paths).report.outcome = .ok 1 ↔
      Differ t ignored (· ∈ FileMap.given propertySuffixes paths)) ↔
      (Differ t ignored (· ∈ FileMap.given propertySuffixes paths) →
        Differ t ignored (LastOfStem (FileMap.given propertySuffixes paths)))) ∧
    (((FileMap.given propertySuffixes paths).map Path.stem).Nodup →
      ((check t ignored paths).report.outcome = .ok 1 ↔
        Differ t ignored (· ∈ FileMap.given propertySuffixes paths))) := by
  have hkept : ∀ f, f ∈ (propertyFiles paths).files ↔
      LastOfStem (FileMap.given propertySuffixes paths) f :=
    fun f => mem_files_ofPaths propertySuffixes paths
  have hlist : ∀ f ∈ (propertyFiles paths).files, ∃ d, t.readProperties f.text = .ok d ∧
      Listable d.root :=
    fun f hf => hfiles f ((hkept f).mp hf).mem
  obtain ⟨found, sorted, hgroups, hfound, hperm⟩ := groups_eq ignored hlist
  have hdesc : ∀ g ∈ found, g.map (·.description) = (wordsOf g).map wordValue :=
    fun g hg => (hfound.groupIn hperm hg).2.described
  have hverdict : (check t ignored paths).report.outcome = .ok 1 ↔
      Differ t ignored (LastOfStem (FileMap.given propertySuffixes paths)) := by
    have hdiffer := differ_iff hperm hfound
    simp only [hkept] at hdiffer
    rw [hdiffer, outcome_check hgroups hdesc]
    split <;> simp_all
  refine ⟨?_, hverdict, ?_, fun hnodup => ?_⟩
  · rw [outcome_check hgroups hdesc]
    split <;> simp
  · rw [hverdict]
    exact ⟨fun h => h.mpr, fun h => ⟨Differ.mono fun f hf => hf.mem, h⟩⟩
  · rw [hverdict]
    exact ⟨Differ.mono fun f hf => hf.mem, Differ.mono fun f hf => lastOfStem_of_nodup hnodup hf⟩

/-! ### Files of one stem -/

def schemas : Tree := ⟨[
  (["a"], .dir),
  (["a", "schema.yml"],
    .file "models:\n- name: m\n  columns:\n  - name: c\n    description: x\n".toUTF8),
  (["b"], .dir),
  (["b", "schema.yml"],
    .file "models:\n- name: n\n  columns:\n  - name: c\n    description: y\n".toUTF8),
  (["b", "other.yml"],
    .file "models:\n- name: o\n  columns:\n  - name: c\n    description: y\n".toUTF8)]⟩

theorem readProperties_schemas :
    schemas.readProperties (Path.ofString "a/schema.yml").text =
        .ok (oneColumn "m" [(.str "description", .str "x")]) ∧
      schemas.readProperties (Path.ofString "b/schema.yml").text =
        .ok (oneColumn "n" [(.str "description", .str "y")]) ∧
      schemas.readProperties (Path.ofString "b/other.yml").text =
        .ok (oneColumn "o" [(.str "description", .str "y")]) :=
  ⟨eq_of_yields (by decide +kernel), eq_of_yields (by decide +kernel),
    eq_of_yields (by decide +kernel)⟩

theorem mem_given {paths : List String} {path : String} (h : path ∈ paths)
    (hsuffix : FileMap.hasSuffix propertySuffixes (.ofString path) = true) :
    .ofString path ∈ FileMap.given propertySuffixes paths :=
  List.mem_filter.mpr ⟨List.mem_map_of_mem h, hsuffix⟩

theorem listable_schemas {paths : List String}
    (h : paths ⊆ ["a/schema.yml", "b/schema.yml", "b/other.yml"]) :
    ∀ f ∈ FileMap.given propertySuffixes paths, ∃ d, schemas.readProperties f.text = .ok d ∧
      Listable d.root := by
  intro f hf
  obtain ⟨s, hs, rfl⟩ := List.mem_map.mp (List.mem_of_mem_filter hf)
  obtain ⟨hx, hy, hz⟩ := readProperties_schemas
  rcases List.mem_cons.mp (h hs) with rfl | hs
  · exact ⟨_, hx, by decide⟩
  rcases List.mem_cons.mp hs with rfl | hs
  · exact ⟨_, hy, by decide⟩
  · obtain rfl := List.mem_singleton.mp hs
    exact ⟨_, hz, by decide⟩

theorem listedIn_schemas :
    listedIn schemas (.ofString "a/schema.yml") =
        [.map [(.str "name", .str "c"), (.str "description", .str "x")]] ∧
      listedIn schemas (.ofString "b/schema.yml") =
        [.map [(.str "name", .str "c"), (.str "description", .str "y")]] ∧
      listedIn schemas (.ofString "b/other.yml") =
        [.map [(.str "name", .str "c"), (.str "description", .str "y")]] := by
  obtain ⟨hx, hy, hz⟩ := readProperties_schemas
  refine ⟨?_, ?_, ?_⟩
  · rw [listedIn, docOf_eq hx]
    rfl
  · rw [listedIn, docOf_eq hy]
    rfl
  · rw [listedIn, docOf_eq hz]
    rfl

/-- Two files of different stems are compared. -/
theorem check_schema_and_other :
    Differ schemas [] (· ∈ FileMap.given propertySuffixes ["a/schema.yml", "b/other.yml"]) ∧
      (check schemas [] ["a/schema.yml", "b/other.yml"]).report.outcome = .ok 1 := by
  obtain ⟨hx, -, hz⟩ := listedIn_schemas
  have hdiffer : Differ schemas [] (· ∈ FileMap.given propertySuffixes ["a/schema.yml",
      "b/other.yml"]) := by
    refine ⟨.ofString "a/schema.yml", .ofString "b/other.yml",
      mem_given List.mem_cons_self rfl, mem_given (List.mem_cons_of_mem _ List.mem_cons_self) rfl,
      ?_⟩
    rw [hx, hz]
    exact ⟨_, List.mem_cons_self, _, List.mem_cons_self, rfl, List.not_mem_nil, by decide⟩
  have hstems : ((FileMap.given propertySuffixes ["a/schema.yml", "b/other.yml"]).map
      Path.stem).Nodup := by decide
  exact ⟨hdiffer, ((check_finds_differing_iff (listable_schemas (by simp))).2.2.2 hstems).mpr
    hdiffer⟩

/-- Of two files of one stem the first is not looked at. -/
theorem check_two_schemas :
    Differ schemas [] (· ∈ FileMap.given propertySuffixes ["a/schema.yml", "b/schema.yml"]) ∧
      (check schemas [] ["a/schema.yml", "b/schema.yml"]).report.outcome = .ok 0 := by
  obtain ⟨hx, hy, -⟩ := listedIn_schemas
  constructor
  · refine ⟨.ofString "a/schema.yml", .ofString "b/schema.yml",
      mem_given List.mem_cons_self rfl, mem_given (List.mem_cons_of_mem _ List.mem_cons_self) rfl,
      ?_⟩
    rw [hx, hy]
    exact ⟨_, List.mem_cons_self, _, List.mem_cons_self, rfl, List.not_mem_nil, by decide⟩
  · exact eq_ok_of_toOption (by decide +kernel)

end Wording

end ProjectLint
