import Mathlib.Data.List.Induction
import Mathlib.Data.List.Nodup
import ProjectLint.Project.Files
import ProjectLint.Proofs.Files

/-!
# Files by stem

Of the files among some paths only one is kept for each stem.  The stem comes from the last part of
a path, and that is the name of the place the path leads to; so **no two kept files are the same
file** (`place_ne_of_mem_files`), however their paths are written.  The one that is kept is the last
of its stem (`mem_files_ofPaths`).
-/

namespace ProjectLint

/-! ### The last part of a path -/

namespace Text

theorem not_mem_of_mem_splitList {d : Char} : ∀ {cs part : List Char}, part ∈ splitList d cs →
    d ∉ part := by
  intro cs
  induction cs with
  | nil =>
    intro part h
    rw [splitList, List.mem_singleton] at h
    rw [h]
    exact List.not_mem_nil
  | cons c rest ih =>
    intro part h
    rw [splitList] at h
    split at h
    · rcases List.mem_cons.mp h with rfl | h
      · exact List.not_mem_nil
      · exact ih h
    · rename_i hc
      split at h
      · rw [List.mem_singleton.mp h, List.mem_singleton]
        exact Ne.symm hc
      · rename_i piece pieces hrest
        rcases List.mem_cons.mp h with rfl | h
        · rintro (_ | ⟨_, hd⟩)
          · exact hc rfl
          · exact ih (hrest ▸ List.mem_cons_self) hd
        · exact ih (hrest ▸ List.mem_cons_of_mem _ h)

theorem splitList_of_not_mem {d : Char} : ∀ {cs : List Char}, d ∉ cs → splitList d cs = [cs] := by
  intro cs
  induction cs with
  | nil => intro _; rfl
  | cons c rest ih =>
    intro h
    have hc : c ≠ d := fun hc => h (hc ▸ List.mem_cons_self)
    rw [splitList, if_neg hc, ih fun hd => h (List.mem_cons_of_mem _ hd)]

theorem splitList_append (d : Char) (after : List Char) : ∀ before : List Char,
    splitList d (before ++ d :: after) = splitList d before ++ splitList d after := by
  intro before
  induction before with
  | nil => simp [splitList]
  | cons c before ih =>
    rw [List.cons_append, splitList, splitList]
    split
    · rw [ih]
      rfl
    · cases hs : splitList d before with
      | nil => exact absurd hs (splitList_ne_nil d _)
      | cons piece pieces =>
        rw [ih, hs]
        rfl

end Text

namespace Path

theorem intercalate_concat (last : List Char) : ∀ init : List (List Char),
    ∃ before, (before = [] ∨ ∃ b, before = b ++ ['/']) ∧
      List.intercalate ['/'] (init ++ [last]) = before ++ last := by
  intro init
  induction init with
  | nil => exact ⟨[], .inl rfl, by simp [List.intercalate]⟩
  | cons a init ih =>
    obtain ⟨before, hbefore, heq⟩ := ih
    have hcons : List.intercalate ['/'] (a :: (init ++ [last])) =
        a ++ ['/'] ++ List.intercalate ['/'] (init ++ [last]) := by
      cases init with
      | nil => simp [List.intercalate]
      | cons b init => simp [List.intercalate]
    refine ⟨a ++ ['/'] ++ before, .inr ?_, by
      rw [List.cons_append, hcons, heq, ← List.append_assoc]⟩
    rcases hbefore with rfl | ⟨b, rfl⟩
    · exact ⟨a, List.append_nil _⟩
    · exact ⟨a ++ ['/'] ++ b, by simp⟩

theorem text_of_parts {p : Path} {init : List String} {last : String} (h : p.parts = init ++ [last])
    (hne : last ≠ "") : ∃ before, (before = [] ∨ ∃ b, before = b ++ ['/']) ∧
      p.text.toList = before ++ last.toList := by
  obtain ⟨before, hbefore, heq⟩ := intercalate_concat last.toList (init.map String.toList)
  have hbody : (Root.text p.root ++ "/".intercalate p.parts).toList =
      (Root.text p.root).toList ++ before ++ last.toList := by
    rw [String.toList_append, String.toList_intercalate, h, List.map_append, List.append_assoc,
      ← heq]
    rfl
  have hfull : (Root.text p.root ++ "/".intercalate p.parts).isEmpty = false := by
    rw [← Bool.not_eq_true, String.isEmpty_iff]
    intro hempty
    rw [hempty] at hbody
    have hlast : last.toList = [] := (List.append_eq_nil_iff.mp hbody.symm).2
    exact hne (String.toList_eq_nil_iff.mp hlast)
  refine ⟨(Root.text p.root).toList ++ before, ?_, ?_⟩
  · rcases hbefore with rfl | ⟨b, rfl⟩
    · cases p.root with
      | relative => exact .inl rfl
      | absolute => exact .inr ⟨[], rfl⟩
      | network => exact .inr ⟨['/'], rfl⟩
    · exact .inr ⟨(Root.text p.root).toList ++ b, by simp⟩
  · rw [text]
    simp only [hfull]
    exact hbody

theorem getLast?_pieces {p : Path} {init : List String} {last : String}
    (h : p.parts = init ++ [last])
    (hne : last ≠ "") (hno : '/' ∉ last.toList) : (pieces p.text).getLast? = some last := by
  obtain ⟨before, hbefore, htext⟩ := text_of_parts h hne
  have hlast : (Text.splitList '/' p.text.toList).getLast? = some last.toList := by
    rw [htext]
    rcases hbefore with rfl | ⟨b, rfl⟩
    · rw [List.nil_append, Text.splitList_of_not_mem hno]
      rfl
    · rw [List.append_assoc, List.singleton_append, Text.splitList_append,
        Text.splitList_of_not_mem hno, List.getLast?_concat]
  rw [pieces, Text.split, List.getLast?_map, hlast, Option.map_some, String.ofList_toList]

end Path

/-! ### Where a path leads -/

variable {f : Path} {t : Tree} {place : List String} {content : ByteArray} {files : List Path}

theorem Tree.getLast?_of_follow {path : String} (h : t.follow path = .file place content) :
    place.getLast? = (Path.pieces path).getLast? := by
  rw [follow] at h
  split at h
  · cases h
  · have hne : Path.pieces path ≠ [] := by
      intro hnil
      exact Text.splitList_ne_nil '/' path.toList (List.map_eq_nil_iff.mp hnil)
    obtain ⟨init, last, hparts⟩ : ∃ init last, Path.pieces path = init ++ [last] :=
      ⟨_, _, (List.dropLast_concat_getLast hne).symm⟩
    rw [hparts] at h ⊢
    rw [List.foldl_append, List.foldl_cons, List.foldl_nil] at h
    rw [(step_eq_file h).1, List.getLast?_concat]

/-! ### Kept files -/

namespace FileMap

/-- Every file is kept under its stem, and no stem twice. -/
structure Kept (suffixes paths : List String) (m : FileMap) : Prop where
  stem : ∀ e ∈ m, e.1 = e.2.stem
  file : ∀ e ∈ m, hasSuffix suffixes e.2 = true ∧ ∃ s ∈ paths, e.2 = Path.ofString s
  nodup : m.stems.Nodup

theorem mem_put_iff {stem : String} {file : Path} : ∀ {m : FileMap}, m.stems.Nodup →
    ∀ {e : String × Path}, e ∈ m.put stem file ↔ e = (stem, file) ∨ e ∈ m ∧ e.1 ≠ stem := by
  intro m
  induction m with
  | nil => intro _ e; simp [put]
  | cons entry m ih =>
    obtain ⟨s, f⟩ := entry
    intro h e
    obtain ⟨hs, hm⟩ := List.nodup_cons.mp h
    rw [put]
    split
    · rename_i heq
      subst heq
      have hne : e ∈ m → e.1 ≠ s := fun he h => hs (List.mem_map.mpr ⟨e, he, h⟩)
      simp only [List.mem_cons]
      constructor
      · rintro (rfl | he)
        · exact .inl rfl
        · exact .inr ⟨.inr he, hne he⟩
      · rintro (rfl | ⟨rfl | he, hne⟩)
        · exact .inl rfl
        · exact absurd rfl hne
        · exact .inr he
    · rename_i hne
      rw [List.mem_cons, ih hm, List.mem_cons]
      constructor
      · rintro (rfl | rfl | ⟨he, hstem⟩)
        · exact .inr ⟨.inl rfl, hne⟩
        · exact .inl rfl
        · exact .inr ⟨.inr he, hstem⟩
      · rintro (rfl | ⟨rfl | he, hstem⟩)
        · exact .inr (.inl rfl)
        · exact .inl rfl
        · exact .inr (.inr ⟨he, hstem⟩)

theorem nodup_put {m : FileMap} (stem : String) (file : Path) (h : m.stems.Nodup) :
    (m.put stem file).stems.Nodup := by
  induction m with
  | nil => exact List.nodup_cons.mpr ⟨List.not_mem_nil, List.nodup_nil⟩
  | cons entry m ih =>
    obtain ⟨s, f⟩ := entry
    obtain ⟨hs, hm⟩ := List.nodup_cons.mp h
    rw [put]
    split
    · exact List.nodup_cons.mpr ⟨hs, hm⟩
    · rename_i hne
      refine List.nodup_cons.mpr ⟨fun hin => ?_, ih hm⟩
      obtain ⟨e, he, hes⟩ := List.mem_map.mp hin
      rcases (mem_put_iff hm).mp he with rfl | ⟨he, -⟩
      · exact hne hes.symm
      · exact hs (List.mem_map.mpr ⟨e, he, hes⟩)

theorem kept_ofPaths (suffixes paths : List String) :
    Kept suffixes paths (ofPaths suffixes paths) := by
  have hfold : ∀ (files : List Path) (m : FileMap),
      (∀ f ∈ files, ∃ s ∈ paths, f = Path.ofString s) →
      Kept suffixes paths m → Kept suffixes paths (files.foldl (add suffixes) m) := by
    intro files
    induction files with
    | nil => intro m _ h; exact h
    | cons f files ih =>
      intro m hfiles h
      refine ih _ (fun g hg => hfiles g (List.mem_cons_of_mem _ hg)) ?_
      rw [add]
      split
      · rename_i hsuffix
        refine ⟨fun e he => ?_, fun e he => ?_, nodup_put _ _ h.nodup⟩
        · rcases (mem_put_iff h.nodup).mp he with rfl | ⟨he, -⟩
          · rfl
          · exact h.stem e he
        · rcases (mem_put_iff h.nodup).mp he with rfl | ⟨he, -⟩
          · exact ⟨hsuffix, hfiles f List.mem_cons_self⟩
          · exact h.file e he
      · exact h
  refine hfold _ [] (fun f hf => ?_) ⟨fun e he => (nomatch he), fun e he => (nomatch he),
    List.nodup_nil⟩
  obtain ⟨s, hs, rfl⟩ := List.mem_map.mp hf
  exact ⟨s, hs, rfl⟩

/-- The files among the paths that have one of the suffixes, with all that share a stem. -/
def given (suffixes paths : List String) : List Path :=
  (paths.map Path.ofString).filter (hasSuffix suffixes)

end FileMap

/-- The file is the last of those that have its stem. -/
def LastOfStem (files : List Path) (f : Path) : Prop :=
  ∃ before after, files = before ++ f :: after ∧ ∀ g ∈ after, g.stem ≠ f.stem

theorem LastOfStem.mem (h : LastOfStem files f) : f ∈ files := by
  obtain ⟨before, after, rfl, -⟩ := h
  exact List.mem_append_right _ List.mem_cons_self

theorem lastOfStem_concat {g : Path} : LastOfStem (files ++ [g]) f ↔ f = g ∨ LastOfStem files f ∧
    f.stem ≠ g.stem := by
  constructor
  · rintro ⟨before, after, heq, hafter⟩
    rcases List.eq_nil_or_concat after with rfl | ⟨after, last, rfl⟩
    · exact .inl (List.singleton_inj.mp (List.append_inj' heq rfl).2).symm
    · rw [List.concat_eq_append] at heq hafter
      rw [← List.cons_append, ← List.append_assoc] at heq
      obtain ⟨rfl, hlast⟩ := List.append_inj' heq rfl
      obtain rfl := List.singleton_inj.mp hlast
      refine .inr ⟨⟨before, after, rfl, fun x hx => hafter x (List.mem_append_left _ hx)⟩, ?_⟩
      exact (hafter g (List.mem_append_right _ (List.mem_singleton.mpr rfl))).symm
  · rintro (rfl | ⟨⟨before, after, rfl, hafter⟩, hne⟩)
    · exact ⟨files, [], rfl, fun x hx => nomatch hx⟩
    · refine ⟨before, after ++ [g], by simp, fun x hx => ?_⟩
      rcases List.mem_append.mp hx with hx | hx
      · exact hafter x hx
      · rw [List.mem_singleton.mp hx]
        exact hne.symm

theorem lastOfStem_of_nodup (h : (files.map Path.stem).Nodup) (hf : f ∈ files) :
    LastOfStem files f := by
  obtain ⟨before, after, rfl⟩ := List.append_of_mem hf
  refine ⟨before, after, rfl, fun g hg heq => ?_⟩
  rw [List.map_append, List.map_cons, List.nodup_append] at h
  exact (List.nodup_cons.mp h.2.1).1 (List.mem_map.mpr ⟨g, hg, heq⟩)

/-- **The files that are kept** are the last of their stems. -/
theorem mem_files_ofPaths (suffixes : List String) : ∀ paths : List String,
    f ∈ (FileMap.ofPaths suffixes paths).files ↔ LastOfStem (FileMap.given suffixes paths) f := by
  intro paths
  induction paths using List.reverseRecOn with
  | nil =>
    constructor
    · intro h
      cases h
    · intro h
      exact absurd h.mem List.not_mem_nil
  | append_singleton paths s ih =>
    have hkept := FileMap.kept_ofPaths suffixes paths
    have hmap : FileMap.ofPaths suffixes (paths ++ [s]) =
        (FileMap.ofPaths suffixes paths).add suffixes (Path.ofString s) := by
      simp [FileMap.ofPaths]
    have hgiven : FileMap.given suffixes (paths ++ [s]) =
        FileMap.given suffixes paths ++ [Path.ofString s].filter (FileMap.hasSuffix suffixes) := by
      simp [FileMap.given]
    rw [hmap, hgiven, FileMap.add]
    by_cases hsuffix : FileMap.hasSuffix suffixes (Path.ofString s) = true
    · rw [if_pos hsuffix, List.filter_cons_of_pos hsuffix, List.filter_nil, lastOfStem_concat, ← ih]
      simp only [FileMap.files, List.mem_map, FileMap.mem_put_iff hkept.nodup]
      constructor
      · rintro ⟨e, rfl | ⟨he, hne⟩, rfl⟩
        · exact .inl rfl
        · exact .inr ⟨⟨e, he, rfl⟩, fun h => hne ((hkept.stem e he).trans h)⟩
      · rintro (rfl | ⟨⟨e, he, rfl⟩, hne⟩)
        · exact ⟨_, .inl rfl, rfl⟩
        · exact ⟨e, .inr ⟨he, fun h => hne ((hkept.stem e he).symm.trans h)⟩, rfl⟩
    · rw [if_neg hsuffix, List.filter_cons_of_neg hsuffix, List.filter_nil, List.append_nil, ih]

/-- A kept file has a name, and no divider is in it. -/
theorem parts_of_mem_files {suffixes paths : List String} (hsuffixes : suffixes ≠ [])
    (hnamed : "" ∉ suffixes) (hf : f ∈ (FileMap.ofPaths suffixes paths).files) :
    ∃ init, f.parts = init ++ [f.name] ∧ f.name ≠ "" ∧ '/' ∉ f.name.toList := by
  obtain ⟨e, he, rfl⟩ := List.mem_map.mp hf
  obtain ⟨hsuffix, s, -, hs⟩ := (FileMap.kept_ofPaths suffixes paths).file e he
  have hparts : e.2.parts ≠ [] := by
    intro hnil
    have hempty : e.2.suffix = "" := by
      rw [Path.suffix, Path.name, hnil]
      rfl
    rw [FileMap.hasSuffix, hempty, Bool.or_eq_true, List.isEmpty_iff, List.contains_iff_mem]
      at hsuffix
    rcases hsuffix with h | h
    · exact hsuffixes h
    · exact hnamed h
  have hname : e.2.name = e.2.parts.getLast hparts := by
    rw [Path.name, List.getLast?_eq_some_getLast hparts]
    rfl
  have hmem : e.2.name ∈ e.2.parts := hname ▸ List.getLast_mem hparts
  have hpieces : e.2.parts = (Path.pieces s).filter fun part => !part.isEmpty && part != "." := by
    rw [hs]
    rfl
  rw [hpieces] at hmem
  obtain ⟨hpiece, hfull⟩ := List.mem_filter.mp hmem
  obtain ⟨cs, hcs, hofList⟩ := List.mem_map.mp hpiece
  refine ⟨e.2.parts.dropLast, by rw [hname, List.dropLast_concat_getLast], ?_, ?_⟩
  · intro hempty
    rw [hempty] at hfull
    simp at hfull
  · rw [← hofList, String.toList_ofList]
    exact Text.not_mem_of_mem_splitList hcs

theorem getLast?_place {suffixes paths : List String} (hsuffixes : suffixes ≠ [])
    (hnamed : "" ∉ suffixes)
    (hf : f ∈ (FileMap.ofPaths suffixes paths).files) (h : t.follow f.text = .file place content) :
    place.getLast? = some f.name := by
  obtain ⟨init, hparts, hne, hno⟩ := parts_of_mem_files hsuffixes hnamed hf
  rw [Tree.getLast?_of_follow h, Path.getLast?_pieces hparts hne hno]

/-- **No two kept files are the same file.** -/
theorem place_ne_of_mem_files {suffixes paths : List String} (hsuffixes : suffixes ≠ [])
    (hnamed : "" ∉ suffixes) {f' : Path} (hf : f ∈ (FileMap.ofPaths suffixes paths).files)
    (hf' : f' ∈ (FileMap.ofPaths suffixes paths).files)
    (hne : f ≠ f') {place' : List String} {content' : ByteArray}
    (h : t.follow f.text = .file place content)
    (h' : t.follow f'.text = .file place' content') : place ≠ place' := by
  intro heq
  have hkept := FileMap.kept_ofPaths suffixes paths
  have hname : f.name = f'.name := by
    have hlast := getLast?_place hsuffixes hnamed hf h
    rw [heq, getLast?_place hsuffixes hnamed hf' h'] at hlast
    exact (Option.some.inj hlast).symm
  obtain ⟨e, he, rfl⟩ := List.mem_map.mp hf
  obtain ⟨e', he', rfl⟩ := List.mem_map.mp hf'
  have hstem : e.1 = e'.1 := by
    rw [hkept.stem e he, hkept.stem e' he', Path.stem, Path.stem, hname]
  exact hne (congrArg Prod.snd (List.inj_on_of_nodup_map hkept.nodup he he' hstem))

end ProjectLint
