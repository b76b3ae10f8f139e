import Mathlib.Data.List.Forall2
import ProjectLint.Proofs.ColumnGroups

/-!
# Groups of columns in their order

Whatever the descriptions of columns are like, all that is listed in files which can be walked is
collected: file by file, model by model, column by column, without the ignored names
(`columns_eq_ok`).  Sorting is stable and runs are cut from a sorted list, so **a group is the
columns of its name in the order in which they were collected**; `groups_by_name` says this, and
that the names of the groups ascend.
-/

namespace ProjectLint.Wording

open Yaml

/-! ### What is collected -/

def listedColumn (file : Path) (column : Value) : Column :=
  ⟨valueUnder column "name", valueUnder column "description", file⟩

def isIgnored (ignored : List String) (c : Column) : Bool :=
  ignored.any fun i => c.name.same (.str i)

def collectedIn (t : Tree) (ignored : List String) (file : Path) : List Column :=
  ((listedColumns (docOf t file).root).map (listedColumn file)).filter fun c => !isIgnored ignored c

/-- **All columns that are looked at**, in the order of the files that are kept. -/
def collected (t : Tree) (ignored paths : List String) : List Column :=
  (propertyFiles paths).files.flatMap (collectedIn t ignored)

/-- A file that can be walked: it is read, it lists models, and those that have a name list
columns. -/
structure Walked (t : Tree) (file : Path) : Prop where
  document : t.readProperties file.text = .ok (docOf t file)
  models : ∃ models, sectionItems (docOf t file).root "models" = .ok models
  columns : ∀ m ∈ namedModels (docOf t file).root, ∃ columns, sectionItems m "columns" = .ok columns

theorem eq_of_columnOf {file : Path} {ignored : List String} {column : Value} {x : Option Column}
    (h : columnOf file ignored column = .ok x) :
    x = if isIgnored ignored (listedColumn file column) then none
      else some (listedColumn file column) := by
  obtain ⟨description, hdescription, h⟩ := bind_eq_ok_iff.mp h
  obtain ⟨name, hname, h⟩ := bind_eq_ok_iff.mp h
  rw [listedColumn, valueUnder_eq hname, valueUnder_eq hdescription]
  exact (Except.ok.inj h).symm

theorem eq_of_columnsOfEntry {ignored : List String} {e : PropertyEntry} {found : List Column}
    (h : (columnsOfEntry ignored e).toExcept = .ok found) :
    (∃ columns, sectionItems e.body "columns" = .ok columns) ∧
      found = ((columnsOfModel e.body).map (listedColumn e.file)).filter fun c =>
        !isIgnored ignored c := by
  rw [toExcept_columnsOfEntry] at h
  obtain ⟨columns, hcolumns, h⟩ := bind_eq_ok_iff.mp h
  obtain ⟨xs, hxs, rfl⟩ := map_eq_ok_iff.mp h
  refine ⟨⟨columns, hcolumns⟩, ?_⟩
  rw [eq_map_of_mapM hxs fun c _ x hx => eq_of_columnOf hx, reduceOption_map,
    columnsOfModel_eq hcolumns, ← List.filterMap_eq_filter, List.filterMap_map]
  refine List.filterMap_congr fun c _ => ?_
  rw [Function.comp_apply, Option.guard]
  cases isIgnored ignored (listedColumn e.file c) <;> rfl

theorem eq_of_entriesOfFile {t : Tree} {f : Path} {es : List PropertyEntry}
    (h : (entriesOfFile t "models" .all f).toExcept = .ok es) :
    t.readProperties f.text = .ok (docOf t f) ∧
    (∃ models, sectionItems (docOf t f).root "models" = .ok models) ∧
    es = (namedModels (docOf t f).root).map (entryOf f) := by
  rw [entriesOfFile, Feed.toExcept_ofExcept] at h
  obtain ⟨feed, hfeed, h⟩ := bind_eq_ok_iff.mp h
  obtain ⟨d, hd, hfeed⟩ := bind_eq_ok_iff.mp hfeed
  obtain ⟨models, hmodels, hfeed⟩ := bind_eq_ok_iff.mp hfeed
  cases hfeed
  rw [Feed.toExcept_filterMapE, map_eq_ok_iff] at h
  obtain ⟨xs, hxs, rfl⟩ := h
  have hall : xs = models.map fun m => if IsModel m then some (entryOf f m) else none := by
    refine eq_map_of_mapM hxs fun m _ x hx => ?_
    by_cases hm : IsModel m
    · obtain ⟨key, -, rfl⟩ := name_of_described? hm hx
      rw [if_pos hm]
    · rw [described?_of_not_isModel hm] at hx
      rw [if_neg hm, Except.ok.inj hx]
  rw [docOf_eq hd]
  refine ⟨hd, ⟨models, hmodels⟩, ?_⟩
  rw [hall, reduceOption_map, namedModels, hmodels, ← List.filterMap_eq_map, List.filterMap_filter]
  simp only [decide_eq_true_eq, Function.comp_apply]

/-- **What is collected**: if it is, all kept files can be walked, and it is all that they list. -/
theorem columns_eq_ok {t : Tree} {ignored paths : List String} {all : List Column}
    (h : (columns t ignored paths).toExcept = .ok all) :
    (∀ f ∈ (propertyFiles paths).files, Walked t f) ∧ all = collected t ignored paths := by
  obtain ⟨entries, hentries, h⟩ := Feed.toExcept_bind_eq_ok h
  rw [modelEntries, Feed.toExcept_flatMap, map_eq_ok_iff] at hentries
  obtain ⟨ess, hess, rfl⟩ := hentries
  rw [Feed.toExcept_flatMap, map_eq_ok_iff] at h
  obtain ⟨found, hfound, rfl⟩ := h
  have hfiles := eq_map_of_mapM hess fun f _ es hes => (eq_of_entriesOfFile hes).2.2
  have hcolumns := eq_map_of_mapM hfound fun e _ l hl => (eq_of_columnsOfEntry hl).2
  refine ⟨fun f hf => ?_, ?_⟩
  · obtain ⟨es, hin, hes⟩ := ok_of_mapM hess f hf
    obtain ⟨hdocument, hmodels, rfl⟩ := eq_of_entriesOfFile hes
    refine ⟨hdocument, hmodels, fun m hm => ?_⟩
    obtain ⟨l, -, hl⟩ := ok_of_mapM hfound (entryOf f m)
      (List.mem_flatten.mpr ⟨_, hin, List.mem_map.mpr ⟨m, hm, rfl⟩⟩)
    exact (eq_of_columnsOfEntry hl).1
  · rw [hcolumns, hfiles, ← List.flatMap_def, ← List.flatMap_def, List.flatMap_assoc, collected]
    refine List.flatMap_congr fun f _ => ?_
    rw [List.flatMap_map, collectedIn, listedColumns, List.map_flatMap, List.filter_flatMap]
    rfl

/-! ### Groups -/

/-- **The names of the runs of a sorted list ascend.** -/
theorem pairwise_keyOf_runs {l : List Column} (hnames : ∀ c ∈ l, c.TextNamed)
    (hsorted : l.Pairwise fun a b => a.key ≤ b.key) :
    ((runs l).map keyOf).Pairwise (· < ·) := by
  have hgrouped := grouped_runs l hnames hsorted
  have hle : (runs l).Pairwise fun g g' => ∀ c ∈ g, ∀ c' ∈ g', c.key ≤ c'.key := by
    rw [← flatten_runs l] at hsorted
    exact (List.pairwise_flatten.mp hsorted).2
  rw [List.pairwise_map]
  refine (hle.and hgrouped.distinct).imp_of_mem fun {g g'} hg hg' ⟨hle, hne⟩ => ?_
  obtain ⟨c, rest, rfl⟩ := List.exists_cons_of_ne_nil (hgrouped.group g hg).1
  obtain ⟨c', rest', rfl⟩ := List.exists_cons_of_ne_nil (hgrouped.group g' hg').1
  exact Std.lt_of_le_of_ne (hle c List.mem_cons_self c' List.mem_cons_self)
    (hne c List.mem_cons_self c' List.mem_cons_self)

/-- **A group of a name**: it has columns, all have the name, and it is what was collected for the
name, in order. -/
structure NameGroup (all : List Column) (name : String) (group : List Column) : Prop where
  called : groupName group = .str name
  nonempty : group ≠ []
  named : ∀ c ∈ group, c.name = .str name
  ordered : group = all.filter fun c => c.name.same (.str name)

theorem textNamed_of_name {c : Column} {name : String} (h : c.name = .str name) : c.TextNamed := by
  rw [Column.TextNamed, Column.key, h]

theorem named_eq_filter {l : List Column} (hnames : ∀ c ∈ l, c.TextNamed) (name : String) :
    named name l = l.filter fun c => c.name.same (.str name) := by
  refine List.filter_congr fun c hc => ?_
  rw [hnames c hc]
  rfl

/-- **Columns are grouped by name.**  If grouping comes to an end and all names are texts, every
file that is kept could be walked.  There is one group for each of a list of ascending names; it
holds the columns of its name in the order in which they were collected, file by file and in the
order of each document.  All groups together are what was collected: the columns of the models with
a name, but for the ignored ones. -/
theorem groups_by_name {t : Tree} {ignored paths : List String} {found : List (List Column)}
    (h : groups t ignored paths = .ok found)
    (hnames : ∀ c ∈ collected t ignored paths, ∃ name, c.name = .str name) :
    (∀ f ∈ (propertyFiles paths).files, Walked t f) ∧
    (∃ names : List String, names.Pairwise (· < ·) ∧
      List.Forall₂ (NameGroup (collected t ignored paths)) names found) ∧
    found.flatten.Perm (collected t ignored paths) := by
  obtain ⟨all, hall, hrest⟩ := bind_eq_ok_iff.mp h
  obtain ⟨hwalked, rfl⟩ := columns_eq_ok hall
  obtain ⟨sorted, hrun, hruns⟩ := bind_eq_ok_iff.mp hrest
  obtain rfl : runs sorted = found := Except.ok.inj hruns
  have htexts : ∀ c ∈ collected t ignored paths, c.TextNamed := by
    intro c hc
    obtain ⟨name, hname⟩ := hnames c hc
    exact textNamed_of_name hname
  have hperm := perm_of_sortBy hrun
  have hsorted := compares_key.pairwise_of_sortBy hrun
  have htexts' : ∀ c ∈ sorted, c.TextNamed := fun c hc => htexts c (hperm.mem_iff.mp hc)
  have hgrouped := grouped_runs sorted htexts' hsorted
  refine ⟨hwalked, ⟨(runs sorted).map keyOf, pairwise_keyOf_runs htexts' hsorted, ?_⟩, ?_⟩
  · rw [List.forall₂_map_left_iff, List.forall₂_same]
    intro g hg
    obtain ⟨hne, hnamed⟩ := hgrouped.group g hg
    obtain ⟨c, rest, rfl⟩ := List.exists_cons_of_ne_nil hne
    have hkeyed : KeyedBy (fun a b : Column => a.name.before? b.name) Column.key
        (collected t ignored paths) :=
      fun a ha b hb => before_eq (htexts a ha) (htexts b hb)
    have hgroup : c :: rest = named c.key (collected t ignored paths) :=
      (hnamed c List.mem_cons_self).trans (filter_sortBy compares_key hkeyed hrun c.key)
    refine ⟨htexts' c (hgrouped.mem hg List.mem_cons_self), hne, fun x hx => ?_, ?_⟩
    · rw [htexts' x (hgrouped.mem hg hx), key_of_mem_named (hgroup ▸ hx)]
      rfl
    · exact hgroup.trans (named_eq_filter htexts c.key)
  · rw [flatten_runs]
    exact hperm

/-! ### Columns of two files -/

def modelDocument (model : String) (columns : List Value) : Document :=
  .plain (.record [("models", .seq [.record [("name", .str model), ("columns", .seq columns)]])])

def bareColumn (name : String) : Value := .record [("name", .str name)]

def numberedColumn : Value := .record [("name", .str "a"), ("description", .int 1)]

def unordered : Tree := ⟨[
  (["a.yml"], .file "models:\n- name: m\n  columns:\n  - name: b\n  - name: a\n".toUTF8),
  (["b.yml"],
    .file "models:\n- name: n\n  columns:\n  - name: a\n    description: 1\n  - name: z\n".toUTF8)]⟩

theorem readProperties_unordered :
    unordered.readProperties "a.yml" = .ok (modelDocument "m" [bareColumn "b", bareColumn "a"]) ∧
      unordered.readProperties "b.yml" = .ok (modelDocument "n" [numberedColumn, bareColumn "z"]) :=
  ⟨eq_of_yields (by decide +kernel), eq_of_yields (by decide +kernel)⟩

def firstFile : Path := .ofString "a.yml"

def secondFile : Path := .ofString "b.yml"

theorem collected_unordered : collected unordered ["z"] ["a.yml", "b.yml"] =
    [⟨.str "b", .null, firstFile⟩, ⟨.str "a", .null, firstFile⟩,
      ⟨.str "a", .int 1, secondFile⟩] := by
  have hfiles : (propertyFiles ["a.yml", "b.yml"]).files = [firstFile, secondFile] := rfl
  rw [collected, hfiles, List.flatMap_cons, List.flatMap_cons, List.flatMap_nil, collectedIn,
    collectedIn, docOf_eq (f := firstFile) readProperties_unordered.1,
      docOf_eq (f := secondFile) readProperties_unordered.2]
  rfl

theorem groups_unordered : groups unordered ["z"] ["a.yml", "b.yml"] =
    .ok [[⟨.str "a", .null, firstFile⟩, ⟨.str "a", .int 1, secondFile⟩],
      [⟨.str "b", .null, firstFile⟩]] := by
  have hfiles : (propertyFiles ["a.yml", "b.yml"]).files = [firstFile, secondFile] := rfl
  have hfirst : unordered.readProperties firstFile.text = _ := readProperties_unordered.1
  have hsecond : unordered.readProperties secondFile.text = _ := readProperties_unordered.2
  rw [groups, columns, hfiles, modelEntries, Feed.flatMap, Feed.flatMap, Feed.flatMap,
    entriesOfFile, entriesOfFile, hfirst, hsecond]
  rfl

/-- The group of a comes first and has the column of the first file before that of the second. -/
theorem groups_by_name_unordered :
    groups unordered ["z"] ["a.yml", "b.yml"] =
      .ok [[⟨.str "a", .null, firstFile⟩, ⟨.str "a", .int 1, secondFile⟩],
        [⟨.str "b", .null, firstFile⟩]] ∧
    Walked unordered firstFile ∧
    ∃ names : List String, names.Pairwise (· < ·) ∧
      List.Forall₂ (NameGroup (collected unordered ["z"] ["a.yml", "b.yml"])) names
        [[⟨.str "a", .null, firstFile⟩, ⟨.str "a", .int 1, secondFile⟩],
          [⟨.str "b", .null, firstFile⟩]] := by
  have htexts : ∀ c ∈ collected unordered ["z"] ["a.yml", "b.yml"], ∃ name, c.name = .str name := by
    rw [collected_unordered]
    simp
  obtain ⟨hwalked, hnames, -⟩ := groups_by_name groups_unordered htexts
  exact ⟨groups_unordered, hwalked firstFile List.mem_cons_self, hnames⟩

end ProjectLint.Wording
