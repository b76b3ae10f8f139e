import ProjectLint.Proofs.Columns
import ProjectLint.Proofs.Sorting

/-!
# Columns by name

The columns that are looked at are those that the property files list for models with a name,
without the ignored ones (`columns_eq`).  They are sorted by name and cut into runs, so that **each
group is all the columns of one name** (`groups_eq`).
-/

namespace ProjectLint.Wording

open Yaml

/-! ### The columns of all files -/

def docOf (t : Tree) (file : Path) : Document :=
  match t.readProperties file.text with
  | .ok d => d
  | .error _ => .plain .null

def wordScalar : Option String → Scalar
  | some s => .str s
  | none => .null

def wordValue (description : Option String) : Value := .scalar (wordScalar description)

def columnFor (file : Path) (column : Value) : Column :=
  ⟨.str (nameOf column), wordValue (descriptionOf column), file⟩

def keptColumns (ignored : List String) (file : Path) (columns : List Value) : List Column :=
  columns.filterMap fun c => if nameOf c ∈ ignored then none else some (columnFor file c)

def columnsFor (ignored : List String) (t : Tree) (file : Path) : List Column :=
  (columnsIn (docOf t file).root).filterMap fun c =>
    if nameOf c.2 ∈ ignored then none else some (columnFor file c.2)

variable {c : Column} {m root : Value} {l : List Column} {f file : Path}

variable {ignored : List String} {t : Tree} {name : String}

theorem mem_keptColumns {columns : List Value} :
    c ∈ keptColumns ignored f columns ↔ ∃ x ∈ columns, nameOf x ∉ ignored ∧ c = columnFor f x := by
  rw [keptColumns, List.mem_filterMap]
  constructor
  · rintro ⟨x, hx, h⟩
    split at h
    · cases h
    · rename_i hin
      exact ⟨x, hx, hin, (Option.some.inj h).symm⟩
  · rintro ⟨x, hx, hin, rfl⟩
    exact ⟨x, hx, if_neg hin⟩

theorem columnsFor_eq (ignored : List String) (t : Tree) (file : Path) :
    columnsFor ignored t file =
      keptColumns ignored file ((columnsIn (docOf t file).root).map (·.2)) := by
  rw [columnsFor, keptColumns, List.filterMap_map]
  rfl

theorem field_description {c : Value} (h : IsColumn c) :
    c.field "description" = .ok (wordValue (descriptionOf c)) := by
  obtain ⟨fields, name, rfl, -, hdesc⟩ := h
  rw [descriptionOf_eq]
  simp only [Value.field, Value.fieldD, Value.field?]
  cases hd : Entries.get? fields "description" with
  | none => rfl
  | some d => rcases Value.eq_of_isPlain (hdesc d hd) with rfl | ⟨s, rfl⟩ <;> rfl

theorem columnOf_eq (file : Path) (ignored : List String) {c : Value} (h : IsColumn c) :
    columnOf file ignored c = .ok (if nameOf c ∈ ignored then none
      else some (columnFor file c)) := by
  rw [columnOf, field_description h, ok_bind, field_name h, ok_bind]
  have hany : (ignored.any fun i => (Value.str (nameOf c)).same (.str i)) = true ↔
      nameOf c ∈ ignored := by
    simp [Value.same, Scalar.same]
  by_cases hin : nameOf c ∈ ignored
  · rw [if_pos hin, if_pos (hany.mpr hin)]
    rfl
  · rw [if_neg hin, if_neg fun h => hin (hany.mp h)]
    rfl

theorem reduceOption_map {α β : Type} (f : α → Option β) (l : List α) :
    (l.map f).reduceOption = l.filterMap f := by
  rw [List.reduceOption, List.filterMap_map]
  rfl

/-- The columns of one model entry. -/
theorem toExcept_columnsOfEntry (ignored : List String) (e : PropertyEntry) :
    (columnsOfEntry ignored e).toExcept = sectionItems e.body "columns" >>= fun columns =>
      (columns.mapM (columnOf e.file ignored)).map List.reduceOption := by
  rw [columnsOfEntry, Feed.toExcept_ofExcept, sectionItems]
  simp only [bind_assoc]
  cases hb : e.body with
  | map entries =>
    simp only [Value.fieldD, Value.field?]
    cases Entries.get? entries "columns" with
    | none => rfl
    | some columns =>
      simp only [ok_map, ok_bind, Option.getD_some]
      cases columns.items with
      | error f => rfl
      | ok items =>
        simp only [ok_bind]
        exact Feed.toExcept_filterMapE _ items
  | seq items => rfl
  | pair first second => rfl
  | scalar s => rfl
  | set members => rfl
  | enclosing shape => rfl

theorem toExcept_columnsOfEntry_eq {e : PropertyEntry} {columns : List Value}
    (hcolumns : sectionItems e.body "columns" = .ok columns) (hall : ∀ c ∈ columns, IsColumn c) :
    (columnsOfEntry ignored e).toExcept = .ok (keptColumns ignored e.file columns) := by
  have hwalk : columns.mapM (columnOf e.file ignored) =
      .ok (columns.map fun c => if nameOf c ∈ ignored then none else some (columnFor e.file c)) :=
    mapM_eq_ok_map fun c hc => columnOf_eq e.file ignored (hall c hc)
  rw [toExcept_columnsOfEntry, hcolumns, ok_bind, hwalk, ok_map, reduceOption_map, keptColumns]

/-! ### Listed columns -/

def namedModels (root : Value) : List Value :=
  match sectionItems root "models" with
  | .ok models => models.filter fun m => IsModel m
  | .error _ => []

def columnsOfModel (model : Value) : List Value :=
  match sectionItems model "columns" with
  | .ok columns => columns
  | .error _ => []

/-- **The columns that a document lists**: the column entries of its models that have a name. -/
def listedColumns (root : Value) : List Value := (namedModels root).flatMap columnsOfModel

/-- **A property file in order**: its models can be walked, those with a name have a scalar for it
and columns that can be walked, and the columns that are listed are columns. -/
structure Listable (root : Value) : Prop where
  models : ∃ models, sectionItems root "models" = .ok models
  name : ∀ m ∈ namedModels root, ∃ key, m.field "name" = .ok (.scalar key)
  columns : ∀ m ∈ namedModels root, ∃ columns, sectionItems m "columns" = .ok columns
  column : ∀ c ∈ listedColumns root, IsColumn c

instance decidableExistsOk {ε α : Type} {outcome : Except ε α} : Decidable (∃ a, outcome = .ok a) :=
  match outcome with
  | .ok a => isTrue ⟨a, rfl⟩
  | .error _ => isFalse fun ⟨_, h⟩ => nomatch h

instance decidableExistsScalar {ε : Type} {outcome : Except ε Value} :
    Decidable (∃ key, outcome = .ok (.scalar key)) :=
  match outcome with
  | .ok (.scalar key) => isTrue ⟨key, rfl⟩
  | .ok (.seq _) | .ok (.map _) | .ok (.set _) | .ok (.pair _ _) | .ok (.enclosing _) | .error _ =>
    isFalse fun ⟨_, h⟩ => nomatch h

instance (root : Value) : Decidable (Listable root) :=
  decidable_of_iff ((∃ models, sectionItems root "models" = .ok models) ∧
      (∀ m ∈ namedModels root, ∃ key, m.field "name" = .ok (.scalar key)) ∧
      (∀ m ∈ namedModels root, ∃ columns, sectionItems m "columns" = .ok columns) ∧
      ∀ c ∈ listedColumns root, IsColumn c)
    ⟨fun h => ⟨h.1, h.2.1, h.2.2.1, h.2.2.2⟩, fun h => ⟨h.models, h.name, h.columns, h.column⟩⟩

theorem mem_namedModels {models : List Value} (h : sectionItems root "models" = .ok models) :
    m ∈ namedModels root ↔ m ∈ models ∧ IsModel m := by
  simp [namedModels, h]

theorem columnsOfModel_eq {columns : List Value} (h : sectionItems m "columns" = .ok columns) :
    columnsOfModel m = columns := by
  rw [columnsOfModel, h]

def entryOf (file : Path) (model : Value) : PropertyEntry :=
  ⟨match model.field "name" with
    | .ok (.scalar key) => key
    | _ => .null, file, model⟩

theorem described?_of_isModel {key : Scalar} (h : IsModel m)
    (hkey : m.field "name" = .ok (.scalar key)) :
    described? file .all m = .ok (some (entryOf file m)) := by
  have hentry : entryOf file m = ⟨key, file, m⟩ := by rw [entryOf, hkey]
  obtain ⟨fields, name, rfl, hname, htruthy⟩ := h
  have hscalar : name = .scalar key := by
    simpa [Value.field, Value.fieldD, Value.field?, hname] using hkey
  subst hscalar
  rw [hentry, described?, hname]
  dsimp only
  rw [if_pos htruthy]
  rfl

theorem described?_of_not_isModel (h : ¬ IsModel m) : described? file .all m = .ok none := by
  cases m with
  | map fields =>
    rw [described?]
    cases hname : Entries.get? fields "name" with
    | none => rfl
    | some name =>
      have hfalse : ¬ name.truthy = true := fun htruthy => h ⟨fields, name, rfl, hname, htruthy⟩
      simp only [if_neg hfalse]
  | seq items => rfl
  | pair first second => rfl
  | scalar s => rfl
  | set members => rfl
  | enclosing shape => rfl

theorem name_of_described? (hm : IsModel m) {x : Option PropertyEntry}
    (h : described? file .all m = .ok x) :
    ∃ key, m.field "name" = .ok (.scalar key) ∧ x = some (entryOf file m) := by
  have hm' := hm
  obtain ⟨fields, name, rfl, hname, htruthy⟩ := hm'
  have hfield : (Value.map fields).field "name" = .ok name := by
    simp [Value.field, Value.fieldD, Value.field?, hname]
  have hrun := h
  rw [described?, hname] at hrun
  simp only [htruthy, if_true] at hrun
  obtain ⟨key, hkey, -⟩ := bind_eq_ok_iff.mp hrun
  obtain rfl := key?_eq_ok hkey
  exact ⟨key, hfield, Except.ok.inj (h.symm.trans (described?_of_isModel hm hfield))⟩

theorem docOf_eq {d : Document} (h : t.readProperties f.text = .ok d) : docOf t f = d := by
  rw [docOf, h]

theorem entriesOfFile_eq {d : Document} (hread : t.readProperties f.text = .ok d)
    (hlist : Listable d.root) :
    (entriesOfFile t "models" .all f).toExcept = .ok ((namedModels d.root).map (entryOf f)) := by
  obtain ⟨models, hmodels⟩ := hlist.models
  have hwalk : models.mapM (described? f .all) =
      .ok (models.map fun m => if IsModel m then some (entryOf f m) else none) := by
    refine mapM_eq_ok_map fun m hm => ?_
    by_cases hmodel : IsModel m
    · obtain ⟨key, hkey⟩ := hlist.name m ((mem_namedModels hmodels).mpr ⟨hm, hmodel⟩)
      rw [if_pos hmodel, described?_of_isModel hmodel hkey]
    · rw [if_neg hmodel, described?_of_not_isModel hmodel]
  rw [entriesOfFile, Feed.toExcept_ofExcept, hread, ok_bind, hmodels, ok_bind, pure_bind,
    Feed.toExcept_filterMapE, hwalk, ok_map, reduceOption_map, namedModels, hmodels]
  refine congrArg Except.ok ?_
  rw [← List.filterMap_eq_map, List.filterMap_filter]
  simp only [decide_eq_true_eq, Function.comp_apply]

section

variable {t : Tree} {paths : List String}

/-- **The columns of files in order** are those that are listed, all but the ignored ones. -/
theorem columns_eq (ignored : List String)
    (hfiles : ∀ f ∈ (propertyFiles paths).files, ∃ d, t.readProperties f.text = .ok d ∧
      Listable d.root) :
    (columns t ignored paths).toExcept = .ok ((propertyFiles paths).files.flatMap fun f =>
      keptColumns ignored f (listedColumns (docOf t f).root)) := by
  have hentries : (modelEntries t (propertyFiles paths).files .all).toExcept =
      .ok ((propertyFiles paths).files.flatMap fun f => (namedModels (docOf t f).root).map
        (entryOf f)) := by
    rw [modelEntries, Feed.toExcept_flatMap, List.flatMap_def]
    rw [mapM_eq_ok_map (g := fun f => (namedModels (docOf t f).root).map (entryOf f)), ok_map]
    intro f hf
    obtain ⟨d, hread, hlist⟩ := hfiles f hf
    rw [docOf_eq hread, entriesOfFile_eq hread hlist]
  rw [columns, Feed.toExcept_bind hentries, Feed.toExcept_flatMap]
  rw [mapM_eq_ok_map (g := fun e => keptColumns ignored e.file (columnsOfModel e.body)), ok_map]
  · refine congrArg Except.ok ?_
    rw [← List.flatMap_def, List.flatMap_assoc]
    refine List.flatMap_congr fun f _ => ?_
    rw [List.flatMap_map, keptColumns, listedColumns, List.filterMap_flatMap]
    rfl
  · intro e he
    obtain ⟨f, hf, he⟩ := List.mem_flatMap.mp he
    obtain ⟨m, hm, rfl⟩ := List.mem_map.mp he
    obtain ⟨d, hread, hlist⟩ := hfiles f hf
    rw [docOf_eq hread] at hm
    obtain ⟨columns, hcolumns⟩ := hlist.columns m hm
    have hwalk := columnsOfModel_eq hcolumns
    rw [toExcept_columnsOfEntry_eq (e := entryOf f m) hcolumns fun c hc => ?_, ← hwalk]
    · rfl
    · exact hlist.column c (List.mem_flatMap.mpr ⟨m, hm, hwalk ▸ hc⟩)

/-- **Where the columns can be collected**, the files are in order. -/
theorem listable_of_columns
    (hform : ∀ f ∈ (propertyFiles paths).files, ∀ d, t.readProperties f.text = .ok d →
      Described d.root)
    {all : List Column} (h : (columns t ignored paths).toExcept = .ok all) :
    ∀ f ∈ (propertyFiles paths).files, ∃ d, t.readProperties f.text = .ok d ∧ Listable d.root := by
  intro f hf
  obtain ⟨entries, hentries, h⟩ := Feed.toExcept_bind_eq_ok h
  rw [modelEntries, Feed.toExcept_flatMap, map_eq_ok_iff] at hentries
  obtain ⟨ess, hess, rfl⟩ := hentries
  rw [Feed.toExcept_flatMap, map_eq_ok_iff] at h
  obtain ⟨found, hfound, -⟩ := h
  obtain ⟨es, hin, hes⟩ := ok_of_mapM hess f hf
  rw [entriesOfFile, Feed.toExcept_ofExcept] at hes
  obtain ⟨feed, hfeed, hes⟩ := bind_eq_ok_iff.mp hes
  obtain ⟨d, hd, hfeed⟩ := bind_eq_ok_iff.mp hfeed
  obtain ⟨models, hmodels, hfeed⟩ := bind_eq_ok_iff.mp hfeed
  cases hfeed
  rw [Feed.toExcept_filterMapE, map_eq_ok_iff] at hes
  obtain ⟨xs, hxs, rfl⟩ := hes
  have hname : ∀ m ∈ namedModels d.root, ∃ key, m.field "name" = .ok (.scalar key) ∧
      entryOf f m ∈ xs.reduceOption := by
    intro m hm
    obtain ⟨hm, hmodel⟩ := (mem_namedModels hmodels).mp hm
    obtain ⟨x, hx, hdescribed⟩ := ok_of_mapM hxs m hm
    obtain ⟨key, hkey, rfl⟩ := name_of_described? hmodel hdescribed
    exact ⟨key, hkey, List.reduceOption_mem_iff.mpr hx⟩
  have hcolumns : ∀ m ∈ namedModels d.root, ∃ columns, sectionItems m "columns" = .ok columns := by
    intro m hm
    obtain ⟨key, -, hmem⟩ := hname m hm
    obtain ⟨cols, -, hcols⟩ := ok_of_mapM hfound _ (List.mem_flatten.mpr ⟨_, hin, hmem⟩)
    rw [toExcept_columnsOfEntry] at hcols
    obtain ⟨columns, hcolumns, -⟩ := bind_eq_ok_iff.mp hcols
    exact ⟨columns, hcolumns⟩
  refine ⟨d, hd, ⟨models, hmodels⟩, fun m hm => ?_, hcolumns, fun c hc => ?_⟩
  · obtain ⟨key, hkey, -⟩ := hname m hm
    exact ⟨key, hkey⟩
  · obtain ⟨m, hm, hc⟩ := List.mem_flatMap.mp hc
    obtain ⟨columns, hwalk⟩ := hcolumns m hm
    rw [columnsOfModel_eq hwalk] at hc
    exact (hform f hf d hd).column models hmodels m
      ((mem_namedModels hmodels).mp hm).1 columns hwalk c hc

end

theorem WellFormed.tidy (hwf : WellFormed root) (hlist : Listable root) : Tidy root := by
  obtain ⟨models, hmodels⟩ := hlist.models
  refine hwf.described.tidy hmodels fun m hm => ?_
  exact hlist.columns m ((mem_namedModels hmodels).mpr ⟨hm, hwf.model models hmodels m hm⟩)

theorem listedColumns_eq (hwf : WellFormed root) (htidy : Tidy root) :
    listedColumns root = (columnsIn root).map (·.2) := by
  have hmodels := htidy.models.sectionItems_eq
  have hnamed : namedModels root = (itemsUnder "models" root).map (·.2) := by
    rw [namedModels, hmodels]
    exact List.filter_eq_self.mpr fun m hm => decide_eq_true (hwf.model _ hmodels m hm)
  rw [listedColumns, hnamed, List.flatMap_map, columnsIn, List.map_flatMap]
  refine List.flatMap_congr fun m hm => ?_
  rw [columnsOfModel_eq (htidy.columns m hm).sectionItems_eq, List.map_map]
  rfl

/-! ### Sorting by name -/

def Column.key (c : Column) : String :=
  match c.name with
  | .scalar (.str s) => s
  | _ => ""

def Column.TextNamed (c : Column) : Prop := c.name = .str c.key

theorem before_eq {a b : Column} (ha : a.TextNamed) (hb : b.TextNamed) :
    a.name.before? b.name = .ok (decide (a.key < b.key)) := by
  rw [ha, hb]
  rfl

theorem key_of_not_text (h : ∀ s, c.name ≠ .str s) : c.key = "" := by
  unfold Column.key
  split
  · rename_i s hs
    exact absurd hs (h s)
  · rfl

theorem compares_key :
    Compares (fun a b : Column => a.name.before? b.name) fun a b => a.key ≤ b.key where
  of_true := by
    intro a b h
    rcases before?_cases h with ⟨s, t, hs, ht, hlt⟩ | ⟨ha, hb⟩
    · rw [Column.key, Column.key, hs, ht]
      exact Std.le_of_lt (of_decide_eq_true hlt.symm)
    · simp only [key_of_not_text ha, key_of_not_text hb, String.le_refl]
  of_false := by
    intro a b h
    rcases before?_cases h with ⟨s, t, hs, ht, hlt⟩ | ⟨ha, hb⟩
    · rw [Column.key, Column.key, hs, ht]
      exact String.not_lt.mp (of_decide_eq_false hlt.symm)
    · simp only [key_of_not_text ha, key_of_not_text hb, String.le_refl]
  trans := String.le_trans

/-! ### Runs -/

/-- The columns of one name. -/
def named (name : String) (l : List Column) : List Column := l.filter fun c => c.key == name

/-- **The runs of a sorted list**: each is all the columns of one name, and no two have the same. -/
structure Grouped (l : List Column) (groups : List (List Column)) : Prop where
  group : ∀ g ∈ groups, g ≠ [] ∧ ∀ c ∈ g, g = named c.key l
  cover : ∀ c ∈ l, ∃ g ∈ groups, c ∈ g
  distinct : groups.Pairwise fun g g' => ∀ c ∈ g, ∀ c' ∈ g', c.key ≠ c'.key

theorem runs_cons (c : Column) (l : List Column) :
    runs (c :: l) = match runs l with
      | [] => [[c]]
      | [] :: more => [c] :: more
      | (d :: run) :: more =>
        if c.name.same d.name then (c :: d :: run) :: more else [c] :: (d :: run) :: more := rfl

theorem flatten_runs : ∀ l : List Column, (runs l).flatten = l := by
  intro l
  induction l with
  | nil => rfl
  | cons c l ih =>
    rw [runs_cons]
    split
    · rename_i h
      rw [h] at ih
      rw [← ih]
      rfl
    · rename_i more h
      rw [h] at ih
      rw [← ih]
      rfl
    · rename_i d run more h
      rw [h] at ih
      split
      · rw [← ih]
        rfl
      · rw [← ih]
        rfl

theorem same_name_iff {a b : Column} (ha : a.TextNamed) (hb : b.TextNamed) :
    a.name.same b.name = true ↔ a.key = b.key := by
  rw [ha, hb]
  simp [Value.same, Scalar.same]

theorem key_of_mem_named (h : c ∈ named name l) : c.key = name :=
  eq_of_beq (List.mem_filter.mp h).2

theorem named_cons_of_eq (l : List Column) (h : c.key = name) :
    named name (c :: l) = c :: named name l := List.filter_cons_of_pos (by simpa using h)

theorem named_cons_of_ne (l : List Column) (h : c.key ≠ name) :
    named name (c :: l) = named name l := List.filter_cons_of_neg (by simpa using h)

theorem named_flatMap (name : String) (files : List Path) (k : Path → List Column) :
    named name (files.flatMap k) = files.flatMap fun f => named name (k f) := by
  rw [named, List.filter_flatMap]
  rfl

def Column.text? (c : Column) : Option String := textOf (some c.description)

theorem text?_columnFor (f : Path) (x : Value) : (columnFor f x).text? = descriptionOf x := by
  rw [Column.text?, columnFor, wordValue]
  cases descriptionOf x <;> rfl

def wordsOf (group : List Column) : List (Option String) := group.map Column.text?

theorem map_named_keptColumns (f : Path) (columns : List Value) (hname : name ∉ ignored) :
    wordsOf (named name (keptColumns ignored f columns)) =
      (columns.filter fun c => nameOf c == name).map descriptionOf := by
  induction columns with
  | nil => rfl
  | cons c rest ih =>
    rw [keptColumns, wordsOf] at ih ⊢
    by_cases hc : nameOf c = name
    · have hin : nameOf c ∉ ignored := hc ▸ hname
      rw [List.filterMap_cons, if_neg hin, List.filter_cons_of_pos (by simpa using hc),
        List.map_cons, ← ih]
      dsimp only
      rw [named_cons_of_eq (c := columnFor f c) _ hc, List.map_cons, text?_columnFor]
    · rw [List.filter_cons_of_neg (by simpa using hc), ← ih]
      by_cases hin : nameOf c ∈ ignored
      · rw [List.filterMap_cons, if_pos hin]
      · rw [List.filterMap_cons, if_neg hin]
        dsimp only
        rw [named_cons_of_ne (c := columnFor f c) _ hc]

theorem Grouped.mem {groups : List (List Column)} (h : Grouped l groups) {g : List Column}
    (hg : g ∈ groups) (hc : c ∈ g) : c ∈ l := by
  have hnamed := (h.group g hg).2 c hc
  rw [hnamed] at hc
  exact List.mem_of_mem_filter hc

/-- A column goes to the run of its name. -/
theorem Grouped.join {d : Column} {run : List Column} {more : List (List Column)}
    (h : Grouped l ((d :: run) :: more))
    (heq : c.key = d.key) : Grouped (c :: l) ((c :: d :: run) :: more) := by
  have hrun : d :: run = named d.key l := (h.group _ List.mem_cons_self).2 d List.mem_cons_self
  have hkeys : ∀ x ∈ c :: d :: run, x.key = d.key := by
    exact List.forall_mem_cons.mpr ⟨heq, fun _ hx => key_of_mem_named (hrun ▸ hx)⟩
  obtain ⟨hfirst, hrest⟩ := List.pairwise_cons.mp h.distinct
  refine ⟨fun g hg => ?_, fun x hx => ?_, List.pairwise_cons.mpr ⟨fun g hg x hx y hy => ?_, hrest⟩⟩
  · rcases List.mem_cons.mp hg with rfl | hg
    · refine ⟨List.cons_ne_nil _ _, fun x hx => ?_⟩
      rw [hkeys x hx, named_cons_of_eq l heq, ← hrun]
    · obtain ⟨hne, hall⟩ := h.group g (List.mem_cons_of_mem _ hg)
      refine ⟨hne, fun x hx => ?_⟩
      rw [named_cons_of_ne l (heq ▸ hfirst g hg d List.mem_cons_self x hx)]
      exact hall x hx
  · rcases List.mem_cons.mp hx with rfl | hx
    · exact ⟨_, List.mem_cons_self, List.mem_cons_self⟩
    · obtain ⟨g, hg, hxg⟩ := h.cover x hx
      rcases List.mem_cons.mp hg with rfl | hg
      · exact ⟨_, List.mem_cons_self, List.mem_cons_of_mem _ hxg⟩
      · exact ⟨g, List.mem_cons_of_mem _ hg, hxg⟩
  · rw [hkeys x hx]
    exact hfirst g hg d List.mem_cons_self y hy

theorem Grouped.fresh {groups : List (List Column)} (h : Grouped l groups)
    (hnew : ∀ x ∈ l, c.key ≠ x.key) :
    Grouped (c :: l) ([c] :: groups) := by
  refine ⟨fun g hg => ?_, fun x hx => ?_,
    List.pairwise_cons.mpr ⟨fun g hg x hx y hy => ?_, h.distinct⟩⟩
  · rcases List.mem_cons.mp hg with rfl | hg
    · refine ⟨List.cons_ne_nil _ _, fun x hx => ?_⟩
      obtain rfl := List.mem_singleton.mp hx
      have hnone : named x.key l = [] :=
        List.filter_eq_nil_iff.mpr fun y hy => by simpa using (hnew y hy).symm
      rw [named_cons_of_eq l rfl, hnone]
    · obtain ⟨hne, hall⟩ := h.group g hg
      refine ⟨hne, fun x hx => ?_⟩
      rw [named_cons_of_ne l (hnew x (h.mem hg hx))]
      exact hall x hx
  · rcases List.mem_cons.mp hx with rfl | hx
    · exact ⟨_, List.mem_cons_self, List.mem_cons_self⟩
    · obtain ⟨g, hg, hxg⟩ := h.cover x hx
      exact ⟨g, List.mem_cons_of_mem _ hg, hxg⟩
  · obtain rfl := List.mem_singleton.mp hx
    exact hnew y (h.mem hg hy)

/-- **A sorted list is cut into one run for each name.** -/
theorem grouped_runs : ∀ l : List Column, (∀ c ∈ l, c.TextNamed) →
    l.Pairwise (fun a b => a.key ≤ b.key) →
    Grouped l (runs l) := by
  intro l
  induction l with
  | nil => intro _ _; exact ⟨fun g hg => (nomatch hg), fun x hx => (nomatch hx), List.Pairwise.nil⟩
  | cons c l ih =>
    intro hnames hsorted
    obtain ⟨hc, hl⟩ := List.pairwise_cons.mp hsorted
    have hgrouped := ih (fun x hx => hnames x (List.mem_cons_of_mem _ hx)) hl
    have hflat := flatten_runs l
    rw [runs_cons]
    cases hruns : runs l with
    | nil =>
      rw [hruns] at hflat hgrouped
      have hnil : l = [] := hflat.symm
      exact hgrouped.fresh fun x hx => by rw [hnil] at hx; cases hx
    | cons g more =>
      rw [hruns] at hflat hgrouped
      cases g with
      | nil => exact absurd rfl (hgrouped.group [] List.mem_cons_self).1
      | cons d run =>
        have hhead : l = d :: (run ++ more.flatten) := hflat.symm
        have hd : d ∈ l := by rw [hhead]; exact List.mem_cons_self
        have hsame := same_name_iff (hnames c List.mem_cons_self)
          (hnames d (List.mem_cons_of_mem _ hd))
        dsimp only
        by_cases heq : c.key = d.key
        · rw [if_pos (hsame.mpr heq)]
          exact hgrouped.join heq
        · rw [if_neg fun h => heq (hsame.mp h)]
          refine hgrouped.fresh fun x hx => ?_
          -- the list is sorted, so all names in it are behind that of its first column
          have hle : d.key ≤ x.key := by
            rw [hhead] at hx hl
            rcases List.mem_cons.mp hx with rfl | hx
            · exact String.le_refl _
            · exact (List.pairwise_cons.mp hl).1 x hx
          intro hcx
          rw [← hcx] at hle
          exact heq (String.le_antisymm (hc d hd) hle)

/-! ### Groups -/

def keyOf : List Column → String
  | c :: _ => c.key
  | [] => ""

/-- **All the columns of one name** among the entries of some files, and only these. -/
structure GroupIn (files : List Path) (source : Path → List Value) (group : List Column)
    (name : String) : Prop where
  called : groupName group = .str name
  key : ∀ c ∈ group, c.key = name
  described : group.map (·.description) = (wordsOf group).map wordValue
  words : (wordsOf group).Perm
    (files.flatMap fun f => ((source f).filter fun x => nameOf x == name).map descriptionOf)
  mem : ∀ c, c ∈ group ↔ ∃ f ∈ files, ∃ x ∈ source f, nameOf x = name ∧ c = columnFor f x

/-- **Each group is that of a name**, which is not ignored. -/
theorem Grouped.groupIn {files : List Path} {source : Path → List Value} {sorted : List Column}
    {found : List (List Column)} (h : Grouped sorted found)
    (hperm : sorted.Perm (files.flatMap fun f => keptColumns ignored f (source f)))
    {group : List Column}
    (hg : group ∈ found) : keyOf group ∉ ignored ∧ GroupIn files source group (keyOf group) := by
  obtain ⟨hne, hall⟩ := h.group group hg
  obtain ⟨c, rest, rfl⟩ := List.exists_cons_of_ne_nil hne
  have hnamed := hall c List.mem_cons_self
  have hmem : ∀ c', c' ∈ c :: rest ↔ (∃ f ∈ files, ∃ x ∈ source f, nameOf x ∉ ignored ∧
      c' = columnFor f x) ∧
      c'.key = c.key := by
    intro c'
    rw [hnamed, named, List.mem_filter, hperm.mem_iff, List.mem_flatMap, beq_iff_eq]
    simp only [mem_keptColumns]
  obtain ⟨⟨f, hf, x, hx, hin, rfl⟩, -⟩ := (hmem c).mp List.mem_cons_self
  refine ⟨hin, rfl, fun c' hc' => ((hmem c').mp hc').2, ?_, ?_, fun c' => ?_⟩
  · rw [wordsOf, List.map_map]
    refine List.map_congr_left fun c' hc' => ?_
    obtain ⟨⟨f', -, x', -, -, rfl⟩, -⟩ := (hmem c').mp hc'
    rw [Function.comp_apply, text?_columnFor]
    rfl
  · have hgroup : (columnFor f x :: rest).Perm
        (named (nameOf x) (files.flatMap fun f => keptColumns ignored f (source f))) := by
      rw [hnamed]
      exact hperm.filter _
    refine (hgroup.map Column.text?).trans (.of_eq ?_)
    rw [named_flatMap, List.map_flatMap]
    exact List.flatMap_congr fun f' _ => map_named_keptColumns f' (source f') hin
  · rw [hmem c']
    constructor
    · rintro ⟨⟨f', hf', x', hx', -, rfl⟩, hkey⟩
      exact ⟨f', hf', x', hx', hkey, rfl⟩
    · rintro ⟨f', hf', x', hx', hname, rfl⟩
      have hname' : nameOf x' = nameOf x := hname
      exact ⟨⟨f', hf', x', hx', hname' ▸ hin, rfl⟩, hname⟩

/-- **The groups of the columns**: if the files are in order there is one for each name, with all
its columns. -/
theorem groups_eq {paths : List String} (ignored : List String)
    (hfiles : ∀ f ∈ (propertyFiles paths).files, ∃ d, t.readProperties f.text = .ok d ∧
      Listable d.root) :
    ∃ found sorted, groups t ignored paths = .ok found ∧ Grouped sorted found ∧
      sorted.Perm ((propertyFiles paths).files.flatMap fun f =>
        keptColumns ignored f (listedColumns (docOf t f).root)) := by
  have hall := columns_eq ignored hfiles
  have hnames : ∀ c ∈ (propertyFiles paths).files.flatMap fun f =>
      keptColumns ignored f (listedColumns (docOf t f).root), c.TextNamed := by
    intro c hc
    obtain ⟨f, -, hc⟩ := List.mem_flatMap.mp hc
    obtain ⟨x, -, -, rfl⟩ := mem_keptColumns.mp hc
    rfl
  obtain ⟨sorted, hrun⟩ := exists_sortBy fun a ha b hb => ⟨_, before_eq (hnames a ha) (hnames b hb)⟩
  have hperm := perm_of_sortBy hrun
  have hsorted := compares_key.pairwise_of_sortBy hrun
  refine ⟨runs sorted, sorted, ?_,
    grouped_runs sorted (fun c hc => hnames c (hperm.mem_iff.mp hc)) hsorted, hperm⟩
  rw [groups, hall, ok_bind, hrun, ok_bind]
  rfl

theorem groups_spec {paths : List String} {found : List (List Column)}
    (hwf : ∀ f ∈ (propertyFiles paths).files, ∀ d, t.readProperties f.text = .ok d →
      WellFormed d.root)
    (h : groups t ignored paths = .ok found) :
    (∀ f ∈ (propertyFiles paths).files, t.readProperties f.text = .ok (docOf t f) ∧
      Tidy (docOf t f).root) ∧ ∃ sorted, sorted.Perm
        ((propertyFiles paths).files.flatMap (columnsFor ignored t)) ∧ Grouped sorted found := by
  obtain ⟨all, hall, -⟩ := bind_eq_ok_iff.mp h
  have hlist := listable_of_columns (fun f hf d hd => (hwf f hf d hd).described) hall
  have hfiles : ∀ f ∈ (propertyFiles paths).files,
      t.readProperties f.text = .ok (docOf t f) ∧ Tidy (docOf t f).root := by
    intro f hf
    obtain ⟨d, hread, hd⟩ := hlist f hf
    rw [docOf_eq hread]
    exact ⟨hread, (hwf f hf d hread).tidy hd⟩
  obtain ⟨found', sorted, hfound', hgrouped, hperm⟩ := groups_eq ignored hlist
  obtain rfl := Except.ok.inj (h.symm.trans hfound')
  refine ⟨hfiles, sorted, hperm.trans (.of_eq (List.flatMap_congr fun f hf => ?_)), hgrouped⟩
  obtain ⟨hread, htidy⟩ := hfiles f hf
  rw [listedColumns_eq (hwf f hf _ hread) htidy, columnsFor_eq]

end ProjectLint.Wording
