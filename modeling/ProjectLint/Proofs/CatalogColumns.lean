import Mathlib.Data.List.Forall2
import Mathlib.Data.Set.Lattice
import Mathlib.Data.Set.SymmDiff
import Mathlib.Order.CompletePartialOrder
import Mathlib.Order.ConditionallyCompleteLattice.Basic
import ProjectLint.Checks.Columns
import ProjectLint.Proofs.Findings
import ProjectLint.Proofs.Lineage

/-!
# Columns of models in the catalog

A model is compared with what the catalog has under its id.  Names of columns are taken in lower
case, so that several columns of a node may give one name, and what is compared are **the sets of
these names** (`columnSet`).  What is shown of two sets are the names in one of them only
(`Splits`), which make up their symmetric difference.

`model_columns_agree_iff` says that the check passes just if the two sets agree for every model, and
what it prints otherwise.
-/

namespace ProjectLint

theorem forall₂_of_mapM {α β : Type} {f : α → Except Fault β} {R : α → β → Prop}
    (hspec : ∀ a b, f a = .ok b → R a b) :
    ∀ {l : List α} {bs : List β}, l.mapM f = .ok bs → List.Forall₂ R l bs := by
  intro l
  induction l with
  | nil =>
    intro bs h
    cases h
    exact .nil
  | cons a l ih =>
    intro bs h
    obtain ⟨b, rest, hb, hrest, rfl⟩ := mapM_cons_eq_ok_iff.mp h
    exact .cons (hspec a b hb) (ih hrest)

namespace Columns

/-! ### Names of columns -/

/-- **The column names of a node**, in lower case. -/
def columnSet (node : Value) : Set String :=
  {name | ∃ columns key column, node.fieldD "columns" (.map []) = .ok (.map columns) ∧
    (.str key, column) ∈ columns ∧ Text.lower key = name}

theorem mem_columnNames_iff {columns : Value} {names : List String}
    (h : columnNames columns = .ok names) {name : String} :
    name ∈ names ↔ ∃ es key column, columns = .map es ∧ (.str key, column) ∈ es ∧
      Text.lower key = name := by
  obtain ⟨keys, hkeys, h⟩ := bind_eq_ok_iff.mp h
  obtain ⟨texts, htexts, h⟩ := bind_eq_ok_iff.mp h
  cases h
  obtain ⟨es, hes, rfl⟩ := map_eq_ok_iff.mp hkeys
  have hcolumns : columns = .map es := by
    cases columns with
    | map es' => rw [Except.ok.inj hes]
    | _ => cases hes
  rw [lowered, List.mem_eraseDups, List.mem_map]
  constructor
  · rintro ⟨key, hkey, rfl⟩
    obtain ⟨k, hk, hid⟩ := mem_of_mapM htexts key hkey
    obtain ⟨e, he, rfl⟩ := List.mem_map.mp hk
    exact ⟨es, key, e.2, hcolumns, idText_eq_ok hid ▸ he, rfl⟩
  · rintro ⟨es', key, column, heq, he, rfl⟩
    obtain rfl : es = es' := Value.map.inj (hcolumns.symm.trans heq)
    obtain ⟨key', hkey', hid⟩ := ok_of_mapM htexts (.str key) (List.mem_map.mpr ⟨_, he, rfl⟩)
    cases hid
    exact ⟨key, hkey', rfl⟩

theorem mem_columnNames_iff_columnSet {node columns : Value} {names : List String}
    (hcolumns : node.fieldD "columns" (.map []) = .ok columns) (h : columnNames columns = .ok names)
    (name : String) :
    name ∈ names ↔ name ∈ columnSet node := by
  rw [mem_columnNames_iff h, columnSet, Set.mem_ofPred_eq, hcolumns]
  simp only [Except.ok.injEq]

/-! ### Differences -/

/-- **The two sides of a difference**: the names in the first set only, and those in the second
only.  They are disjoint and make up the symmetric difference of the sets. -/
structure Splits (d : Difference) (described catalog : Set String) : Prop where
  describedOnly : {c | c ∈ d.describedOnly} = described \ catalog
  catalogOnly : {c | c ∈ d.catalogOnly} = catalog \ described
  disjoint : Disjoint {c | c ∈ d.describedOnly} {c | c ∈ d.catalogOnly}
  union : {c | c ∈ d.describedOnly} ∪ {c | c ∈ d.catalogOnly} = symmDiff described catalog

variable {catalog : Value} {d : Difference} {files : FileMap} {lines : List String}

theorem Splits.of_sides {described catalog : Set String}
    (hdescribed : {c | c ∈ d.describedOnly} = described \ catalog)
    (hcatalog : {c | c ∈ d.catalogOnly} = catalog \ described) : Splits d described catalog where
  describedOnly := hdescribed
  catalogOnly := hcatalog
  disjoint := by
    rw [hdescribed, hcatalog]
    exact disjoint_sdiff_sdiff
  union := by rw [hdescribed, hcatalog, Set.symmDiff_def]

theorem Splits.nil_iff {described catalog : Set String} (h : Splits d described catalog) :
    d.describedOnly = [] ∧ d.catalogOnly = [] ↔ catalog = described := by
  have hempty : ∀ l : List String, l = [] ↔ {c | c ∈ l} = (∅ : Set String) := by
    intro l
    rw [List.eq_nil_iff_forall_not_mem, Set.eq_empty_iff_forall_notMem]
    rfl
  rw [hempty, hempty, h.describedOnly, h.catalogOnly, Set.sdiff_eq_empty, Set.sdiff_eq_empty,
    and_comm]
  exact Set.Subset.antisymm_iff.symm

theorem splits_of_compareModel {node model columns modelColumns : Value}
    (hcolumns : node.fieldD "columns" (.map []) = .ok columns)
    (hmodel : model.fieldD "columns" (.map []) = .ok modelColumns)
    (h : compareModel columns modelColumns = .ok d) :
    Splits d (columnSet model) (columnSet node) := by
  obtain ⟨inCatalog, hcatalog, h⟩ := bind_eq_ok_iff.mp h
  obtain ⟨inModel, hinModel, h⟩ := bind_eq_ok_iff.mp h
  cases h
  have hnode := mem_columnNames_iff_columnSet hcolumns hcatalog
  have hnames := mem_columnNames_iff_columnSet hmodel hinModel
  refine .of_sides (Set.ext fun c => ?_) (Set.ext fun c => ?_)
  · simp [difference, hnode, hnames]
  · simp [difference, hnode, hnames]

theorem length_modelLines (file described : String) (d : Difference) :
    (modelLines file described d).length =
    (if d.describedOnly = [] then 0 else 1) + if d.catalogOnly = [] then 0 else 1 := by
  rw [modelLines, List.length_append]
  congr 1
  · cases d.describedOnly <;> rfl
  · cases d.catalogOnly <;> rfl

theorem modelLines_eq_nil_iff (file described : String) (d : Difference) :
    modelLines file described d = [] ↔ d.describedOnly = [] ∧ d.catalogOnly = [] := by
  rw [modelLines, List.append_eq_nil_iff]
  simp

/-! ### Models -/

/-- **The catalog has a node** under an id, and it is not empty. -/
def InCatalog (catalog : Value) (id : String) (node : Value) : Prop :=
  ∃ nodes, catalog.fieldD "nodes" (.map []) = .ok nodes ∧ nodes.field? id = .ok (some node) ∧
    node.truthy = true

theorem InCatalog.unique {node node' : Value} {id : String} (h : InCatalog catalog id node)
    (h' : InCatalog catalog id node') : node = node' := by
  obtain ⟨nodes, hnodes, hnode, -⟩ := h
  obtain ⟨nodes', hnodes', hnode', -⟩ := h'
  obtain rfl := Except.ok.inj (hnodes.symm.trans hnodes')
  exact Option.some.inj (Except.ok.inj (hnode.symm.trans hnode'))

def Agrees (catalog : Value) (m : Model) : Prop :=
  ∃ node, InCatalog catalog m.id node ∧ columnSet node = columnSet m.node

/-- **What is said about a model**: that it is not in the catalog, or the names on each side of the
difference, in one line for each side that is not empty. -/
inductive Says (catalog : Value) (files : FileMap) (m : Model) : List String → Prop
  | notFound (hno : ∀ node, ¬ InCatalog catalog m.id node) : Says catalog files m [notInCatalog m]
  | compared {node : Value} {d : Difference} {described : String} {lines : List String}
      (hin : InCatalog catalog m.id node) (hsplits : Splits d (columnSet m.node) (columnSet node))
      (hlines : lines = modelLines (files.shown (.str m.filename)) described d)
      (hcount : lines.length =
        (if d.describedOnly = [] then 0 else 1) + if d.catalogOnly = [] then 0 else 1) :
      Says catalog files m lines

theorem Says.eq_nil_iff {m : Model} (h : Says catalog files m lines) :
    lines = [] ↔ Agrees catalog m := by
  cases h with
  | notFound hno =>
    constructor
    · intro hnil
      cases hnil
    · rintro ⟨node, hin, -⟩
      exact absurd hin (hno node)
  | @compared node d described _ hin hsplits hlines =>
    rw [hlines, modelLines_eq_nil_iff, hsplits.nil_iff]
    constructor
    · intro heq
      exact ⟨node, hin, heq⟩
    · rintro ⟨node', hin', heq⟩
      rw [hin.unique hin', heq]

theorem says_of_modelColumns {nodes : Value} {m : Model}
    (hnodes : catalog.fieldD "nodes" (.map []) = .ok nodes)
    (h : modelColumns nodes files m = .ok lines) : Says catalog files m lines := by
  obtain ⟨node, hnode, h⟩ := bind_eq_ok_iff.mp h
  obtain ⟨found, hfound, rfl⟩ := map_eq_ok_iff.mp hnode
  cases htruthy : (found.getD (.map [])).truthy with
  | false =>
    rw [htruthy, if_pos (by decide)] at h
    cases h
    refine .notFound ?_
    rintro node ⟨nodes', hnodes', hin, htrue⟩
    obtain rfl := Except.ok.inj (hnodes.symm.trans hnodes')
    obtain rfl := Except.ok.inj (hfound.symm.trans hin)
    rw [Option.getD_some, htrue] at htruthy
    cases htruthy
  | true =>
    rw [htruthy, if_neg (by decide)] at h
    obtain ⟨node, rfl⟩ : ∃ node, found = some node := by
      cases found with
      | none => cases htruthy
      | some node => exact ⟨node, rfl⟩
    obtain ⟨columns, hcolumns, h⟩ := bind_eq_ok_iff.mp h
    obtain ⟨columns', hcolumns', h⟩ := bind_eq_ok_iff.mp h
    obtain ⟨d, hd, h⟩ := bind_eq_ok_iff.mp h
    obtain ⟨patch, -, h⟩ := bind_eq_ok_iff.mp h
    cases h
    exact .compared ⟨nodes, hnodes, hfound, htruthy⟩
      (splits_of_compareModel hcolumns hcolumns' hd) rfl (length_modelLines _ _ d)

theorem says_of_checkModels {t : Tree} {manifest : Value} {r : Request}
    (h : (checkModels t manifest catalog r).toExcept = .ok lines) :
    ∃ files ms said, r.modelFiles t manifest = .ok files ∧
      (models manifest files.stems r.scope).toExcept = .ok ms ∧
      List.Forall₂ (Says catalog files) ms said ∧ lines = said.flatten := by
  rw [checkModels, Feed.toExcept_ofExcept] at h
  obtain ⟨feed, hfeed, h⟩ := bind_eq_ok_iff.mp h
  obtain ⟨files, hfiles, hfeed⟩ := bind_eq_ok_iff.mp hfeed
  obtain ⟨nodes, hnodes, hfeed⟩ := bind_eq_ok_iff.mp hfeed
  cases hfeed
  obtain ⟨ms, said, hms, hsaid, rfl⟩ := Findings.lines_of_bind h
  exact ⟨files, ms, said, hfiles, hms,
    forall₂_of_mapM (fun m lines => says_of_modelColumns hnodes) hsaid, rfl⟩

theorem flatten_eq_nil_iff_agrees {ms : List Model} {said : List (List String)}
    (h : List.Forall₂ (Says catalog files) ms said) :
    said.flatten = [] ↔ ∀ m ∈ ms, Agrees catalog m := by
  induction h with
  | nil => simp
  | cons hm _ ih =>
    rw [List.flatten_cons, List.append_eq_nil_iff, hm.eq_nil_iff, ih, List.forall_mem_cons]

/-- **When models have the columns of the catalog.**  A check that comes to an end has selected
models.  It passes just if for each of them the catalog has a node that is not empty, and the sets
of lower-cased column names agree.  What it prints is what is said about each model in turn. -/
theorem model_columns_agree_iff {t : Tree} {manifest catalog : Value} {r : Request} {s : Status}
    (h : (checkModels t manifest catalog r).report.outcome = .ok s) :
    ∃ files ms said, r.modelFiles t manifest = .ok files ∧
      (models manifest files.stems r.scope).toExcept = .ok ms ∧ (s = 0 ∨ s = 1) ∧
      (s = 0 ↔ ∀ m ∈ ms, ∃ node, InCatalog catalog m.id node ∧ columnSet node = columnSet m.node) ∧
      List.Forall₂ (Says catalog files) ms said ∧
      (checkModels t manifest catalog r).report.lines = said.flatten := by
  obtain ⟨hlines, hstatus⟩ := Findings.verdict h
  obtain ⟨files, ms, said, hfiles, hms, hsays, heq⟩ := says_of_checkModels hlines
  refine ⟨files, ms, said, hfiles, hms, ?_, ?_, hsays, heq⟩
  · rw [hstatus]
    exact Findings.status_eq_zero_or_one _
  · have hzero : s = 0 ↔ said.flatten = [] := by
      rw [hstatus, heq]
      cases said.flatten <;> simp [Findings.status]
    rw [hzero, flatten_eq_nil_iff_agrees hsays]
    rfl

/-! ### A model with a column on each side -/

def describedModels : Value :=
  .record [("nodes", .record [
    ("model.p.m", .record [("name", .str "m"),
      ("columns", .record [("ID", .record []), ("id", .record []), ("Total", .record [])])]),
    ("model.p.n", .record [("name", .str "n")])])]

def foundModels : Value :=
  .record [("nodes", .record [
    ("model.p.m", .record [("columns", .record [("ID", .record []), ("PRICE", .record [])])])])]

/-- A column on each side, and a model that is not found. -/
theorem model_columns_agree_described :
    (checkModels ⟨[]⟩ describedModels foundModels { paths := ["m.sql", "n.sql"] }).report.outcome =
      .ok 1 ∧
    ∃ files ms said, (Request.modelFiles { paths := ["m.sql", "n.sql"] } ⟨[]⟩ describedModels) =
        .ok files ∧
      (models describedModels files.stems ⟨false, false⟩).toExcept = .ok ms ∧
      (¬ ∀ m ∈ ms, ∃ node, InCatalog foundModels m.id node ∧ columnSet node = columnSet m.node) ∧
      List.Forall₂ (Says foundModels files) ms said ∧
      (checkModels ⟨[]⟩ describedModels foundModels { paths := ["m.sql", "n.sql"] }).report.lines =
        said.flatten := by
  have houtcome : (checkModels ⟨[]⟩ describedModels foundModels
      { paths := ["m.sql", "n.sql"] }).report.outcome = .ok 1 :=
    eq_ok_of_toOption (by decide +kernel)
  obtain ⟨files, ms, said, hfiles, hms, -, hagree, hsays, hlines⟩ :=
    model_columns_agree_iff houtcome
  exact ⟨houtcome, files, ms, said, hfiles, hms, fun h => absurd (hagree.mpr h) (by decide), hsays,
    hlines⟩

end Columns

end ProjectLint
