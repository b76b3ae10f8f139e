import ProjectLint.Checks.Relations
import ProjectLint.Proofs.Findings
import ProjectLint.Proofs.Lineage
import ProjectLint.Proofs.ModelScope
import ProjectLint.Proofs.TestCounts

/-!
# Where the parents of models lie

Two checks look at the parents of the models that scripts define: at their schemas, and at how their
names begin.  They walk through the manifest and not through the paths, and find the parents of a
model by walking through the lineage.

The paths matter only for the stems of the scripts among them (`mem_stems_ofPaths`), and these only
for which of **all models in scope** are taken (`toExcept_models`).  So the order of the paths makes
no difference, and the models of two lists of paths are those of the first and those of the second.
In the lineage a model has the entry under its id (`mem_parents_iff`).  `ParentCheck.report_paths`
puts this together.
-/

namespace ProjectLint

/-! ### Stems of files -/

namespace FileMap

variable {names paths : List String} {withDisabled : Bool} {stem : String}
    {project manifest : Value} {ms : List Model}

theorem mem_stems_put {s : String} {file : Path} : ∀ {m : FileMap},
    stem ∈ (m.put s file).stems ↔ stem ∈ m.stems ∨ stem = s := by
  intro m
  induction m with
  | nil => simp [put, stems]
  | cons entry m ih =>
    obtain ⟨s', f⟩ := entry
    rw [put]
    split
    · rename_i hs
      simp only [stems, List.map_cons, List.mem_cons, hs]
      tauto
    · simp only [stems, List.map_cons, List.mem_cons] at ih ⊢
      rw [ih, or_assoc]

/-- **The stems of files** are those of all paths with one of the suffixes. -/
theorem mem_stems_ofPaths {suffixes : List String} :
    stem ∈ (ofPaths suffixes paths).stems ↔
      ∃ path ∈ paths, hasSuffix suffixes (Path.ofString path) = true ∧ stemOf path = stem := by
  have hfold : ∀ (paths : List String) (m : FileMap),
      stem ∈ ((paths.map Path.ofString).foldl (add suffixes) m).stems ↔
        stem ∈ m.stems ∨ ∃ path ∈ paths, hasSuffix suffixes (Path.ofString path) = true ∧
          stemOf path = stem := by
    intro paths
    induction paths with
    | nil => intro m; simp
    | cons path paths ih =>
      intro m
      rw [List.map_cons, List.foldl_cons, ih, add, List.exists_mem_cons_iff, stemOf]
      split
      · rename_i hsuffix
        rw [mem_stems_put, or_assoc, eq_comm, and_iff_right hsuffix]
      · rename_i hsuffix
        simp [hsuffix]
  rw [ofPaths, hfold]
  simp [stems]

end FileMap

theorem mem_stems_scriptFiles :
    stem ∈ (scriptFiles paths).stems ↔ ∃ path ∈ paths, (Path.ofString path).suffix = ".sql" ∧
      stemOf path = stem := by
  rw [scriptFiles, FileMap.mem_stems_ofPaths]
  simp [FileMap.hasSuffix, scriptSuffixes]

/-! ### All models in scope -/

/-- **All models in scope** of a manifest or catalog. -/
def allModels (project : Value) (withDisabled : Bool) : Except Fault (List Model) := do
  return (← (← sectionNodes project "nodes").mapM (modelInScope? withDisabled)).reduceOption

theorem mapM_map_filter {α β : Type} {f : α → Except Fault (Option β)} {p : β → Bool} :
    ∀ l : List α, (l.mapM fun a => (f a).map (Option.filter p)).map List.reduceOption =
      (l.mapM f).map fun found => found.reduceOption.filter p := by
  intro l
  induction l with
  | nil => rfl
  | cons a l ih =>
    rw [List.mapM_cons, List.mapM_cons]
    cases f a with
    | error fault => rfl
    | ok x =>
      have hfiltered : ∀ found : Except Fault (List (Option β)),
          (found >>= fun xs => pure (x.filter p :: xs)).map List.reduceOption =
            (found.map List.reduceOption).map ((x.filter p).toList ++ ·) := by
        intro found
        cases found with
        | error fault => rfl
        | ok xs => cases x.filter p <;> rfl
      have hall : ∀ found : Except Fault (List (Option β)),
          (found >>= fun xs => pure (x :: xs)).map (fun xs => xs.reduceOption.filter p) =
            (found.map fun xs => xs.reduceOption.filter p).map ((x.filter p).toList ++ ·) := by
        intro found
        cases found with
        | error fault => rfl
        | ok xs =>
          cases x with
          | none => rfl
          | some b =>
            change Except.ok ((b :: xs.reduceOption).filter p) =
              .ok ((Option.filter p (some b)).toList ++ _)
            rw [List.filter_cons, Option.filter_some]
            split <;> rfl
      exact (hfiltered _).trans ((congrArg _ ih).trans (hall _).symm)

/-- **Models are selected by the names of their files** from all models in scope. -/
theorem toExcept_models (project : Value) (names : List String) (withDisabled : Bool) :
    (models project names ⟨false, withDisabled⟩).toExcept =
      (allModels project withDisabled).map (List.filter fun m => names.contains m.filename) := by
  rw [models, Feed.toExcept_ofExcept, allModels]
  cases sectionNodes project "nodes" with
  | error fault => rfl
  | ok nodes =>
    rw [ok_bind, ok_bind]
    change (Feed.filterMapE (model? names ⟨false, withDisabled⟩) nodes).toExcept = _
    simp only [Feed.toExcept_filterMapE, funext (model?_eq names withDisabled), mapM_map_filter]
    cases nodes.mapM (modelInScope? withDisabled) <;> rfl

theorem exists_allModels (h : (models project names ⟨false, withDisabled⟩).toExcept = .ok ms) :
    ∃ all,
      allModels project withDisabled = .ok all ∧
        ms = all.filter fun m => names.contains m.filename := by
  rw [toExcept_models] at h
  obtain ⟨all, hall, rfl⟩ := map_eq_ok_iff.mp h
  exact ⟨all, hall, rfl⟩

theorem models_of_all {all : List Model} (h : allModels project withDisabled = .ok all)
    (names : List String) :
    (models project names ⟨false, withDisabled⟩).toExcept =
      .ok (all.filter fun m => names.contains m.filename) := by
  rw [toExcept_models, h]
  rfl

theorem models_congr {names' : List String} (h : ∀ name, name ∈ names ↔ name ∈ names')
    (project : Value) (scope : Scope) :
    models project names scope = models project names' scope := by
  have hcontains : ∀ name, names.contains name = names'.contains name := by
    intro name
    rw [Bool.eq_iff_iff, List.contains_iff_mem, List.contains_iff_mem, h]
  have hmodel : model? names scope = model? names' scope := by
    funext entry
    simp only [model?, hcontains]
  rw [models, models, hmodel]

/-! ### Selected models -/

theorem materialized_of_model? {entry : Scalar × Value} {y : Option Model}
    (h : model? names ⟨false, withDisabled⟩ entry = .ok y) :
    ∃ b, isMaterialized entry.2 "ephemeral" = .ok b := by
  obtain ⟨b, hb, -⟩ := bind_eq_ok_iff.mp h
  exact ⟨b, hb⟩

theorem id_of_model? {entry : Scalar × Value} {m : Model}
    (h : model? names ⟨false, withDisabled⟩ entry = .ok (some m)) :
    entry.1 = .str m.id := by
  obtain ⟨b, hb⟩ := materialized_of_model? h
  rcases model?_cases names withDisabled hb with ⟨-, heq⟩ | ⟨-, -, fault, heq⟩ |
    ⟨-, -, id, name, filename, hid, -, heq⟩
  · rw [heq] at h
    cases h
  · rw [heq] at h
    cases h
  · rw [heq, Except.ok.injEq, Option.ite_none_right_eq_some] at h
    obtain ⟨-, h⟩ := h
    cases h
    exact hid

theorem mapM_of_models {scope : Scope} (h : (models project names scope).toExcept = .ok ms) :
    ∃ nodes found, sectionNodes project "nodes" = .ok nodes ∧
      nodes.mapM (model? names scope) = .ok found ∧ ms = found.reduceOption := by
  rw [models, Feed.toExcept_ofExcept] at h
  obtain ⟨feed, hfeed, h⟩ := bind_eq_ok_iff.mp h
  obtain ⟨nodes, hnodes, hfeed⟩ := bind_eq_ok_iff.mp hfeed
  cases hfeed
  rw [Feed.toExcept_filterMapE] at h
  obtain ⟨found, hfound, rfl⟩ := map_eq_ok_iff.mp h
  exact ⟨nodes, found, hnodes, hfound, rfl⟩

/-- **The models of paths**: the nodes in scope that come from a script among the paths, under their
ids. -/
def Selected (manifest : Value) (withDisabled : Bool) (paths : List String) (id : String) : Prop :=
  ∃ nodes node, sectionNodes manifest "nodes" = .ok nodes ∧ (.str id, node) ∈ nodes ∧
    ¬ LeftOut withDisabled node ∧
    ∃ path ∈ paths, (Path.ofString path).suffix = ".sql" ∧ ModelNode (stemOf path) (.str id, node)

theorem exists_model_iff_selected
    (h : (models manifest (scriptFiles paths).stems ⟨false, withDisabled⟩).toExcept = .ok ms)
    (id : String) :
    (∃ m ∈ ms, m.id = id) ↔ Selected manifest withDisabled paths id := by
  obtain ⟨nodes, found, hnodes, hfound, rfl⟩ := mapM_of_models h
  simp only [List.reduceOption_mem_iff, Selected, hnodes, Except.ok.injEq, exists_and_left,
    exists_eq_left']
  constructor
  · rintro ⟨m, hm, rfl⟩
    obtain ⟨⟨key, node⟩, he, heq⟩ := mem_of_mapM hfound _ hm
    obtain ⟨b, hb⟩ := materialized_of_model? heq
    obtain rfl : key = .str m.id := id_of_model? heq
    obtain ⟨hin, hnode, hout, -⟩ := modelNode_of_model? hb heq
    obtain ⟨path, hpath, hsuffix, hstem⟩ := mem_stems_scriptFiles.mp hin
    exact ⟨node, he, hout, path, hpath, hsuffix, hstem ▸ hnode⟩
  · rintro ⟨node, he, hout, path, hpath, hsuffix, hnode⟩
    obtain ⟨y, hy, heq⟩ := ok_of_mapM hfound _ he
    obtain ⟨b, hb⟩ := materialized_of_model? heq
    obtain ⟨m, hm, -, -⟩ :=
      model?_of_modelNode hb (mem_stems_scriptFiles.mpr ⟨path, hpath, hsuffix, rfl⟩) hnode hout
    obtain rfl := Except.ok.inj (heq.symm.trans hm)
    exact ⟨m, hy, (Scalar.str.inj (id_of_model? hm)).symm⟩

/-! ### Parents in the lineage -/

def nodeOf (manifest : Value) (id : String) : Except Fault Value := do
  (← manifest.fieldD (if firstPart (idParts id) = "model" then "nodes" else "sources")
    (.map [])).field id

/-- The lineage lists a parent of one of the kinds for an id, and the manifest has a node for it. -/
def HasParent (manifest : Value) (kinds : List String) (id parent : String) (node : Value) : Prop :=
  ∃ entries ids items, sectionNodes manifest "parent_map" = .ok entries ∧ (.str id, ids) ∈ entries ∧
    ids.items = .ok items ∧ .str parent ∈ items ∧ firstPart (idParts parent) ∈ kinds ∧
      nodeOf manifest parent = .ok node

/-- What is looked up as a model or source is its node; a model has the name that its node gives. -/
theorem relative_spec {manifest : Value} {id : String} {r : Relative}
    (hkind : firstPart (idParts id) ≠ "test")
    (h : relative manifest (firstPart (idParts id)) id = .ok r) : nodeOf manifest id = .ok r.node ∧
      (firstPart (idParts id) = "model" → ∃ m, r = .model m ∧
        m.node.fieldD "name" (.str "") = .ok m.name) := by
  rw [relative, if_neg (by simpa using hkind)] at h
  split at h
  · rename_i hmodel
    have hmodel : firstPart (idParts id) = "model" := by simpa using hmodel
    obtain ⟨nodes, hnodes, h⟩ := bind_eq_ok_iff.mp h
    obtain ⟨node, hnode, h⟩ := bind_eq_ok_iff.mp h
    obtain ⟨name, hname, h⟩ := bind_eq_ok_iff.mp h
    obtain ⟨path, -, h⟩ := bind_eq_ok_iff.mp h
    cases h
    refine ⟨?_, fun _ => ⟨_, rfl, hname⟩⟩
    rw [nodeOf, if_pos hmodel, hnodes]
    exact hnode
  · rename_i hmodel
    have hmodel : firstPart (idParts id) ≠ "model" := by simpa using hmodel
    obtain ⟨sources, hsources, h⟩ := bind_eq_ok_iff.mp h
    obtain ⟨node, hnode, h⟩ := bind_eq_ok_iff.mp h
    obtain ⟨source, -, h⟩ := bind_eq_ok_iff.mp h
    obtain ⟨table, -, h⟩ := bind_eq_ok_iff.mp h
    obtain ⟨path, -, h⟩ := bind_eq_ok_iff.mp h
    cases h
    refine ⟨?_, fun h => absurd h hmodel⟩
    rw [nodeOf, if_neg hmodel, hsources]
    exact hnode

theorem listed_of_kind {kinds : List String} {parent : String}
    (hkind : firstPart (idParts parent) ∈ kinds) :
    listed manifest kinds (.str parent) =
      (relative manifest (firstPart (idParts parent)) parent).map some := by
  change (if kinds.contains (firstPart (idParts parent)) then _ else _) = _
  rw [if_pos (List.contains_iff_mem.mpr hkind)]
  cases relative manifest (firstPart (idParts parent)) parent <;> rfl

theorem mem_listedAll_iff {kinds : List String} {ids : Value} {rs : List Relative}
    (h : listedAll manifest kinds ids = .ok rs) {r : Relative} :
    r ∈ rs ↔ ∃ items parent, ids.items = .ok items ∧ .str parent ∈ items ∧
      firstPart (idParts parent) ∈ kinds ∧
      relative manifest (firstPart (idParts parent)) parent = .ok r := by
  obtain ⟨items, hitems, h⟩ := bind_eq_ok_iff.mp h
  obtain ⟨found, hfound, h⟩ := bind_eq_ok_iff.mp h
  cases h
  simp only [List.mem_filterMap, id_eq, exists_eq_right, hitems, Except.ok.injEq, exists_and_left,
    exists_eq_left', mem_mapM_iff hfound]
  constructor
  · rintro ⟨item, hitem, heq⟩
    obtain ⟨parent, rfl, hr⟩ := listed_eq_ok heq
    by_cases hkind : firstPart (idParts parent) ∈ kinds
    · rw [listed_of_kind hkind, map_eq_ok_iff] at heq
      obtain ⟨r', hrel, heq⟩ := heq
      cases heq
      exact ⟨parent, hitem, hkind, hrel⟩
    · rw [if_neg (by simpa using hkind)] at hr
      cases hr
  · rintro ⟨parent, hitem, hkind, hrel⟩
    exact ⟨.str parent, hitem, by rw [listed_of_kind hkind, hrel]; rfl⟩

/-- **The parents of a model** are those that the lineage lists under its id. -/
theorem mem_parents_iff {manifest : Value} {kinds : List String} {id : String} {rs : List Relative}
    (h : parents manifest (.model (.str id)) kinds = .ok rs) {r : Relative} :
    r ∈ rs ↔ ∃ entries ids items parent, sectionNodes manifest "parent_map" = .ok entries ∧
      (.str id, ids) ∈ entries ∧ ids.items = .ok items ∧ .str parent ∈ items ∧
      firstPart (idParts parent) ∈ kinds ∧
      relative manifest (firstPart (idParts parent)) parent = .ok r := by
  obtain ⟨entries, hentries, h⟩ := bind_eq_ok_iff.mp h
  obtain ⟨found, hfound, h⟩ := bind_eq_ok_iff.mp h
  cases h
  simp only [Tests.fits_model, ok_bind, decide_eq_true_eq] at hfound
  simp only [hentries, Except.ok.injEq, exists_and_left, exists_eq_left', List.mem_flatten,
    mem_mapM_iff hfound]
  constructor
  · rintro ⟨part, ⟨⟨key, ids⟩, he, heq⟩, hr⟩
    obtain ⟨key', hkey, heq⟩ := bind_eq_ok_iff.mp heq
    obtain rfl : key = .str key' := idText_eq_ok hkey
    split at heq
    · rename_i hid
      obtain ⟨items, parent, hitems⟩ := (mem_listedAll_iff heq).mp hr
      exact ⟨ids, hid ▸ he, items, hitems.1, parent, hitems.2⟩
    · cases heq
      cases hr
  · rintro ⟨ids, he, items, hitems, parent, hrest⟩
    obtain ⟨part, -, heq⟩ := ok_of_mapM hfound _ he
    refine ⟨part, ⟨_, he, heq⟩, ?_⟩
    obtain ⟨key, hkey, heq⟩ := bind_eq_ok_iff.mp heq
    cases hkey
    rw [if_pos rfl] at heq
    exact (mem_listedAll_iff heq).mpr ⟨items, parent, hitems, hrest⟩

theorem parents_returns {manifest : Value} {kinds : List String} {id parent : String}
    {rs : List Relative} {entries : Entries} {ids : Value} {items : List Value}
    (h : parents manifest (.model (.str id)) kinds = .ok rs)
    (hentries : sectionNodes manifest "parent_map" = .ok entries) (he : (.str id, ids) ∈ entries)
    (hitems : ids.items = .ok items) (hitem : .str parent ∈ items)
    (hkind : firstPart (idParts parent) ∈ kinds) :
    ∃ r, relative manifest (firstPart (idParts parent)) parent = .ok r := by
  rw [parents, relatives, hentries, ok_bind] at h
  obtain ⟨found, hfound, -⟩ := bind_eq_ok_iff.mp h
  obtain ⟨part, -, heq⟩ := ok_of_mapM hfound _ he
  obtain ⟨key, hkey, heq⟩ := bind_eq_ok_iff.mp heq
  cases hkey
  rw [Tests.fits_model, ok_bind, if_pos (by simp)] at heq
  rw [listedAll, hitems, ok_bind] at heq
  obtain ⟨looked, hlooked, -⟩ := bind_eq_ok_iff.mp heq
  obtain ⟨y, -, hy⟩ := ok_of_mapM hlooked _ hitem
  rw [listed_of_kind hkind, map_eq_ok_iff] at hy
  obtain ⟨r, hr, -⟩ := hy
  exact ⟨r, hr⟩

/-! ### What is refused -/

theorem Value.same_str_iff (v : Value) (s : String) : v.same (.str s) = true ↔ v = .str s := by
  cases v with
  | scalar a => exact (Scalar.same_str_iff a s).trans ⟨congrArg Value.scalar, Value.scalar.inj⟩
  | _ =>
    constructor
    · intro h
      cases h
    · intro h
      cases h

namespace Relations

def Lists.Refuses (l : Lists) (v : Value) : Prop :=
  (l.allowed ≠ [] ∧ ∀ a ∈ l.allowed, v ≠ .str a) ∨ ∃ f ∈ l.forbidden, v = .str f

def Lists.RefusesStart (l : Lists) (name : String) : Prop :=
  (l.allowed ≠ [] ∧ ∀ a ∈ l.allowed, ¬ a.toList <+: name.toList) ∨
    ∃ f ∈ l.forbidden, f.toList <+: name.toList

theorem Lists.refuses_iff (l : Lists) (v : Value) : l.refuses v = true ↔ l.Refuses v := by
  simp [refuses, Refuses, Value.same_str_iff]

theorem Lists.refusesStart_iff (l : Lists) (name : String) : l.refusesStart name = true ↔
    l.RefusesStart name := by
  simp [refusesStart, RefusesStart, ← List.isPrefixOf_iff_prefix]

/-! ### The two checks -/

/-- The checks of the parents of models: where they lie, and how their names begin. -/
inductive ParentCheck where
  | schema
  | names

namespace ParentCheck

/-- The kinds of parents that count. -/
def kinds : ParentCheck → List String
  | schema => ["model", "source"]
  | names => ["model"]

def findings (c : ParentCheck) (manifest : Value) (l : Lists) (r : Request) : Findings :=
  match c with
  | schema => checkParentSchema manifest l r
  | names => checkParentNames manifest l r

def report (c : ParentCheck) (manifest : Value) (l : Lists) (withDisabled : Bool)
    (paths : List String) : Report Status :=
  (c.findings manifest l { paths, withDisabled }).report

/-- **The node of a parent that is refused**: for its schema, or for the last part of its name. -/
def Refused (c : ParentCheck) (l : Lists) (node : Value) : Prop :=
  match c with
  | schema => ∃ place, node.field "schema" = .ok place ∧ l.Refuses place
  | names => ∃ name, node.fieldD "name" (.str "") = .ok (.str name) ∧ l.RefusesStart (baseName name)

def onParent (c : ParentCheck) (l : Lists) (name : Value) (parent : Relative) : Findings :=
  match c with
  | schema => parentField "schema" l name parent
  | names => parentName l name parent

def onModel (c : ParentCheck) (manifest : Value) (l : Lists) (m : Model) : Findings :=
  .ofExcept do
    return Feed.flatMap (c.onParent l m.name) (← parents manifest (.model (.str m.id)) c.kinds)

theorem findings_eq (c : ParentCheck) (manifest : Value) (l : Lists) (withDisabled : Bool)
    (paths : List String) :
    c.findings manifest l { paths, withDisabled } =
      (models manifest (scriptFiles paths).stems ⟨false, withDisabled⟩).bind
        (c.onModel manifest l) := by
  cases c <;> rfl

theorem ne_test_of_mem_kinds {c : ParentCheck} {kind : String} (h : kind ∈ c.kinds) :
    kind ≠ "test" := by
  rintro rfl
  cases c <;> simp [kinds] at h

theorem ne_nil_iff_of_ite {refused : Bool} {shown : Except Fault Value} {line : Value → String}
    {lines : List String}
    (h : (if refused then do return [line (← shown)] else return []) = Except.ok lines) :
    lines ≠ [] ↔ refused = true := by
  cases refused with
  | true =>
    obtain ⟨v, -, h⟩ := bind_eq_ok_iff.mp h
    cases h
    simp
  | false =>
    cases h
    simp

theorem onParent_ne_nil_iff {c : ParentCheck} {manifest : Value} {l : Lists} {name : Value}
    {id : String} {r : Relative} {lines : List String} (hkind : firstPart (idParts id) ∈ c.kinds)
    (hr : relative manifest (firstPart (idParts id)) id = .ok r)
    (h : (c.onParent l name r).toExcept = .ok lines) :
    lines ≠ [] ↔ c.Refused l r.node := by
  obtain ⟨-, hmodel⟩ := relative_spec (ne_test_of_mem_kinds hkind) hr
  cases c with
  | schema =>
    rw [onParent, parentField, Findings.toExcept_of] at h
    obtain ⟨place, hplace, h⟩ := bind_eq_ok_iff.mp h
    rw [ne_nil_iff_of_ite h, Lists.refuses_iff]
    simp [Refused, hplace]
  | names =>
    obtain ⟨m, rfl, hname⟩ := hmodel (List.mem_singleton.mp hkind)
    rw [onParent, parentName, Findings.toExcept_of] at h
    obtain ⟨text, htext, h⟩ := bind_eq_ok_iff.mp h
    have hstr : m.name = .str text := by
      unfold Value.textOnly at htext
      split at htext
      · rename_i s heq
        rw [heq, Except.ok.inj htext]
      · cases htext
    rw [ne_nil_iff_of_ite h, Lists.refusesStart_iff]
    simp [Refused, Relative.node, hname, hstr]

/-- **A parent of the model is refused.** -/
def RefusesParentOf (c : ParentCheck) (manifest : Value) (l : Lists) (id : String) : Prop :=
  ∃ parent node, HasParent manifest c.kinds id parent node ∧ c.Refused l node

theorem onModel_ne_nil_iff {c : ParentCheck} {manifest : Value} {l : Lists} {m : Model}
    {lines : List String} (h : (c.onModel manifest l m).toExcept = .ok lines) :
    lines ≠ [] ↔ c.RefusesParentOf manifest l m.id := by
  rw [onModel, Feed.toExcept_ofExcept] at h
  obtain ⟨feed, hfeed, h⟩ := bind_eq_ok_iff.mp h
  obtain ⟨rs, hrs, hfeed⟩ := bind_eq_ok_iff.mp hfeed
  cases hfeed
  have hparent : ∀ r ∈ rs, ∀ found, (c.onParent l m.name r).toExcept = .ok found →
      (found ≠ [] ↔ c.Refused l r.node) := by
    intro r hr found hfound
    obtain ⟨entries, ids, items, parent, -, -, -, -, hkind, hrel⟩ := (mem_parents_iff hrs).mp hr
    exact onParent_ne_nil_iff hkind hrel hfound
  rw [Findings.ne_nil_iff_of_flatMap h hparent]
  constructor
  · rintro ⟨r, hr, hrefused⟩
    obtain ⟨entries, ids, items, parent, hentries, he, hitems, hitem, hkind, hrel⟩ :=
      (mem_parents_iff hrs).mp hr
    obtain ⟨hnode, -⟩ := relative_spec (ne_test_of_mem_kinds hkind) hrel
    exact ⟨parent, r.node, ⟨entries, ids, items, hentries, he, hitems, hitem, hkind, hnode⟩,
      hrefused⟩
  · rintro ⟨parent, node, ⟨entries, ids, items, hentries, he, hitems, hitem, hkind, hnode⟩,
      hrefused⟩
    obtain ⟨r, hrel⟩ := parents_returns hrs hentries he hitems hitem hkind
    obtain ⟨hnode', -⟩ := relative_spec (ne_test_of_mem_kinds hkind) hrel
    obtain rfl := Except.ok.inj (hnode.symm.trans hnode')
    exact ⟨r, (mem_parents_iff hrs).mpr ⟨entries, ids, items, parent, hentries, he, hitems, hitem,
      hkind, hrel⟩, hrefused⟩

/-- **When a check comes to an end**: the models are supplied, and nothing is wrong with the parents
of those whose scripts are among the paths.  It fails just if a parent of one of them is refused. -/
theorem outcome_eq_ok_iff {c : ParentCheck} {manifest : Value} {l : Lists} {withDisabled : Bool}
    {paths : List String} {s : Status} : (c.report manifest l withDisabled paths).outcome = .ok s ↔
      ∃ all, allModels manifest withDisabled = .ok all ∧
        (∀ m ∈ all, m.filename ∈ (scriptFiles paths).stems →
          ∃ lines, (c.onModel manifest l m).toExcept = .ok lines) ∧
        (s = 0 ∨ s = 1) ∧
        (s = 1 ↔ ∃ m ∈ all, m.filename ∈ (scriptFiles paths).stems ∧
          c.RefusesParentOf manifest l m.id) := by
  have hselected : ∀ (all : List Model) (m : Model),
      m ∈ all.filter (fun m => (scriptFiles paths).stems.contains m.filename) ↔
        m ∈ all ∧ m.filename ∈ (scriptFiles paths).stems := by
    intro all m
    rw [List.mem_filter, List.contains_iff_mem]
  -- the status of complete findings, which both directions need
  have hstatus : ∀ {all : List Model} {lines : List String},
      (Feed.flatMap (c.onModel manifest l)
        (all.filter fun m => (scriptFiles paths).stems.contains m.filename)).toExcept = .ok lines →
      (Findings.status lines = 1 ↔
        ∃ m ∈ all, m.filename ∈ (scriptFiles paths).stems ∧ c.RefusesParentOf manifest l m.id) := by
    intro all lines hlines
    rw [Findings.status_eq_one_iff, Findings.ne_nil_iff_of_flatMap hlines fun m _ found =>
      onModel_ne_nil_iff]
    simp only [hselected, and_assoc]
  rw [report, findings_eq, Findings.outcome_report, map_eq_ok_iff]
  constructor
  · rintro ⟨lines, hlines, rfl⟩
    obtain ⟨ms, hms, hlines⟩ := Feed.toExcept_bind_eq_ok hlines
    obtain ⟨all, hall, rfl⟩ := exists_allModels hms
    refine ⟨all, hall, fun m hm hin => ?_, Findings.status_eq_zero_or_one _, hstatus hlines⟩
    rw [Feed.toExcept_flatMap] at hlines
    obtain ⟨found, hfound, -⟩ := map_eq_ok_iff.mp hlines
    obtain ⟨part, -, hpart⟩ := ok_of_mapM hfound m ((hselected all m).mpr ⟨hm, hin⟩)
    exact ⟨part, hpart⟩
  · rintro ⟨all, hall, hreturns, hcodes, hs⟩
    obtain ⟨found, hfound⟩ := exists_mapM_eq_ok (f := fun m => (c.onModel manifest l m).toExcept)
      fun m hm => hreturns m ((hselected all m).mp hm).1 ((hselected all m).mp hm).2
    have hlines : (Feed.flatMap (c.onModel manifest l)
        (all.filter fun m => (scriptFiles paths).stems.contains m.filename)).toExcept =
          .ok found.flatten := by
      rw [Feed.toExcept_flatMap, hfound]
      rfl
    refine ⟨found.flatten, by rw [Feed.toExcept_bind (models_of_all hall _), hlines], ?_⟩
    have hiff := (hstatus hlines).trans hs.symm
    rcases Findings.status_eq_zero_or_one found.flatten with h0 | h1
    · rcases hcodes with rfl | rfl
      · exact h0
      · exact hiff.mpr rfl
    · rw [h1, hiff.mp h1]

theorem mem_stems_append {p q : List String} : stem ∈ (scriptFiles (p ++ q)).stems ↔
    stem ∈ (scriptFiles p).stems ∨ stem ∈ (scriptFiles q).stems := by
  simp only [mem_stems_scriptFiles, List.mem_append, or_and_right, exists_or]

/-- **Paths count as a set.**  If a check comes to an end on two lists of paths, it does so on both
of them together, and the greater status counts.  Neither the order of the paths nor their
repetition matters.  A check that comes to an end fails just if the lineage lists a parent that is
refused for a model that one of the scripts among the paths defines. -/
theorem report_paths (c : ParentCheck) (manifest : Value) (l : Lists) (withDisabled : Bool) :
    (∀ p q s s', (c.report manifest l withDisabled p).outcome = .ok s →
      (c.report manifest l withDisabled q).outcome = .ok s' →
        (c.report manifest l withDisabled (p ++ q)).outcome = .ok (max s s')) ∧
    (∀ p q, (∀ path, path ∈ p ↔ path ∈ q) →
      c.report manifest l withDisabled p = c.report manifest l withDisabled q) ∧
    ∀ p s, (c.report manifest l withDisabled p).outcome = .ok s → (s = 0 ∨ s = 1) ∧
      (s = 1 ↔ ∃ id, Selected manifest withDisabled p id ∧
        ∃ parent node, HasParent manifest c.kinds id parent node ∧ c.Refused l node) := by
  refine ⟨fun p q s s' hp hq => ?_, fun p q h => ?_, fun p s h => ?_⟩
  · obtain ⟨all, hall, hreturns, hcodes, hs⟩ := outcome_eq_ok_iff.mp hp
    obtain ⟨all', hall', hreturns', hcodes', hs'⟩ := outcome_eq_ok_iff.mp hq
    obtain rfl := Except.ok.inj (hall.symm.trans hall')
    refine outcome_eq_ok_iff.mpr ⟨all, hall, fun m hm hin => ?_, ?_, ?_⟩
    · exact (mem_stems_append.mp hin).elim (hreturns m hm) (hreturns' m hm)
    · rcases hcodes with rfl | rfl <;> rcases hcodes' with rfl | rfl <;> decide
    · have hmax : max s s' = 1 ↔ s = 1 ∨ s' = 1 := by
        rcases hcodes with rfl | rfl <;> rcases hcodes' with rfl | rfl <;> decide
      simp only [hmax, hs, hs', mem_stems_append, or_and_right, and_or_left, exists_or]
  · have hstems : ∀ stem, stem ∈ (scriptFiles p).stems ↔ stem ∈ (scriptFiles q).stems := by
      intro stem
      simp only [mem_stems_scriptFiles, h]
    rw [report, report, findings_eq, findings_eq, models_congr hstems]
  · obtain ⟨all, hall, -, hcodes, hs⟩ := outcome_eq_ok_iff.mp h
    refine ⟨hcodes, hs.trans ?_⟩
    simp only [← exists_model_iff_selected (models_of_all hall _), List.mem_filter,
      List.contains_iff_mem]
    constructor
    · rintro ⟨m, hm, hin, hrefuses⟩
      exact ⟨m.id, ⟨m, ⟨hm, hin⟩, rfl⟩, hrefuses⟩
    · rintro ⟨id, ⟨m, ⟨hm, hin⟩, rfl⟩, hrefuses⟩
      exact ⟨m, hm, hin, hrefuses⟩

/-- A manifest with two models: the first depends on a source table, and the second on the first. -/
def twoModels : Value :=
  .record [
    ("nodes", .record [
      ("model.p.a", .record [("name", .str "a"), ("schema", .str "core")]),
      ("model.p.b", .record [("name", .str "b"), ("schema", .str "mart")])]),
    ("sources", .record [("source.p.s.t", .record [("name", .str "t"), ("schema", .str "raw")])]),
    ("parent_map", .record [
      ("model.p.a", .strs ["source.p.s.t", "test.p.other"]), ("model.p.b", .strs ["model.p.a"])])]

/-- Only the first model has a parent outside of the schema that is allowed. -/
theorem report_paths_twoModels :
    (schema.report twoModels ⟨["core"], []⟩ false ["models/a.sql", "a.yml"]).outcome = .ok 1 ∧
    (schema.report twoModels ⟨["core"], []⟩ false ["b.sql"]).outcome = .ok 0 ∧
    (schema.report twoModels ⟨["core"], []⟩ false
      (["models/a.sql", "a.yml"] ++ ["b.sql"])).outcome = .ok (max 1 0) ∧
    schema.report twoModels ⟨["core"], []⟩ false ["b.sql", "models/a.sql", "b.sql"] =
      schema.report twoModels ⟨["core"], []⟩ false ["models/a.sql", "b.sql"] ∧
    ∃ id, Selected twoModels false ["models/a.sql", "a.yml"] id ∧
      ∃ parent node, HasParent twoModels ["model", "source"] id parent node ∧
        schema.Refused ⟨["core"], []⟩ node := by
  have hfirst : (schema.report twoModels ⟨["core"], []⟩ false ["models/a.sql", "a.yml"]).outcome =
      .ok 1 := rfl
  have hsecond : (schema.report twoModels ⟨["core"], []⟩ false ["b.sql"]).outcome = .ok 0 := rfl
  obtain ⟨hmax, hset, hfails⟩ := report_paths schema twoModels ⟨["core"], []⟩ false
  exact ⟨hfirst, hsecond, hmax _ _ _ _ hfirst hsecond, hset _ _ (by simp [or_comm]),
    (hfails _ _ hfirst).2.mp rfl⟩

end ParentCheck

end Relations

end ProjectLint
