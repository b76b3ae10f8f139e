import ProjectLint.Proofs.Findings
import ProjectLint.Proofs.Gaps
import ProjectLint.Proofs.MetaKeys
import ProjectLint.Proofs.ModelScope
import ProjectLint.Proofs.ScriptKinds
import ProjectLint.Proofs.Yaml.ReadBack

/-!
# Keys that every model must have

A model has the keys that are asked for if a node of the manifest or an entry of a property file has
them.  The check reads all nodes and all entries that are named like a script before it compares
anything, so it returns just if the keys of all of them can be told (`unmet_returns_iff`), and then
its verdict is right (`unmet_ne_nil_iff`).

Labels are read in two ways.  In a node, no settings are no labels; in an entry of a property file,
settings must be there (`entryLabels_eq_ok_iff`).  `labelsVerdict_iff` says that this is what the
check breaks off at, if property files are well formed.
-/

namespace ProjectLint

/-! ### Supplies that do not break off -/

namespace Feed

theorem exists_filterMapE {α β : Type} {f : α → Except Fault (Option β)} {P : β → Prop}
    {xs : List α} (h : ∀ x ∈ xs, ∃ y, f x = .ok y ∧ ∀ b, y = some b → P b) :
    ∃ ys, (filterMapE f xs).toExcept = .ok ys ∧ ∀ y ∈ ys, P y := by
  obtain ⟨found, hfound, hall⟩ := exists_mapM_of_forall h
  refine ⟨found.reduceOption, by rw [toExcept_filterMapE, hfound, ok_map], fun b hb => ?_⟩
  exact hall _ (List.reduceOption_mem_iff.mp hb) b rfl

theorem exists_flatMap {α β : Type} {f : α → Feed β} {P : β → Prop} {xs : List α}
    (h : ∀ x ∈ xs, ∃ ys, (f x).toExcept = .ok ys ∧ ∀ y ∈ ys, P y) :
    ∃ ys, (flatMap f xs).toExcept = .ok ys ∧ ∀ y ∈ ys, P y := by
  obtain ⟨found, hfound, hall⟩ := exists_mapM_of_forall h
  refine ⟨found.flatten, by rw [toExcept_flatMap, hfound, ok_map], fun y hy => ?_⟩
  obtain ⟨ys, hys, hy⟩ := List.mem_flatten.mp hy
  exact hall ys hys y hy

end Feed

namespace Keys

/-! ### Items that meet the requirement -/

section

variable {α : Type} {keysOf : α → Except Fault (List Scalar)} {nameOf : α → Scalar} {r : Required}
    {items : Feed α}

def metName (keysOf : α → Except Fault (List Scalar)) (nameOf : α → Scalar) (r : Required) (x : α) :
    Except Fault (List Scalar) :=
  (keysOf x).map fun keys => if r.isMet keys then [nameOf x] else []

theorem namesMet_eq {xs : List α} (hitems : items.toExcept = .ok xs) :
    namesMet keysOf nameOf r items = (xs.mapM (metName keysOf nameOf r)).map List.flatten := by
  have hstep : ∀ x, (Feed.ofExcept do
      return Feed.ofList (if r.isMet (← keysOf x) then [nameOf x] else [])).toExcept =
        metName keysOf nameOf r x := by
    intro x
    rw [Feed.toExcept_ofExcept, metName]
    cases keysOf x <;> rfl
  rw [namesMet, Feed.toExcept_bind hitems, Feed.toExcept_flatMap]
  simp only [hstep]

/-- **Names are collected** just if the keys of all items can be told. -/
theorem namesMet_returns_iff : (∃ met, namesMet keysOf nameOf r items = .ok met) ↔
    ∃ xs, items.toExcept = .ok xs ∧ ∀ x ∈ xs, ∃ keys, keysOf x = .ok keys := by
  constructor
  · rintro ⟨met, hmet⟩
    obtain ⟨xs, hxs, -⟩ := Feed.toExcept_bind_eq_ok hmet
    rw [namesMet_eq hxs] at hmet
    obtain ⟨found, hfound, -⟩ := map_eq_ok_iff.mp hmet
    refine ⟨xs, hxs, fun x hx => ?_⟩
    obtain ⟨names, -, hstep⟩ := ok_of_mapM hfound x hx
    obtain ⟨keys, hkeys, -⟩ := map_eq_ok_iff.mp hstep
    exact ⟨keys, hkeys⟩
  · rintro ⟨xs, hxs, hkeys⟩
    have hsteps : ∀ x ∈ xs, metName keysOf nameOf r x =
        .ok ((metName keysOf nameOf r x).toOption.getD []) := by
      intro x hx
      obtain ⟨keys, hkeys⟩ := hkeys x hx
      rw [metName, hkeys]
      rfl
    rw [namesMet_eq hxs, mapM_eq_ok_map hsteps]
    exact ⟨_, rfl⟩

theorem among_namesMet_iff {xs : List α} {met : List Scalar} (hitems : items.toExcept = .ok xs)
    (h : namesMet keysOf nameOf r items = .ok met) (stem : String) :
    Among met stem ↔ ∃ x ∈ xs, nameOf x = .str stem ∧ ∃ keys, keysOf x = .ok keys ∧
      Meets r keys := by
  rw [namesMet_eq hitems] at h
  obtain ⟨found, hfound, rfl⟩ := map_eq_ok_iff.mp h
  rw [Among, List.any_eq_true]
  constructor
  · rintro ⟨name, hname, hsame⟩
    obtain ⟨names, hnames, hname⟩ := List.mem_flatten.mp hname
    obtain ⟨x, hx, hstep⟩ := mem_of_mapM hfound names hnames
    obtain ⟨keys, hkeys, rfl⟩ := map_eq_ok_iff.mp hstep
    obtain ⟨hmet, hname⟩ := List.mem_ite_nil_right.mp hname
    obtain rfl := List.mem_singleton.mp hname
    exact ⟨x, hx, (Scalar.same_str_iff _ _).mp hsame, keys, hkeys, isMet_iff.mp hmet⟩
  · rintro ⟨x, hx, hname, keys, hkeys, hmeets⟩
    obtain ⟨names, hnames, hstep⟩ := ok_of_mapM hfound x hx
    rw [metName, hkeys, ok_map, if_pos (isMet_iff.mpr hmeets)] at hstep
    obtain rfl := Except.ok.inj hstep
    exact ⟨nameOf x, List.mem_flatten.mpr ⟨_, hnames, List.mem_singleton.mpr rfl⟩,
      (Scalar.same_str_iff _ _).mpr hname⟩

end

/-! ### Nodes and entries together -/

/-- What a check of keys looks at: the scripts, the models that they define, and the entries that
are named like them. -/
structure CheckReads (t : Tree) (manifest : Value) (request : Request) (files : FileMap)
    (ms : List Model) (es : List PropertyEntry) : Prop where
  scripts : request.givenModelFiles manifest = .ok files
  models : (request.modelsIn manifest files).toExcept = .ok ms
  entries : (modelEntries t (propertyFiles request.paths).files (.named files.stems)).toExcept =
    .ok es

section

variable {t : Tree} {manifest : Value} {modelKeys entryKeys : Value → Except Fault (List Scalar)}
    {r : Required}
  {request : Request}

/-- **The check returns** just if the keys of all models and entries can be told. -/
theorem unmet_returns_iff : (∃ missing, unmet t manifest modelKeys entryKeys r request =
    .ok missing) ↔
    ∃ files ms es, CheckReads t manifest request files ms es ∧
      (∀ m ∈ ms, ∃ keys, modelKeys m.node = .ok keys) ∧
      ∀ e ∈ es, ∃ keys, entryKeys e.body = .ok keys := by
  constructor
  · rintro ⟨missing, h⟩
    obtain ⟨files, hfiles, h⟩ := bind_eq_ok_iff.mp h
    obtain ⟨inModels, hmodels, h⟩ := bind_eq_ok_iff.mp h
    obtain ⟨inEntries, hentries, -⟩ := bind_eq_ok_iff.mp h
    obtain ⟨ms, hms, hkeys⟩ := namesMet_returns_iff.mp ⟨_, hmodels⟩
    obtain ⟨es, hes, hkeys'⟩ := namesMet_returns_iff.mp ⟨_, hentries⟩
    exact ⟨files, ms, es, ⟨hfiles, hms, hes⟩, hkeys, hkeys'⟩
  · rintro ⟨files, ms, es, hreads, hkeys, hkeys'⟩
    obtain ⟨inModels, hmodels⟩ := namesMet_returns_iff.mpr ⟨ms, hreads.models, hkeys⟩
    obtain ⟨inEntries, hentries⟩ := namesMet_returns_iff.mpr ⟨es, hreads.entries, hkeys'⟩
    rw [unmet, hreads.scripts, ok_bind, hmodels, ok_bind, hentries, ok_bind]
    exact ⟨_, rfl⟩

/-- **What is missing**: a script without a model and without an entry whose keys meet the
requirement. -/
theorem unmet_ne_nil_iff {missing : List Path} {files : FileMap} {ms : List Model}
    {es : List PropertyEntry} (h : unmet t manifest modelKeys entryKeys r request = .ok missing)
    (hreads : CheckReads t manifest request files ms es) :
    missing ≠ [] ↔ ∃ stem ∈ files.stems,
      (¬ ∃ m ∈ ms, m.filename = stem ∧ ∃ keys, modelKeys m.node = .ok keys ∧ Meets r keys) ∧
      ¬ ∃ e ∈ es, e.name = .str stem ∧ ∃ keys, entryKeys e.body = .ok keys ∧ Meets r keys := by
  rw [unmet, hreads.scripts, ok_bind] at h
  obtain ⟨inModels, hmodels, h⟩ := bind_eq_ok_iff.mp h
  obtain ⟨inEntries, hentries, h⟩ := bind_eq_ok_iff.mp h
  cases h
  have hmissing : (files.filter fun f => !(inModels ++ inEntries).any (·.same (.str f.1))).map
      (·.2) ≠ [] ↔
      ∃ stem ∈ files.stems, ¬ Among (inModels ++ inEntries) stem := by
    rw [ne_eq, List.map_eq_nil_iff, List.filter_eq_nil_iff, FileMap.stems]
    simp [Among]
  rw [hmissing]
  refine exists_congr fun stem => and_congr_right fun _ => ?_
  rw [among_append, not_or, among_namesMet_iff hreads.models hmodels,
    among_namesMet_iff hreads.entries hentries]
  simp only [Scalar.str.injEq]

end

/-! ### Labels -/

/-- **The keys of labels**: none without settings or without labels, and else those of the
mapping. -/
def LabelKeys (body : Value) (keys : List Scalar) : Prop :=
  body.field "config" = .ok .null ∧ keys = [] ∨
    ∃ settings labels, body.field "config" = .ok (.map settings) ∧
      (Value.map settings).field "labels" = .ok labels ∧
        (labels.truthy = false ∧ keys = [] ∨ ∃ entries, labels = .map entries ∧
          keys = entries.map (·.1))

/-- The settings of the node or entry are there. -/
def HasSettings (body : Value) : Prop := ∃ settings, body.field "config" = .ok (.map settings)

variable {keys : List Scalar}

theorem keySet_eq_ok_iff {v : Value} :
    keySet v = .ok keys ↔ ∃ entries, v = .map entries ∧ keys = entries.map (·.1) := by
  constructor
  · intro h
    obtain ⟨entries, hentries, rfl⟩ := map_eq_ok_iff.mp h
    unfold Value.entries at hentries
    split at hentries
    · rw [Except.ok.inj hentries]
      exact ⟨entries, rfl, rfl⟩
    · cases hentries
  · rintro ⟨entries, rfl, rfl⟩
    rfl

theorem labelKeys_eq_ok_iff {labels : Value} : labelKeys labels = .ok keys ↔
    labels.truthy = false ∧ keys = [] ∨ ∃ entries, labels = .map entries ∧
      keys = entries.map (·.1) := by
  rw [labelKeys]
  cases htrue : labels.truthy with
  | true => simp [keySet_eq_ok_iff]
  | false =>
    constructor
    · exact fun h => .inl ⟨rfl, (Except.ok.inj h).symm⟩
    · rintro (⟨-, rfl⟩ | ⟨entries, rfl, rfl⟩)
      · rfl
      · -- a mapping that counts as false is empty
        have hnil : entries = [] := by simpa [Value.truthy] using htrue
        rw [hnil]
        rfl

theorem labels_eq_ok_iff {config : Value} :
    (config.field "labels" >>= labelKeys) = .ok keys ↔ ∃ settings labels, config = .map settings ∧
      (Value.map settings).field "labels" = .ok labels ∧
      (labels.truthy = false ∧ keys = [] ∨ ∃ entries, labels = .map entries ∧
        keys = entries.map (·.1)) := by
  rw [bind_eq_ok_iff]
  simp only [labelKeys_eq_ok_iff]
  constructor
  · rintro ⟨labels, hlabels, hkeys⟩
    obtain ⟨settings, rfl⟩ := isMapping_of_fieldD hlabels
    exact ⟨settings, labels, rfl, hlabels, hkeys⟩
  · rintro ⟨settings, labels, rfl, hlabels, hkeys⟩
    exact ⟨labels, hlabels, hkeys⟩

theorem nodeLabels_eq_ok_iff {body : Value} : nodeLabels body = .ok keys ↔ LabelKeys body keys := by
  rw [nodeLabels, LabelKeys]
  cases hconfig : body.field "config" with
  | error fault => simp
  | ok config =>
    rw [ok_bind]
    split
    · constructor
      · exact fun h => .inl ⟨rfl, (Except.ok.inj h).symm⟩
      · rintro (⟨-, rfl⟩ | ⟨settings, labels, hsettings, -⟩)
        · rfl
        · cases hsettings
    · rename_i hsome
      rw [labels_eq_ok_iff]
      constructor
      · rintro ⟨settings, labels, rfl, hlabels, hkeys⟩
        exact .inr ⟨settings, labels, rfl, hlabels, hkeys⟩
      · rintro (⟨hnull, -⟩ | ⟨settings, labels, hsettings, hlabels, hkeys⟩)
        · exact absurd (Except.ok.inj hnull) hsome
        · exact ⟨settings, labels, Except.ok.inj hsettings, hlabels, hkeys⟩

theorem entryLabels_eq_ok_iff {body : Value} :
    entryLabels body = .ok keys ↔ LabelKeys body keys ∧ HasSettings body := by
  rw [entryLabels, LabelKeys, HasSettings]
  cases hconfig : body.field "config" with
  | error fault => simp
  | ok config =>
    rw [ok_bind, labels_eq_ok_iff]
    constructor
    · rintro ⟨settings, labels, rfl, hlabels, hkeys⟩
      exact ⟨.inr ⟨settings, labels, rfl, hlabels, hkeys⟩, settings, rfl⟩
    · rintro ⟨⟨hnull, -⟩ | ⟨settings, labels, hsettings, hlabels, hkeys⟩, settings', hsettings'⟩
      · cases hnull
        cases hsettings'
      · exact ⟨settings, labels, Except.ok.inj hsettings, hlabels, hkeys⟩

/-! ### Property files and manifests in good form -/

/-- An item of the models of a property file: if it is a mapping, it has a scalar for a name, or
none, and the keys of its labels can be told. -/
def ModelItem (item : Value) : Prop :=
  ∀ fields, item = .map fields → (∀ name, Entries.get? fields "name" = some name →
    name.truthy = true → ∃ s, name = .scalar s) ∧ ∃ keys, LabelKeys item keys

/-- **The property file is well formed**: it can be read, and its models are a list of such
items. -/
def WellFormed (t : Tree) (file : Path) : Prop :=
  ∃ document items, t.readProperties file.text = .ok document ∧
    sectionItems document.root "models" = .ok items ∧
    ∀ item ∈ items, ModelItem item

theorem described?_of_modelItem {file : Path} {wanted : Wanted} {item : Value}
    (h : ModelItem item) :
    ∃ found, described? file wanted item = .ok found ∧ ∀ e, found = some e →
      ∃ keys, LabelKeys e.body keys := by
  unfold described?
  split
  · rename_i fields
    obtain ⟨hname, hkeys⟩ := h fields rfl
    split
    · exact ⟨none, rfl, by simp⟩
    · rename_i name hget
      split
      · rename_i htrue
        obtain ⟨s, rfl⟩ := hname name hget htrue
        refine ⟨_, rfl, fun e he => ?_⟩
        obtain ⟨-, he⟩ := Option.ite_none_right_eq_some.mp he
        rw [← Option.some.inj he]
        exact hkeys
      · exact ⟨none, rfl, by simp⟩
  · exact ⟨none, rfl, by simp⟩

theorem modelEntries_of_wellFormed {t : Tree} {wanted : Wanted} {files : List Path}
    (h : ∀ file ∈ files, WellFormed t file) :
    ∃ es, (modelEntries t files wanted).toExcept = .ok es ∧
      ∀ e ∈ es, ∃ keys, LabelKeys e.body keys := by
  refine Feed.exists_flatMap fun file hfile => ?_
  obtain ⟨document, items, hdocument, hitems, hall⟩ := h file hfile
  rw [entriesOfFile, Feed.toExcept_ofExcept, hdocument, ok_bind, hitems]
  exact Feed.exists_filterMapE fun item hitem => described?_of_modelItem (hall item hitem)

/-- A node of a manifest in good form: a mapping under an id that gives a file name, with a mapping
of settings if it has any, so that the keys of its labels can be told. -/
def GoodNode (entry : Scalar × Value) : Prop :=
  (∃ settings, entry.2.fieldD "config" (.map []) = .ok (.map settings)) ∧ ¬ Nameless entry ∧
    ∃ keys, LabelKeys entry.2 keys

/-- **A manifest in good form.** -/
structure GoodManifest (manifest : Value) : Prop where
  nodes : ∃ entries, sectionNodes manifest "nodes" = .ok entries ∧ ∀ e ∈ entries, GoodNode e
  macros : ∃ paths, macroPaths manifest = .ok paths
  disabled : ∃ entries, sectionNodes manifest "disabled" = .ok entries ∧
    ∀ e ∈ entries, ∃ id, e.1 = .str id

theorem GoodNode.exists_id {entry : Scalar × Value} (h : GoodNode entry) :
    ∃ id, entry.1 = .str id := by
  by_contra hno
  exact h.2.1 (.inl fun id hid => hno ⟨id, hid⟩)

theorem GoodNode.exists_materialized {entry : Scalar × Value} (h : GoodNode entry) (how : String) :
    ∃ b, isMaterialized entry.2 how = .ok b := by
  obtain ⟨⟨settings, hsettings⟩, -⟩ := h
  exact ⟨_, by rw [isMaterialized, materialization, hsettings]; rfl⟩

theorem nameOfKind?_str (kind id : String) : ∃ name, nameOfKind? kind (.str id) = .ok name :=
  ⟨_, rfl⟩

theorem exists_namesBuilt {kind how : String} : ∀ {nodes : Entries}, (∀ e ∈ nodes, GoodNode e) →
    ∃ names, namesBuilt kind how nodes = .ok names := by
  intro nodes
  induction nodes with
  | nil => exact fun _ => ⟨[], rfl⟩
  | cons entry nodes ih =>
    intro h
    obtain ⟨key, node⟩ := entry
    have hgood := h (key, node) List.mem_cons_self
    obtain ⟨id, hid⟩ := hgood.exists_id
    obtain rfl : key = .str id := hid
    obtain ⟨b, hb⟩ := hgood.exists_materialized how
    have hbuilt : isMaterialized node how = .ok b := hb
    obtain ⟨name, hname⟩ := nameOfKind?_str kind id
    obtain ⟨names, hnames⟩ := ih fun e he => h e (List.mem_cons_of_mem _ he)
    rw [namesBuilt, hbuilt, ok_bind, hname, hnames]
    cases b with
    | true => exact ⟨_, rfl⟩
    | false => exact ⟨_, rfl⟩

theorem GoodManifest.exists_disabledNames {manifest : Value} (h : GoodManifest manifest)
    (withDisabled : Bool) :
    ∃ names, disabledNames manifest withDisabled = .ok names := by
  obtain ⟨entries, hentries, hids⟩ := h.disabled
  have hsteps : ∀ e ∈ entries, nameOfKind? "model" e.1 =
      .ok ((nameOfKind? "model" e.1).toOption.getD none) := by
    intro e he
    obtain ⟨id, hid⟩ := hids e he
    rw [hid]
    rfl
  rw [disabledNames, hentries, ok_bind, mapM_eq_ok_map hsteps]
  exact ⟨_, rfl⟩

/-- **A manifest in good form tells its scripts and models**, with the keys of their labels. -/
theorem GoodManifest.exists_models {manifest : Value} (h : GoodManifest manifest)
    (request : Request) :
    ∃ files ms, request.givenModelFiles manifest = .ok files ∧
      (request.modelsIn manifest files).toExcept = .ok ms ∧
      ∀ m ∈ ms, ∃ keys, LabelKeys m.node keys := by
  obtain ⟨nodes, hnodes, hgood⟩ := h.nodes
  obtain ⟨paths, hpaths⟩ := h.macros
  obtain ⟨disabled, hdisabled⟩ := h.exists_disabledNames request.withDisabled
  obtain ⟨ephemeral, hephemeral⟩ : ∃ names, ephemeralNames manifest = .ok names := by
    rw [ephemeralNames, hnodes, ok_bind]
    exact exists_namesBuilt hgood
  obtain ⟨files, hfiles, -⟩ := exists_modelFiles hpaths hephemeral hdisabled request.paths
  have hmodels : request.modelsIn manifest files =
      .filterMapE (model? files.stems request.scope) nodes :=
    models_eq hnodes request.scope
  obtain ⟨ms, hms, hkeys⟩ : ∃ ms, (request.modelsIn manifest files).toExcept = .ok ms ∧
      ∀ m ∈ ms, ∃ keys, LabelKeys m.node keys := by
    rw [hmodels]
    refine Feed.exists_filterMapE fun e he => ?_
    obtain ⟨b, hb⟩ := (hgood e he).exists_materialized "ephemeral"
    obtain ⟨y, hy⟩ := (model?_ok_iff hb).mpr fun hname => absurd hname (hgood e he).2.1
    refine ⟨y, hy, fun m hm => ?_⟩
    rw [(modelNode_of_model? hb (hm ▸ hy)).2.2.2]
    exact (hgood e he).2.2
  exact ⟨files, ms, hfiles, hms, hkeys⟩

/-! ### The check of labels -/

/-- **The verdict on labels is right**: one if a script has neither a model nor an entry with labels
that meet the requirement, and zero otherwise. -/
def RightLabels (t : Tree) (manifest : Value) (r : Required) (request : Request) (s : Status) :
    Prop :=
  ∃ files ms es, CheckReads t manifest request files ms es ∧ (s = 0 ∨ s = 1) ∧
    (s = 1 ↔ ∃ stem ∈ files.stems, (¬ ∃ m ∈ ms, m.filename = stem ∧ ∃ keys, LabelKeys m.node keys ∧
      Meets r keys) ∧
    ¬ ∃ e ∈ es, e.name = .str stem ∧ ∃ keys, LabelKeys e.body keys ∧ Meets r keys)

theorem outcome_checkModelLabels (t : Tree) (manifest : Value) (r : Required) (request : Request) :
    (checkModelLabels t manifest r request).report.outcome =
      (unmet t manifest nodeLabels entryLabels r request).map fun missing => if missing = [] then 0
        else 1 := by
  rw [Findings.outcome_report, checkModelLabels, Findings.toExcept_of]
  cases unmet t manifest nodeLabels entryLabels r request with
  | error fault => rfl
  | ok missing => cases missing <;> rfl

/-- **What the check of labels is worth**, if the property files are well formed.  Where it returns,
its verdict is right.  It returns just if the scripts and their models can be told, with the keys of
their labels, and every entry of a property file that is named like a script has settings.  The
first is so for every manifest in good form, but not where nothing stands for the settings of a
node. -/
theorem labelsVerdict_iff (t : Tree) (manifest : Value) (r : Required) (request : Request)
    (hfiles : ∀ file ∈ (propertyFiles request.paths).files, WellFormed t file) :
    (∀ s, (checkModelLabels t manifest r request).report.outcome = .ok s →
      RightLabels t manifest r request s) ∧
    ((∃ s, (checkModelLabels t manifest r request).report.outcome = .ok s) ↔
      ∃ files ms es, CheckReads t manifest request files ms es ∧
        (∀ m ∈ ms, ∃ keys, LabelKeys m.node keys) ∧ ∀ e ∈ es, HasSettings e.body) ∧
    (GoodManifest manifest → ∃ files ms es, CheckReads t manifest request files ms es ∧
      ∀ m ∈ ms, ∃ keys, LabelKeys m.node keys) ∧
    ∀ nodes e, sectionNodes manifest "nodes" = .ok nodes → e ∈ nodes →
      e.2.fieldD "config" (.map []) = .ok .null →
        ∃ fault, (checkModelLabels t manifest r request).report.outcome = .error fault := by
  have hreturns : (∃ s, (checkModelLabels t manifest r request).report.outcome = .ok s) ↔
      ∃ files ms es, CheckReads t manifest request files ms es ∧
        (∀ m ∈ ms, ∃ keys, LabelKeys m.node keys) ∧ ∀ e ∈ es, HasSettings e.body := by
    simp only [outcome_checkModelLabels, map_eq_ok_iff]
    rw [exists_comm]
    simp only [exists_and_left, exists_eq', and_true, unmet_returns_iff, nodeLabels_eq_ok_iff,
      entryLabels_eq_ok_iff, exists_and_right]
    refine exists_congr fun files => exists_congr fun ms => exists_congr fun es => and_congr_right
      fun hreads =>
      and_congr_right fun _ => forall₂_congr fun e he => and_iff_right ?_
    obtain ⟨es', hes', hkeys⟩ := modelEntries_of_wellFormed hfiles
    obtain rfl := Except.ok.inj (hreads.entries.symm.trans hes')
    exact hkeys e he
  refine ⟨fun s hs => ?_, hreturns, fun hgood => ?_, fun nodes e hnodes he hnull => ?_⟩
  · obtain ⟨files, ms, es, hreads, -, hsettings⟩ := hreturns.mp ⟨s, hs⟩
    rw [outcome_checkModelLabels] at hs
    obtain ⟨missing, hmissing, rfl⟩ := map_eq_ok_iff.mp hs
    refine ⟨files, ms, es, hreads, by split <;> simp, ?_⟩
    have hone : (if missing = [] then 0 else 1 : Status) = 1 ↔ missing ≠ [] := by split <;> simp [*]
    rw [hone, unmet_ne_nil_iff hmissing hreads]
    simp only [nodeLabels_eq_ok_iff, entryLabels_eq_ok_iff]
    -- the entries have settings, so that their labels are read as those of nodes
    refine exists_congr fun stem => and_congr_right fun _ => and_congr_right fun _ => not_congr <|
      exists_congr fun e => and_congr_right fun he => and_congr_right fun _ => exists_congr
        fun keys => ?_
    rw [and_iff_left (hsettings e he)]
  · obtain ⟨files, ms, hscripts, hms, hkeys⟩ := hgood.exists_models request
    obtain ⟨es, hes, -⟩ := modelEntries_of_wellFormed hfiles
    exact ⟨files, ms, es, ⟨hscripts, hms, hes⟩, hkeys⟩
  · cases houtcome : (checkModelLabels t manifest r request).report.outcome with
    | error fault => exact ⟨fault, rfl⟩
    | ok s =>
      obtain ⟨files, ms, es, hreads, -⟩ := hreturns.mp ⟨s, houtcome⟩
      obtain ⟨b, hb⟩ := materialized_of_modelFiles hreads.scripts hnodes e he
      obtain ⟨fields, settings, -, hsettings⟩ := mapping_of_materialized hb
      rw [hnull] at hsettings
      cases hsettings

/-! ### One model and its entry -/

def labelledNode : Value :=
  .record [("name", .str "m"), ("config", .record [("labels", .record [("k", .int 1)])])]

def labelledManifest : Value := .record [("nodes", .map [(.str "model.p.m", labelledNode)])]

def entryFile (text : String) : Tree := ⟨[(["m.yml"], .file text.toUTF8)]⟩

def entryWith (settings : List (String × Value)) : Value := .record (("name", .str "m") :: settings)

def scriptAndEntry : Request := { paths := ["m.sql", "m.yml"] }

def entryPath : Path := ⟨.relative, ["m.yml"]⟩

theorem files_scriptAndEntry : (propertyFiles scriptAndEntry.paths).files = [entryPath] := rfl

theorem labelKeys_labelledNode : LabelKeys labelledNode [.str "k"] :=
  .inr ⟨_, _, rfl, rfl, .inr ⟨_, rfl, rfl⟩⟩

theorem goodManifest_labelled : GoodManifest labelledManifest where
  nodes := by
    refine ⟨_, rfl, fun e he => ?_⟩
    obtain rfl := List.mem_singleton.mp he
    refine ⟨⟨_, rfl⟩, ?_, _, labelKeys_labelledNode⟩
    rintro (hid | ⟨id, version, -, hversion, htrue, -⟩)
    · exact hid "model.p.m" rfl
    · cases hversion
      cases htrue
  macros := ⟨_, rfl⟩
  disabled := ⟨[], rfl, by simp⟩

theorem wellFormed_entryFile {text : String} {settings : List (String × Value)}
    (hread : (entryFile text).readProperties "m.yml" =
      .ok ⟨.record [("models", .seq [entryWith settings])], []⟩)
    (hkeys : LabelKeys (entryWith settings) keys) :
    ∀ file ∈ (propertyFiles scriptAndEntry.paths).files, WellFormed (entryFile text) file := by
  rw [files_scriptAndEntry]
  intro file hfile
  obtain rfl := List.mem_singleton.mp hfile
  refine ⟨_, _, hread, rfl, fun item hitem fields hfields => ?_⟩
  obtain rfl := List.mem_singleton.mp hitem
  refine ⟨fun name hname _ => ?_, keys, hkeys⟩
  cases hfields
  exact ⟨.str "m", (Option.some.inj hname).symm⟩

theorem looked_entryFile {text : String} {settings : List (String × Value)}
    (hread : (entryFile text).readProperties "m.yml" =
      .ok ⟨.record [("models", .seq [entryWith settings])], []⟩) :
    CheckReads (entryFile text) labelledManifest scriptAndEntry [("m", ⟨.relative, ["m.sql"]⟩)]
      [⟨"model.p.m", .str "m", "m", labelledNode⟩] [⟨.str "m", entryPath, entryWith settings⟩] where
  scripts := rfl
  models := rfl
  entries := by
    have htext : entryPath.text = "m.yml" := by decide
    rw [files_scriptAndEntry, modelEntries, Feed.flatMap, entriesOfFile, htext, hread]
    rfl

theorem read_bare : (entryFile "models:\n- name: m\n").readProperties "m.yml" =
    .ok ⟨.record [("models", .seq [entryWith []])], []⟩ :=
  Yaml.eq_of_yields (by decide +kernel)

theorem read_settled : (entryFile "models:\n- name: m\n  config: \x7b\x7d\n").readProperties
    "m.yml" = .ok ⟨.record [("models", .seq [entryWith [("config", .record [])]])], []⟩ :=
  Yaml.eq_of_yields (by decide +kernel)

/-- An entry with settings, even if there are no labels in them: the check returns. -/
theorem labelsVerdict_settled :
    (∀ file ∈ (propertyFiles scriptAndEntry.paths).files,
      WellFormed (entryFile "models:\n- name: m\n  config: \x7b\x7d\n") file) ∧
    GoodManifest labelledManifest ∧
    ∃ s, (checkModelLabels (entryFile "models:\n- name: m\n  config: \x7b\x7d\n") labelledManifest
      ⟨["k"], false⟩ scriptAndEntry).report.outcome = .ok s ∧
      RightLabels (entryFile "models:\n- name: m\n  config: \x7b\x7d\n") labelledManifest
        ⟨["k"], false⟩ scriptAndEntry s := by
  have hkeys : LabelKeys (entryWith [("config", .record [])]) [] :=
    .inr ⟨_, .null, rfl, rfl, .inl ⟨rfl, rfl⟩⟩
  have hfiles := wellFormed_entryFile read_settled hkeys
  obtain ⟨hright, hreturns, hmodels, -⟩ :=
    labelsVerdict_iff _ labelledManifest ⟨["k"], false⟩ scriptAndEntry hfiles
  obtain ⟨files, ms, es, hreads, hkeys⟩ := hmodels goodManifest_labelled
  have hexpected := looked_entryFile read_settled
  obtain rfl := Except.ok.inj (hexpected.scripts.symm.trans hreads.scripts)
  obtain rfl := Except.ok.inj (hexpected.entries.symm.trans hreads.entries)
  obtain ⟨s, hs⟩ := hreturns.mpr ⟨_, ms, _, hreads, hkeys, by
    intro e he
    rw [List.mem_singleton.mp he]
    exact ⟨[], rfl⟩⟩
  exact ⟨hfiles, goodManifest_labelled, s, hs, hright s hs⟩

/-- **An entry without settings**: the model of the only script has the labels, and the check breaks
off. -/
theorem labelsVerdict_bare :
    (∀ file ∈ (propertyFiles scriptAndEntry.paths).files,
      WellFormed (entryFile "models:\n- name: m\n") file) ∧
    GoodManifest labelledManifest ∧
    (∃ files ms es,
      CheckReads (entryFile "models:\n- name: m\n") labelledManifest scriptAndEntry files ms es ∧
      ∀ stem ∈ files.stems, ∃ m ∈ ms, m.filename = stem ∧
        ∃ keys, LabelKeys m.node keys ∧ Meets ⟨["k"], false⟩ keys) ∧
    ∃ fault, (checkModelLabels (entryFile "models:\n- name: m\n") labelledManifest ⟨["k"], false⟩
      scriptAndEntry).report.outcome = .error fault := by
  refine ⟨wellFormed_entryFile read_bare (.inl ⟨rfl, rfl⟩), goodManifest_labelled,
    ⟨_, _, _, looked_entryFile read_bare, fun stem hstem => ?_⟩, ?_⟩
  · obtain rfl := List.mem_singleton.mp hstem
    exact ⟨_, List.mem_singleton.mpr rfl, rfl, _, labelKeys_labelledNode, by simp [Meets]⟩
  · have hnone : (checkModelLabels (entryFile "models:\n- name: m\n") labelledManifest
        ⟨["k"], false⟩ scriptAndEntry).report.outcome.toOption = none := by decide +kernel
    cases houtcome : (checkModelLabels (entryFile "models:\n- name: m\n") labelledManifest
      ⟨["k"], false⟩ scriptAndEntry).report.outcome with
    | error fault => exact ⟨fault, rfl⟩
    | ok s =>
      rw [houtcome] at hnone
      cases hnone

end Keys

end ProjectLint
