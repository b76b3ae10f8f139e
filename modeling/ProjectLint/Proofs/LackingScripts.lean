import ProjectLint.Proofs.FileMaps
import ProjectLint.Proofs.ModelKeys
import ProjectLint.Proofs.ModelScope
import ProjectLint.Proofs.Parents

/-!
# Scripts that lack something

Two checks go through the scripts of models and report those that lack something: meta keys, which a
node of the manifest or an entry of a property file may have, and properties, which a node must have
been given.

A script is known by its stem, and each stem stands once.  What is taken away from the scripts is
collected by name, from nodes and from **the entries of the property files that are kept**
(`HasEntry`), so that a script is reported just if it is left over by all of these views
(`mem_lacking_iff`, `mem_missing_iff`).  `lacking_scripts_reported` puts the two checks side by
side.
-/

namespace ProjectLint

theorem Findings.report_of_toExcept {f : Findings} {lines : List String}
    (h : f.toExcept = .ok lines) :
    f.report.lines = lines ∧ f.report.outcome = .ok (status lines) := by
  refine ⟨?_, by rw [outcome_report, h]; rfl⟩
  cases hstop : f.stop with
  | some fault =>
    rw [Feed.toExcept, hstop] at h
    cases h
  | none =>
    rw [Feed.toExcept, hstop] at h
    exact Except.ok.inj h

/-! ### Scripts by stem -/

theorem FileMap.ne_nil_iff {m : FileMap} : m ≠ [] ↔ ∃ stem, stem ∈ m.stems := by
  cases m with
  | nil => simp [stems]
  | cons f m => exact ⟨fun _ => ⟨f.1, List.mem_cons_self⟩, fun _ => List.cons_ne_nil f m⟩

variable {manifest : Value} {withDisabled : Bool} {names : List String} {request : Request}

theorem nodup_modelFiles {paths : List String} {files : FileMap}
    (h : modelFiles manifest withDisabled paths = .ok files) : files.stems.Nodup := by
  obtain ⟨ephemeral, -, h⟩ := bind_eq_ok_iff.mp h
  obtain ⟨ofMacros, -, h⟩ := bind_eq_ok_iff.mp h
  obtain ⟨disabled, -, h⟩ := bind_eq_ok_iff.mp h
  cases h
  exact (FileMap.kept_ofPaths _ _).nodup.sublist (List.filter_sublist.map _)

/-! ### Entries of property files -/

def NamesEntry (root : Value) (name : String) (body : Value) : Prop :=
  ∃ items fields, sectionItems root "models" = .ok items ∧ body ∈ items ∧ body = .map fields ∧
    Entries.get? fields "name" = some (.str name) ∧ name ≠ ""

/-- **An entry of a property file that is kept** has the name and passes a test. -/
def HasEntry (t : Tree) (paths : List String) (name : String) (test : Value → Prop) : Prop :=
  ∃ file ∈ (propertyFiles paths).files, ∃ d body, t.readProperties file.text = .ok d ∧
    NamesEntry d.root name body ∧
    test body

theorem described?_of_name {file : Path} {fields : Entries} {name : String}
    (hfield : Entries.get? fields "name" = some (.str name)) (hne : name ≠ "")
    (hin : name ∈ names) :
    described? file (.named names) (.map fields) = .ok (some ⟨.str name, file, .map fields⟩) := by
  have htruthy : (Value.str name).truthy = true := by
    simpa [Value.truthy] using hne
  have hadmits : Wanted.admits (.named names) (.str name) = true :=
    List.any_eq_true.mpr ⟨name, hin, (Scalar.same_str_iff _ _).mpr rfl⟩
  rw [described?, hfield]
  dsimp only
  rw [if_pos htruthy]
  change Except.ok (if Wanted.admits (.named names) (.str name) = true then _ else _) = _
  rw [if_pos hadmits]

theorem name_of_described?_some {file : Path} {wanted : Wanted} {item : Value} {e : PropertyEntry}
    (h : described? file wanted item = .ok (some e)) : e.body = item ∧
      ∃ fields, item = .map fields ∧ Entries.get? fields "name" = some (.scalar e.name) ∧
        (Value.scalar e.name).truthy = true := by
  unfold described? at h
  split at h
  · rename_i fields
    split at h
    · cases h
    · rename_i name hname
      split at h
      · rename_i htruthy
        obtain ⟨key, hkey, h⟩ := bind_eq_ok_iff.mp h
        obtain rfl := key?_eq_ok hkey
        obtain ⟨-, heq⟩ := Option.ite_none_right_eq_some.mp (Except.ok.inj h)
        cases heq
        exact ⟨rfl, fields, rfl, hname, htruthy⟩
      · cases h
  · cases h

/-- **The entries that are supplied** under a name that is asked for are all of those in the
files. -/
theorem exists_entry_iff {t : Tree} {files : List Path} {es : List PropertyEntry}
    (h : (modelEntries t files (.named names)).toExcept = .ok es) {name : String}
    (hin : name ∈ names) {P : Value → Prop} : (∃ e ∈ es, e.name = .str name ∧ P e.body) ↔
      ∃ file ∈ files, ∃ d body, t.readProperties file.text = .ok d ∧ NamesEntry d.root name body ∧
        P body := by
  rw [modelEntries, Feed.toExcept_flatMap] at h
  obtain ⟨found, hfound, rfl⟩ := map_eq_ok_iff.mp h
  -- what one file supplies
  have hfile : ∀ file part, (entriesOfFile t "models" (.named names) file).toExcept = .ok part →
      ∃ d items walked, t.readProperties file.text = .ok d ∧
        sectionItems d.root "models" = .ok items ∧
        items.mapM (described? file (.named names)) = .ok walked ∧
        part = walked.reduceOption := by
    intro file part hpart
    rw [entriesOfFile, Feed.toExcept_ofExcept] at hpart
    obtain ⟨feed, hfeed, hpart⟩ := bind_eq_ok_iff.mp hpart
    obtain ⟨d, hd, hfeed⟩ := bind_eq_ok_iff.mp hfeed
    obtain ⟨items, hitems, hfeed⟩ := bind_eq_ok_iff.mp hfeed
    cases hfeed
    rw [Feed.toExcept_filterMapE] at hpart
    obtain ⟨walked, hwalked, rfl⟩ := map_eq_ok_iff.mp hpart
    exact ⟨d, items, walked, hd, hitems, hwalked, rfl⟩
  constructor
  · rintro ⟨e, he, hname, hP⟩
    obtain ⟨part, hpart, he⟩ := List.mem_flatten.mp he
    obtain ⟨file, hin, heq⟩ := mem_of_mapM hfound part hpart
    obtain ⟨d, items, walked, hd, hitems, hwalked, rfl⟩ := hfile file part heq
    obtain ⟨item, hitem, hdescribed⟩ := mem_of_mapM hwalked _ (List.reduceOption_mem_iff.mp he)
    obtain ⟨rfl, fields, hfields, hfield, htruthy⟩ := name_of_described?_some hdescribed
    rw [hname] at hfield htruthy
    refine ⟨file, hin, d, e.body, hd, ⟨items, fields, hitems, hitem, hfields, hfield, ?_⟩, hP⟩
    rintro rfl
    cases htruthy
  · rintro ⟨file, hfiles, d, body, hd, ⟨items, fields, hitems, hbody, rfl, hfield, hne⟩, hP⟩
    obtain ⟨part, hpart, heq⟩ := ok_of_mapM hfound file hfiles
    obtain ⟨d', items', walked, hd', hitems', hwalked, rfl⟩ := hfile file part heq
    obtain rfl := Except.ok.inj (hd.symm.trans hd')
    obtain rfl := Except.ok.inj (hitems.symm.trans hitems')
    obtain ⟨y, hy, hdescribed⟩ := ok_of_mapM hwalked _ hbody
    rw [described?_of_name hfield hne hin] at hdescribed
    obtain rfl := Except.ok.inj hdescribed
    exact ⟨_, List.mem_flatten.mpr ⟨_, hpart, List.reduceOption_mem_iff.mpr hy⟩, rfl, hP⟩

/-! ### Meta keys -/

namespace Keys

/-- **The meta keys meet the requirement.** -/
def HasKeys (r : Required) (body : Value) : Prop :=
  ∃ entries, body.fieldD "meta" (.map []) = .ok (.map entries) ∧ Meets r (entries.map (·.1))

/-- Neither a model nor an entry of a property file has the keys that a script must have. -/
def LacksKeys (t : Tree) (paths : List String) (r : Required) (ms : List Model) (stem : String) :
    Prop :=
  (¬ ∃ m ∈ ms, m.filename = stem ∧ HasKeys r m.node) ∧ ¬ HasEntry t paths stem (HasKeys r)

theorem hasKeys_iff {r : Required} {body : Value} :
    (∃ keys, metaKeys body = .ok keys ∧ Meets r keys) ↔ HasKeys r body := by
  constructor
  · rintro ⟨keys, hkeys, hmeets⟩
    obtain ⟨data, hdata, hkeys⟩ := bind_eq_ok_iff.mp hkeys
    obtain ⟨entries, rfl, rfl⟩ := keySet_eq_ok_iff.mp hkeys
    exact ⟨entries, hdata, hmeets⟩
  · rintro ⟨entries, hdata, hmeets⟩
    refine ⟨_, ?_, hmeets⟩
    rw [metaKeys, hdata]
    rfl

/-- **The scripts that lack keys**, each once: those that neither the models nor the entries account
for. -/
theorem mem_lacking_iff {t : Tree} {r : Required} {missing : List Path}
    (h : unmet t manifest metaKeys metaKeys r request = .ok missing) :
    ∃ files ms lacking, request.givenModelFiles manifest = .ok files ∧
      (models manifest files.stems request.scope).toExcept = .ok ms ∧ missing = lacking.map (·.2) ∧
      lacking.Sublist files ∧
      ∀ stem, stem ∈ FileMap.stems lacking ↔ stem ∈ files.stems ∧
        LacksKeys t request.paths r ms stem := by
  obtain ⟨files, ms, es, hlooked, -, -⟩ := unmet_returns_iff.mp ⟨missing, h⟩
  rw [unmet, hlooked.scripts, ok_bind] at h
  obtain ⟨inModels, hmodels, h⟩ := bind_eq_ok_iff.mp h
  obtain ⟨inEntries, hentries, h⟩ := bind_eq_ok_iff.mp h
  cases h
  refine ⟨files, ms, _, hlooked.scripts, hlooked.models, rfl, List.filter_sublist, fun stem => ?_⟩
  rw [mem_stems_filter (p := fun s => !(inModels ++ inEntries).any (·.same (.str s)))]
  refine and_congr_right fun hstem => ?_
  have hamong : (!(inModels ++ inEntries).any (·.same (.str stem))) = true ↔
      ¬ Among (inModels ++ inEntries) stem := by
    simp [Among]
  rw [hamong, among_append, not_or, among_namesMet_iff hlooked.models hmodels,
    among_namesMet_iff hlooked.entries hentries, LacksKeys]
  simp only [Scalar.str.injEq, hasKeys_iff]
  rw [exists_entry_iff hlooked.entries hstem]
  rfl

end Keys

/-! ### Properties -/

namespace Contracts

/-- What is asked of a manifest for the check of properties: the scripts, the names of snapshots,
and the models. -/
structure ManifestGives (manifest : Value) (request : Request) (files : FileMap)
    (snapshots : List String) (ms : List Model) :
    Prop where
  scripts : request.givenModelFiles manifest = .ok files
  snapshots : snapshotNames manifest = .ok snapshots
  models : (models manifest files.stems request.scope).toExcept = .ok ms

/-- A model of the script is described in a property file. -/
def IsDescribed (ms : List Model) (stem : String) : Prop :=
  ∃ m ∈ ms, m.filename = stem ∧ ∃ patch, m.node.field "patch_path" = .ok patch ∧ patch.truthy = true

theorem sectionNodes_of_modelFiles {paths : List String} {files : FileMap}
    (h : modelFiles manifest withDisabled paths = .ok files) :
    ∃ nodes, sectionNodes manifest "nodes" = .ok nodes := by
  obtain ⟨ephemeral, hephemeral, -⟩ := bind_eq_ok_iff.mp h
  obtain ⟨nodes, hnodes, -⟩ := bind_eq_ok_iff.mp hephemeral
  exact ⟨nodes, hnodes⟩

theorem field_of_mem_models {ms : List Model}
    (h : (models manifest names ⟨false, withDisabled⟩).toExcept = .ok ms)
    (key : String) : ∀ m ∈ ms, ∃ v, m.node.field key = .ok v := by
  intro m hm
  obtain ⟨nodes, found, -, hfound, rfl⟩ := mapM_of_models h
  obtain ⟨e, -, heq⟩ := mem_of_mapM hfound _ (List.reduceOption_mem_iff.mp hm)
  obtain ⟨b, hb⟩ := materialized_of_model? heq
  obtain ⟨-, -, -, hnode⟩ := modelNode_of_model? hb heq
  obtain ⟨fields, -, hfields, -⟩ := mapping_of_materialized hb
  rw [hnode, hfields]
  exact field_map fields key

/-- **The check of properties returns** just if the scripts, the snapshots and the models can be
told. -/
theorem withoutProperties_returns_iff :
    (∃ missing, withoutProperties manifest request = .ok missing) ↔
      ∃ files snapshots ms, ManifestGives manifest request files snapshots ms := by
  constructor
  · rintro ⟨missing, h⟩
    obtain ⟨files, hfiles, h⟩ := bind_eq_ok_iff.mp h
    obtain ⟨snapshots, hsnapshots, h⟩ := bind_eq_ok_iff.mp h
    obtain ⟨described, hdescribed, -⟩ := bind_eq_ok_iff.mp h
    obtain ⟨some?, hsome, -⟩ := Feed.toExcept_bind_eq_ok hdescribed
    obtain ⟨all, hall, -⟩ := exists_allModels hsome
    exact ⟨files, snapshots, _, hfiles, hsnapshots, models_of_all hall _⟩
  · rintro ⟨files, snapshots, ms, hgives⟩
    obtain ⟨all, hall, -⟩ := exists_allModels hgives.models
    have hms := models_of_all hall (FileMap.stems (files.filter fun f => !snapshots.contains f.1))
    have hpatches := field_of_mem_models hms "patch_path"
    obtain ⟨found, hfound⟩ := exists_mapM_eq_ok (f := fun m : Model => (Feed.ofExcept do
        return Feed.ofList (if (← m.node.field "patch_path").truthy then [m.filename]
          else [])).toExcept) <| by
      intro m hm
      obtain ⟨patch, hpatch⟩ := hpatches m hm
      rw [hpatch]
      exact ⟨_, rfl⟩
    rw [withoutProperties, hgives.scripts, ok_bind, hgives.snapshots, ok_bind]
    dsimp only
    rw [Request.modelsIn, Request.scope, Feed.toExcept_bind hms, Feed.toExcept_flatMap, hfound]
    exact ⟨_, rfl⟩

/-- **The scripts without properties**, each once: those that are no snapshots and have no model
that is described. -/
theorem mem_missing_iff {files missing : FileMap} {snapshots : List String} {ms : List Model}
    (hgives : ManifestGives manifest request files snapshots ms)
    (h : withoutProperties manifest request = .ok missing) :
    missing.stems.Nodup ∧
      ∀ stem, stem ∈ missing.stems ↔ stem ∈ files.stems ∧ stem ∉ snapshots ∧
        ¬ IsDescribed ms stem := by
  obtain ⟨nodes, hnodes⟩ := sectionNodes_of_modelFiles hgives.scripts
  constructor
  · rw [withoutProperties, hgives.scripts, ok_bind, hgives.snapshots, ok_bind] at h
    obtain ⟨described, -, h⟩ := bind_eq_ok_iff.mp h
    cases h
    exact (nodup_modelFiles hgives.scripts).sublist
      ((List.filter_sublist.trans List.filter_sublist).map _)
  · intro stem
    rw [mem_withoutProperties_iff hgives.scripts hnodes hgives.snapshots h]
    refine and_congr_right fun hstem => and_congr_right fun _ => not_congr ?_
    rw [IsDescribed, exists_mem_models_iff_of_ok hnodes
      (materialized_of_modelFiles hgives.scripts hnodes) hgives.models
      (P := fun node => ∃ patch, node.field "patch_path" = .ok patch ∧ patch.truthy = true),
        and_iff_right hstem]
    rfl

end Contracts

/-! ### The two checks -/

/-- **Scripts are reported just if they lack something.**  A check of meta keys that comes to an end
fails just if a script has neither a model nor an entry of a property file with the keys, and prints
one line for each such script.  A check of properties comes to an end just if the scripts, the
snapshots and the models can be told.  Then what it gives are the scripts that are no snapshots and
have no model that is described, and it fails just if there are any. -/
theorem lacking_scripts_reported (t : Tree) (manifest : Value) (r : Keys.Required)
    (request : Request) :
    (∀ s, (Keys.checkModelMeta t manifest r request).report.outcome = .ok s →
      ∃ files ms lacking, request.givenModelFiles manifest = .ok files ∧
        (models manifest files.stems request.scope).toExcept = .ok ms ∧ (s = 0 ∨ s = 1) ∧
        (s = 1 ↔ ∃ stem ∈ files.stems, Keys.LacksKeys t request.paths r ms stem) ∧
        (FileMap.stems lacking).Nodup ∧ (∀ f ∈ lacking, files.get? f.1 = some f.2) ∧
        (∀ stem, stem ∈ FileMap.stems lacking ↔ stem ∈ files.stems ∧
          Keys.LacksKeys t request.paths r ms stem) ∧
        (Keys.checkModelMeta t manifest r request).report.lines =
          lacking.map fun f => Keys.missingLine "meta" r f.2) ∧
    ((∃ missing, Contracts.withoutProperties manifest request = .ok missing) ↔
      ∃ files snapshots ms, Contracts.ManifestGives manifest request files snapshots ms) ∧
    ∀ files snapshots ms missing, Contracts.ManifestGives manifest request files snapshots ms →
      Contracts.withoutProperties manifest request = .ok missing → missing.stems.Nodup ∧
        (∀ stem, stem ∈ missing.stems ↔
          stem ∈ files.stems ∧ stem ∉ snapshots ∧ ¬ Contracts.IsDescribed ms stem) ∧
        (Contracts.checkProperties manifest request).report.lines =
          missing.map (fun f => Contracts.propertiesLine f.2) ∧
        ∃ s, (Contracts.checkProperties manifest request).report.outcome = .ok s ∧ (s = 0 ∨ s = 1) ∧
          (s = 1 ↔ missing ≠ []) := by
  refine ⟨fun s hs => ?_, Contracts.withoutProperties_returns_iff,
    fun files snapshots ms missing hgives h => ?_⟩
  · obtain ⟨hlines, hstatus⟩ := Findings.verdict hs
    obtain ⟨missing, hmissing, -⟩ := bind_eq_ok_iff.mp ((Findings.toExcept_of _).symm.trans hlines)
    obtain ⟨files, ms, lacking, hfiles, hms, rfl, hsub, hmem⟩ := Keys.mem_lacking_iff hmissing
    have hnodup := nodup_modelFiles hfiles
    have hfindings : (Keys.checkModelMeta t manifest r request).toExcept =
        .ok (lacking.map fun f => Keys.missingLine "meta" r f.2) := by
      rw [Keys.checkModelMeta, Findings.toExcept_of, hmissing, ok_bind, List.map_map]
      rfl
    obtain ⟨hprinted, -⟩ := Findings.report_of_toExcept hfindings
    refine ⟨files, ms, lacking, hfiles, hms, ?_, ?_, hnodup.sublist (hsub.map _),
      fun f hf => ?_, hmem, hprinted⟩
    · rw [hstatus]
      exact Findings.status_eq_zero_or_one _
    · rw [hstatus, Findings.status_eq_one_iff, hprinted, Ne, List.map_eq_nil_iff, ← Ne,
        FileMap.ne_nil_iff]
      exact exists_congr hmem
    · exact (FileMap.get?_eq_some_iff hnodup).mpr (hsub.subset hf)
  · obtain ⟨hnodup, hmem⟩ := Contracts.mem_missing_iff hgives h
    have hfindings : (Contracts.checkProperties manifest request).toExcept =
        .ok (missing.map fun f => Contracts.propertiesLine f.2) := by
      rw [Contracts.checkProperties, Findings.toExcept_of, h]
      rfl
    obtain ⟨hprinted, houtcome⟩ := Findings.report_of_toExcept hfindings
    refine ⟨hnodup, hmem, hprinted, _, houtcome, Findings.status_eq_zero_or_one _, ?_⟩
    rw [Findings.status_eq_one_iff, Ne, List.map_eq_nil_iff]

/-! ### Two scripts and an entry -/

def describedSecond : Value :=
  .record [("nodes", .record [
    ("model.p.m", .record [("name", .str "m")]),
    ("model.p.n", .record [("name", .str "n"), ("patch_path", .str "p://m.yml")])])]

def keyedFirst : Tree := Keys.entryFile "models:\n- name: m\n  meta: \x7bk: 1\x7d\n"

def scriptsAndEntry : Request := { paths := ["m.sql", "a/n.sql", "m.yml"] }

/-- The second script lacks the key, and the first one lacks properties. -/
theorem lacking_scripts_describedSecond :
    (Keys.checkModelMeta keyedFirst describedSecond ⟨["k"], false⟩ scriptsAndEntry).report.outcome =
      .ok 1 ∧
    (∃ files ms, ∃ lacking : FileMap, scriptsAndEntry.givenModelFiles describedSecond = .ok files ∧
      (models describedSecond files.stems scriptsAndEntry.scope).toExcept = .ok ms ∧
      (∃ stem ∈ files.stems,
        Keys.LacksKeys keyedFirst scriptsAndEntry.paths ⟨["k"], false⟩ ms stem) ∧
      (Keys.checkModelMeta keyedFirst describedSecond ⟨["k"], false⟩ scriptsAndEntry).report.lines =
        lacking.map fun f => Keys.missingLine "meta" ⟨["k"], false⟩ f.2) ∧
    ∃ missing, Contracts.withoutProperties describedSecond scriptsAndEntry = .ok missing ∧
      missing.stems = ["m"] ∧
      ∃ s, (Contracts.checkProperties describedSecond scriptsAndEntry).report.outcome = .ok s ∧
        (s = 1 ↔ missing ≠ []) := by
  have houtcome : (Keys.checkModelMeta keyedFirst describedSecond
      ⟨["k"], false⟩ scriptsAndEntry).report.outcome =
      .ok 1 := eq_ok_of_toOption (by decide +kernel)
  obtain ⟨hmeta, hreturns, hproperties⟩ :=
    lacking_scripts_reported keyedFirst describedSecond ⟨["k"], false⟩ scriptsAndEntry
  obtain ⟨files, ms, lacking, hfiles, hms, -, hfails, -, -, -, hlines⟩ := hmeta 1 houtcome
  have hmissing : Contracts.withoutProperties describedSecond scriptsAndEntry =
      .ok [("m", ⟨.relative, ["m.sql"]⟩)] := rfl
  obtain ⟨files', snapshots, ms', hgives⟩ := hreturns.mp ⟨_, hmissing⟩
  obtain ⟨-, -, -, s, hs, -, hstatus⟩ := hproperties files' snapshots ms' _ hgives hmissing
  exact ⟨houtcome, ⟨files, ms, lacking, hfiles, hms, hfails.mp rfl, hlines⟩, _, hmissing, rfl, s,
    hs, hstatus⟩

end ProjectLint
