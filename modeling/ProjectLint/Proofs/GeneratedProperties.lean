import ProjectLint.Proofs.Lineage
import ProjectLint.Proofs.PropertyJobs

/-!
# Property files that are generated

A model that no property file describes gets an entry in the file that the template of a path leads
to for it: behind the models of that file, or in a new one.  Other files are not touched.  All this
comes out as it is to **just if no new file takes the place of one that says more, and no file has
models that share with another part of it** (`generate_describes_iff`).  A path that goes into a
directory that is not there and out of it again seems to lead to no file, so that a new one is
written over the one it leads to.
-/

namespace ProjectLint.PropertyFiles

open Yaml (Document ReadsBack)
open Sources (under? itemsUnder)

/-! ### Models that are to be described -/

/-- No property file describes the model. -/
def undescribed (m : Model) : Bool := !((under? "patch_path" m.node).getD .null).truthy

def keyName? : Scalar → Option String
  | .str name => if name.isEmpty then none else some name
  | _ => none

def columnNames (node : Value) : List String :=
  match under? "columns" node with
  | some (.map columns) => columns.filterMap fun column => keyName? column.1
  | _ => []

def fieldsFor (nodes : Value) (m : Model) : List (String × Value) :=
  let node := (under? m.id nodes).getD (.map [])
  ("name", m.name) :: if node.truthy
    then [("columns", .seq ((columnNames node).map fun name =>
      .record [("name", .str (Text.lower name))]))] else []

/-- What a template may name of a model. -/
def pathValues (node : Value) : List (String × Value) :=
  (["database", "schema", "alias", "name"].map fun field =>
    (field, (under? field node).getD .null)).filter fun v =>
    v.2.truthy

def jobOf (nodes : Value) (template : String) (m : Model) : Job :=
  ⟨(Template.render template (pathValues m.node)).toOption.getD "", fieldsFor nodes m, m.name⟩

/-- **The jobs of a run**: one for each model of the scripts that no property file describes, in
their order. -/
def jobsOf (manifest catalog : Value) (template : String) (r : Request) : List Job :=
  ((r.modelsIn manifest (scriptFiles r.paths)).items.filter undescribed).map
    (jobOf ((under? "nodes" catalog).getD (.map [])) template)

theorem keyName?_of_not_truthy {key : Scalar} (h : (Value.scalar key).truthy = false) :
    keyName? key = none := by
  cases key with
  | str name =>
    have hempty : name.isEmpty = true := by simpa [Value.truthy] using h
    rw [keyName?, if_pos hempty]
  | null => rfl
  | bool b => rfl
  | int n => rfl
  | float x => rfl
  | bytes b => rfl
  | date d => rfl
  | moment m => rfl

theorem mapM_idText {β : Type} (f : String → β) : ∀ {keys : List Scalar} {items : List β},
    (keys.filter fun n => (Value.scalar n).truthy).mapM (fun n => do return f (← idText n)) =
      (.ok items : Except Fault (List β)) → items = (keys.filterMap keyName?).map f := by
  intro keys
  induction keys with
  | nil => intro items h; cases h; rfl
  | cons key keys ih =>
    intro items h
    cases htruthy : (Value.scalar key).truthy with
    | false =>
      rw [List.filter_cons_of_neg (by rw [htruthy]; decide)] at h
      rw [List.filterMap_cons_none (keyName?_of_not_truthy htruthy)]
      exact ih h
    | true =>
      rw [List.filter_cons_of_pos (by rw [htruthy])] at h
      obtain ⟨item, rest, hitem, hrest, rfl⟩ := mapM_cons_eq_ok_iff.mp h
      obtain ⟨text, htext, hitem⟩ := bind_eq_ok_iff.mp hitem
      cases hitem
      have hname : keyName? key = some text := by
        obtain rfl := idText_eq_ok htext
        have hfull : text.isEmpty = false := by simpa [Value.truthy] using htruthy
        rw [keyName?, hfull]
        rfl
      rw [List.filterMap_cons_some hname, List.map_cons, ← ih hrest]

theorem columnsOf_eq {node v : Value} (h : columnsOf node = .ok v) :
    v = .seq ((columnNames node).map fun name => .record [("name", .str (Text.lower name))]) := by
  obtain ⟨columns, hcolumns, h⟩ := bind_eq_ok_iff.mp h
  obtain ⟨names, hnames, h⟩ := bind_eq_ok_iff.mp h
  obtain ⟨items, hitems, h⟩ := bind_eq_ok_iff.mp h
  cases h
  obtain ⟨-, hcolumns⟩ := under?_of_fieldD hcolumns
  obtain ⟨es, hes, rfl⟩ := map_eq_ok_iff.mp hnames
  have hentries : columns = .map es := eq_map_of_entries hes
  have hnames : columnNames node = (es.map (·.1)).filterMap keyName? := by
    rw [columnNames, List.filterMap_map]
    cases hunder : under? "columns" node with
    | none =>
      rw [hunder, hentries] at hcolumns
      cases hcolumns
      rfl
    | some x =>
      rw [hunder, hentries] at hcolumns
      cases hcolumns
      rfl
  rw [hnames, mapM_idText (fun name => Value.record [("name", .str (Text.lower name))]) hitems]

variable {t : Tree} {nodes : Value} {template : String}

theorem entryOf_cases {m : Model} {found : Option Entry} (h : entryOf nodes m = .ok found) :
    (found = none ∧ undescribed m = false) ∨
      ∃ entry, found = some entry ∧ undescribed m = true ∧ entry.fields = fieldsFor nodes m := by
  obtain ⟨patch, hpatch, h⟩ := bind_eq_ok_iff.mp h
  obtain ⟨-, hpatch⟩ := under?_of_fieldD hpatch
  rw [undescribed, hpatch]
  cases hdescribed : patch.truthy with
  | true =>
    rw [hdescribed, if_pos rfl] at h
    cases h
    exact .inl ⟨rfl, rfl⟩
  | false =>
    rw [hdescribed, if_neg (by decide)] at h
    obtain ⟨node, hnode, h⟩ := bind_eq_ok_iff.mp h
    obtain ⟨-, hnode⟩ := under?_of_fieldD hnode
    refine .inr ?_
    rw [fieldsFor, hnode]
    cases hthere : node.truthy with
    | true =>
      rw [hthere, if_pos rfl] at h
      obtain ⟨columns, hcolumns, h⟩ := bind_eq_ok_iff.mp h
      cases h
      exact ⟨_, rfl, rfl, by rw [columnsOf_eq hcolumns]; rfl⟩
    | false =>
      rw [hthere, if_neg (by decide)] at h
      cases h
      exact ⟨_, rfl, rfl, rfl⟩

theorem templateValues_eq {node : Value} {values : List (String × Value)}
    (h : templateValues node = .ok values) :
    values = pathValues node := by
  obtain ⟨pairs, hpairs, h⟩ := bind_eq_ok_iff.mp h
  cases h
  obtain ⟨_, -, hfirst⟩ := ok_of_mapM hpairs "database" List.mem_cons_self
  obtain ⟨_, hfield, -⟩ := bind_eq_ok_iff.mp hfirst
  obtain ⟨⟨es, rfl⟩, -⟩ := under?_of_fieldD hfield
  have hall : ["database", "schema", "alias", "name"].mapM
      (fun field => do return (field, ← (Value.map es).field field)) =
      .ok (["database", "schema", "alias", "name"].map fun field =>
        (field, (under? field (.map es)).getD .null)) :=
    mapM_eq_ok_map fun field _ => rfl
  cases hpairs.symm.trans hall
  rfl

/-! ### One model after another -/

/-- **What is done about a model**: nothing if a property file describes it, and its job
otherwise. -/
theorem writeModel_cases {m : Model} {status status' : Status}
    (h : ((writeModel nodes template status m).run t).outcome = .ok status') :
    (undescribed m = false ∧ status' = status ∧
      ((writeModel nodes template status m).run t).tree = t) ∨
    (undescribed m = true ∧ status' = 1 ∧
      Template.render template (pathValues m.node) = .ok (jobOf nodes template m).target ∧
      ((jobOf nodes template m).write.run t).outcome = .ok () ∧
      ((writeModel nodes template status m).run t).tree =
        ((jobOf nodes template m).write.run t).tree) := by
  rw [writeModel] at h ⊢
  cases hentry : entryOf nodes m with
  | error fault => rw [hentry] at h; cases h
  | ok found =>
    rw [hentry] at h
    rw [Edit.ofExcept_ok_bind] at h ⊢
    rcases entryOf_cases hentry with ⟨rfl, hdescribed⟩ | ⟨entry, rfl, hundescribed, hfields⟩
    · cases h
      exact .inl ⟨hdescribed, rfl, rfl⟩
    refine .inr ?_
    dsimp only at h ⊢
    have hsay : ((Edit.forEach Edit.say entry.remark.toList).run t).outcome = .ok () := by
      rw [Edit.run_forEach_say]
    rw [Edit.run_bind_ok hsay, Edit.run_forEach_say] at h ⊢
    dsimp only at h ⊢
    cases hvalues : templateValues m.node with
    | error fault => rw [hvalues] at h; cases h
    | ok values =>
      rw [hvalues] at h
      rw [Edit.ofExcept_ok_bind] at h ⊢
      obtain rfl := templateValues_eq hvalues
      cases hpath : Template.render template (pathValues m.node) with
      | error fault => rw [hpath] at h; cases h
      | ok path =>
        rw [hpath] at h
        rw [Edit.ofExcept_ok_bind] at h ⊢
        have htarget : (jobOf nodes template m).target = path := by rw [jobOf, hpath]; rfl
        have hwrite : writeEntry (Path.ofString path) entry m.name =
            (jobOf nodes template m).write := by
          rw [Job.write, htarget]
          show writeEntry _ ⟨entry.fields, entry.remark⟩ _ =
            writeEntry _ ⟨fieldsFor nodes m, none⟩ _
          rw [hfields]
          rfl
        rw [hwrite] at h ⊢
        rw [Edit.outcome_bind] at h
        obtain ⟨_, hok, h⟩ := bind_eq_ok_iff.mp h
        cases h
        refine ⟨hundescribed, rfl, by rw [htarget], hok, ?_⟩
        rw [Edit.run_bind_ok hok, Edit.run_pure]

/-- **All models gone through** are all jobs done. -/
theorem writeModels_run : ∀ (models : List Model) {status status' : Status} {t : Tree},
    ((Edit.foldl (writeModel nodes template) status models).run t).outcome = .ok status' →
    ((Edit.forEach Job.write ((models.filter undescribed).map (jobOf nodes template))).run
      t).outcome = .ok () ∧
    ((Edit.foldl (writeModel nodes template) status models).run t).tree =
      afterJobs t ((models.filter undescribed).map (jobOf nodes template)) ∧
    status' = (if (models.filter undescribed).isEmpty then status else 1) ∧
    ∀ m ∈ models.filter undescribed,
      Template.render template (pathValues m.node) = .ok (jobOf nodes template m).target := by
  intro models
  induction models with
  | nil =>
    intro status status' t h
    cases h
    exact ⟨rfl, rfl, rfl, by simp⟩
  | cons m models ih =>
    intro status status' t h
    rw [Edit.run_foldl_cons, Edit.outcome_bind] at h
    obtain ⟨mid, hfirst, hrest⟩ := bind_eq_ok_iff.mp h
    obtain ⟨hok, htree, hstatus, hrender⟩ := ih hrest
    rw [Edit.run_foldl_cons, Edit.run_bind_ok hfirst]
    dsimp only
    rcases writeModel_cases hfirst with ⟨hdescribed, rfl, hsame⟩
        | ⟨hundescribed, rfl, hpath, hwrite, hsame⟩
    · rw [List.filter_cons_of_neg (by rw [hdescribed]; decide)]
      rw [hsame] at hok htree ⊢
      exact ⟨hok, htree, hstatus, hrender⟩
    · rw [List.filter_cons_of_pos hundescribed, List.map_cons, Edit.forEach_cons,
        Edit.run_bind_ok hwrite]
      rw [hsame] at hok htree ⊢
      refine ⟨hok, ?_, ?_, ?_⟩
      · rw [htree, afterJobs, afterJobs, Edit.forEach_cons, Edit.run_bind_ok hwrite]
      · rw [hstatus, ite_self]
        rfl
      · exact List.forall_mem_cons.mpr ⟨hpath, hrender⟩

/-- **A run that ends has done all its jobs**, and ends with status 1 if there were any. -/
theorem generate_run {manifest catalog : Value} {r : Request} {status : Status}
    (h : ((generate manifest catalog template r).run t).outcome = .ok status) :
    (r.modelsIn manifest (scriptFiles r.paths)).stop = none ∧
    ((Edit.forEach Job.write (jobsOf manifest catalog template r)).run t).outcome = .ok () ∧
    ((generate manifest catalog template r).run t).tree =
      afterJobs t (jobsOf manifest catalog template r) ∧
    status = (if (jobsOf manifest catalog template r).isEmpty then 0 else 1) ∧
    ∀ m ∈ (r.modelsIn manifest (scriptFiles r.paths)).items, undescribed m = true →
      ∃ target, Template.render template (pathValues m.node) = .ok target := by
  rw [generate] at h ⊢
  cases hnodes : catalog.fieldD "nodes" (.map []) with
  | error fault => rw [hnodes] at h; cases h
  | ok nodes =>
    rw [hnodes] at h
    rw [Edit.ofExcept_ok_bind] at h ⊢
    obtain ⟨-, rfl⟩ := under?_of_fieldD hnodes
    rw [Edit.outcome_bind] at h
    obtain ⟨last, hfold, h⟩ := bind_eq_ok_iff.mp h
    obtain ⟨hok, htree, hstatus, hrender⟩ := writeModels_run _ hfold
    cases hstop : (r.modelsIn manifest (scriptFiles r.paths)).stop with
    | some f => rw [hstop] at h; cases h
    | none =>
      rw [hstop] at h
      cases h
      refine ⟨rfl, hok, ?_, ?_, fun m hm hundescribed =>
        ⟨_, hrender m (List.mem_filter.mpr ⟨hm, hundescribed⟩)⟩⟩
      · rw [Edit.run_bind_ok hfold, htree, Edit.run_pure]
        rfl
      · rw [hstatus, jobsOf, List.isEmpty_map]

/-- **Property files come out as they are to just if none is written over and none has shared
models.**  Let a run end. It has got all models of the scripts, and ends with status 1 just if one
of them is undescribed.  The path of each such model leads to a file, and files that no such path
leads to are as they were.  A file that paths lead to is to be the document that it was, with the
entries of these models in their order behind its own models, or a new document with these entries
if it was not there.  It is so for all these files if and only if a new file never takes the place
of one that says more and the models of those that were there share with no other part of the
file. -/
theorem generate_describes_iff {manifest catalog : Value} {template : String} {r : Request}
    {status : Status} {t : Tree}
    (hok : ((generate manifest catalog template r).run t).outcome = .ok status)
    (hback : WritesBack t (jobsOf manifest catalog template r)) :
    let jobs := jobsOf manifest catalog template r
    let t' := ((generate manifest catalog template r).run t).tree
    (r.modelsIn manifest (scriptFiles r.paths)).stop = none ∧
    (∀ m ∈ (r.modelsIn manifest (scriptFiles r.paths)).items, undescribed m = true →
      ∃ target, Template.render template (pathValues m.node) = .ok target) ∧
    status = (if jobs.isEmpty then 0 else 1) ∧
    (∀ job ∈ jobs, ∃ place, t'.leadsTo job.path place = true) ∧
    (∀ place, (∀ job ∈ jobs, t'.leadsTo job.path place = false) →
      t'.fileAt? place = t.fileAt? place) ∧
    (AllAsked t t' jobs ↔ SparesFiles t t' jobs ∧ AllAlone t t' jobs) := by
  intro jobs t'
  obtain ⟨hstop, hjobs, htree, hstatus, hrender⟩ := generate_run hok
  obtain ⟨evs, hevs, hdone⟩ := done_of_ok jobs hjobs hback
  have htree : t' = afterJobs t (evs.map Event.job) := by rw [hevs]; exact htree
  refine ⟨hstop, hrender, hstatus, ?_, ?_, ?_⟩
  · intro job hjob
    rw [← hevs] at hjob
    obtain ⟨ev, hev, rfl⟩ := List.mem_map.mp hjob
    exact ⟨ev.place, by rw [htree]; exact (hdone.leadsTo_iff hev).mpr rfl⟩
  · intro place hplace
    rw [htree]
    refine hdone.elsewhere fun ev hev heq => ?_
    have hno := hplace ev.job (by rw [← hevs]; exact List.mem_map_of_mem hev)
    rw [htree, (hdone.leadsTo_iff hev).mpr heq] at hno
    cases hno
  · rw [htree, ← hevs]
    exact hdone.allAsked_iff

/-! ### Trying it out -/

def checkJobs (check : List Job → Job → Bool) (jobs : List Job) : Bool :=
  (List.range jobs.length).all fun i => jobs[i]?.all (check (jobs.take i))

theorem of_checkJobs {check : List Job → Job → Bool} {jobs before after : List Job} {job : Job}
    (h : checkJobs check jobs = true) (hjobs : jobs = before ++ job :: after) :
    check before job = true := by
  have hthis := List.all_eq_true.mp h before.length (List.mem_range.mpr (by rw [hjobs]; simp))
  rw [hjobs, List.getElem?_append_right (Nat.le_refl _), Nat.sub_self, List.take_left' rfl] at hthis
  exact hthis

theorem writesBack_of_check {jobs : List Job}
    (h : checkJobs (fun before job => match job.document (afterJobs t before) with
      | .ok d => Yaml.yields (Document.read (Text.unifyNewlines d.write)) d
      | .error _ => true) jobs = true) : WritesBack t jobs := by
  intro before job after d hjobs hdocument
  have hthis := of_checkJobs h hjobs
  rw [hdocument] at hthis
  exact Yaml.readsBack_of_yields hthis

theorem sparesFiles_of_check {t' : Tree} {jobs : List Job}
    (h : checkJobs (fun before job => (afterJobs t before).exists? job.path ||
      match t'.follow job.path with
      | .file place _ => ((afterJobs t before).fileAt? place).isNone
      | _ => true) jobs = true) : SparesFiles t t' jobs := by
  intro before job after hjobs hmissing place content hleads hcontent
  have hthis := of_checkJobs h hjobs
  obtain ⟨_, hfollow⟩ := Tree.leadsTo_iff.mp hleads
  rw [hmissing, hfollow, Bool.false_or] at hthis
  dsimp only at hthis
  rw [hcontent] at hthis
  cases hthis

theorem allAlone_of_check (t' : Tree) (jobs : List Job) (h : (t.nodes.all fun n => match n.2 with
      | .file content => (documentOf content).toOption.all (·.shares.isEmpty)
      | .dir => true) = true) : AllAlone t t' jobs := by
  intro job _ place _ content d hcontent hd _
  have hnode := Tree.fileAt?_eq_some_iff.mp hcontent
  rw [Tree.node?, Option.map_eq_some_iff] at hnode
  obtain ⟨n, hn, hfile⟩ := hnode
  have hthis := List.all_eq_true.mp h n (List.mem_of_find?_eq_some hn)
  rw [hfile] at hthis
  dsimp only at hthis
  rw [hd] at hthis
  exact Document.alone_of_shares_nil (List.isEmpty_iff.mp hthis) _

def bareModel (name schema : String) : String × Value :=
  ("model.p." ++ name, .record [("name", .str name), ("schema", .str schema)])

def oneFile : Tree := ⟨[(["a.yml"], .file "version: 2\nmodels:\n- name: x\n".toUTF8)]⟩

def twoSchemas : Value :=
  .record [("nodes", .record [bareModel "m" "a", bareModel "n" "b", bareModel "k" "b"])]

def oneTable : Value :=
  .record [("nodes", .record [("model.p.m",
    .record [("columns", .record [("ID", .null), ("", .null)])])])]

def threeModels : Request := { paths := ["m.sql", "n.sql", "k.sql"] }

/-- One entry comes behind the models of the file, and two to a new one. -/
theorem generate_threeModels :
    let jobs := jobsOf twoSchemas oneTable "\x7bschema\x7d.yml" threeModels
    let t' := ((generate twoSchemas oneTable "\x7bschema\x7d.yml" threeModels).run oneFile).tree
    ((generate twoSchemas oneTable "\x7bschema\x7d.yml" threeModels).run oneFile).outcome = .ok 1 ∧
    jobs.map Job.path = ["a.yml", "b.yml", "b.yml"] ∧ AllAsked oneFile t' jobs := by
  intro jobs t'
  have hok : ((generate twoSchemas oneTable "\x7bschema\x7d.yml" threeModels).run
      oneFile).outcome = .ok 1 :=
    eq_ok_of_toOption (by decide +kernel)
  refine ⟨hok, by decide +kernel, ?_⟩
  obtain ⟨-, -, -, -, -, hiff⟩ :=
    generate_describes_iff hok (writesBack_of_check (by decide +kernel))
  exact hiff.mpr ⟨sparesFiles_of_check (by decide +kernel),
    allAlone_of_check _ _ (by decide +kernel)⟩

def sharedModels : Tree := ⟨[(["a.yml"], .file "x: &m\n- name: a\nmodels: *m\n".toUTF8)]⟩

def bothParts (items : List Value) (shares : List (Yaml.Place × Nat)) : Document :=
  ⟨.record [("x", .seq items), ("models", .seq items)], shares⟩

def oneModel : Value := .record [("nodes", .record [bareModel "m" "a"])]

/-- The entry comes to the other part too. -/
theorem generate_sharedModels :
    let before := bothParts [.record [("name", .str "a")]]
      [([0], 2), ([0, 0], 3), ([1], 2), ([1, 0], 3)]
    let after := bothParts [.record [("name", .str "a")], .record [("name", .str "m")]]
      [([0], 2), ([0, 0], 3), ([0, 1], 6), ([1], 2), ([1, 0], 3), ([1, 1], 6)]
    sharedModels.readDocument "a.yml" = .ok before ∧
    ((generate oneModel (.record []) "a.yml" { paths := ["m.sql"] }).run
      sharedModels).tree.readDocument "a.yml" = .ok after ∧
    after.root ≠ withEntries [.record [("name", .str "m")]] before.root := by
  refine ⟨Yaml.eq_of_yields (by decide +kernel), Yaml.eq_of_yields (by decide +kernel), fun h => ?_⟩
  have hitems := congrArg (fun root => (itemsUnder "x" root).length) h
  exact absurd hitems (by decide)

/-- Of two entries that go to one file through directories which are not there, the second takes the
place of the first. -/
example : ((generate (.record [("nodes", .record [bareModel "m" "x", bareModel "n" "y"])])
    (.record []) "\x7bschema\x7d/../a.yml" { paths := ["m.sql", "n.sql"] }).run
      .empty).tree.readDocument "a.yml" =
    .ok (fresh (.record [("name", .str "n")])) := Yaml.eq_of_yields (by decide +kernel)

end ProjectLint.PropertyFiles
