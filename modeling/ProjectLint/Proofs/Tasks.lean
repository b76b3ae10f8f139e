import ProjectLint.Proofs.Agreement

/-!
# When descriptions can be unified

To unify the descriptions is to carry out **tasks**, each of which describes the columns of one name
in one file (`outcome_unifyGroups`).  The files are separate, so a run comes to an end just if every
file takes its own tasks, one after the other (`forEach_ok_iff`).  A document takes them if its
columns can be walked and what is written of it can be read back (`takes_of_draft`).

* `unify_agrees_iff`: where the check comes to an end, unifying does so, with the same verdict, just
  if no name is mute and each file takes its tasks.
-/

namespace ProjectLint.Wording

open Yaml

/-! ### Tasks -/

/-- The columns of a name are to be described by a text, in one file. -/
structure Task where
  file : Path
  name : String
  text : String

def Task.edit (task : Task) : Edit Unit := describeIn task.file (.str task.name) (.str task.text)

def tasksOf (group : List Column) : List Task :=
  match preferred? (wordsOf group) with
  | some text => (others text group).map fun c => ⟨c.file, keyOf group, text⟩
  | none => []

/-- The descriptions differ, but none of them says anything. -/
def Mute (descriptions : List (Option String)) : Prop :=
  ¬ AllSame descriptions ∧ words descriptions = []

instance (descriptions : List (Option String)) : Decidable (Mute descriptions) :=
  inferInstanceAs (Decidable (¬ AllSame descriptions ∧ words descriptions = []))

/-- **What is done for a group**: it fails if the group is mute, and else carries out the tasks. -/
theorem unifyGroup_run {group : List Column}
    (hdesc : group.map (·.description) = (wordsOf group).map wordValue)
    (hcalled : groupName group = .str (keyOf group)) (status : Status) (t : Tree) :
    (Mute (wordsOf group) ∧ ((unifyGroup status group).run t).outcome = .error .outOfRange) ∨
      (¬ Mute (wordsOf group) ∧
        ((unifyGroup status group).run t).tree =
          ((Edit.forEach Task.edit (tasksOf group)).run t).tree ∧
        ((unifyGroup status group).run t).outcome =
          ((Edit.forEach Task.edit (tasksOf group)).run t).outcome.map
          fun _ => if AllSame (wordsOf group) then status else 1) := by
  rcases unifyGroup_cases hdesc status with
    ⟨hall, heq⟩ | ⟨hdiffer, hmute, heq⟩ | ⟨hdiffer, hno, hwords, line, heq⟩ | ⟨text, htext, heq⟩
  · have htasks : tasksOf group = [] := by rw [tasksOf, preferred?_of_allSame hall]
    refine .inr ⟨fun h => h.1 hall, ?_, ?_⟩
    · rw [heq, htasks]
      rfl
    · rw [heq, htasks, if_pos hall]
      rfl
  · refine .inl ⟨⟨hdiffer, hmute⟩, ?_⟩
    rw [heq]
    rfl
  · have htasks : tasksOf group = [] := by rw [tasksOf, hno]
    refine .inr ⟨fun h => hwords h.2, ?_, ?_⟩
    · rw [heq, htasks]
      rfl
    · rw [heq, htasks, if_neg hdiffer]
      rfl
  · obtain ⟨hdiffer, hprevails⟩ := preferred?_eq_some_iff.mp htext
    have htasks : Edit.forEach Task.edit (tasksOf group) = describeOthers text group := by
      rw [tasksOf, htext, describeOthers, hcalled]
      exact Edit.forEach_map _ _ _
    refine .inr ⟨fun h => ?_, ?_, ?_⟩
    · have hmem := hprevails.1
      rw [h.2] at hmem
      cases hmem
    · rw [heq, htasks, Edit.tree_bind]
      cases ((describeOthers text group).run t).outcome <;> rfl
    · rw [heq, htasks, if_neg hdiffer, Edit.outcome_bind]
      cases ((describeOthers text group).run t).outcome <;> rfl

/-- **All groups gone through**: the run ends well if no group is mute and all tasks can be carried
out, and the verdict tells whether a group has different descriptions. -/
theorem outcome_unifyGroups : ∀ (groups : List (List Column)) (status : Status) (t : Tree),
    (∀ g ∈ groups, g.map (·.description) = (wordsOf g).map wordValue ∧
      groupName g = .str (keyOf g)) →
    ∀ status', ((Edit.foldl unifyGroup status groups).run t).outcome = .ok status' ↔
      (∀ g ∈ groups, ¬ Mute (wordsOf g)) ∧
      ((Edit.forEach Task.edit (groups.flatMap tasksOf)).run t).outcome = .ok () ∧
      status' = if ∀ g ∈ groups, AllSame (wordsOf g) then status else 1 := by
  intro groups
  induction groups with
  | nil =>
    intro status t _ status'
    have hrun : ((Edit.foldl unifyGroup status []).run t).outcome = .ok status := rfl
    have htasks : ((Edit.forEach Task.edit ([].flatMap tasksOf)).run t).outcome = .ok () := rfl
    rw [hrun, htasks, Except.ok.injEq]
    simp [eq_comm]
  | cons group groups ih =>
    intro status t hgroups status'
    obtain ⟨hdesc, hcalled⟩ := hgroups group List.mem_cons_self
    have hrest : ∀ g ∈ groups, g.map (·.description) = (wordsOf g).map wordValue ∧
        groupName g = .str (keyOf g) :=
      fun g hg => hgroups g (List.mem_cons_of_mem _ hg)
    rw [Edit.run_foldl_cons, Edit.outcome_bind, List.flatMap_cons, Edit.outcome_forEach_append]
    simp only [List.forall_mem_cons]
    rcases unifyGroup_run hdesc hcalled status t with ⟨hmute, herror⟩ | ⟨hmute, htree, houtcome⟩
    · rw [herror, error_bind]
      constructor
      · intro h
        cases h
      · intro h
        exact absurd hmute h.1.1
    · rw [houtcome, htree]
      cases ((Edit.forEach Task.edit (tasksOf group)).run t).outcome with
      | error fault => simp [Except.map]
      | ok u =>
        rw [ok_map, ok_bind, ok_bind, ih _ _ hrest]
        by_cases hsame : AllSame (wordsOf group)
        · simp [hmute, hsame]
        · simp [hmute, hsame]

/-! ### The tasks of a file -/

/-- **A document takes descriptions** of names, one after the other: it can be described, and what
is written of it can be read to be described next. -/
def Takes : Except Fault Document → List (String × String) → Prop
  | _, [] => True
  | outcome, (name, text) :: rest =>
    ∃ d e, outcome = .ok d ∧ describe d (.str name) (.str text) = .ok e ∧
      Takes (Document.read (Text.unifyNewlines e.write)) rest

/-- The names and texts of the tasks in one file. -/
def tasksIn (f : Path) (tasks : List Task) : List (String × String) :=
  (tasks.filter fun task => task.file = f).map fun task => (task.name, task.text)

theorem tasksIn_cons_self (task : Task) (tasks : List Task) :
    tasksIn task.file (task :: tasks) = (task.name, task.text) :: tasksIn task.file tasks := by
  rw [tasksIn, List.filter_cons_of_pos (by simp), List.map_cons, tasksIn]

theorem tasksIn_cons_of_ne {f : Path} {task : Task} (h : f ≠ task.file) (tasks : List Task) :
    tasksIn f (task :: tasks) = tasksIn f tasks := by
  rw [tasksIn, List.filter_cons_of_neg (by simpa using Ne.symm h), tasksIn]

theorem mem_tasksIn {f : Path} {tasks : List Task} {name text : String} :
    (name, text) ∈ tasksIn f tasks ↔ ⟨f, name, text⟩ ∈ tasks := by
  simp only [tasksIn, List.mem_map, List.mem_filter, decide_eq_true_eq, Prod.mk.injEq]
  constructor
  · rintro ⟨task, ⟨hmem, rfl⟩, rfl, rfl⟩
    exact hmem
  · intro h
    exact ⟨_, ⟨h, rfl⟩, rfl, rfl⟩

theorem describe_of_outcome {f : Path} {name description : Value} {t : Tree}
    (h : ((describeIn f name description).run t).outcome = .ok ()) :
    ∃ d e, t.readDocument f.text = .ok d ∧ describe d name description = .ok e := by
  rw [describeIn, Edit.outcome_bind] at h
  obtain ⟨d, hd, h⟩ := bind_eq_ok_iff.mp h
  rw [Edit.outcome_bind] at h
  obtain ⟨e, he, -⟩ := bind_eq_ok_iff.mp h
  exact ⟨d, e, hd, he⟩

def AllThere (t : Tree) (paths : List String) : Prop :=
  ∀ f ∈ (propertyFiles paths).files, ∃ place content, t.follow f.text = .file place content

/-- **One task**: its file then holds what was written, and the other files hold what they held. -/
theorem edit_run {paths : List String} {t : Tree} {task : Task} {d e : Document}
    (hthere : AllThere t paths)
    (hf : task.file ∈ (propertyFiles paths).files) (hread : t.readDocument task.file.text = .ok d)
    (hdescribe : describe d (.str task.name) (.str task.text) = .ok e) :
    (task.edit.run t).outcome = .ok () ∧ AllThere (task.edit.run t).tree paths ∧
      (task.edit.run t).tree.readDocument task.file.text =
        Document.read (Text.unifyNewlines e.write) ∧
      ∀ f ∈ (propertyFiles paths).files, f ≠ task.file →
        (task.edit.run t).tree.readDocument f.text = t.readDocument f.text := by
  obtain ⟨place, content, hplace⟩ := hthere task.file hf
  have hnode := Tree.node?_of_follow hplace
  obtain ⟨htree, hok⟩ := describeIn_run hread hdescribe hplace
  rw [Task.edit, htree]
  refine ⟨hok, fun f hf' => ?_, ?_, fun f hf' hne => ?_⟩
  · obtain ⟨place', content', hplace'⟩ := hthere f hf'
    rw [Tree.follow_putNode hnode, hplace']
    exact ⟨_, _, rfl⟩
  · rw [Tree.readDocument, Tree.readText_putNode e.write hplace, ok_bind]
  · obtain ⟨place', content', hplace'⟩ := hthere f hf'
    have hplaces := mem_propertyFiles_ne hf' hf hne hplace' hplace
    rw [Tree.readDocument, Tree.readDocument, Tree.readText_putNode_of_ne _ hnode hplace' hplaces]

/-- **The files are separate**: the tasks can be carried out just if each file takes its own. -/
theorem forEach_ok_iff {paths : List String} : ∀ (tasks : List Task) (t : Tree), AllThere t paths →
    (∀ task ∈ tasks, task.file ∈ (propertyFiles paths).files) →
    (((Edit.forEach Task.edit tasks).run t).outcome = .ok () ↔
      ∀ f ∈ (propertyFiles paths).files, Takes (t.readDocument f.text) (tasksIn f tasks)) := by
  intro tasks
  induction tasks with
  | nil =>
    intro t _ _
    exact ⟨fun _ f _ => trivial, fun _ => rfl⟩
  | cons task tasks ih =>
    intro t hthere htasks
    have hf := htasks task List.mem_cons_self
    have hrest := fun other hother => htasks other (List.mem_cons_of_mem _ hother)
    rw [Edit.forEach_cons, Edit.outcome_bind]
    constructor
    · intro hok f hf'
      obtain ⟨u, hfirst, hok⟩ := bind_eq_ok_iff.mp hok
      obtain ⟨d, e, hread, hdescribe⟩ := describe_of_outcome hfirst
      obtain ⟨-, hthere', hself, hother⟩ := edit_run hthere hf hread hdescribe
      have htakes := (ih _ hthere' hrest).mp hok f hf'
      by_cases hfile : f = task.file
      · subst hfile
        rw [hself] at htakes
        rw [tasksIn_cons_self]
        exact ⟨d, e, hread, hdescribe, htakes⟩
      · rw [hother f hf' hfile] at htakes
        rw [tasksIn_cons_of_ne hfile]
        exact htakes
    · intro htakes
      have hown := htakes task.file hf
      rw [tasksIn_cons_self] at hown
      obtain ⟨d, e, hread, hdescribe, hown⟩ := hown
      obtain ⟨hok, hthere', hself, hother⟩ := edit_run hthere hf hread hdescribe
      rw [hok, ok_bind]
      refine (ih _ hthere' hrest).mpr fun f hf' => ?_
      by_cases hfile : f = task.file
      · subst hfile
        rw [hself]
        exact hown
      · rw [hother f hf' hfile, ← tasksIn_cons_of_ne hfile]
        exact htakes f hf'

/-! ### Documents that take descriptions -/

/-- The columns of all models can be walked, whether the models have names or not. -/
def Walkable (root : Value) : Prop :=
  ∀ models, sectionItems root "models" = .ok models →
    ∀ m ∈ models, ∃ columns, sectionItems m "columns" = .ok columns

theorem walkable_of_describe {d e : Document} {name description : Value}
    (h : describe d name description = .ok e) :
    Walkable d.root := by
  intro models hmodels m hm
  obtain ⟨places, hplaces, -⟩ := bind_eq_ok_iff.mp h
  unfold placesOf at hplaces
  have hwalk := (sectionItems_bind d.root "models" _).symm.trans hplaces
  rw [hmodels, ok_bind] at hwalk
  obtain ⟨found, hfound, -⟩ := bind_eq_ok_iff.mp hwalk
  obtain ⟨i, hi⟩ := List.mem_iff_getElem?.mp hm
  obtain ⟨inModel, -, hmodel⟩ := ok_of_mapM hfound (m, i) (List.mem_zipIdx_iff_getElem?.mpr hi)
  obtain ⟨columns, hcolumns, hmodel⟩ := bind_eq_ok_iff.mp hmodel
  obtain ⟨items, hitems, -⟩ := bind_eq_ok_iff.mp hmodel
  exact ⟨items, bind_eq_ok_iff.mpr ⟨columns, hcolumns, hitems⟩⟩

/-- **A document in order takes descriptions**, if what is written of it can be read back. -/
theorem takes_of_draft {chosen : String → Option String} {d : Document} (hd : d.Coherent)
    (htidy : Tidy d.root)
    (hback : ∀ r, Revision chosen d r → ReadsBack r) : ∀ (tasks : List (String × String))
    (given : String → Option String) (e : Document), Draft d given e → Reached chosen d e →
    (∀ task ∈ tasks, chosen task.1 = some task.2) → Takes (.ok e) tasks := by
  intro tasks
  induction tasks with
  | nil =>
    intro given e _ _ _
    trivial
  | cons task tasks ih =>
    intro given e hdraft hreached htasks
    obtain ⟨name, text⟩ := task
    have hchosen : chosen name = some text := htasks (name, text) List.mem_cons_self
    obtain ⟨r, e', hdescribe, hread, hdraft', hreached'⟩ :=
      hdraft.next hd htidy hback hreached hchosen
    refine ⟨e, r, rfl, hdescribe, ?_⟩
    rw [hread]
    exact ih _ e' hdraft' hreached' fun task htask => htasks task (List.mem_cons_of_mem _ htask)

theorem truthy_of_mem_listedColumns {root x : Value} (h : x ∈ listedColumns root) :
    root.truthy = true := by
  obtain ⟨m, hm, -⟩ := List.mem_flatMap.mp h
  unfold namedModels at hm
  split at hm
  · rename_i models hmodels
    obtain ⟨hm, -⟩ := List.mem_filter.mp hm
    obtain ⟨w, hw, hitems⟩ := bind_eq_ok_iff.mp hmodels
    obtain ⟨entries, rfl⟩ := isMapping_of_fieldD hw
    cases entries with
    | nil =>
      cases hw
      cases hitems
      cases hm
    | cons entry entries => rfl
  · cases hm

/-! ### Checking and unifying -/

/-- The descriptions of the columns of a name that are listed, in all property files among the
paths. -/
def listedDescriptions (t : Tree) (paths : List String) (name : String) : List (Option String) :=
  (propertyFiles paths).files.flatMap fun f =>
    ((listedIn t f).filter fun x => nameOf x == name).map descriptionOf

/-- What is chosen for a name: its preferred description, unless the name is ignored. -/
def listedChoice (t : Tree) (ignored paths : List String) (name : String) : Option String :=
  if name ∈ ignored then none else preferred? (listedDescriptions t paths name)

/-- A column is listed that is to be described in other words. -/
def ListsOther (chosen : String → Option String) (d : Document) : Prop :=
  ∃ x ∈ listedColumns d.root, ∃ text, chosen (nameOf x) = some text ∧ descriptionOf x ≠ some text

/-- **The tasks of a run**, in the order of the groups. -/
def tasks (t : Tree) (ignored paths : List String) : List Task :=
  match groups t ignored paths with
  | .ok found => found.flatMap tasksOf
  | .error _ => []

theorem mute_perm {descriptions descriptions' : List (Option String)}
    (h : descriptions.Perm descriptions') :
    Mute descriptions ↔ Mute descriptions' := by
  have hwords : (words descriptions).Perm (words descriptions') := h.filterMap _
  have hnil : words descriptions = [] ↔ words descriptions' = [] :=
    ⟨fun hn => (hn ▸ hwords).nil_eq.symm, fun hn => (hn ▸ hwords).eq_nil⟩
  simp only [Mute, AllSame, h.mem_iff, hnil]

theorem not_mute_nil : ¬ Mute [] := fun h => h.1 fun _ ha => nomatch ha

theorem mem_tasksOf {t : Tree} {ignored paths : List String} {group : List Column}
    (hin : keyOf group ∉ ignored)
    (hgroup : GroupIn (propertyFiles paths).files (listedIn t) group (keyOf group)) {task : Task} :
    task ∈ tasksOf group ↔ task.name = keyOf group ∧ task.file ∈ (propertyFiles paths).files ∧
      listedChoice t ignored paths task.name = some task.text ∧
      ∃ x ∈ listedIn t task.file, nameOf x = task.name ∧ descriptionOf x ≠ some task.text := by
  have hchoice : listedChoice t ignored paths (keyOf group) = preferred? (wordsOf group) := by
    rw [listedChoice, if_neg hin, preferred?_perm hgroup.words]
    rfl
  obtain ⟨f, name, text⟩ := task
  dsimp only
  rw [tasksOf]
  constructor
  · intro h
    split at h
    · rename_i text' htext
      obtain ⟨c, hc, heq⟩ := List.mem_map.mp h
      obtain ⟨f', hf', x, hx, hname, rfl⟩ := (hgroup.mem c).mp (List.mem_filter.mp hc).1
      cases heq
      exact ⟨rfl, hf', hchoice.trans htext, x, hx, hname, (columnFor_mem_others.mp hc).2⟩
    · cases h
  · rintro ⟨rfl, hf, hchosen, x, hx, hname, hne⟩
    rw [← hchoice, hchosen]
    have hmem := columnFor_mem_others.mpr ⟨(hgroup.mem _).mpr ⟨f, hf, x, hx, hname, rfl⟩, hne⟩
    exact List.mem_map.mpr ⟨columnFor f x, hmem, rfl⟩

section

variable {t : Tree} {ignored paths : List String} {sorted : List Column}
    {found : List (List Column)}
  (hperm : sorted.Perm ((propertyFiles paths).files.flatMap fun f =>
    keptColumns ignored f (listedIn t f)))
  (hfound : Grouped sorted found)

include hperm hfound

theorem exists_group {f : Path} (hf : f ∈ (propertyFiles paths).files) {x : Value}
    (hx : x ∈ listedIn t f) (hin : nameOf x ∉ ignored) : ∃ g ∈ found, keyOf g = nameOf x := by
  obtain ⟨g, hg, hc⟩ := hfound.cover _ ((mem_sorted hperm).mpr ⟨f, hf, x, hx, hin, rfl⟩)
  exact ⟨g, hg, ((hfound.groupIn hperm hg).2.key _ hc).symm⟩

theorem forall_not_mute_iff : (∀ g ∈ found, ¬ Mute (wordsOf g)) ↔
    ∀ name, name ∉ ignored → ¬ Mute (listedDescriptions t paths name) := by
  constructor
  · intro hall name hname hmute
    by_cases hnil : listedDescriptions t paths name = []
    · rw [hnil] at hmute
      exact not_mute_nil hmute
    · obtain ⟨a, ha⟩ := List.exists_mem_of_ne_nil _ hnil
      obtain ⟨f, hf, ha⟩ := List.mem_flatMap.mp ha
      obtain ⟨x, hx, -⟩ := List.mem_map.mp ha
      obtain ⟨hx, hxname⟩ := List.mem_filter.mp hx
      have hxname : nameOf x = name := beq_iff_eq.mp hxname
      obtain ⟨g, hg, hkey⟩ := exists_group hperm hfound hf hx (hxname ▸ hname)
      have hwords := (hfound.groupIn hperm hg).2.words
      rw [hkey, hxname] at hwords
      exact hall g hg ((mute_perm hwords).mpr hmute)
  · intro hall g hg hmute
    obtain ⟨hin, hgroup⟩ := hfound.groupIn hperm hg
    exact hall (keyOf g) hin ((mute_perm hgroup.words).mp hmute)

theorem mem_flatMap_tasksOf {task : Task} : task ∈ found.flatMap tasksOf ↔
    task.file ∈ (propertyFiles paths).files ∧
    listedChoice t ignored paths task.name = some task.text ∧
    ∃ x ∈ listedIn t task.file, nameOf x = task.name ∧ descriptionOf x ≠ some task.text := by
  rw [List.mem_flatMap]
  constructor
  · rintro ⟨g, hg, htask⟩
    obtain ⟨hin, hgroup⟩ := hfound.groupIn hperm hg
    exact ((mem_tasksOf hin hgroup).mp htask).2
  · rintro ⟨hf, hchosen, x, hx, hname, hne⟩
    have hin : nameOf x ∉ ignored := by
      intro hin
      rw [listedChoice, if_pos (hname ▸ hin)] at hchosen
      cases hchosen
    obtain ⟨g, hg, hkey⟩ := exists_group hperm hfound hf hx hin
    obtain ⟨hin', hgroup⟩ := hfound.groupIn hperm hg
    exact ⟨g, hg, (mem_tasksOf hin' hgroup).mpr ⟨(hkey.trans hname).symm, hf, hchosen, x, hx, hname,
      hne⟩⟩

/-- **A file takes its tasks**, if what is written can be read back, just if it has none or its
columns can be walked. -/
theorem takes_iff {f : Path} (hf : f ∈ (propertyFiles paths).files) {d : Document}
    (hread : t.readProperties f.text = .ok d) (hform : Described d.root) (hlist : Listable d.root)
    (hback : ∀ e, Revision (listedChoice t ignored paths) d e → ReadsBack e) :
    Takes (t.readDocument f.text) (tasksIn f (found.flatMap tasksOf)) ↔
      (ListsOther (listedChoice t ignored paths) d → Walkable d.root) := by
  have hlisted : listedIn t f = listedColumns d.root := by rw [listedIn, docOf_eq hread]
  constructor
  · rintro htakes ⟨x, hx, text, hchosen, hne⟩
    have htask : (nameOf x, text) ∈ tasksIn f (found.flatMap tasksOf) :=
      mem_tasksIn.mpr ((mem_flatMap_tasksOf hperm hfound).mpr ⟨hf, hchosen, x, hlisted ▸ hx, rfl,
        hne⟩)
    obtain ⟨task, rest, htasks⟩ := List.exists_cons_of_ne_nil (List.ne_nil_of_mem htask)
    rw [htasks, readDocument_of_readProperties hread (truthy_of_mem_listedColumns hx)] at htakes
    obtain ⟨d', e, heq, hdescribe, -⟩ := htakes
    cases heq
    exact walkable_of_describe hdescribe
  · intro hwalk
    have hchosen : ∀ task ∈ tasksIn f (found.flatMap tasksOf),
        listedChoice t ignored paths task.1 = some task.2 ∧
        ∃ x ∈ listedColumns d.root, nameOf x = task.1 ∧ descriptionOf x ≠ some task.2 := by
      intro task htask
      obtain ⟨-, hchosen, hother⟩ := (mem_flatMap_tasksOf hperm hfound).mp (mem_tasksIn.mp htask)
      exact ⟨hchosen, hlisted ▸ hother⟩
    cases htasks : tasksIn f (found.flatMap tasksOf) with
    | nil => trivial
    | cons task rest =>
      rw [htasks] at hchosen
      obtain ⟨hsome, x, hx, hname, hne⟩ := hchosen task List.mem_cons_self
      obtain ⟨models, hmodels⟩ := hlist.models
      have htidy := hform.tidy hmodels (hwalk ⟨x, hx, task.2, hname ▸ hsome, hne⟩ models hmodels)
      have hd := coherent_of_readProperties hread
      rw [readDocument_of_readProperties hread (truthy_of_mem_listedColumns hx)]
      exact takes_of_draft hd htidy hback _ _ d (.start hd) (.inl rfl) fun task htask =>
        (hchosen task htask).1

end

/-- **Unifying agrees with the check.**  Let the models of the kept files be mappings and their
columns columns, and let the check come to an end.  If unifying comes to an end, the verdict is the
same.  It does so just if no name is mute and each file takes its tasks, which, if what is written
can be read back, is so just if the columns can be walked wherever one is to be described in other
words. -/
theorem unify_agrees_iff {t : Tree} {ignored paths : List String} {status : Status}
    (hform : ∀ f ∈ (propertyFiles paths).files, ∀ d, t.readProperties f.text = .ok d →
      Described d.root)
    (hcheck : (check t ignored paths).report.outcome = .ok status) :
    (∀ status', ((unify ignored paths).run t).outcome = .ok status' → status' = status) ∧
    (((unify ignored paths).run t).outcome = .ok status ↔
      (∀ name, name ∉ ignored → ¬ Mute (listedDescriptions t paths name)) ∧
      ∀ f ∈ (propertyFiles paths).files,
        Takes (t.readDocument f.text) (tasksIn f (tasks t ignored paths))) ∧
    ((∀ f ∈ (propertyFiles paths).files, ∀ d e, t.readProperties f.text = .ok d →
        Revision (listedChoice t ignored paths) d e → ReadsBack e) →
      (((unify ignored paths).run t).outcome = .ok status ↔
        (∀ name, name ∉ ignored → ¬ Mute (listedDescriptions t paths name)) ∧
        ∀ f ∈ (propertyFiles paths).files, ∀ d, t.readProperties f.text = .ok d →
          ListsOther (listedChoice t ignored paths) d → Walkable d.root)) := by
  -- the check has collected the columns, so the files are in order
  obtain ⟨all, hall⟩ : ∃ all, (columns t ignored paths).toExcept = .ok all := by
    rw [Findings.outcome_report, check, Feed.toExcept_ofExcept, map_eq_ok_iff] at hcheck
    obtain ⟨lines, hlines, -⟩ := hcheck
    obtain ⟨feed, hfeed, -⟩ := bind_eq_ok_iff.mp hlines
    obtain ⟨found, hfound, -⟩ := bind_eq_ok_iff.mp hfeed
    obtain ⟨all, hall, -⟩ := bind_eq_ok_iff.mp hfound
    exact ⟨all, hall⟩
  have hlist := listable_of_columns hform hall
  obtain ⟨found, sorted, hgroups, hfound, hperm⟩ := groups_eq ignored hlist
  have hdesc : ∀ g ∈ found, g.map (·.description) = (wordsOf g).map wordValue :=
    fun g hg => (hfound.groupIn hperm hg).2.described
  rw [outcome_check hgroups hdesc, Except.ok.injEq] at hcheck
  have htasks : tasks t ignored paths = found.flatMap tasksOf := by rw [tasks, hgroups]
  have hrun : ∀ status', ((unify ignored paths).run t).outcome = .ok status' ↔
      (∀ name, name ∉ ignored → ¬ Mute (listedDescriptions t paths name)) ∧
      (∀ f ∈ (propertyFiles paths).files, Takes (t.readDocument f.text)
        (tasksIn f (tasks t ignored paths))) ∧
      status' = status := by
    intro status'
    rw [unify, Edit.outcome_bind, Edit.run_ask, hgroups, ok_bind,
      outcome_unifyGroups found 0 t fun g hg => ⟨hdesc g hg, (hfound.groupIn hperm hg).2.called⟩,
      forall_not_mute_iff hperm hfound, hcheck, htasks, forEach_ok_iff]
    · intro f hf
      obtain ⟨d, hread, -⟩ := hlist f hf
      exact follow_of_readProperties hread
    · exact fun task htask => ((mem_flatMap_tasksOf hperm hfound).mp htask).1
  refine ⟨fun status' h => ((hrun status').mp h).2.2, ?_, fun hback => ?_⟩
  · rw [hrun status]
    simp only [and_true]
  · rw [hrun status, htasks]
    simp only [and_true]
    refine and_congr_right fun _ => forall₂_congr fun f hf => ?_
    obtain ⟨d, hread, hd⟩ := hlist f hf
    rw [takes_iff hperm hfound hf hread (hform f hf d hread) hd fun e => hback f hf d e hread]
    constructor
    · intro h d' hread'
      cases hread.symm.trans hread'
      exact h
    · intro h
      exact h d hread

/-! ### One name in two columns -/

theorem read_twoFiles :
    twoFiles.readProperties (Path.ofString "a.yml").text =
      .ok (oneColumn "m" [(.str "description", .str "a")]) ∧
        twoFiles.readProperties (Path.ofString "b.yml").text = .ok (oneColumn "n" []) := by
  have ha : (Path.ofString "a.yml").text = "a.yml" := rfl
  have hb : (Path.ofString "b.yml").text = "b.yml" := rfl
  rw [ha, hb]
  exact oneTrial.reads

theorem mem_files_twoFiles {f : Path} (hf : f ∈ (propertyFiles ["a.yml", "b.yml"]).files) :
    f = .ofString "a.yml" ∨ f = .ofString "b.yml" := by
  rcases List.mem_cons.mp hf with rfl | hf
  · exact .inl rfl
  · exact .inr (List.mem_singleton.mp hf)

theorem listedIn_twoFiles : listedIn twoFiles (.ofString "a.yml") =
      [.map [(.str "name", .str "c"), (.str "description", .str "a")]] ∧
    listedIn twoFiles (.ofString "b.yml") = [.map [(.str "name", .str "c")]] := by
  obtain ⟨ha, hb⟩ := read_twoFiles
  rw [listedIn, docOf_eq ha, listedIn, docOf_eq hb]
  exact ⟨rfl, rfl⟩

theorem groups_twoFiles : groups twoFiles [] ["a.yml", "b.yml"] =
    .ok [[⟨.str "c", .str "a", .ofString "a.yml"⟩, ⟨.str "c", .null, .ofString "b.yml"⟩]] := by
  have hlist : ∀ f ∈ (propertyFiles ["a.yml", "b.yml"]).files,
      ∃ d, twoFiles.readProperties f.text = .ok d ∧
      Listable d.root := by
    intro f hf
    rcases mem_files_twoFiles hf with rfl | rfl
    · exact ⟨_, read_twoFiles.1, by decide⟩
    · exact ⟨_, read_twoFiles.2, by decide⟩
  have hall : (columns twoFiles [] ["a.yml", "b.yml"]).toExcept =
      .ok (keptColumns [] (.ofString "a.yml") (listedIn twoFiles (.ofString "a.yml")) ++
        (keptColumns [] (.ofString "b.yml") (listedIn twoFiles (.ofString "b.yml")) ++
          [])) := columns_eq [] hlist
  rw [listedIn_twoFiles.1, listedIn_twoFiles.2] at hall
  rw [groups, hall]
  rfl

theorem not_mute_twoFiles (name : String) :
    ¬ Mute (listedDescriptions twoFiles ["a.yml", "b.yml"] name) := by
  have hall : listedDescriptions twoFiles ["a.yml", "b.yml"] name =
      ((listedIn twoFiles (.ofString "a.yml")).filter fun x =>
        nameOf x == name).map descriptionOf ++
          (((listedIn twoFiles (.ofString "b.yml")).filter fun x =>
            nameOf x == name).map descriptionOf ++ []) := rfl
  rw [hall, listedIn_twoFiles.1, listedIn_twoFiles.2]
  by_cases hname : name = "c"
  · subst hname
    decide
  · have hnone : ∀ fields, nameOf (.map ((.str "name", .str "c") :: fields)) ≠ name :=
      fun fields => Ne.symm hname
    rw [List.filter_cons_of_neg (by simpa using hnone _),
      List.filter_cons_of_neg (by simpa using hnone _)]
    exact not_mute_nil

/-- The column without a description gets that of the other, and both verdicts are the same. -/
theorem unify_agrees_twoFiles : (check twoFiles [] ["a.yml", "b.yml"]).report.outcome = .ok 1 ∧
    ((unify [] ["a.yml", "b.yml"]).run twoFiles).outcome = .ok 1 := by
  obtain ⟨ha, hb⟩ := read_twoFiles
  have hcheck : (check twoFiles [] ["a.yml", "b.yml"]).report.outcome = .ok 1 := by
    rw [Findings.outcome_report, check, Feed.toExcept_ofExcept, groups_twoFiles]
    rfl
  have hwf : ∀ f ∈ (propertyFiles ["a.yml", "b.yml"]).files,
      ∀ d, twoFiles.readProperties f.text = .ok d →
      WellFormed d.root := by
    intro f hf d hd
    rcases mem_files_twoFiles hf with rfl | rfl
    · obtain rfl := Except.ok.inj (ha.symm.trans hd)
      decide
    · obtain rfl := Except.ok.inj (hb.symm.trans hd)
      decide
  have htasks : tasksIn (.ofString "a.yml") (tasks twoFiles [] ["a.yml", "b.yml"]) = [] ∧
      tasksIn (.ofString "b.yml") (tasks twoFiles [] ["a.yml", "b.yml"]) = [("c", "a")] := by
    rw [tasks, groups_twoFiles]
    decide
  refine ⟨hcheck, (unify_agrees_iff (fun f hf d hd => (hwf f hf d hd).described) hcheck).2.1.mpr
    ⟨fun name _ => not_mute_twoFiles name, fun f hf => ?_⟩⟩
  obtain hfile | hfile := mem_files_twoFiles hf
  · rw [hfile, htasks.1]
    trivial
  · rw [hfile, htasks.2]
    exact ⟨_, oneColumn "n" [(.str "description", .str "a")], readDocument_of_readProperties hb rfl,
      rfl, trivial⟩

def muteFile : Tree := ⟨[(["a.yml"],
  .file "models:\n- name: m\n  columns:\n  - name: c\n    description: ''\n  - name: c\n".toUTF8)]⟩

/-- Two descriptions that say nothing are different for the check, but there is none to choose. -/
theorem unify_muteFile :
    (∀ f ∈ (propertyFiles ["a.yml"]).files, ∀ d, muteFile.readProperties f.text = .ok d →
      Described d.root) ∧
    (check muteFile [] ["a.yml"]).report.outcome = .ok 1 ∧
    ((unify [] ["a.yml"]).run muteFile).outcome = .error .outOfRange := by
  have hread : muteFile.readProperties (Path.ofString "a.yml").text =
      .ok (.plain (.map [(.str "models",
        .seq [.map [(.str "name", .str "m"), (.str "columns", .seq [
        .map [(.str "name", .str "c"), (.str "description", .str "")],
          .map [(.str "name", .str "c")]])]])])) :=
    eq_of_yields (by decide +kernel)
  have hfile : ∀ f ∈ (propertyFiles ["a.yml"]).files, f = .ofString "a.yml" :=
    fun f hf => List.mem_singleton.mp hf
  have hlisted : listedIn muteFile (.ofString "a.yml") =
      [.map [(.str "name", .str "c"), (.str "description", .str "")],
        .map [(.str "name", .str "c")]] := by
    rw [listedIn, docOf_eq hread]
    rfl
  have hall : (columns muteFile [] ["a.yml"]).toExcept =
      .ok (keptColumns [] (.ofString "a.yml") (listedIn muteFile (.ofString "a.yml")) ++ []) := by
    refine columns_eq [] fun f hf => ?_
    rw [hfile f hf]
    exact ⟨_, hread, by decide⟩
  have hgroups : groups muteFile [] ["a.yml"] =
      .ok [[⟨.str "c", .str "", .ofString "a.yml"⟩, ⟨.str "c", .null, .ofString "a.yml"⟩]] := by
    rw [groups, hall, hlisted]
    rfl
  refine ⟨fun f hf d hd => ?_, ?_, ?_⟩
  · rw [hfile f hf] at hd
    obtain rfl := Except.ok.inj (hread.symm.trans hd)
    exact WellFormed.described (by decide)
  · rw [Findings.outcome_report, check, Feed.toExcept_ofExcept, hgroups]
    rfl
  · rw [unify, Edit.outcome_bind, Edit.run_ask, hgroups]
    rfl

end ProjectLint.Wording
