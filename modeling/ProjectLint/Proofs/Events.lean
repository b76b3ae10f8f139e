import Mathlib.Data.List.TakeWhile
import ProjectLint.Hooks
import ProjectLint.Proofs.Outcomes
import ProjectLint.Proofs.Yaml.ReadBack
import ProjectLint.Proofs.Yaml.Rebuilding

/-!
# Usage events

A run of a hook comes to its event along one way only: the command line is read, the artifacts are
loaded, the work ends with a status, the settings are read again and do not switch events off, and
the event is delivered.  Whatever else happens, nothing is recorded.  `Hook.run_cases` says this
once; the rest is about what becomes of the properties on their way into the event: the meta data of
the manifest are put over them, a status of zero or one is worded, and the name of the hook loses
its ending.  `Hooks.run_tells` puts it together for all hooks.
-/

namespace ProjectLint

theorem Report.outcome_lift_bind {α β : Type} (x : Except Fault α) (f : α → Report β) :
    ((liftM x : Report α) >>= f).outcome = x >>= fun a => (f a).outcome := by
  cases x <;> rfl

/-! ### Properties -/

namespace Entries

theorem get?_update {key : String} : ∀ (more es : Entries), get? more key = none →
    get? (update es more) key = get? es key := by
  intro more
  induction more with
  | nil => intro es _; rfl
  | cons e more ih =>
    intro es h
    rw [get?, find?, List.find?_cons] at h
    cases he : e.1.same (.str key) with
    | true => simp [he] at h
    | false =>
      simp only [he] at h
      rw [update, List.foldl_cons]
      refine (ih _ h).trans (get?_insert_of_ne (fun heq => ?_) e.2 es)
      rw [heq] at he
      simp [Scalar.same] at he

end Entries

namespace Tracking

def wordOf (s : Status) : Value :=
  if s = 0 then .str "Success" else if s = 1 then .str "Fail" else .int s

theorem same_int (m n : Int) : (Value.int m).same (.int n) = decide (m = n) := by
  simp [Value.same, Scalar.same, Scalar.isNumber, Scalar.integer?, beq_eq_decide]

variable {properties : Entries}

variable {settings : Value} {s : Status}

theorem get?_wordStatus (h : Entries.get? properties "status" = some (.int s)) :
    Entries.get? (wordStatus properties) "status" = some (wordOf s) := by
  simp only [wordStatus, h, same_int, wordOf, decide_eq_true_eq]
  split
  · exact Entries.get?_put_self _ _ _
  split
  · exact Entries.get?_put_self _ _ _
  · exact h

theorem get?_wordStatus_of_ne {key : String} (hne : key ≠ "status") (properties : Entries) :
    Entries.get? (wordStatus properties) key = Entries.get? properties key := by
  unfold wordStatus
  split
  · split
    · exact Entries.get?_put_of_ne hne.symm _ _
    split
    · exact Entries.get?_put_of_ne hne.symm _ _
    · rfl
  · rfl

/-! ### Names without their ending -/

theorem takeWhile_of_not_mem {c : Char} {cs : List Char} (h : c ∉ cs) :
    cs.takeWhile (· != c) = cs := by
  rw [List.takeWhile_eq_self_iff]
  intro x hx
  simpa using fun heq : x = c => h (heq ▸ hx)

/-- **A plain name loses what is put behind it with a dot.** -/
theorem withoutEnding_append {name ending : List Char} (hname : name ≠ []) (hdot : '.' ∉ name)
    (hslash : '/' ∉ name) (hdot' : '.' ∉ ending) (hslash' : '/' ∉ ending) :
    withoutEnding (name ++ '.' :: ending) = name := by
  have hbase : ((name ++ '.' :: ending).reverse.takeWhile (· != '/')).reverse =
      name ++ '.' :: ending := by
    rw [takeWhile_of_not_mem (by simp [hslash, hslash']), List.reverse_reverse]
  have hend : ((name ++ '.' :: ending).reverse.takeWhile (· != '.')).reverse = ending := by
    have hrev : (name ++ '.' :: ending).reverse = ending.reverse ++ '.' :: name.reverse := by simp
    have hpos : ∀ x ∈ ending.reverse, (x != '.') = true := by
      intro x hx
      simpa using fun heq : x = '.' => hdot' (heq ▸ List.mem_reverse.mp hx)
    rw [hrev, List.takeWhile_append_of_pos hpos]
    simp
  have hlen : (name ++ '.' :: ending).length - ending.length - 1 = name.length := by
    rw [List.length_append, List.length_cons]
    omega
  have hall : name.all (· == '.') = false := by
    obtain ⟨c, rest, rfl⟩ := List.exists_cons_of_ne_nil hname
    have hc : c ≠ '.' := fun h => hdot (h ▸ List.mem_cons_self)
    simp [hc]
  have hother : (ending.length == (name ++ '.' :: ending).length) = false := by
    rw [List.length_append, List.length_cons, beq_eq_false_iff_ne]
    omega
  simp only [withoutEnding, hbase, hend, hlen, List.take_left, hall, hother, Bool.or_self,
    Bool.false_eq_true, if_false]

theorem shortenHookName_eq {shortened : Entries} {name : String} (hname : name ≠ "")
    (hdot : '.' ∉ name.toList)
    (hslash : '/' ∉ name.toList) (hget : Entries.get? properties "hook_name" =
      some (.str (name ++ ".py")))
    (h : shortenHookName properties = .ok shortened) :
    shortened = Entries.put properties "hook_name" (.str name) := by
  have hne : name.toList ≠ [] := fun h => hname (String.toList_eq_nil_iff.mp h)
  have hshort : withoutEnding (name ++ ".py").toList = name.toList := by
    rw [String.toList_append]
    exact withoutEnding_append hne hdot hslash (by decide : '.' ∉ ['p', 'y']) (by decide)
  rw [shortenHookName, hget] at h
  dsimp only at h
  rw [hshort, String.ofList_toList] at h
  exact (Except.ok.inj h).symm

/-- **What an event says about a run**, if the meta data of the manifest say nothing about it. -/
theorem told_of_eventOf {token title name : String} {more : Entries} {manifest : Value}
    {event : Event} (hname : name ≠ "") (hdot : '.' ∉ name.toList) (hslash : '/' ∉ name.toList)
    (hstatus : Entries.get? properties "status" = some (.int s))
    (hhook : Entries.get? properties "hook_name" = some (.str (name ++ ".py")))
    (hevent : eventOf token title properties manifest = .ok event)
    (hmeta : manifest.field "metadata" = .ok (.map more))
    (hno : Entries.get? more "status" = none) (hno' : Entries.get? more "hook_name" = none) :
    Entries.get? event.properties "status" = some (wordOf s) ∧
      Entries.get? event.properties "hook_name" = some (.str name) := by
  rw [eventOf, hmeta, ok_bind] at hevent
  obtain ⟨all, hall, hevent⟩ := bind_eq_ok_iff.mp hevent
  obtain rfl : Entries.update properties more = all := Except.ok.inj hall
  obtain ⟨user, -, hevent⟩ := bind_eq_ok_iff.mp hevent
  obtain ⟨shortened, hshort, hevent⟩ := bind_eq_ok_iff.mp hevent
  cases hevent
  have hhook' : Entries.get? (wordStatus (Entries.update properties more)) "hook_name" =
      some (.str (name ++ ".py")) := by
    rw [get?_wordStatus_of_ne (by decide), Entries.get?_update _ _ hno', hhook]
  have hstatus' : Entries.get? (wordStatus (Entries.update properties more)) "status" =
      some (wordOf s) :=
    get?_wordStatus (by rw [Entries.get?_update _ _ hno, hstatus])
  rw [shortenHookName_eq hname hdot hslash hhook' hshort]
  exact ⟨(Entries.get?_put_of_ne (by decide) _ _).trans hstatus', Entries.get?_put_self _ _ _⟩

/-- What delivering leads to, if it does not fail. -/
theorem deliver_eq_ok {failure : Option String} {isTest manifest : Value} {title : String}
    {events : List Event}
    (h : (deliver failure settings isTest title properties manifest).outcome = .ok events) :
    ∃ v, disabling settings = .ok v ∧ (v.truthy = true ∧ events = [] ∨
      v.truthy = false ∧ ∃ mark event, eventOf mark title properties manifest = .ok event ∧
        events = [event]) := by
  rw [deliver, Report.outcome_lift_bind] at h
  obtain ⟨mark, -, h⟩ := bind_eq_ok_iff.mp h
  rw [Report.outcome_lift_bind] at h
  obtain ⟨v, hv, h⟩ := bind_eq_ok_iff.mp h
  refine ⟨v, hv, ?_⟩
  cases htruthy : v.truthy with
  | true =>
    rw [if_pos htruthy] at h
    exact .inl ⟨rfl, (Except.ok.inj h).symm⟩
  | false =>
    rw [if_neg (by simp [htruthy]), Report.outcome_lift_bind] at h
    obtain ⟨event, hevent, h⟩ := bind_eq_ok_iff.mp h
    refine .inr ⟨rfl, mark, event, hevent, ?_⟩
    cases failure with
    | none => exact (Except.ok.inj h).symm
    | some reason => cases h

end Tracking

/-! ### The way of a run -/

namespace Hook

open Options (Arguments)

theorem orRefuse_eq_ok {α ε : Type} {refuse : ε → Refused} {x : Except ε α} {a : α}
    (h : orRefuse refuse x = .ok a) :
    x = .ok a := by
  cases x with
  | ok b => cases h; rfl
  | error e => cases h

theorem loadInto_eq_ok {t : Tree} {job job' : Job} {a : Artifact}
    (h : loadInto t settings job a = .ok job') :
    job'.arguments = job.arguments ∧
      (a = .manifest ∧ Artifact.manifest.load t job.arguments settings = .ok job'.manifest ∨
        a = .catalog ∧ job'.manifest = job.manifest) := by
  rw [loadInto] at h
  split at h
  · rename_i v hv
    cases a with
    | manifest => cases h; exact ⟨rfl, .inl ⟨rfl, hv⟩⟩
    | catalog => cases h; exact ⟨rfl, .inr ⟨rfl, rfl⟩⟩
  · cases h
  · cases h

/-- Loading keeps the arguments, and what is held as the manifest in the end is the one that they
lead to. -/
theorem loads_eq_ok {t : Tree} {job' : Job} : ∀ {loads : List Artifact} {job : Job},
    loads.foldlM (loadInto t settings) job = .ok job' → job'.arguments = job.arguments ∧
      (Artifact.manifest ∈ loads ∨ Artifact.manifest.load t job.arguments settings =
        .ok job.manifest → Artifact.manifest.load t job.arguments settings =
          .ok job'.manifest) := by
  intro loads
  induction loads with
  | nil =>
    intro job h
    cases h
    exact ⟨rfl, by simp⟩
  | cons a loads ih =>
    intro job h
    rw [List.foldlM_cons] at h
    obtain ⟨next, hnext, h⟩ := bind_eq_ok_iff.mp h
    obtain ⟨harguments, hcases⟩ := loadInto_eq_ok hnext
    obtain ⟨hrest, hmanifest⟩ := ih h
    rw [harguments] at hrest hmanifest
    -- the manifest that is loaded last counts, and all of them are loaded from the same place
    refine ⟨hrest, fun hload => hmanifest ?_⟩
    obtain ⟨rfl, hloaded⟩ | ⟨rfl, hsame⟩ := hcases
    · exact .inr hloaded
    · rw [hsame]
      exact hload.imp_left fun hmem => (List.mem_cons.mp hmem).resolve_left (by decide)

variable {h : Hook} {w : World} {words : List String} {ready : Ready}

theorem prepare_eq_ok (hready : h.prepare w words = .ok ready) :
    Options.read h.commandLine words = .ok ready.arguments ∧
    h.plan ready.arguments = .ok ready.work ∧
    ∃ settings, Settings.load w.tree (ready.arguments.text "--config") = .ok settings ∧
    (Artifact.manifest ∈ h.loads →
      Artifact.manifest.load w.tree ready.arguments settings = .ok ready.job.manifest) := by
  obtain ⟨arguments, hread, hready⟩ := bind_eq_ok_iff.mp hready
  split at hready
  · cases hready
  obtain ⟨settings, hsettings, hready⟩ := bind_eq_ok_iff.mp hready
  obtain ⟨job, hjob, hready⟩ := bind_eq_ok_iff.mp hready
  obtain ⟨work, hwork, hready⟩ := bind_eq_ok_iff.mp hready
  cases hready
  exact ⟨orRefuse_eq_ok hread, orRefuse_eq_ok hwork, settings, orRefuse_eq_ok hsettings,
    fun hmem => (loads_eq_ok hjob).2 (.inl hmem)⟩

theorem record_eq_ok {t : Tree} {events : List Event}
    (hrecord : (h.record w t ready s).outcome = .ok events) :
    h.description = none ∧ events = [] ∨
      ∃ description settings v, h.description = some description ∧
        Settings.load t (ready.arguments.text "--config") = .ok settings ∧
        Tracking.disabling settings = .ok v ∧
        (v.truthy = true ∧ events = [] ∨ v.truthy = false ∧ ∃ mark event, events = [event] ∧
          Tracking.eventOf mark "Hook Executed" (h.eventProperties description w ready.arguments s)
            ready.job.manifest = .ok event) := by
  rw [record] at hrecord
  split at hrecord
  · exact .inl ⟨‹_›, (Except.ok.inj hrecord).symm⟩
  · rename_i description hdescription
    rw [Report.outcome_lift_bind] at hrecord
    obtain ⟨settings, hsettings, hrecord⟩ := bind_eq_ok_iff.mp hrecord
    obtain ⟨v, hv, hevents⟩ := Tracking.deliver_eq_ok hrecord
    refine .inr ⟨description, settings, v, hdescription, hsettings, hv, hevents.imp_right ?_⟩
    rintro ⟨hoff, mark, event, hevent, rfl⟩
    exact ⟨hoff, mark, event, rfl, hevent⟩

/-- **The ways of a run**: it ends before its work, or with a fault, and then without an event; or
the work ends with a status and recording succeeds. -/
theorem run_cases (h : Hook) (w : World) (words : List String) :
    (∃ refused, h.prepare w words = .error refused ∧ (h.run w words).events = [] ∧
      (h.run w words).tree = w.tree) ∨
    ∃ ready, h.prepare w words = .ok ready ∧
      (h.run w words).tree = (ready.work ready.job w.tree).tree ∧
      ((∃ f, (h.run w words).ending = .fault f ∧ (h.run w words).events = []) ∨
      ∃ s, (h.run w words).ending = .status s ∧
        (h.record w (h.run w words).tree ready s).outcome = .ok (h.run w words).events) := by
  rw [run]
  split
  · exact .inl ⟨_, ‹_›, rfl, rfl⟩
  · rename_i ready hready
    refine .inr ⟨ready, hready, ?_⟩
    rw [finish]
    cases hwork : (ready.work ready.job w.tree).outcome with
    | error f => exact ⟨rfl, .inl ⟨f, rfl, rfl⟩⟩
    | ok s =>
      cases hrecord : (h.record w (ready.work ready.job w.tree).tree ready s).outcome with
      | error f => simp [hrecord]
      | ok events => simp [hrecord]

theorem length_events_le (h : Hook) (w : World) (words : List String) :
    (h.run w words).events.length ≤ 1 := by
  obtain ⟨_, -, hnone, -⟩ | ⟨ready, -, -, ⟨_, -, hnone⟩ | ⟨s, -, hrecord⟩⟩ := h.run_cases w words
  · simp [hnone]
  · simp [hnone]
  · obtain ⟨-, hnone⟩ | ⟨_, _, _, -, -, -, ⟨-, hnone⟩ | ⟨-, _, event, hone, -⟩⟩ :=
      record_eq_ok hrecord
    · simp [hnone]
    · simp [hnone]
    · simp [hone]

theorem events_of_disabling {arguments : Arguments} {v : Value}
    (hread : Options.read h.commandLine words = .ok arguments)
    (hsettings : Settings.load (h.run w words).tree (arguments.text "--config") = .ok settings)
    (hv : Tracking.disabling settings = .ok v) (hon : v.truthy = true) :
    (h.run w words).events = [] := by
  obtain ⟨_, -, hnone, -⟩ | ⟨ready, hready, -, ⟨_, -, hnone⟩ | ⟨s, -, hrecord⟩⟩ :=
    h.run_cases w words
  · exact hnone
  · exact hnone
  · obtain ⟨-, hnone⟩ | ⟨_, settings', v', -, hsettings', hv', ⟨-, hnone⟩ | ⟨hoff, -⟩⟩ :=
      record_eq_ok hrecord
    · exact hnone
    · exact hnone
    · obtain rfl : arguments = ready.arguments :=
        Except.ok.inj (hread.symm.trans (prepare_eq_ok hready).1)
      obtain rfl : settings = settings' := Except.ok.inj (hsettings.symm.trans hsettings')
      obtain rfl : v = v' := Except.ok.inj (hv.symm.trans hv')
      rw [hon] at hoff
      cases hoff

theorem length_events_of_status {v : Value} (hready : h.prepare w words = .ok ready)
    (hs : (h.run w words).ending = .status s)
    (hsettings : Settings.load (h.run w words).tree (ready.arguments.text "--config") =
      .ok settings)
    (hv : Tracking.disabling settings = .ok v) (hoff : v.truthy = false) :
    (h.run w words).events.length = 1 ↔ h.description.isSome := by
  obtain ⟨_, hrefused, -⟩ | ⟨ready', hready', -, ⟨f, hfault, -⟩ | ⟨s', -, hrecord⟩⟩ :=
    h.run_cases w words
  · rw [hready] at hrefused
    cases hrefused
  · rw [hs] at hfault
    cases hfault
  · obtain rfl : ready = ready' := Except.ok.inj (hready.symm.trans hready')
    obtain ⟨hno, hnone⟩ | ⟨_, settings', v', hdescription, hsettings', hv',
        ⟨hon, -⟩ | ⟨-, _, event, hone, -⟩⟩ :=
      record_eq_ok hrecord
    · simp [hno, hnone]
    · obtain rfl : settings = settings' := Except.ok.inj (hsettings.symm.trans hsettings')
      obtain rfl : v = v' := Except.ok.inj (hv.symm.trans hv')
      rw [hon] at hoff
      cases hoff
    · simp [hdescription, hone]

def IsPlain (name : String) : Prop :=
  name ≠ "" ∧ name.toList.all (fun c => c != '.' && c != '/') = true

instance (name : String) : Decidable (IsPlain name) := inferInstanceAs (Decidable (_ ∧ _))

theorem IsPlain.not_mem {name : String} (h : IsPlain name) :
    '.' ∉ name.toList ∧ '/' ∉ name.toList := by
  have hall := List.all_eq_true.mp h.2
  exact ⟨fun hdot => absurd (hall _ hdot) (by decide), fun hslash =>
    absurd (hall _ hslash) (by decide)⟩

/-- An event tells how its run ended and which hook it was of, if the meta data of the manifest
leave that alone. -/
def Tells (h : Hook) (w : World) (words : List String) (event : Event) : Prop :=
  ∃ arguments settings manifest s, Options.read h.commandLine words = .ok arguments ∧
    Settings.load w.tree (arguments.text "--config") = .ok settings ∧
    Artifact.manifest.load w.tree arguments settings = .ok manifest ∧
    (h.run w words).ending = .status s ∧
    ∀ more, manifest.field "metadata" = .ok (.map more) → Entries.get? more "status" = none →
      Entries.get? more "hook_name" = none →
        Entries.get? event.properties "status" = some (Tracking.wordOf s) ∧
          Entries.get? event.properties "hook_name" = some (.str h.name)

theorem tells_of_mem_events {event : Event} (hname : IsPlain h.name)
    (hloads : Artifact.manifest ∈ h.loads)
    (hevent : event ∈ (h.run w words).events) : h.Tells w words event := by
  obtain ⟨_, -, hnone, -⟩ | ⟨ready, hready, -, ⟨_, -, hnone⟩ | ⟨s, hs, hrecord⟩⟩ :=
    h.run_cases w words
  · rw [hnone] at hevent
    cases hevent
  · rw [hnone] at hevent
    cases hevent
  · obtain ⟨-, hnone⟩ | ⟨_, _, _, -, -, -, ⟨-, hnone⟩ | ⟨-, mark, event', hone, heq⟩⟩ :=
      record_eq_ok hrecord
    · rw [hnone] at hevent
      cases hevent
    · rw [hnone] at hevent
      cases hevent
    · rw [hone, List.mem_singleton] at hevent
      subst hevent
      obtain ⟨hread, -, settings, hsettings, hmanifest⟩ := prepare_eq_ok hready
      refine ⟨ready.arguments, settings, ready.job.manifest, s, hread, hsettings, hmanifest hloads,
        hs, ?_⟩
      intro more hmore hno hno'
      exact Tracking.told_of_eventOf hname.1 hname.not_mem.1 hname.not_mem.2 rfl rfl heq hmore hno
        hno'

/-! ### Hooks that leave the tree alone -/

def LooksOnly (h : Hook) : Prop := ∀ a work, h.plan a = .ok work → ∀ j t, (work j t).tree = t

theorem LooksOnly.of_always {look : Tree → Job → Report Status}
    (hplan : h.plan = always (looking look)) :
    h.LooksOnly := by
  intro a work hwork j t
  rw [hplan] at hwork
  cases hwork
  rfl

theorem LooksOnly.of_bind {α : Type} {needs : Arguments → Except Stop α}
    {find : α → Tree → Job → Findings}
    (hplan : h.plan = fun a => needs a >>= fun x => pure (finding (find x))) : h.LooksOnly := by
  intro a work hwork j t
  rw [hplan] at hwork
  obtain ⟨x, -, hx⟩ := bind_eq_ok_iff.mp hwork
  cases hx
  rfl

theorem LooksOnly.tree_run (hlooks : h.LooksOnly) (w : World) (words : List String) :
    (h.run w words).tree = w.tree := by
  obtain ⟨_, -, -, htree⟩ | ⟨ready, hready, htree, -⟩ := h.run_cases w words
  · exact htree
  · rw [htree]
    exact hlooks _ _ (prepare_eq_ok hready).2.1 _ _

end Hook

theorem Artifact.load_of_field (h : settings.field "dbt-project-dir" = .ok .null) (a : Artifact)
    (t : Tree) (arguments : Options.Arguments) :
    a.load t arguments settings = t.readJson (arguments.text a.option) := by
  have hdir : (Value.null).truthy = false := rfl
  rw [load, h, ok_bind, path, hdir, Bool.and_false, if_neg Bool.false_ne_true]

/-! ### All hooks -/

namespace Hooks

open Hook (LooksOnly IsPlain Tells)

/-- The hooks that write files. -/
def fixes : List String := ["generate_missing_sources", "generate_model_properties_file",
    "remove_script_semicolon",
  "replace_script_table_names", "unify_column_description"]

theorem plain_and_loads : ∀ h ∈ all, IsPlain h.name ∧ Artifact.manifest ∈ h.loads := by
  decide +kernel

theorem looksOnly_modelHooks : ∀ h ∈ modelHooks, h.LooksOnly := by
  simp only [modelHooks, List.forall_mem_cons, List.not_mem_nil, false_imp_iff, implies_true,
    and_true]
  exact ⟨.of_always rfl, .of_always rfl, .of_always rfl, .of_always rfl, .of_always rfl,
    .of_always rfl, .of_always rfl, .of_always rfl, .of_always rfl, .of_always rfl, .of_bind rfl,
      .of_bind rfl, .of_always rfl, .of_always rfl,
    .of_always rfl, .of_bind rfl, .of_bind rfl, .of_bind rfl, .of_always rfl⟩

theorem looksOnly_otherHooks : ∀ h ∈ otherHooks, h.LooksOnly := by
  simp only [otherHooks, List.forall_mem_cons, List.not_mem_nil, false_imp_iff, implies_true,
    and_true]
  exact ⟨.of_always rfl, .of_always rfl, .of_always rfl, .of_always rfl, .of_always rfl,
    .of_always rfl, .of_always rfl, .of_always rfl, .of_always rfl, .of_always rfl⟩

theorem looksOnly_sourceHooks : ∀ h ∈ sourceHooks, h.LooksOnly := by
  simp only [sourceHooks, List.forall_mem_cons, List.not_mem_nil, false_imp_iff, implies_true,
    and_true]
  exact ⟨.of_always rfl, .of_always rfl, .of_always rfl, .of_always rfl, .of_always rfl,
    .of_always rfl, .of_always rfl, .of_always rfl, .of_always rfl, .of_bind rfl, .of_bind rfl,
      .of_always rfl, .of_always rfl⟩

theorem looksOnly_or_mem_fixes : ∀ h ∈ all, h.LooksOnly ∨ h.name ∈ fixes := by
  have hscripts : ∀ h ∈ scriptHooks, h.LooksOnly ∨ h.name ∈ fixes := by
    simp only [scriptHooks, List.forall_mem_cons, List.not_mem_nil, false_imp_iff, implies_true,
      and_true]
    exact ⟨.inl (.of_always rfl), .inl (.of_always rfl), .inl (.of_always rfl), .inr (by decide),
      .inr (by decide), .inr (by decide), .inr (by decide), .inr (by decide)⟩
  intro h hh
  simp only [all, List.mem_append] at hh
  obtain ((hh | hh) | hh) | hh := hh
  · exact .inl (looksOnly_modelHooks h hh)
  · exact .inl (looksOnly_otherHooks h hh)
  · exact .inl (looksOnly_sourceHooks h hh)
  · exact hscripts h hh

theorem events_of_command (h : CommandHook) (w : World) (words : List String) :
    (h.run w words).events = [] := by
  rw [CommandHook.run]
  split
  · rfl
  split
  · rfl
  dsimp only
  split <;> rfl

/-- **One run, one event at most.**  A hook on a project records no event where the settings that it
reads at the end switch events off, nor where those at the beginning do, provided that a hook that
writes files leaves the settings as they were.  Where they do not, a run that ends with a status
after its work records an event if the hook has a description.  The event tells the status, worded,
and the name of the hook.  Hooks that start a command record none. -/
theorem run_tells (w : World) (words : List String) :
    (∀ h ∈ all,
      (h.run w words).events.length ≤ 1 ∧
      (∀ arguments settings v, Options.read h.commandLine words = .ok arguments →
        Tracking.disabling settings = .ok v → v.truthy = true →
        (Settings.load (h.run w words).tree (arguments.text "--config") = .ok settings →
          (h.run w words).events = []) ∧
        (Settings.load w.tree (arguments.text "--config") = .ok settings →
          (h.name ∈ fixes → Settings.load (h.run w words).tree (arguments.text "--config") =
            .ok settings) →
          (h.run w words).events = [])) ∧
      (∀ event ∈ (h.run w words).events, h.Tells w words event) ∧
      ∀ ready s settings v, h.prepare w words = .ok ready → (h.run w words).ending = .status s →
        Settings.load (h.run w words).tree (ready.arguments.text "--config") = .ok settings →
        Tracking.disabling settings = .ok v → v.truthy = false →
        ((h.run w words).events.length = 1 ↔ h.description.isSome)) ∧
    ∀ h ∈ commandHooks, (h.run w words).events = [] := by
  refine ⟨fun h hh => ⟨h.length_events_le w words, ?_, ?_, ?_⟩,
    fun h _ => events_of_command h w words⟩
  · intro arguments settings v hread hv hon
    refine ⟨fun hsettings => Hook.events_of_disabling hread hsettings hv hon,
      fun hsettings hkept => ?_⟩
    refine Hook.events_of_disabling hread ?_ hv hon
    rcases looksOnly_or_mem_fixes h hh with hlooks | hfix
    · rw [hlooks.tree_run]
      exact hsettings
    · exact hkept hfix
  · intro event hevent
    exact Hook.tells_of_mem_events (plain_and_loads h hh).1 (plain_and_loads h hh).2 hevent
  · intro ready s settings v hready hs hsettings hv hoff
    exact Hook.length_events_of_status hready hs hsettings hv hoff

def manifestAnd (settings : String) : World where
  tree := ⟨[([".dbt-checkpoint.yaml"], .file settings.toUTF8), (["target"], .dir),
    (["target", "manifest.json"],
      .file "\x7b\"metadata\": \x7b\"user_id\": \"u\"\x7d, \"nodes\": \x7b\x7d\x7d".toUTF8)]⟩
  elapsed := .int 0

theorem settings_manifestAnd :
    Settings.load (manifestAnd "version: 1\n").tree ".dbt-checkpoint.yaml" =
      .ok (.map [(.str "version", .int 1)]) ∧
    Settings.load (manifestAnd "version: 1\ndisable-tracking: true\n").tree ".dbt-checkpoint.yaml" =
      .ok (.map [(.str "version", .int 1), (.str "disable-tracking", .bool true)]) :=
  ⟨Yaml.eq_ok_of_alike (by decide +kernel), Yaml.eq_ok_of_alike (by decide +kernel)⟩

theorem manifest_manifestAnd : (manifestAnd "version: 1\n").tree.readJson "target/manifest.json" =
    .ok (.record [ ("metadata", .record [("user_id", .str "u")]), ("nodes", .record [])]) :=
  Yaml.eq_ok_of_alike (by decide +kernel)

/-- One hook in two worlds: an event that tells of its success, and none where the settings switch
it off. -/
theorem run_tells_of_columns : ∃ h ∈ all, h.name = "check_model_columns_have_desc" ∧
    (∃ event, (h.run (manifestAnd "version: 1\n") []).events = [event] ∧
      Entries.get? event.properties "status" = some (.str "Success") ∧
      Entries.get? event.properties "hook_name" = some (.str "check_model_columns_have_desc")) ∧
    (h.run (manifestAnd "version: 1\ndisable-tracking: true\n") []).events = [] := by
  obtain ⟨h, hh⟩ : ∃ h, h = modelHooks.get ⟨0, by decide⟩ := ⟨_, rfl⟩
  have hmem : h ∈ all := by simp [hh, all]
  have hread : Options.read h.commandLine [] = .ok (Options.start h.commandLine).arguments := by
    rw [hh]; rfl
  have hconfig : (Options.start h.commandLine).arguments.text "--config" =
      ".dbt-checkpoint.yaml" := by rw [hh]; rfl
  have hpath : (Options.start h.commandLine).arguments.text Artifact.manifest.option =
      "target/manifest.json" := by
    rw [hh]
    rfl
  refine ⟨h, hmem, by rw [hh]; rfl, ?_, ?_⟩
  · have hlength : (h.run (manifestAnd "version: 1\n") []).events.length = 1 := by
      rw [hh]
      decide +kernel
    obtain ⟨event, hevent⟩ := List.length_eq_one_iff.mp hlength
    obtain ⟨arguments, settings, manifest, s, hread', hsettings, hmanifest, hs, htold⟩ :=
      ((run_tells (manifestAnd "version: 1\n") []).1 h hmem).2.2.1 event (by simp [hevent])
    obtain rfl := Except.ok.inj (hread.symm.trans hread')
    rw [hconfig, settings_manifestAnd.1] at hsettings
    cases hsettings
    have hdir : (Value.map [(.str "version", .int 1)]).field "dbt-project-dir" = .ok .null := rfl
    rw [Artifact.load_of_field hdir, hpath, manifest_manifestAnd] at hmanifest
    cases hmanifest
    have hzero : (match (h.run (manifestAnd "version: 1\n") []).ending with
        | .status s => decide (s = 0)
        | _ => false) = true := by
      rw [hh]
      decide +kernel
    rw [hs] at hzero
    obtain rfl := of_decide_eq_true hzero
    have htold := htold _ rfl rfl rfl
    rw [hh] at htold
    exact ⟨event, hevent, htold⟩
  · obtain ⟨-, hsilent, -⟩ := (run_tells (manifestAnd "version: 1\ndisable-tracking: true\n")
      []).1 h hmem
    have hoff : Tracking.disabling (.map [(.str "version", .int 1),
        (.str "disable-tracking", .bool true)]) = .ok (.bool true) := rfl
    have hsettings := settings_manifestAnd.2
    rw [← hconfig] at hsettings
    have hfix : h.name ∉ fixes := by
      rw [hh]
      decide
    exact (hsilent _ _ _ hread hoff rfl).2 hsettings (fun hmem => absurd hmem hfix)

end Hooks

end ProjectLint
