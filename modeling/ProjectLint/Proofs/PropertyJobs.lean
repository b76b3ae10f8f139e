import ProjectLint.Proofs.Directories
import ProjectLint.Proofs.EntryHistory

/-!
# Jobs that write entries

Every entry has a path to be written to.  Two paths may lead to one file, so what counts is the
place that a path leads to in the end; a job that is done has made its path lead to a file, and it
leads there for good.  The jobs of a place make up the history of the file there (`Done.history`),
and all other files stay as they are (`Done.elsewhere`).
-/

namespace ProjectLint.PropertyFiles

open Yaml (Document ReadsBack)

/-! ### One job -/

/-- An entry that is to be written, and the path that it goes to. -/
structure Job where
  target : String
  fields : List (String × Value)
  name : Value

namespace Job

def path (job : Job) : String := (Path.ofString job.target).text

def entry (job : Job) : Value := .record job.fields

def write (job : Job) : Edit Unit :=
  writeEntry (Path.ofString job.target) ⟨job.fields, none⟩ job.name

def document (job : Job) (t : Tree) : Except Fault Document :=
  if t.exists? job.path then t.readDocument job.path >>= fun d => append d job.entry
  else .ok (fresh job.entry)

end Job

variable {t : Tree} {place : List String} {job : Job}

theorem readDocument_eq {path : String} {content : ByteArray}
    (h : t.follow path = .file place content) :
    t.readDocument path = documentOf content := by
  rw [Tree.readDocument, Tree.readText, Tree.readBytes, h, documentOf]
  dsimp only
  cases Text.decode content <;> rfl

/-- **What a job does** to the file at a place. -/
inductive Wrote (job : Job) (place : List String) : Bool → Tree → Tree → Prop
  | appended {t : Tree} {content : ByteArray} {d d' : Document}
      (there : t.follow job.path = .file place content)
      (read : documentOf content = .ok d) (append : append d job.entry = .ok d') :
      Wrote job place false t (t.putNode place (.file d'.write.toUTF8))
  | anew {t t₁ : Tree} (missing : t.exists? job.path = false) (dirs : t.MoreDirs t₁)
      (reached : t₁.follow job.path = .absent place ∨
        ∃ content, t₁.follow job.path = .file place content) :
      Wrote job place true t (t₁.putNode place (.file (fresh job.entry).write.toUTF8))

theorem writeText_cases {t' : Tree} {path text : String} (h : t.writeText path text = .ok t') :
    ∃ place, (t.follow path = .absent place ∨ ∃ content, t.follow path = .file place content) ∧
      t' = t.putNode place (.file text.toUTF8) := by
  rw [Tree.writeText, Tree.writeBytes] at h
  split at h
  · rename_i place content hfollow
    cases h
    exact ⟨place, .inr ⟨content, hfollow⟩, rfl⟩
  · rename_i place hfollow
    cases h
    exact ⟨place, .inl hfollow, rfl⟩
  · cases h
  · cases h
  · cases h
  · cases h

def doneLine (job : Job) (what : String) : String :=
  job.path ++ ": the schema of the `" ++ job.name.text ++ "` model was " ++ what ++ " the file."

theorem write_run_of_exists (h : t.exists? job.path = true) :
    job.write.run t = (Edit.ask (fun t => t.readDocument job.path) >>= fun d =>
      Edit.ofExcept (append d job.entry) >>= fun d' =>
        Edit.change (fun t => t.writeDocument job.path d') >>= fun _ =>
        Edit.say (doneLine job "appended to")).run t := by
  rw [Job.path] at h
  rw [Job.write, Edit.run, writeEntry]
  dsimp only
  rw [if_pos h]
  rfl

theorem write_run_of_missing (h : t.exists? job.path = false) :
    job.write.run t = (makeDirs (Path.ofString job.target).parent >>= fun _ =>
      Edit.change (fun t => t.writeDocument job.path (fresh job.entry)) >>= fun _ =>
        Edit.say (doneLine job "written to")).run t := by
  rw [Job.path] at h
  rw [Job.write, Edit.run, writeEntry]
  dsimp only
  rw [if_neg (by rw [h]; decide)]
  rfl

theorem run_change_say {f : Tree → Except Fault Tree} {line : String}
    (h : ((Edit.change f >>= fun _ => Edit.say line).run t).outcome = .ok ()) :
    f t = .ok ((Edit.change f >>= fun _ => Edit.say line).run t).tree := by
  rw [Edit.outcome_bind] at h
  obtain ⟨_, hchange, -⟩ := bind_eq_ok_iff.mp h
  rw [Edit.run_bind_ok hchange]
  exact Edit.eq_ok_of_change hchange

theorem wrote_of_exists (hthere : t.exists? job.path = true)
    (h : (job.write.run t).outcome = .ok ()) :
    ∃ place, Wrote job place false t (job.write.run t).tree := by
  rw [write_run_of_exists hthere] at h ⊢
  rw [Edit.outcome_bind, Edit.run_ask] at h
  obtain ⟨d, hread, h⟩ := bind_eq_ok_iff.mp h
  dsimp only at h
  cases happend : append d job.entry with
  | error fault => rw [happend] at h; cases h
  | ok d' =>
    rw [happend, Edit.ofExcept_ok_bind] at h
    rw [Edit.run_bind_ok (a := d) (by rw [Edit.run_ask, hread]), Edit.run_ask, happend,
      Edit.ofExcept_ok_bind]
    obtain ⟨text, htext, -⟩ := bind_eq_ok_iff.mp hread
    obtain ⟨place, content, hfollow⟩ := Tree.follow_of_readText htext
    obtain ⟨place', hreached, htree⟩ := writeText_cases (run_change_say h)
    rw [hfollow] at hreached
    rcases hreached with habsent | ⟨content', hfile⟩
    · cases habsent
    · cases hfile
      rw [htree]
      exact ⟨place, .appended hfollow ((readDocument_eq hfollow).symm.trans hread) happend⟩

theorem wrote_of_missing (hmissing : t.exists? job.path = false)
    (h : (job.write.run t).outcome = .ok ()) :
    ∃ place, Wrote job place true t (job.write.run t).tree := by
  rw [write_run_of_missing hmissing] at h ⊢
  rw [Edit.outcome_bind] at h
  obtain ⟨_, hdirs, h⟩ := bind_eq_ok_iff.mp h
  rw [Edit.run_bind_ok hdirs]
  obtain ⟨place, hreached, htree⟩ := writeText_cases (run_change_say h)
  rw [htree]
  exact ⟨place, .anew hmissing (Tree.moreDirs_makeDirs hdirs) hreached⟩

namespace Wrote

variable {job : Job} {place : List String} {anew : Bool} {t t' : Tree}

theorem anew_eq (h : Wrote job place anew t t') : anew = !t.exists? job.path := by
  cases h with
  | appended there read append =>
    rw [Tree.exists?, there]
    rfl
  | anew missing dirs reached =>
    rw [missing]
    rfl

theorem extend (h : Wrote job place anew t t') : t.Extends t' := by
  cases h with
  | appended there read append =>
    exact .putNode_file (by rw [Tree.node?_of_follow there]; simp) _
  | anew missing dirs reached =>
    refine dirs.extend.trans (.putNode_file ?_ _)
    rcases reached with habsent | ⟨content, hfile⟩
    · rw [Tree.node?_of_follow_absent habsent]
      simp
    · rw [Tree.node?_of_follow hfile]
      simp

theorem follow (h : Wrote job place anew t t') :
    ∃ content, t'.follow job.path = .file place content := by
  cases h with
  | appended there read append =>
    rw [Tree.follow_putNode (Tree.node?_of_follow there), there]
    exact ⟨_, rfl⟩
  | anew missing dirs reached =>
    rcases reached with habsent | ⟨content, hfile⟩
    · obtain ⟨last, hlast, hne⟩ := Tree.getLast?_pieces_of_absent habsent
      exact ⟨_, Tree.follow_putNode_absent habsent hlast hne _⟩
    · rw [Tree.follow_putNode (Tree.node?_of_follow hfile), hfile]
      exact ⟨_, rfl⟩

theorem elsewhere (h : Wrote job place anew t t') {other : List String} (hother : other ≠ place) :
    t'.fileAt? other = t.fileAt? other := by
  cases h with
  | appended there read append => rw [Tree.fileAt?_putNode_file, if_neg hother]
  | anew missing dirs reached => rw [Tree.fileAt?_putNode_file, if_neg hother, dirs.files]

theorem rewrites (h : Wrote job place anew t t')
    (hback : ∀ d, job.document t = .ok d → ReadsBack d) :
    ∃ new, t'.fileAt? place = some new ∧ Rewrites ⟨job.entry, anew⟩ (t.fileAt? place) new := by
  cases h with
  | @appended _ content d d' there read append =>
    have hdocument : job.document t = .ok d' := by
      rw [Job.document, if_pos (by rw [Tree.exists?, there]), readDocument_eq there, read]
      exact append
    rw [Tree.fileAt?_putNode_file, if_pos rfl, Tree.fileAt?_of_follow there]
    exact ⟨_, rfl, .appended rfl read append (hback d' hdocument)⟩
  | anew missing dirs reached =>
    have hdocument : job.document t = .ok (fresh job.entry) := by
      rw [Job.document, if_neg (by rw [missing]; decide)]
    rw [Tree.fileAt?_putNode_file, if_pos rfl]
    exact ⟨_, rfl, .fresh rfl (hback _ hdocument)⟩

end Wrote

/-! ### One job after another -/

def afterJobs (t : Tree) (jobs : List Job) : Tree := ((Edit.forEach Job.write jobs).run t).tree

/-- A job that was done, the place it wrote to, and whether it started a new file. -/
structure Event where
  job : Job
  place : List String
  anew : Bool

def Event.writing (ev : Event) : Writing := ⟨ev.job.entry, ev.anew⟩

/-- **Jobs that were done one after another**, with all that was written reading back. -/
inductive Done (t : Tree) : List Event → Prop
  | nil : Done t []
  | snoc {evs : List Event} {ev : Event} (before : Done t evs)
      (wrote : Wrote ev.job ev.place ev.anew (afterJobs t (evs.map Event.job))
        (afterJobs t (evs.map Event.job ++ [ev.job])))
      (back : ∀ d, ev.job.document (afterJobs t (evs.map Event.job)) = .ok d → ReadsBack d) :
        Done t (evs ++ [ev])

/-- Whatever document is written by one of the jobs reads back. -/
def WritesBack (t : Tree) (jobs : List Job) : Prop :=
  ∀ before job after d, jobs = before ++ job :: after → job.document (afterJobs t before) = .ok d →
    ReadsBack d

theorem done_of_ok (jobs : List Job) (hok : ((Edit.forEach Job.write jobs).run t).outcome = .ok ())
    (hback : WritesBack t jobs) : ∃ evs, evs.map Event.job = jobs ∧ Done t evs := by
  induction jobs using List.reverseRecOn with
  | nil => exact ⟨[], rfl, .nil⟩
  | append_singleton jobs job ih =>
    obtain ⟨hjobs, hjob, htree⟩ := Edit.run_forEach_concat hok
    obtain ⟨evs, rfl, hdone⟩ := ih hjobs fun before other after d heq =>
      hback before other (after ++ [job]) d (by rw [heq]; simp)
    have hwrote : ∃ place anew, Wrote job place anew (afterJobs t (evs.map Event.job))
        (afterJobs t (evs.map Event.job ++ [job])) := by
      have htree' : afterJobs t (evs.map Event.job ++ [job]) =
          (job.write.run (afterJobs t (evs.map Event.job))).tree := htree
      rw [htree']
      cases hthere : (afterJobs t (evs.map Event.job)).exists? job.path with
      | true =>
        obtain ⟨place, hwrote⟩ := wrote_of_exists hthere hjob
        exact ⟨place, false, hwrote⟩
      | false =>
        obtain ⟨place, hwrote⟩ := wrote_of_missing hthere hjob
        exact ⟨place, true, hwrote⟩
    obtain ⟨place, anew, hwrote⟩ := hwrote
    have hjob' : ∀ d, job.document (afterJobs t (evs.map Event.job)) = .ok d → ReadsBack d :=
      fun d => hback (evs.map Event.job) job [] d rfl
    exact ⟨evs ++ [⟨job, place, anew⟩], by rw [List.map_append]; rfl,
      @Done.snoc t evs ⟨job, place, anew⟩ hdone hwrote hjob'⟩

namespace Done

variable {t : Tree} {evs : List Event}

theorem eq_nil_or_snoc (h : Done t evs) : evs = [] ∨ ∃ before ev, evs = before ++ [ev] ∧
    Done t before ∧
    Wrote ev.job ev.place ev.anew (afterJobs t (before.map Event.job))
      (afterJobs t (before.map Event.job ++ [ev.job])) := by
  cases h with
  | nil => exact .inl rfl
  | snoc before wrote back => exact .inr ⟨_, _, rfl, before, wrote⟩

theorem of_append (after : List Event) :
    ∀ {evs : List Event} {ev : Event}, Done t (evs ++ ev :: after) → Done t evs ∧
    Wrote ev.job ev.place ev.anew (afterJobs t (evs.map Event.job))
      (afterJobs t (evs.map Event.job ++ [ev.job])) := by
  induction after using List.reverseRecOn with
  | nil =>
    intro evs ev h
    rcases h.eq_nil_or_snoc with hnil | ⟨before, ev', heq, hbefore, hwrote⟩
    · simp at hnil
    · obtain ⟨rfl, hev⟩ := List.append_inj' heq rfl
      cases hev
      exact ⟨hbefore, hwrote⟩
  | append_singleton after last ih =>
    intro evs ev h
    rcases h.eq_nil_or_snoc with hnil | ⟨before, ev', heq, hbefore, -⟩
    · simp at hnil
    · have heq' : (evs ++ ev :: after) ++ [last] = before ++ [ev'] := by rw [← heq]; simp
      obtain ⟨rfl, -⟩ := List.append_inj' heq' rfl
      exact ih hbefore

/-- **The path of a job that was done leads to the file it wrote.** -/
theorem follow (h : Done t evs) : ∀ ev ∈ evs,
    ∃ content, (afterJobs t (evs.map Event.job)).follow ev.job.path = .file ev.place content := by
  induction h with
  | nil => intro ev hev; cases hev
  | @snoc evs last before wrote back ih =>
    intro ev hev
    rw [List.map_append, List.map_singleton]
    rcases List.mem_append.mp hev with hev | hev
    · obtain ⟨content, hfollow⟩ := ih ev hev
      exact wrote.extend.follow_file hfollow
    · rw [List.mem_singleton.mp hev]
      exact wrote.follow

/-- **The jobs of a place are the history of the file there.** -/
theorem history (h : Done t evs) (place : List String) :
    History (t.fileAt? place) ((evs.filter (·.place == place)).map Event.writing)
      ((afterJobs t (evs.map Event.job)).fileAt? place) := by
  induction h with
  | nil => exact .nil
  | @snoc evs ev before wrote back ih =>
    rw [List.map_append, List.map_singleton, List.filter_append]
    by_cases hplace : ev.place = place
    · subst hplace
      obtain ⟨new, hnew, hrewrites⟩ := wrote.rewrites back
      rw [hnew, List.filter_cons_of_pos (by simp), List.map_append]
      exact ih.snoc hrewrites
    · rw [wrote.elsewhere (Ne.symm hplace), List.filter_cons_of_neg (by simpa using hplace),
        List.filter_nil, List.append_nil]
      exact ih

theorem elsewhere (h : Done t evs) (hplace : ∀ ev ∈ evs, ev.place ≠ place) :
    (afterJobs t (evs.map Event.job)).fileAt? place = t.fileAt? place := by
  have hnone : evs.filter (·.place == place) = [] := by
    rw [List.filter_eq_nil_iff]
    exact fun ev hev heq => hplace ev hev (beq_iff_eq.mp heq)
  have hhistory := h.history place
  rw [hnone] at hhistory
  exact History.nil.unique hhistory

theorem leadsTo_iff (h : Done t evs) {ev : Event} (hev : ev ∈ evs) :
    (afterJobs t (evs.map Event.job)).leadsTo ev.job.path place = true ↔ ev.place = place := by
  obtain ⟨content, hfollow⟩ := h.follow ev hev
  rw [Tree.leadsTo, hfollow, beq_iff_eq]

end Done

/-! ### What the jobs are asked for -/

def entriesFor (t : Tree) (jobs : List Job) (place : List String) : List Value :=
  (jobs.filter fun job => t.leadsTo job.path place).map Job.entry

/-- **Every file that a path leads to is as asked for.** -/
def AllAsked (t t' : Tree) (jobs : List Job) : Prop :=
  ∀ job ∈ jobs, ∀ place, t'.leadsTo job.path place = true →
    Asked (t.fileAt? place) (entriesFor t' jobs place) (t'.fileAt? place)

/-- No job that starts a new file takes the place of one that says more. -/
def SparesFiles (t t' : Tree) (jobs : List Job) : Prop :=
  ∀ before job after, jobs = before ++ job :: after →
    (afterJobs t before).exists? job.path = false →
    ∀ place content, t'.leadsTo job.path place = true →
      (afterJobs t before).fileAt? place = some content → Bare content job.entry

/-- In every file that a path leads to, the models share with no other part. -/
def AllAlone (t t' : Tree) (jobs : List Job) : Prop :=
  ∀ job ∈ jobs, ∀ place, t'.leadsTo job.path place = true → ModelsAlone (t.fileAt? place)

variable {evs : List Event}

theorem exists_of_filter_eq {before after : List Writing} {w : Writing}
    (h : (evs.filter (·.place == place)).map Event.writing = before ++ w :: after) :
    ∃ front ev back, evs = front ++ ev :: back ∧ ev.place = place ∧ ev.writing = w ∧
      (front.filter (·.place == place)).map Event.writing = before := by
  obtain ⟨front, rest, hfilter, hfront, hrest⟩ := List.map_eq_append_iff.mp h
  obtain ⟨ev, rest', rfl, hev, -⟩ := List.map_eq_cons_iff.mp hrest
  obtain ⟨front', rest'', rfl, hfront', hrest''⟩ := List.filter_eq_append_iff.mp hfilter
  obtain ⟨skipped, back, rfl, hskipped, hplace, -⟩ := List.filter_eq_cons_iff.mp hrest''
  refine ⟨front' ++ skipped, ev, back, by simp, beq_iff_eq.mp hplace, hev, ?_⟩
  have hnone : skipped.filter (·.place == place) = [] := List.filter_eq_nil_iff.mpr hskipped
  rw [List.filter_append, hfront', hnone, List.append_nil, hfront]

theorem Done.sparesFiles_iff (h : Done t evs) :
    SparesFiles t (afterJobs t (evs.map Event.job)) (evs.map Event.job) ↔
      ∀ place, SparesOld (t.fileAt? place) ((evs.filter (·.place == place)).map Event.writing) := by
  constructor
  · intro hspares place before w after content heq hw hbefore
    obtain ⟨front, ev, back, rfl, hplace, rfl, hfront⟩ := exists_of_filter_eq heq
    obtain ⟨hdone, hwrote⟩ := h.of_append back
    have hmissing : (afterJobs t (front.map Event.job)).exists? ev.job.path = false := by
      have hanew : ev.anew = true := hw
      rw [hwrote.anew_eq] at hanew
      simpa using hanew
    have hhistory := hdone.history place
    rw [hfront] at hhistory
    exact hspares (front.map Event.job) ev.job (back.map Event.job) (by simp) hmissing place content
      ((h.leadsTo_iff (by simp)).mpr hplace) (hbefore.unique hhistory)
  · intro hspares before job after heq hmissing place content hleads hcontent
    obtain ⟨front, rest, rfl, rfl, hrest⟩ := List.map_eq_append_iff.mp heq
    obtain ⟨ev, back, rfl, rfl, -⟩ := List.map_eq_cons_iff.mp hrest
    obtain ⟨hdone, hwrote⟩ := h.of_append back
    have hplace : ev.place = place := (h.leadsTo_iff (by simp)).mp hleads
    refine hspares place ((front.filter (·.place == place)).map Event.writing) ev.writing
      ((back.filter (·.place == place)).map Event.writing) content ?_ ?_ ?_
    · rw [List.filter_append, List.filter_cons_of_pos (by simpa using hplace), List.map_append,
        List.map_cons]
    · show ev.anew = true
      rw [hwrote.anew_eq, hmissing]
      rfl
    · rw [← hcontent]
      exact hdone.history place

theorem Done.entriesFor_eq (h : Done t evs) (place : List String) :
    entriesFor (afterJobs t (evs.map Event.job)) (evs.map Event.job) place =
      ((evs.filter (·.place == place)).map Event.writing).map Writing.entry := by
  rw [entriesFor, List.filter_map, List.map_map, List.map_map]
  refine congrArg (List.map fun ev : Event => ev.job.entry) (List.filter_congr fun ev hev => ?_)
  rw [Bool.eq_iff_iff, Function.comp_apply, h.leadsTo_iff hev, beq_iff_eq]

theorem Done.writings_ne_nil_iff (h : Done t evs) :
    (evs.filter (·.place == place)).map Event.writing ≠ [] ↔
      ∃ job ∈ evs.map Event.job, (afterJobs t (evs.map Event.job)).leadsTo job.path place =
        true := by
  rw [ne_eq, List.map_eq_nil_iff, List.filter_eq_nil_iff]
  constructor
  · intro hsome
    push Not at hsome
    obtain ⟨ev, hev, hplace⟩ := hsome
    exact ⟨ev.job, List.mem_map_of_mem hev, (h.leadsTo_iff hev).mpr (beq_iff_eq.mp hplace)⟩
  · rintro ⟨job, hjob, hleads⟩ hnone
    obtain ⟨ev, hev, rfl⟩ := List.mem_map.mp hjob
    exact hnone ev hev (beq_iff_eq.mpr ((h.leadsTo_iff hev).mp hleads))

/-- **The files are as asked for just if none is lost and none has shared models.** -/
theorem Done.allAsked_iff (h : Done t evs) :
    AllAsked t (afterJobs t (evs.map Event.job)) (evs.map Event.job) ↔
      SparesFiles t (afterJobs t (evs.map Event.job)) (evs.map Event.job) ∧
      AllAlone t (afterJobs t (evs.map Event.job)) (evs.map Event.job) := by
  rw [h.sparesFiles_iff]
  constructor
  · intro hasked
    have hone : ∀ {place}, (evs.filter (·.place == place)).map Event.writing ≠ [] →
        SparesOld (t.fileAt? place) ((evs.filter (·.place == place)).map Event.writing) ∧
          ModelsAlone (t.fileAt? place) := by
      intro place hne
      obtain ⟨job, hjob, hleads⟩ := h.writings_ne_nil_iff.mp hne
      have hthis := hasked job hjob place hleads
      rw [h.entriesFor_eq] at hthis
      exact ((h.history place).asked_iff hne).mp hthis
    refine ⟨fun place => ?_, fun job hjob place hleads =>
      (hone (h.writings_ne_nil_iff.mpr ⟨job, hjob, hleads⟩)).2⟩
    by_cases hne : (evs.filter (·.place == place)).map Event.writing = []
    · rw [hne]
      exact sparesOld_of_appended _ (by simp)
    · exact (hone hne).1
  · rintro ⟨hspares, halone⟩ job hjob place hleads
    rw [h.entriesFor_eq]
    exact ((h.history place).asked_iff (h.writings_ne_nil_iff.mpr ⟨job, hjob, hleads⟩)).mpr
      ⟨hspares place, halone job hjob place hleads⟩

end ProjectLint.PropertyFiles
