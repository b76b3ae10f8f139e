import ProjectLint.Checks.Keys
import ProjectLint.Proofs.Outcomes
import ProjectLint.Proofs.Texts

/-!
# The verdict on meta keys

Four checks walk through resources and compare the keys of their meta data with the keys that are
asked for: those of exposures, seeds, snapshots and tests.  All of them are `checkResources` on a
selection of their own (`MetaCheck`).

The status of such a run is the verdict on the **last** resource, and a resource whose keys cannot
be shown ends the run with a fault.  `outcome_eq_one_iff` and `lines_ne_nil_iff` say this of a run
over any list, by induction on the list; `MetaCheck.status_iff_exists_fails_iff` draws the
conclusion: the status tells whether some resource fails exactly when a failing resource, if there
is one, is found at the end as well.

Macros are selected like seeds, but a macro is no resource, and the check of macros breaks off at
the first one. `macroVerdict_iff` says that it is right only where there are none to look at.
-/

namespace ProjectLint.Keys

/-! ### One resource -/

def Meets (r : Required) (actual : List Scalar) : Prop :=
  (∀ k ∈ r.keys, Scalar.str k ∈ actual) ∧
    (r.allowExtra = true ∨ ∀ a ∈ actual, ∃ k ∈ r.keys, a = .str k)

variable {r : Required} {x : Resource} {items : Feed Resource} {rest : List Resource}

theorem isMet_iff {actual : List Scalar} : r.isMet actual = true ↔ Meets r actual := by
  rw [Required.isMet, Bool.and_eq_true, Bool.or_eq_true, isSubset_textSet_iff,
    isSubset_to_textSet_iff]
  rfl

def metaData (x : Resource) : Except Fault Value := x.body.fieldD "meta" (.map [])

/-- The meta data of a resource is a mapping. -/
def HasMeta (x : Resource) : Prop := ∃ entries, metaData x = .ok (.map entries)

/-- The meta keys of a resource do not meet the requirement. -/
def Fails (r : Required) (x : Resource) : Prop :=
  ∃ entries, metaData x = .ok (.map entries) ∧ ¬ Meets r (entries.map (·.1))

def Showable (x : Resource) : Prop :=
  ∀ entries, metaData x = .ok (.map entries) → ∀ e ∈ entries, ∃ s, e.1 = .str s

theorem metaKeys_eq {entries : Entries} (h : metaData x = .ok (.map entries)) :
    metaKeys x.body = .ok (entries.map (·.1)) := by
  rw [metaData] at h
  rw [metaKeys, h]
  rfl

theorem mapM_textOnly_ok : ∀ {members : List Scalar}, (∀ a ∈ members, ∃ s, a = .str s) →
    ∃ texts, (members.map Value.scalar).mapM Value.textOnly = .ok texts := by
  intro members
  induction members with
  | nil => intro _; exact ⟨[], rfl⟩
  | cons a rest ih =>
    intro h
    obtain ⟨s, rfl⟩ := h a List.mem_cons_self
    obtain ⟨texts, ht⟩ := ih fun b hb => h b (List.mem_cons_of_mem _ hb)
    exact ⟨s :: texts, by rw [List.map_cons, List.mapM_cons, ht]; rfl⟩

theorem mapM_textOnly_error : ∀ {members : List Scalar}, (¬ ∀ a ∈ members, ∃ s, a = .str s) →
    (members.map Value.scalar).mapM Value.textOnly = .error .wrongKind := by
  intro members
  induction members with
  | nil => intro h; exact absurd (by simp) h
  | cons a rest ih =>
    intro h
    rw [List.map_cons, List.mapM_cons]
    by_cases ha : ∃ s, a = .str s
    · obtain ⟨s, rfl⟩ := ha
      rw [ih fun hr => h fun b hb => ?_]
      · rfl
      · rcases List.mem_cons.mp hb with rfl | hb
        · exact ⟨s, rfl⟩
        · exact hr b hb
    · cases a with
      | str s => exact absurd ⟨s, rfl⟩ ha
      | _ => rfl

/-- **What the look at one resource gives**: nothing, a line and a failure, or a fault. -/
theorem judgeResource_cases (r : Required) (h : HasMeta x) :
    (¬ Fails r x ∧ judgeResource r x = ⟨[], .ok 0⟩) ∨
    (Fails r x ∧ Showable x ∧ ∃ line, judgeResource r x = ⟨[line], .ok 1⟩) ∨
    (Fails r x ∧ ¬ Showable x ∧ judgeResource r x = ⟨[], .error .wrongKind⟩) := by
  obtain ⟨entries, he⟩ := h
  have hfails : Fails r x ↔ ¬ Meets r (entries.map (·.1)) := by
    constructor
    · rintro ⟨entries', he', hm⟩
      rw [he] at he'
      cases he'
      exact hm
    · exact fun hm => ⟨entries, he, hm⟩
  have hshow : Showable x ↔ ∀ a ∈ entries.map (·.1), ∃ s, a = .str s := by
    constructor
    · intro hs a ha
      obtain ⟨e, hm, rfl⟩ := List.mem_map.mp ha
      exact hs entries he e hm
    · intro hs entries' he' e hm
      rw [he] at he'
      cases he'
      exact hs e.1 (List.mem_map_of_mem hm)
  have hmis : resourceMismatch r x = if r.isMet (entries.map (·.1)) then .ok none
      else (mismatch x.name.text r (entries.map (·.1))).map some := by
    rw [resourceMismatch, metaKeys_eq he, ok_bind]
    rfl
  by_cases hm : r.isMet (entries.map (·.1)) = true
  · refine Or.inl ⟨fun hf => hfails.mp hf (isMet_iff.mp hm), ?_⟩
    rw [if_pos hm] at hmis
    rw [judgeResource, hmis]
    rfl
  · have hf : Fails r x := hfails.mpr fun h => hm (isMet_iff.mpr h)
    rw [if_neg hm, mismatch, commaList, joinValues] at hmis
    by_cases hs : Showable x
    · obtain ⟨texts, ht⟩ := mapM_textOnly_ok (hshow.mp hs)
      rw [ht] at hmis
      exact Or.inr (Or.inl ⟨hf, hs, _, by rw [judgeResource, hmis]; rfl⟩)
    · rw [mapM_textOnly_error fun h => hs (hshow.mpr h)] at hmis
      exact Or.inr (Or.inr ⟨hf, hs, by rw [judgeResource, hmis]; rfl⟩)

/-! ### A run over a list -/

theorem checkResources_eq_go :
    checkResources r items = Feed.fold.go items (fun _ x => judgeResource r x) items.items 0 := rfl

def LastFails (r : Required) (status : Status) (xs : List Resource) : Prop :=
  (xs = [] ∧ status = 1) ∨ ∃ x, xs.getLast? = some x ∧ Fails r x

theorem lastFails_cons {status : Status} :
    LastFails r status (x :: rest) ↔ (rest = [] ∧ Fails r x) ∨ ∃ y, rest.getLast? = some y ∧
      Fails r y := by
  cases rest with
  | nil => simp [LastFails]
  | cons y more => simp [LastFails, List.getLast?_cons_cons]

/-- **The status of a run is one exactly when the last resource fails**, and no failing resource
before it breaks the run off. -/
theorem outcome_eq_one_iff (hstop : items.stop = none) :
    ∀ (xs : List Resource) (status : Status), (∀ x ∈ xs, HasMeta x) →
      ((Feed.fold.go items (fun _ x => judgeResource r x) xs status).outcome = .ok 1 ↔
        (∀ x ∈ xs, Fails r x → Showable x) ∧ LastFails r status xs) := by
  intro xs
  induction xs with
  | nil =>
    intro status _
    simp [Feed.fold.go, hstop, LastFails]
  | cons x rest ih =>
    intro status hmeta
    have hrest := fun s => ih s fun y hy => hmeta y (List.mem_cons_of_mem _ hy)
    rw [Feed.fold.go, lastFails_cons]
    -- the status before `x` is forgotten, so only the verdict on `x` is handed on
    rcases judgeResource_cases r (hmeta x List.mem_cons_self) with ⟨hf, hj⟩ | ⟨hf, hs, line, hj⟩
        | ⟨hf, hs, hj⟩
    · rw [hj, Report.bind]
      simp only [hrest, LastFails, List.forall_mem_cons]
      simp [hf]
    · rw [hj, Report.bind]
      simp only [hrest, LastFails, List.forall_mem_cons]
      simp [hf, hs]
    · rw [hj, Report.bind]
      simp [hf, hs]

/-- The first failing resource can be shown. -/
def FirstShown (r : Required) (xs : List Resource) : Prop :=
  ∃ before x after, xs = before ++ x :: after ∧ (∀ y ∈ before, ¬ Fails r y) ∧ Fails r x ∧ Showable x

theorem firstShown_cons_of_fails (hf : Fails r x) : FirstShown r (x :: rest) ↔ Showable x := by
  constructor
  · rintro ⟨before, y, after, he, hb, -, hs⟩
    cases before with
    | nil => cases he; exact hs
    | cons z before => cases he; exact absurd hf (hb x List.mem_cons_self)
  · exact fun hs => ⟨[], x, rest, rfl, by simp, hf, hs⟩

theorem firstShown_cons_of_not_fails (hf : ¬ Fails r x) : FirstShown r (x :: rest) ↔
    FirstShown r rest := by
  constructor
  · rintro ⟨before, y, after, he, hb, hy, hs⟩
    cases before with
    | nil => cases he; exact absurd hy hf
    | cons z before =>
      cases he; exact ⟨before, y, after, rfl, fun w hw => hb w (List.mem_cons_of_mem _ hw), hy, hs⟩
  · rintro ⟨before, y, after, rfl, hb, hy, hs⟩
    refine ⟨x :: before, y, after, rfl, ?_, hy, hs⟩
    exact List.forall_mem_cons.mpr ⟨hf, hb⟩

/-- **A line is printed exactly when the first failing resource can be shown.** -/
theorem lines_ne_nil_iff :
    ∀ (xs : List Resource) (status : Status), (∀ x ∈ xs, HasMeta x) →
      ((Feed.fold.go items (fun _ x => judgeResource r x) xs status).lines ≠ [] ↔
        FirstShown r xs) := by
  intro xs
  induction xs with
  | nil =>
    intro status _
    simp [Feed.fold.go, FirstShown]
  | cons x rest ih =>
    intro status hmeta
    have hrest := fun s => ih s fun y hy => hmeta y (List.mem_cons_of_mem _ hy)
    rw [Feed.fold.go]
    rcases judgeResource_cases r (hmeta x List.mem_cons_self) with ⟨hf, hj⟩ | ⟨hf, hs, line, hj⟩
        | ⟨hf, hs, hj⟩
    · rw [hj, Report.bind, firstShown_cons_of_not_fails hf]
      exact hrest 0
    · rw [hj, Report.bind, firstShown_cons_of_fails hf]
      simp [hs]
    · rw [hj, Report.bind, firstShown_cons_of_fails hf]
      simp [hs]

theorem firstShown_of_forall : ∀ {xs : List Resource}, (∀ x ∈ xs, Fails r x → Showable x) →
    (∃ x ∈ xs, Fails r x) → FirstShown r xs := by
  intro xs
  induction xs with
  | nil => rintro - ⟨x, hx, -⟩; simp at hx
  | cons x rest ih =>
    rintro hshow ⟨y, hy, hf⟩
    by_cases hx : Fails r x
    · exact (firstShown_cons_of_fails hx).mpr (hshow x List.mem_cons_self hx)
    · rw [firstShown_cons_of_not_fails hx]
      refine ih (fun z hz => hshow z (List.mem_cons_of_mem _ hz)) ⟨y, ?_, hf⟩
      rcases List.mem_cons.mp hy with rfl | hy
      · exact absurd hf hx
      · exact hy

/-! ### The four checks -/

/-- The checks that compare the meta keys of resources. -/
inductive MetaCheck where
  | exposures
  | seeds
  | snapshots
  | tests
deriving DecidableEq, Repr

namespace MetaCheck

/-- The resources that a check selects. -/
def selection (c : MetaCheck) (t : Tree) (manifest : Value) (paths : List String) : Feed Resource :=
  match c with
  | .exposures => ProjectLint.exposures t paths
  | .seeds => ProjectLint.seeds manifest (propertyFiles paths).stems
  | .snapshots =>
    ProjectLint.snapshots manifest ((propertyFiles paths).stems ++ (scriptFiles paths).stems)
  | .tests => testNodes manifest (scriptFiles paths).stems

def run (c : MetaCheck) (t : Tree) (manifest : Value) (r : Required) (paths : List String) :
    Report Status :=
  match c with
  | .exposures => checkExposures t r paths
  | .seeds => checkSeeds manifest r paths
  | .snapshots => checkSnapshots manifest r paths
  | .tests => checkTests manifest r paths

theorem run_eq (c : MetaCheck) (t : Tree) (manifest : Value) (r : Required) (paths : List String) :
    c.run t manifest r paths = checkResources r (c.selection t manifest paths) := by
  cases c <;> rfl

/-- The last resource fails if any does, and all that fail can be shown. -/
def SettledByLast (r : Required) (xs : List Resource) : Prop :=
  (∀ x ∈ xs, Fails r x → Showable x) ∧ ∃ x, xs.getLast? = some x ∧ Fails r x

theorem settledByLast_iff {xs : List Resource} :
    SettledByLast r xs ↔ (∀ x ∈ xs, Fails r x → Showable x) ∧ LastFails r 0 xs := by
  simp [SettledByLast, LastFails]

theorem SettledByLast.exists_fails {xs : List Resource} (h : SettledByLast r xs) :
    ∃ x ∈ xs, Fails r x := by
  obtain ⟨-, x, hx, hf⟩ := h
  exact ⟨x, List.mem_of_getLast? hx, hf⟩

/-- **When the status of a meta key check tells whether a resource fails.**  If the selection
succeeds and all meta data are mappings, status one means "some resource fails" exactly when failing
resources, if there are any, settle the run: the last resource is one of them, and the keys of all
of them can be shown.  Status one means "a line was printed" under the same condition, where now the
first failing resource has to be one that is shown. -/
theorem status_iff_exists_fails_iff (c : MetaCheck) (t : Tree) (manifest : Value) (r : Required)
    (paths : List String) (hsel : (c.selection t manifest paths).stop = none)
    (hmeta : ∀ x ∈ (c.selection t manifest paths).items, HasMeta x) :
    (((c.run t manifest r paths).outcome = .ok 1 ↔
        ∃ x ∈ (c.selection t manifest paths).items, Fails r x) ↔
      ((∃ x ∈ (c.selection t manifest paths).items, Fails r x) →
        SettledByLast r (c.selection t manifest paths).items)) ∧
    (((c.run t manifest r paths).outcome = .ok 1 ↔ (c.run t manifest r paths).lines ≠ []) ↔
      (FirstShown r (c.selection t manifest paths).items →
        SettledByLast r (c.selection t manifest paths).items)) := by
  have houtcome : (c.run t manifest r paths).outcome = .ok 1 ↔
      SettledByLast r (c.selection t manifest paths).items := by
    rw [run_eq, checkResources_eq_go, outcome_eq_one_iff hsel _ 0 hmeta, settledByLast_iff]
  have hlines : (c.run t manifest r paths).lines ≠ [] ↔
      FirstShown r (c.selection t manifest paths).items := by
    rw [run_eq, checkResources_eq_go, lines_ne_nil_iff _ 0 hmeta]
  rw [houtcome, hlines]
  refine ⟨⟨fun h => h.mpr, fun h => ⟨SettledByLast.exists_fails, h⟩⟩,
    ⟨fun h => h.mpr, fun h => ⟨fun hs => ?_, h⟩⟩⟩
  exact firstShown_of_forall hs.1 hs.exists_fails

/-! ### Two snapshots -/

def snapshotNode (name key : String) : Value :=
  .record [("config", .record [("materialized", .str "snapshot")]), ("name", .str name),
    ("meta", .record [(key, .int 1)])]

def twoSnapshots : Value :=
  .record [("nodes", .record [("snapshot.p.a", snapshotNode "a" "j"),
    ("snapshot.p.b", snapshotNode "b" "k")])]

theorem selection_twoSnapshots : snapshots.selection .empty twoSnapshots ["a.sql", "b.sql"] =
    .ofList [⟨.str "a", "a", snapshotNode "a" "j"⟩, ⟨.str "b", "b", snapshotNode "b" "k"⟩] := rfl

theorem metaData_snapshotNode (name filename key : String) :
    metaData ⟨.str name, filename, snapshotNode name key⟩ = .ok (.map [(.str key, .int 1)]) := rfl

theorem fails_snapshotNode {name filename key wanted : String} :
    Fails ⟨[wanted], false⟩ ⟨.str name, filename, snapshotNode name key⟩ ↔ wanted ≠ key := by
  constructor
  · rintro ⟨entries, he, hm⟩ rfl
    cases (metaData_snapshotNode name filename wanted).symm.trans he
    exact hm (by simp [Meets])
  · exact fun h => ⟨_, metaData_snapshotNode name filename key,
      fun hm => h (by simpa [Meets] using hm.1)⟩

theorem showable_snapshotNode (name filename key : String) :
    Showable ⟨.str name, filename, snapshotNode name key⟩ := by
  intro entries he e hm
  cases (metaData_snapshotNode name filename key).symm.trans he
  exact ⟨key, by rw [List.mem_singleton.mp hm]⟩

/-- If `j` is asked for, the last snapshot is the one that fails, and the status tells so. -/
theorem status_twoSnapshots_j :
    (snapshots.selection .empty twoSnapshots ["a.sql", "b.sql"]).stop = none ∧
    (∀ x ∈ (snapshots.selection .empty twoSnapshots ["a.sql", "b.sql"]).items, HasMeta x) ∧
    ((snapshots.run .empty twoSnapshots ⟨["j"], false⟩ ["a.sql", "b.sql"]).outcome = .ok 1 ↔
      ∃ x ∈ (snapshots.selection .empty twoSnapshots ["a.sql", "b.sql"]).items,
        Fails ⟨["j"], false⟩ x) := by
  have hmeta : ∀ x ∈ (snapshots.selection .empty twoSnapshots ["a.sql", "b.sql"]).items,
      HasMeta x := by
    rw [selection_twoSnapshots]
    intro x hx
    rcases List.mem_pair.mp hx with rfl | rfl
    · exact ⟨_, metaData_snapshotNode "a" "a" "j"⟩
    · exact ⟨_, metaData_snapshotNode "b" "b" "k"⟩
  refine ⟨rfl, hmeta, (status_iff_exists_fails_iff snapshots .empty twoSnapshots ⟨["j"], false⟩
    ["a.sql", "b.sql"] rfl hmeta).1.mpr fun _ => ?_⟩
  rw [selection_twoSnapshots]
  refine ⟨?_, _, rfl, fails_snapshotNode.mpr (by decide)⟩
  intro x hx _
  rcases List.mem_pair.mp hx with rfl | rfl
  · exact showable_snapshotNode "a" "a" "j"
  · exact showable_snapshotNode "b" "b" "k"

/-- If `k` is asked for, the first snapshot fails and a line is printed about it, but the status is
zero: the last snapshot has the key. -/
theorem status_twoSnapshots_k :
    (∃ x ∈ (snapshots.selection .empty twoSnapshots ["a.sql", "b.sql"]).items,
      Fails ⟨["k"], false⟩ x) ∧
    (snapshots.run .empty twoSnapshots ⟨["k"], false⟩ ["a.sql", "b.sql"]).lines ≠ [] ∧
    (snapshots.run .empty twoSnapshots ⟨["k"], false⟩ ["a.sql", "b.sql"]).outcome = .ok 0 := by
  refine ⟨?_, ?_, rfl⟩
  · rw [selection_twoSnapshots]
    exact ⟨_, List.mem_cons_self, fails_snapshotNode.mpr (by decide)⟩
  · decide +kernel

end MetaCheck

/-! ### Macros -/

/-- An id of a macro that is named like one of the files. -/
def NamedLike (names : List String) (id : String) : Prop :=
  lastPart (idParts id) ∈ names ∧ firstPart (idParts id) = "macro"

instance (names : List String) (id : String) : Decidable (NamedLike names id) :=
  inferInstanceAs (Decidable (_ ∧ _))

/-- A macro, looked at as a resource. -/
def macroResource (m : Macro) : Resource := ⟨m.name, m.filename, m.body⟩

def macroUnder (id : String) (fields : Entries) : Macro :=
  ⟨id, (Entries.get? fields "name").getD .null, lastPart (idParts id), .map fields⟩

theorem macroOf_eq (names : List String) (id : String) (fields : Entries) :
    macroOf names (.str id, .map fields) =
    .ok (if NamedLike names id then some (macroUnder id fields) else none) := by
  have hnamed : (names.contains (lastPart (idParts id)) && firstPart (idParts id) == "macro") =
      true ↔
      NamedLike names id := by
    rw [Bool.and_eq_true, List.contains_iff_mem, beq_iff_eq, NamedLike]
  rw [macroOf, idText, ok_bind]
  dsimp only
  by_cases h : NamedLike names id
  · rw [if_pos (hnamed.mpr h), if_pos h]
    rfl
  · rw [if_neg (mt hnamed.mp h), if_neg h]
    rfl

/-- **The macros of a manifest** whose section holds mappings are those that are named like the
files. -/
theorem macros_eq_ok {manifest : Value} {entries : Entries}
    (hsection : sectionNodes manifest "macros" = .ok entries)
    (hbodies : ∀ e ∈ entries, ∃ id fields, e = (.str id, .map fields)) (names : List String) :
    ∃ ms, (macros manifest names).toExcept = .ok ms ∧ ∀ m, m ∈ ms ↔
      ∃ id fields, (.str id, .map fields) ∈ entries ∧ NamedLike names id ∧
        m = macroUnder id fields := by
  have hsteps : ∀ e ∈ entries, macroOf names e = .ok ((macroOf names e).toOption.getD none) := by
    intro e he
    obtain ⟨id, fields, rfl⟩ := hbodies e he
    rw [macroOf_eq]
    rfl
  have hwalk := mapM_eq_ok_map hsteps
  have hms : (macros manifest names).toExcept = (entries.mapM
      (macroOf names)).map List.reduceOption := by
    rw [macros, hsection, Feed.toExcept_ofExcept]
    exact Feed.toExcept_filterMapE _ _
  rw [hwalk, ok_map] at hms
  refine ⟨_, hms, fun m => ?_⟩
  rw [List.reduceOption_mem_iff, mem_mapM_iff hwalk]
  constructor
  · rintro ⟨e, he, hm⟩
    obtain ⟨id, fields, rfl⟩ := hbodies e he
    rw [macroOf_eq, Except.ok.injEq, Option.ite_none_right_eq_some, Option.some.injEq] at hm
    exact ⟨id, fields, he, hm.1, hm.2.symm⟩
  · rintro ⟨id, fields, he, hnamed, rfl⟩
    exact ⟨_, he, by rw [macroOf_eq, if_pos hnamed]⟩

theorem checkMacros_eq {manifest : Value} {paths : List String} {ms : List Macro}
    (h : (macros manifest (propertyFiles paths).stems).toExcept = .ok ms) :
    checkMacros manifest paths = ⟨[], if ms = [] then .ok 0 else .error .noSuchField⟩ := by
  rw [checkMacros, Feed.fold]
  cases hstop : (macros manifest (propertyFiles paths).stems).stop with
  | some fault =>
    rw [Feed.toExcept, hstop] at h
    cases h
  | none =>
    rw [Feed.toExcept, hstop] at h
    obtain rfl := Except.ok.inj h
    cases (macros manifest (propertyFiles paths).stems).items with
    | nil => simp [Feed.fold.go, hstop]
    | cons m rest => simp [Feed.fold.go, Report.fail, Report.bind]

/-- **What the check of macros is worth.**  If the section of the macros holds mappings, the macros
that are named like the given property files can all be told.  The check returns, with a status that
tells whether the meta keys of one of them fail, just if there are no such macros; with any, it
breaks off and says nothing. -/
theorem macroVerdict_iff {manifest : Value} {entries : Entries}
    (hsection : sectionNodes manifest "macros" = .ok entries)
    (hbodies : ∀ e ∈ entries, ∃ id fields, e = (.str id, .map fields)) (r : Required)
    (paths : List String) :
    ∃ ms, (macros manifest (propertyFiles paths).stems).toExcept = .ok ms ∧
      ((∃ s, (checkMacros manifest paths).outcome = .ok s ∧
          (s = 1 ↔ ∃ m ∈ ms, Fails r (macroResource m))) ↔
        ∀ id body, (.str id, body) ∈ entries → ¬ NamedLike (propertyFiles paths).stems id) ∧
      ((∃ id body, (.str id, body) ∈ entries ∧ NamedLike (propertyFiles paths).stems id) →
        checkMacros manifest paths = ⟨[], .error .noSuchField⟩) := by
  obtain ⟨ms, hms, hmem⟩ := macros_eq_ok hsection hbodies (propertyFiles paths).stems
  have hnone : ms = [] ↔ ∀ id body, (.str id, body) ∈ entries →
      ¬ NamedLike (propertyFiles paths).stems id := by
    rw [List.eq_nil_iff_forall_not_mem]
    constructor
    · intro h id body he hnamed
      obtain ⟨id', fields, heq⟩ := hbodies _ he
      cases heq
      exact h _ ((hmem _).mpr ⟨id, fields, he, hnamed, rfl⟩)
    · intro h m hm
      obtain ⟨id, fields, he, hnamed, -⟩ := (hmem m).mp hm
      exact h id _ he hnamed
  refine ⟨ms, hms, ?_, ?_⟩
  · rw [checkMacros_eq hms, ← hnone]
    by_cases h : ms = []
    · simp [h]
    · simp [h]
  · rintro ⟨id, body, he, hnamed⟩
    rw [checkMacros_eq hms, if_neg fun h => hnone.mp h id body he hnamed]

def macroFields : Entries := [(.str "name", .str "m"), (.str "meta", .record [("k", .int 1)])]

def oneMacro : Value := .record [("macros", .map [(.str "macro.p.m", .map macroFields)])]

theorem bodies_oneMacro :
    ∀ e ∈ [(Scalar.str "macro.p.m", Value.map macroFields)],
      ∃ id fields, e = (.str id, .map fields) := by
  intro e he
  exact ⟨_, _, List.mem_singleton.mp he⟩

/-- A property file that no macro is named like: the check returns, and is right. -/
theorem macroVerdict_other :
    sectionNodes oneMacro "macros" = .ok [(.str "macro.p.m", .map macroFields)] ∧
    ∃ ms, (macros oneMacro (propertyFiles ["n.yml"]).stems).toExcept = .ok ms ∧
      ∃ s, (checkMacros oneMacro ["n.yml"]).outcome = .ok s ∧
        (s = 1 ↔ ∃ m ∈ ms, Fails ⟨["k"], false⟩ (macroResource m)) := by
  have hsection : sectionNodes oneMacro "macros" = .ok [(.str "macro.p.m", .map macroFields)] := rfl
  obtain ⟨ms, hms, hright, -⟩ := macroVerdict_iff hsection bodies_oneMacro ⟨["k"], false⟩ ["n.yml"]
  refine ⟨hsection, ms, hms, hright.mpr fun id body hmem => ?_⟩
  cases List.mem_singleton.mp hmem
  decide +kernel

/-- **The macro has just the key that is asked for, and the check breaks off.** -/
theorem macroVerdict_breaks :
    (macros oneMacro (propertyFiles ["m.yml"]).stems).toExcept =
      .ok [macroUnder "macro.p.m" macroFields] ∧
    ¬ Fails ⟨["k"], false⟩ (macroResource (macroUnder "macro.p.m" macroFields)) ∧
    checkMacros oneMacro ["m.yml"] = ⟨[], .error .noSuchField⟩ := by
  have hmacros : (macros oneMacro (propertyFiles ["m.yml"]).stems).toExcept =
      .ok [macroUnder "macro.p.m" macroFields] := rfl
  refine ⟨hmacros, ?_, by rw [checkMacros_eq hmacros]; rfl⟩
  rintro ⟨entries, hentries, hfails⟩
  cases hentries
  exact hfails (by simp [Meets])

end ProjectLint.Keys
