import ProjectLint.Proofs.Events
import ProjectLint.Proofs.Findings
import ProjectLint.Proofs.OptionValues
import ProjectLint.Proofs.TestCounts

/-!
# Bounds on parents and children

Two checks bound how many parents and children there may be: that of models, with limits for both,
and that of source tables, with limits for children.  A limit is what an option holds: an integer,
or nothing if a largest number is not given (`Options.value_of_read`).  A bound counts only if its
limit is true as a value, which every integer is but zero. For a least number that makes no
difference, since nothing is smaller.  **A largest number of zero bounds nothing**
(`Limits.broken_iff`), and `bounds_verdict_iff` says that a verdict is wrong in this way and in no
other.
-/

namespace ProjectLint

/-! ### Runs that end with a status -/

namespace Hook

variable {h : Hook} {s : Status}

variable {w : World} {ready : Ready}

variable {words : List String} {find : Tree → Job → Findings}

theorem outcome_of_status (hready : h.prepare w words = .ok ready)
    (hs : (h.run w words).ending = .status s) :
    (ready.work ready.job w.tree).outcome = .ok s := by
  rw [run, hready] at hs
  dsimp only [finish] at hs
  cases hwork : (ready.work ready.job w.tree).outcome with
  | error f =>
    rw [hwork] at hs
    cases hs
  | ok s' =>
    rw [hwork] at hs
    dsimp only at hs
    split at hs
    · rw [Ending.status.inj hs]
    · cases hs

theorem job_arguments_of_prepare (hready : h.prepare w words = .ok ready) :
    ready.job.arguments = ready.arguments := by
  obtain ⟨arguments, -, hready⟩ := bind_eq_ok_iff.mp hready
  split at hready
  · cases hready
  obtain ⟨settings, -, hready⟩ := bind_eq_ok_iff.mp hready
  obtain ⟨job, hjob, hready⟩ := bind_eq_ok_iff.mp hready
  obtain ⟨work, -, hready⟩ := bind_eq_ok_iff.mp hready
  cases hready
  exact (loads_eq_ok hjob).1

/-- **The verdict of a hook that looks for findings**: they are complete, and the status is one if
there are any. -/
theorem verdict_of_finding (hplan : h.plan = always (finding find))
    (hready : h.prepare w words = .ok ready) (hs : (h.run w words).ending = .status s) :
    ∃ lines, (find w.tree ready.job).toExcept = .ok lines ∧ s = Findings.status lines := by
  have hwork := (prepare_eq_ok hready).2.1
  rw [hplan] at hwork
  have hstatus := outcome_of_status hready hs
  rw [← Except.ok.inj hwork] at hstatus
  exact ⟨_, Findings.verdict hstatus⟩

end Hook

namespace Relations

open Options (Arguments)

/-! ### Limits -/

/-- How many there may be: at least `least`, and at most `most` if that is given. -/
structure Limits where
  least : Int
  most : Option Int
deriving DecidableEq

namespace Limits

def ofOptions (a : Arguments) (least most : String) : Limits := ⟨(a.int? least).getD 0, a.int? most⟩

/-- **A number breaks the limits**: it is too small or too large. -/
def Broken (l : Limits) (number : Nat) : Prop :=
  (number : Int) < l.least ∨ ∃ n, l.most = some n ∧ n < (number : Int)

/-- A number breaks other limits than a largest number of zero. -/
def Noticed (l : Limits) (number : Nat) : Prop :=
  (number : Int) < l.least ∨ ∃ n, l.most = some n ∧ n ≠ 0 ∧ n < (number : Int)

/-- There are some where there may be none. -/
def ZeroPassed (l : Limits) (number : Nat) : Prop := l.most = some 0 ∧ 0 < number

theorem broken_iff (l : Limits) (number : Nat) :
    l.Broken number ↔ l.Noticed number ∨ l.ZeroPassed number := by
  constructor
  · rintro (hleast | ⟨n, hmost, hlt⟩)
    · exact .inl (.inl hleast)
    · by_cases hzero : n = 0
      · exact .inr ⟨hzero ▸ hmost, by omega⟩
      · exact .inl (.inr ⟨n, hmost, hzero, hlt⟩)
  · rintro ((hleast | ⟨n, hmost, -, hlt⟩) | ⟨hmost, hpos⟩)
    · exact .inl hleast
    · exact .inr ⟨n, hmost, hlt⟩
    · exact .inr ⟨0, hmost, by omega⟩

end Limits

/-- **The verdict is right**: one if a number breaks its limits, and zero otherwise. -/
def Right (s : Status) (numbers : List (Limits × Nat)) : Prop :=
  (s = 0 ∨ s = 1) ∧ (s = 1 ↔ ∃ p ∈ numbers, p.1.Broken p.2)

theorem right_iff {numbers : List (Limits × Nat)} (hs : s = 0 ∨ s = 1)
    (hnoticed : s = 1 ↔ ∃ p ∈ numbers, p.1.Noticed p.2) :
    Right s numbers ↔ ((∃ p ∈ numbers, p.1.ZeroPassed p.2) → ∃ p ∈ numbers, p.1.Noticed p.2) := by
  have hbroken : (∃ p ∈ numbers, p.1.Broken p.2) ↔
      (∃ p ∈ numbers, p.1.Noticed p.2) ∨ ∃ p ∈ numbers, p.1.ZeroPassed p.2 := by
    simp only [Limits.broken_iff, and_or_left, exists_or]
  rw [Right, and_iff_right hs, hnoticed, hbroken, iff_self_or]

/-! ### Bounds -/

theorem before?_int (m n : Int) : (Value.int m).before? (.int n) = .ok (decide (m < n)) := by
  rw [Value.before?]
  rfl

theorem truthy_int_iff (n : Int) : (Value.int n).truthy = true ↔ n ≠ 0 := bne_iff_ne

theorem isBroken_less (label side : Value) (n : Int) (k : Nat) :
    Bound.isBroken ⟨.less, label, side, .int n⟩ (.int k) = .ok true ↔ (k : Int) < n := by
  rw [Bound.isBroken]
  split
  · rw [Comparison.holds, before?_int, Except.ok.injEq, decide_eq_true_iff]
  · rename_i hzero
    obtain rfl : n = 0 := not_not.mp (mt (truthy_int_iff n).mpr hzero)
    simp

theorem isBroken_greater (label side : Value) (n : Int) (k : Nat) :
    Bound.isBroken ⟨.greater, label, side, .int n⟩ (.int k) = .ok true ↔ n ≠ 0 ∧ n < (k : Int) := by
  rw [Bound.isBroken]
  split
  · rename_i hne
    rw [Comparison.holds, before?_int, Except.ok.injEq, decide_eq_true_iff,
      and_iff_right ((truthy_int_iff n).mp hne)]
  · rename_i hzero
    obtain rfl : n = 0 := not_not.mp (mt (truthy_int_iff n).mpr hzero)
    simp

/-- The two options hold limits. -/
structure Holds (a : Arguments) (least most : String) : Prop where
  least : ∃ n, a.value least = .int n
  most : a.value most = .null ∨ ∃ n, a.value most = .int n

def sideBounds (a : Arguments) (side least most : String) : List Bound :=
  [Hooks.bound .less "min" side least a, Hooks.bound .greater "max" side most a]

variable {a : Arguments}

/-- **What the bounds of two options are broken by.** -/
theorem exists_isBroken_iff {least most : String} (ha : Holds a least most) (side : String)
    (k : Nat) :
    (∃ b ∈ sideBounds a side least most, b.isBroken (.int k) = .ok true) ↔
      (Limits.ofOptions a least most).Noticed k := by
  simp only [sideBounds, List.mem_cons, List.not_mem_nil, or_false, exists_eq_or_imp,
    exists_eq_left, Hooks.bound]
  obtain ⟨⟨n, hleast⟩, hmost⟩ := ha
  have hn : (a.int? least).getD 0 = n := by rw [Arguments.int?, hleast]; rfl
  rw [Limits.Noticed, Limits.ofOptions, hn, hleast]
  refine or_congr (isBroken_less _ _ _ _) ?_
  obtain hmost | ⟨m, hmost⟩ := hmost
  · have hnone : a.int? most = none := by rw [Arguments.int?, hmost]
    have hfalse : Bound.isBroken ⟨.greater, .str "max", .str side, .null⟩ (.int k) = .ok false :=
      rfl
    simp [hnone, hmost, hfalse]
  · have hm : a.int? most = some m := by rw [Arguments.int?, hmost]
    rw [hm, hmost, isBroken_greater]
    simp

/-! ### Numbers of relatives -/

def tableChildren (manifest : Value) : Value → Value → List String
  | .str source, .str table => idsUnder manifest (HasNames source table) ["model"]
  | _, _ => []

theorem texts_of_fits {source table : Value} {id : String}
    (h : Subject.fits (.sourceTable source table) id = .ok true) : ∃ s t, source = .str s ∧
      table = .str t := by
  obtain ⟨keys, hkeys, h⟩ := bind_eq_ok_iff.mp h
  have hall := List.all_eq_true.mp (Except.ok.inj h)
  have htext : ∀ v ∈ [Value.str "source", source, table], ∃ s, v = .str s := by
    intro v hv
    obtain ⟨k, hk, hkey⟩ := ok_of_mapM hkeys v hv
    obtain ⟨part, -, hsame⟩ := List.any_eq_true.mp (hall k hk)
    rw [key?_eq_ok hkey, (Scalar.same_str_iff k part).mp hsame]
    exact ⟨part, rfl⟩
  obtain ⟨s, hs⟩ := htext source (by simp)
  obtain ⟨t, ht⟩ := htext table (by simp)
  exact ⟨s, t, hs, ht⟩

variable {found : List String} {manifest : Value}

theorem ids_of_childModels {source table : Value} {rs : List Relative}
    (h : childModels manifest (.sourceTable source table) = .ok rs) :
    rs.map Relative.id = tableChildren manifest source table := by
  rw [tableChildren.eq_def]
  split
  · exact ids_of_fitting (fits_sourceTable _ _) h
  · rename_i hno
    obtain ⟨entries, -, h⟩ := bind_eq_ok_iff.mp h
    obtain ⟨found, hfound, h⟩ := bind_eq_ok_iff.mp h
    cases h
    -- no entry is under an id of the table
    have hnone : ∀ rs ∈ found, rs = [] := by
      intro rs hrs
      obtain ⟨e, -, hentry⟩ := mem_of_mapM hfound rs hrs
      obtain ⟨id, -, hentry⟩ := bind_eq_ok_iff.mp hentry
      obtain ⟨fits, hfits, hentry⟩ := bind_eq_ok_iff.mp hentry
      cases fits with
      | true =>
        obtain ⟨s, t, rfl, rfl⟩ := texts_of_fits hfits
        exact absurd rfl (hno s t rfl)
      | false => exact (Except.ok.inj hentry).symm
    rw [List.flatten_eq_nil_iff.mpr hnone, List.map_nil]

/-- The numbers of parents and of children of a model, with the limits that they have. -/
def modelNumbers (a : Arguments) (manifest : Value) (m : Model) : List (Limits × Nat) := [
  (.ofOptions a "--min-parent-cnt" "--max-parent-cnt",
    (listedUnder manifest "parent_map" (· = m.id) ["model", "source"]).length),
  (.ofOptions a "--min-child-cnt" "--max-child-cnt",
    (listedUnder manifest "child_map" (· = m.id) ["model"]).length)]

/-- The number of children of a source table, with its limits. -/
def tableNumbers (a : Arguments) (manifest : Value) (s : SourceTable) : List (Limits × Nat) := [
  (.ofOptions a "--min-child-cnt" "--max-child-cnt",
    (tableChildren manifest s.source s.table).length)]

theorem ne_nil_iff_of_modelBound {name : Value} {children parents : Nat} {b : Bound}
    (h : (modelBound name children parents b).toExcept = .ok found) :
    found ≠ [] ↔ ∃ number, b.number children parents = .ok number ∧
      b.isBroken number = .ok true := by
  rw [modelBound, Findings.toExcept_of] at h
  obtain ⟨number, hnumber, h⟩ := bind_eq_ok_iff.mp h
  obtain ⟨broken, hbroken, h⟩ := bind_eq_ok_iff.mp h
  cases h
  rw [hnumber]
  cases broken with
  | true => simp [hbroken]
  | false => simp [hbroken]

theorem ne_nil_iff_of_tableBound {label : String} {children : Nat} {b : Bound}
    (h : (tableBound label children b).toExcept = .ok found) :
    found ≠ [] ↔ b.isBroken (.int children) = .ok true := by
  rw [tableBound, Findings.toExcept_of] at h
  obtain ⟨broken, hbroken, h⟩ := bind_eq_ok_iff.mp h
  cases h
  cases broken with
  | true => simp [hbroken]
  | false => simp [hbroken]

theorem exists_number_iff {least most : String} (ha : Holds a least most) {side : String}
    {children parents k : Nat}
    (hside : ∀ breaks label limit, Bound.number ⟨breaks, label, .str side, limit⟩ children parents =
      .ok (.int k)) :
    (∃ b ∈ sideBounds a side least most,
      ∃ number, b.number children parents = .ok number ∧ b.isBroken number = .ok true) ↔
      (Limits.ofOptions a least most).Noticed k := by
  rw [← exists_isBroken_iff ha side k]
  refine exists_congr fun b => and_congr_right fun hb => ?_
  have hnumber : b.number children parents = .ok (.int k) := by
    simp only [sideBounds, List.mem_cons, List.not_mem_nil, or_false] at hb
    obtain rfl | rfl := hb
    · exact hside _ _ _
    · exact hside _ _ _
  simp [hnumber]

theorem ne_nil_iff_of_modelBounds {m : Model}
    (hparents : Holds a "--min-parent-cnt" "--max-parent-cnt")
    (hchildren : Holds a "--min-child-cnt" "--max-child-cnt")
    (h : (modelBounds manifest (Hooks.modelBounds a) m).toExcept = .ok found) :
    found ≠ [] ↔ ∃ p ∈ modelNumbers a manifest m, p.1.Noticed p.2 := by
  rw [modelBounds, Feed.toExcept_ofExcept] at h
  obtain ⟨feed, hfeed, h⟩ := bind_eq_ok_iff.mp h
  obtain ⟨children, hcs, hfeed⟩ := bind_eq_ok_iff.mp hfeed
  obtain ⟨above, hps, hfeed⟩ := bind_eq_ok_iff.mp hfeed
  cases hfeed
  have hlength : children.length =
      (listedUnder manifest "child_map" (· = m.id) ["model"]).length := by
    rw [← ids_of_lineage (Tests.fits_model m.id) hcs, List.length_map]
  have hlength' : above.length = (listedUnder manifest "parent_map" (· = m.id) ["model",
      "source"]).length := by
    rw [← ids_of_lineage (Tests.fits_model m.id) hps, List.length_map]
  rw [Findings.ne_nil_iff_of_flatMap h fun b _ found hfound => ne_nil_iff_of_modelBound hfound,
    hlength, hlength']
  have hbounds : Hooks.modelBounds a = sideBounds a "parents" "--min-parent-cnt"
      "--max-parent-cnt" ++ sideBounds a "childs" "--min-child-cnt" "--max-child-cnt" := rfl
  simp only [hbounds, List.mem_append, or_and_right, exists_or]
  rw [exists_number_iff hparents fun _ _ _ => rfl, exists_number_iff hchildren fun _ _ _ => rfl]
  simp [modelNumbers]

theorem ne_nil_iff_of_tableBounds {s : SourceTable}
    (hchildren : Holds a "--min-child-cnt" "--max-child-cnt")
    (h : (tableBounds manifest (Hooks.childBounds a) s).toExcept = .ok found) :
    found ≠ [] ↔ ∃ p ∈ tableNumbers a manifest s, p.1.Noticed p.2 := by
  rw [tableBounds, Feed.toExcept_ofExcept] at h
  obtain ⟨feed, hfeed, h⟩ := bind_eq_ok_iff.mp h
  obtain ⟨children, hcs, hfeed⟩ := bind_eq_ok_iff.mp hfeed
  cases hfeed
  have hlength : children.length = (tableChildren manifest s.source s.table).length := by
    rw [← ids_of_childModels hcs, List.length_map]
  rw [Findings.ne_nil_iff_of_flatMap h fun b _ found hfound => ne_nil_iff_of_tableBound hfound,
    hlength]
  exact (exists_isBroken_iff hchildren "childs" _).trans (by simp [tableNumbers])

end Relations

/-! ### The two hooks -/

namespace Hooks

open Relations (Holds Right modelNumbers tableNumbers)

theorem eq_of_name {name : String} (hone : (all.filter (·.name == name)).length = 1) {h' : Hook}
    (hh : h ∈ all) (hh' : h' ∈ all) (hname : h.name = name) (hname' : h'.name = name) : h = h' := by
  obtain ⟨x, hx⟩ := List.length_eq_one_iff.mp hone
  have hmem : ∀ y ∈ all, y.name = name → y = x := fun y hy hyname =>
    List.mem_singleton.mp (hx ▸ List.mem_filter.mpr ⟨hy, beq_iff_eq.mpr hyname⟩)
  rw [hmem h hh hname, hmem h' hh' hname']

theorem eq_modelBoundsHook (hh : h ∈ all) (hname : h.name = "check_model_parents_and_childs") :
    h.parameters = parentParameters ++ childParameters ∧
    h.plan = Hook.always (Hook.finding fun _ j =>
      Relations.checkModelBounds j.manifest (modelBounds j.arguments) j.request) := by
  obtain rfl : h = modelHooks.get ⟨14, by decide⟩ := eq_of_name rfl hh (by simp [all]) hname rfl
  exact ⟨rfl, rfl⟩

theorem eq_tableBoundsHook (hh : h ∈ all) (hname : h.name = "check_source_childs") :
    h.parameters = childParameters ∧ h.plan = Hook.always (Hook.finding fun t j =>
      Relations.checkTableBounds t j.manifest (childBounds j.arguments) j.request) := by
  obtain rfl : h = sourceHooks.get ⟨0, by decide⟩ := eq_of_name rfl hh (by simp [all]) hname rfl
  exact ⟨rfl, rfl⟩

variable {h : Hook} {lines : List String}

theorem holds_of_prepare {w : World} {ready : Hook.Ready} (hready : h.prepare w words = .ok ready)
    (hnames : (h.commandLine.all.map (·.name)).Nodup) {least most : String}
    (hleast : .integer least (.int 0) ∈ h.parameters) (hmost : .integer most .null ∈ h.parameters) :
    Holds ready.arguments least most := by
  have hread := (Hook.prepare_eq_ok hready).1
  have hmem : ∀ p ∈ h.parameters, p ∈ h.commandLine.all :=
    fun p hp => List.mem_cons_of_mem _ (List.mem_append_right _ hp)
  refine ⟨?_, Options.value_of_read hread hnames (hmem _ hmost) rfl rfl⟩
  obtain hdefault | hgiven := Options.value_of_read hread hnames (hmem _ hleast) rfl rfl
  · exact ⟨0, hdefault⟩
  · exact hgiven

theorem verdict_on_numbers {α : Type} {items : Feed α} {f : α → Findings}
    {numbers : α → List (Relations.Limits × Nat)}
    (h : (items.bind f).toExcept = .ok lines) (hs : s = Findings.status lines)
    (hitem : ∀ x found, (f x).toExcept = .ok found →
      (found ≠ [] ↔ ∃ p ∈ numbers x, p.1.Noticed p.2)) :
    ∃ xs, items.toExcept = .ok xs ∧ (s = 0 ∨ s = 1) ∧
      (s = 1 ↔ ∃ p ∈ xs.flatMap numbers, p.1.Noticed p.2) := by
  obtain ⟨xs, hxs, h⟩ := Feed.toExcept_bind_eq_ok h
  refine ⟨xs, hxs, hs ▸ Findings.status_eq_zero_or_one lines, ?_⟩
  rw [hs, Findings.status_eq_one_iff, Findings.ne_nil_iff_of_flatMap h fun x _ found =>
    hitem x found]
  simp only [List.mem_flatMap]
  constructor
  · rintro ⟨x, hx, p, hp, hnoticed⟩
    exact ⟨p, ⟨x, hx, hp⟩, hnoticed⟩
  · rintro ⟨p, ⟨x, hx, hp⟩, hnoticed⟩
    exact ⟨x, hx, p, hp, hnoticed⟩

/-- **What a verdict on numbers is worth.**  Whenever one of the two hooks runs its check and ends
with a status, that is one if a number is noticed, and zero otherwise.  It is right about the limits
unless there are children or parents where a largest number of zero allows none, and nothing else is
noticed. -/
theorem bounds_verdict_iff (w : World) (words : List String) :
    (∀ h ∈ all, h.name = "check_model_parents_and_childs" →
      ∀ ready s, h.prepare w words = .ok ready → (h.run w words).ending = .status s →
      ∃ ms, (ready.job.request.givenModels ready.job.manifest).toExcept = .ok ms ∧
        ∃ numbers, numbers = ms.flatMap (modelNumbers ready.arguments ready.job.manifest) ∧
          (s = 0 ∨ s = 1) ∧ (s = 1 ↔ ∃ p ∈ numbers, p.1.Noticed p.2) ∧
          (Right s numbers ↔ ((∃ p ∈ numbers, p.1.ZeroPassed p.2) →
            ∃ p ∈ numbers, p.1.Noticed p.2))) ∧
    ∀ h ∈ all, h.name = "check_source_childs" → ∀ ready s, h.prepare w words = .ok ready →
      (h.run w words).ending = .status s →
      ∃ tables, (ready.job.request.sourceTables w.tree).toExcept = .ok tables ∧
        ∃ numbers, numbers = tables.flatMap (tableNumbers ready.arguments ready.job.manifest) ∧
          (s = 0 ∨ s = 1) ∧ (s = 1 ↔ ∃ p ∈ numbers, p.1.Noticed p.2) ∧
          (Right s numbers ↔ ((∃ p ∈ numbers, p.1.ZeroPassed p.2) →
            ∃ p ∈ numbers, p.1.Noticed p.2)) := by
  constructor
  · intro h hh hname ready s hready hs
    obtain ⟨hparameters, hplan⟩ := eq_modelBoundsHook hh hname
    have hnames : (h.commandLine.all.map (·.name)).Nodup := by
      rw [Hook.commandLine, hparameters]
      decide
    have hparents : Holds ready.arguments "--min-parent-cnt" "--max-parent-cnt" :=
      holds_of_prepare hready hnames (by simp [hparameters, parentParameters])
        (by simp [hparameters, parentParameters])
    have hchildren : Holds ready.arguments "--min-child-cnt" "--max-child-cnt" :=
      holds_of_prepare hready hnames (by simp [hparameters, childParameters])
        (by simp [hparameters, childParameters])
    obtain ⟨lines, hlines, hstatus⟩ := Hook.verdict_of_finding hplan hready hs
    rw [Hook.job_arguments_of_prepare hready] at hlines
    obtain ⟨ms, hms, hzero, hnoticed⟩ := verdict_on_numbers hlines hstatus fun m found =>
      Relations.ne_nil_iff_of_modelBounds hparents hchildren
    exact ⟨ms, hms, _, rfl, hzero, hnoticed, Relations.right_iff hzero hnoticed⟩
  · intro h hh hname ready s hready hs
    obtain ⟨hparameters, hplan⟩ := eq_tableBoundsHook hh hname
    have hnames : (h.commandLine.all.map (·.name)).Nodup := by
      rw [Hook.commandLine, hparameters]
      decide
    have hchildren : Holds ready.arguments "--min-child-cnt" "--max-child-cnt" :=
      holds_of_prepare hready hnames (by simp [hparameters, childParameters])
        (by simp [hparameters, childParameters])
    obtain ⟨lines, hlines, hstatus⟩ := Hook.verdict_of_finding hplan hready hs
    rw [Hook.job_arguments_of_prepare hready] at hlines
    obtain ⟨tables, htables, hzero, hnoticed⟩ :=
      verdict_on_numbers hlines hstatus fun table found =>
      Relations.ne_nil_iff_of_tableBounds hchildren
    exact ⟨tables, htables, _, rfl, hzero, hnoticed, Relations.right_iff hzero hnoticed⟩

/-! ### A model that must not have children -/

def dependent : World where
  tree := ⟨[([".dbt-checkpoint.yaml"], .file "version: 1\ndisable-tracking: true\n".toUTF8),
    (["s.yml"], .file "sources:\n- name: s\n  tables:\n  - name: t\n".toUTF8), (["target"], .dir),
    (["target", "manifest.json"], .file (
      "\x7b\"nodes\":\x7b\"model.a\":\x7b\"name\":\"a\"\x7d,\"model.b\":\x7b\x7d\x7d," ++
      "\"child_map\":\x7b\"model.a\":[\"model.b\"],\"source.s.t\":[\"model.b\"]\x7d\x7d").toUTF8)]⟩

def dependentManifest : Value := .record [
  ("nodes", .record [("model.a", .record [("name", .str "a")]), ("model.b", .record [])]),
  ("child_map", .record [("model.a", .seq [.str "model.b"]),
    ("source.s.t", .seq [.str "model.b"])])]

theorem settings_dependent : Settings.load dependent.tree ".dbt-checkpoint.yaml" =
    .ok (.map [(.str "version", .int 1), (.str "disable-tracking", .bool true)]) :=
  Yaml.eq_ok_of_alike (by decide +kernel)

theorem manifest_dependent : dependent.tree.readJson "target/manifest.json" =
    .ok dependentManifest :=
  Yaml.eq_ok_of_alike (by decide +kernel)

theorem record_dependent (h : Hook) {ready : Hook.Ready} (s : Status)
    (hconfig : ready.arguments.text "--config" = ".dbt-checkpoint.yaml") :
    (h.record dependent dependent.tree ready s).outcome = .ok [] := by
  rw [Hook.record]
  cases h.description with
  | none => rfl
  | some description =>
    dsimp only
    rw [hconfig, settings_dependent]
    rfl

/-- A run in this project, from what its work finds. -/
theorem run_dependent {a : Options.Arguments} (hbefore : h.before a = none)
    (hloads : h.loads = [.manifest]) (hplan : h.plan = Hook.always (Hook.finding find))
    (hread : Options.read h.commandLine words = .ok a)
    (hconfig : a.text "--config" = ".dbt-checkpoint.yaml")
    (hpath : a.text Artifact.manifest.option = "target/manifest.json")
    (hlines : (find dependent.tree ⟨a, dependentManifest, .null, []⟩).toExcept = .ok lines) :
    ∃ ready, h.prepare dependent words = .ok ready ∧ ready.arguments = a ∧
      ready.job = ⟨a, dependentManifest, .null, []⟩ ∧
      (h.run dependent words).ending = .status (Findings.status lines) := by
  have hdir : (Value.map [(.str "version", .int 1), (.str "disable-tracking", .bool true)]).field
      "dbt-project-dir" = .ok .null := rfl
  have hload : Hook.loadInto dependent.tree
      (.map [(.str "version", .int 1), (.str "disable-tracking", .bool true)])
      ⟨a, .null, .null, []⟩ .manifest = .ok ⟨a, dependentManifest, .null, []⟩ := by
    rw [Hook.loadInto, Artifact.load_of_field hdir, hpath, manifest_dependent]
  have hready : h.prepare dependent words = .ok ⟨a, ⟨a, dependentManifest, .null, []⟩,
      Hook.finding find⟩ := by
    have hscans : dependent.scans = [] := rfl
    simp only [Hook.prepare, hread, Hook.orRefuse, ok_bind, hbefore, hconfig, settings_dependent,
      hloads, hplan, hscans, List.foldlM_cons, List.foldlM_nil, Hook.always, hload]
    rfl
  refine ⟨_, hready, rfl, rfl, ?_⟩
  have hwork : (Hook.finding find ⟨a, dependentManifest, .null, []⟩ dependent.tree).outcome =
      .ok (Findings.status lines) := by
    change (find _ _).report.outcome = _
    rw [Findings.outcome_report, hlines, ok_map]
  have htree : (Hook.finding find ⟨a, dependentManifest, .null, []⟩ dependent.tree).tree =
      dependent.tree := rfl
  rw [Hook.run, hready]
  dsimp only [Hook.finish]
  rw [hwork]
  dsimp only
  rw [htree, record_dependent h _ hconfig]

def argumentsOf (h : Hook) (words : List String) : Options.Arguments :=
  (Options.read h.commandLine words).toOption.getD ⟨[], []⟩

def dependentJob (h : Hook) (words : List String) : Job :=
  ⟨argumentsOf h words, dependentManifest, .null, []⟩

theorem exists_run_dependent (hbefore : h.before (argumentsOf h words) = none)
    (hloads : h.loads = [.manifest]) (hplan : h.plan = Hook.always (Hook.finding find))
    (hread : ((Options.read h.commandLine words).toOption.map fun a =>
      (a.text "--config", a.text "--manifest")) = some (".dbt-checkpoint.yaml",
        "target/manifest.json"))
    (hlines : (find dependent.tree (dependentJob h words)).toExcept.toOption = some lines) :
    ∃ ready, h.prepare dependent words = .ok ready ∧ ready.arguments = argumentsOf h words ∧
      ready.job = dependentJob h words ∧ (h.run dependent words).ending =
        .status (Findings.status lines) := by
  obtain ⟨a, ha, htexts⟩ := Option.map_eq_some_iff.mp hread
  obtain rfl : argumentsOf h words = a := by rw [argumentsOf, ha, Option.getD_some]
  obtain ⟨hconfig, hpath⟩ := Prod.mk.inj htexts
  exact run_dependent hbefore hloads hplan (eq_ok_of_toOption ha) hconfig hpath
    (eq_ok_of_toOption hlines)

theorem exists_run_models (words lines : List String) (numbers : List (Relations.Limits × Nat))
    (hh : h = modelHooks.get ⟨14, by decide⟩)
    (hread : ((Options.read h.commandLine words).toOption.map fun a =>
      (a.text "--config", a.text "--manifest")) = some (".dbt-checkpoint.yaml",
        "target/manifest.json"))
    (hlines : (Relations.checkModelBounds dependentManifest (modelBounds (argumentsOf h words))
      (dependentJob h words).request).toExcept.toOption = some lines)
    (hnumbers : (((dependentJob h words).request.givenModels
      dependentManifest).toExcept.toOption.map fun ms =>
      ms.flatMap (modelNumbers (argumentsOf h words) dependentManifest)) = some numbers) :
    h ∈ all ∧ h.name = "check_model_parents_and_childs" ∧
      ∃ ready ms, h.prepare dependent words = .ok ready ∧
      (h.run dependent words).ending = .status (Findings.status lines) ∧
      (ready.job.request.givenModels ready.job.manifest).toExcept = .ok ms ∧
      ms.flatMap (modelNumbers ready.arguments ready.job.manifest) = numbers := by
  have hplan : h.plan = Hook.always (Hook.finding fun _ j =>
      Relations.checkModelBounds j.manifest (modelBounds j.arguments) j.request) := by rw [hh]; rfl
  obtain ⟨ready, hready, harguments, hjob, hending⟩ :=
    exists_run_dependent (by rw [hh]; rfl) (by rw [hh]; rfl) hplan hread hlines
  obtain ⟨ms, hms, hnumbers⟩ := Option.map_eq_some_iff.mp hnumbers
  refine ⟨by simp [hh, all], by rw [hh]; rfl, ready, ms, hready, hending, ?_, ?_⟩
  · rw [hjob]
    exact eq_ok_of_toOption hms
  · rw [harguments, hjob]
    exact hnumbers

def dependentTable : SourceTable where
  source := .str "s"
  table := .str "t"
  file := ⟨.relative, ["s.yml"]⟩
  sourceBody := .record [("name", .str "s")]
  tableBody := .record [("name", .str "t")]

theorem sourceTables_dependent :
    (ProjectLint.sourceTables dependent.tree false ["s.yml"]).toExcept = .ok [dependentTable] := by
  have hread : dependent.tree.readProperties "s.yml" =
      .ok ⟨.record [("sources", .seq [.record [("name", .str "s"),
        ("tables", .seq [.record [("name", .str "t")]])]])], []⟩ :=
    Yaml.eq_of_yields (by decide +kernel)
  have htext : (Path.ofString "s.yml").text = "s.yml" := by decide
  rw [ProjectLint.sourceTables, Feed.flatMap, tablesOfFile, htext, hread]
  rfl

theorem exists_run_tables (words lines : List String) (numbers : List (Relations.Limits × Nat))
    (hh : h = sourceHooks.get ⟨0, by decide⟩)
    (hread : ((Options.read h.commandLine words).toOption.map fun a =>
      (a.text "--config", a.text "--manifest")) = some (".dbt-checkpoint.yaml",
        "target/manifest.json"))
    (hfiles : (argumentsOf h words).files = ["s.yml"] ∧
      (argumentsOf h words).flag "--include-disabled" = false)
    (hlines : (Relations.tableBounds dependentManifest (childBounds (argumentsOf h words))
      dependentTable).toExcept.toOption = some lines)
    (hnumbers : tableNumbers (argumentsOf h words) dependentManifest dependentTable = numbers) :
    h ∈ all ∧ h.name = "check_source_childs" ∧
      ∃ ready tables, h.prepare dependent words = .ok ready ∧
      (h.run dependent words).ending = .status (Findings.status lines) ∧
      (ready.job.request.sourceTables dependent.tree).toExcept = .ok tables ∧
      tables.flatMap (tableNumbers ready.arguments ready.job.manifest) = numbers := by
  have htables : ((dependentJob h words).request.sourceTables dependent.tree).toExcept =
      .ok [dependentTable] := by
    rw [Request.sourceTables, Job.request, dependentJob, hfiles.1, hfiles.2]
    exact sourceTables_dependent
  have hplan : h.plan = Hook.always (Hook.finding fun t j =>
      Relations.checkTableBounds t j.manifest (childBounds j.arguments) j.request) := by
        rw [hh]; rfl
  have hfound : (Relations.checkTableBounds dependent.tree dependentManifest
      (childBounds (argumentsOf h words)) (dependentJob h words).request).toExcept.toOption =
        some lines := by
    rw [Relations.checkTableBounds, Feed.toExcept_bind htables, Feed.toExcept_flatMap,
      List.mapM_cons, eq_ok_of_toOption hlines, ok_bind, List.mapM_nil]
    exact congrArg some (List.append_nil lines)
  obtain ⟨ready, hready, harguments, hjob, hending⟩ :=
    exists_run_dependent (by rw [hh]; rfl) (by rw [hh]; rfl) hplan hread hfound
  refine ⟨by simp [hh, all], by rw [hh]; rfl, ready, [dependentTable], hready, hending, ?_, ?_⟩
  · rw [hjob]
    exact htables
  · rw [harguments, hjob, List.flatMap_singleton]
    exact hnumbers

/-- Too few parents and too few children are told. -/
theorem bounds_verdict_of_least :
    (∃ h ∈ all, h.name = "check_model_parents_and_childs" ∧ ∃ ready ms,
      h.prepare dependent ["a.sql", "--min-parent-cnt", "1"] = .ok ready ∧
      (h.run dependent ["a.sql", "--min-parent-cnt", "1"]).ending = .status 1 ∧
      (ready.job.request.givenModels ready.job.manifest).toExcept = .ok ms ∧
      Right 1 (ms.flatMap (modelNumbers ready.arguments ready.job.manifest))) ∧
    ∃ h ∈ all, h.name = "check_source_childs" ∧ ∃ ready tables,
      h.prepare dependent ["s.yml", "--min-child-cnt", "2"] = .ok ready ∧
      (h.run dependent ["s.yml", "--min-child-cnt", "2"]).ending = .status 1 ∧
      (ready.job.request.sourceTables dependent.tree).toExcept = .ok tables ∧
      Right 1 (tables.flatMap (tableNumbers ready.arguments ready.job.manifest)) := by
  constructor
  · obtain ⟨h, hh⟩ : ∃ h, h = modelHooks.get ⟨14, by decide⟩ := ⟨_, rfl⟩
    obtain ⟨hmem, hname, ready, ms, hready, hending, hms, hnumbers⟩ := exists_run_models
      ["a.sql", "--min-parent-cnt", "1"] ["a: has 0 parents min, but min 1 is/are required."]
      [(⟨1, none⟩, 0), (⟨0, none⟩, 1)] hh
      (by rw [hh]; rfl) (by rw [hh]; rfl) (by rw [hh]; rfl)
    obtain ⟨ms', hms', _, rfl, -, -, hright⟩ :=
      (bounds_verdict_iff dependent _).1 h hmem hname ready 1 hready hending
    obtain rfl := Except.ok.inj (hms.symm.trans hms')
    refine ⟨h, hmem, hname, ready, ms, hready, hending, hms, hright.mpr fun _ => ?_⟩
    rw [hnumbers]
    exact ⟨_, List.mem_cons_self, .inl (by decide)⟩
  · obtain ⟨h, hh⟩ : ∃ h, h = sourceHooks.get ⟨0, by decide⟩ := ⟨_, rfl⟩
    obtain ⟨hmem, hname, ready, tables, hready, hending, htables, hnumbers⟩ := exists_run_tables
      ["s.yml", "--min-child-cnt", "2"] ["s.t: has 1 min, but min 2is/are required."]
        [(⟨2, none⟩, 1)] hh
      (by rw [hh]; rfl) (by rw [hh]; exact ⟨rfl, rfl⟩) (by rw [hh]; rfl) (by rw [hh]; rfl)
    obtain ⟨tables', htables', _, rfl, -, -, hright⟩ :=
      (bounds_verdict_iff dependent _).2 h hmem hname ready 1 hready hending
    obtain rfl := Except.ok.inj (htables.symm.trans htables')
    refine ⟨h, hmem, hname, ready, tables, hready, hending, htables, hright.mpr fun _ => ?_⟩
    rw [hnumbers]
    exact ⟨_, List.mem_cons_self, .inl (by decide)⟩

/-- A child of what must not have children is not told. -/
theorem bounds_verdict_zero :
    (∃ h ∈ all, h.name = "check_model_parents_and_childs" ∧ ∃ ready ms,
      h.prepare dependent ["a.sql", "--max-child-cnt", "0"] = .ok ready ∧
      (h.run dependent ["a.sql", "--max-child-cnt", "0"]).ending = .status 0 ∧
      (ready.job.request.givenModels ready.job.manifest).toExcept = .ok ms ∧
      ∃ p ∈ ms.flatMap (modelNumbers ready.arguments ready.job.manifest), p.1.Broken p.2) ∧
    ∃ h ∈ all, h.name = "check_source_childs" ∧ ∃ ready tables,
      h.prepare dependent ["s.yml", "--max-child-cnt", "0"] = .ok ready ∧
      (h.run dependent ["s.yml", "--max-child-cnt", "0"]).ending = .status 0 ∧
      (ready.job.request.sourceTables dependent.tree).toExcept = .ok tables ∧
      ∃ p ∈ tables.flatMap (tableNumbers ready.arguments ready.job.manifest), p.1.Broken p.2 := by
  constructor
  · obtain ⟨h, hh⟩ : ∃ h, h = modelHooks.get ⟨14, by decide⟩ := ⟨_, rfl⟩
    obtain ⟨hmem, hname, ready, ms, hready, hending, hms, hnumbers⟩ := exists_run_models
      ["a.sql", "--max-child-cnt", "0"] [] [(⟨0, none⟩, 0), (⟨0, some 0⟩, 1)] hh
      (by rw [hh]; rfl) (by rw [hh]; rfl) (by rw [hh]; rfl)
    refine ⟨h, hmem, hname, ready, ms, hready, hending, hms, ?_⟩
    rw [hnumbers]
    exact ⟨(⟨0, some 0⟩, 1), by simp, .inr ⟨0, rfl, by decide⟩⟩
  · obtain ⟨h, hh⟩ : ∃ h, h = sourceHooks.get ⟨0, by decide⟩ := ⟨_, rfl⟩
    obtain ⟨hmem, hname, ready, tables, hready, hending, htables, hnumbers⟩ := exists_run_tables
      ["s.yml", "--max-child-cnt", "0"] [] [(⟨0, some 0⟩, 1)] hh
      (by rw [hh]; rfl) (by rw [hh]; exact ⟨rfl, rfl⟩) (by rw [hh]; rfl) (by rw [hh]; rfl)
    refine ⟨h, hmem, hname, ready, tables, hready, hending, htables, ?_⟩
    rw [hnumbers]
    exact ⟨(⟨0, some 0⟩, 1), List.mem_cons_self, .inr ⟨0, rfl, by decide⟩⟩

end Hooks

end ProjectLint
