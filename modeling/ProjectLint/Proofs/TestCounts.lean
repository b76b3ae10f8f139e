import Mathlib.Data.List.SplitBy
import Mathlib.Data.List.Count
import ProjectLint.Checks.Tests
import ProjectLint.Project.Artifact
import ProjectLint.Proofs.Findings
import ProjectLint.Proofs.JsonKeys
import ProjectLint.Proofs.Lineage
import ProjectLint.Proofs.Sorting
import ProjectLint.Proofs.Yaml.ReadBack

/-!
# Counting the tests of a model

The tests of a model are found by a walk through all that is listed in the lineage.  They are sorted
by their labels, split into runs of one label, and a label is looked up among the runs, of which the
last counts.  What is found is **the number of tests with the label that are listed under the id of
the model** (`testCount`): labels that can be sorted are all texts or none of them is (`InOrder`),
so a text is all in one run, and a mapping has an id at most once.
-/

namespace ProjectLint

namespace Tests

/-! ### Labels in order -/

def InOrder (a b : Value) : Prop :=
  (∃ s t, a = .str s ∧ b = .str t ∧ s ≤ t) ∨ (∀ s, a ≠ .str s) ∧ ∀ s, b ≠ .str s

theorem compares_inOrder : Compares Value.before? InOrder where
  of_true := by
    intro a b h
    rcases before?_cases h with ⟨s, t, rfl, rfl, hlt⟩ | hnone
    · exact .inl ⟨s, t, rfl, rfl, Std.le_of_lt (of_decide_eq_true hlt.symm)⟩
    · exact .inr hnone
  of_false := by
    intro a b h
    rcases before?_cases h with ⟨s, t, rfl, rfl, hlt⟩ | hnone
    · exact .inl ⟨t, s, rfl, rfl, String.not_lt.mp (of_decide_eq_false hlt.symm)⟩
    · exact .inr hnone.symm
  trans := by
    rintro a b c (⟨s, t, rfl, rfl, hst⟩ | ⟨ha, hb⟩) (⟨t', u, heq, rfl, htu⟩ | ⟨hb', hc⟩)
    · cases heq
      exact .inl ⟨s, u, rfl, rfl, String.le_trans hst htu⟩
    · exact absurd rfl (hb' t)
    · exact absurd heq (hb t')
    · exact .inr ⟨ha, hc⟩

variable {label : String}

theorem eq_of_between {v : Value} (h : InOrder (.str label) v) (h' : InOrder v (.str label)) :
    v = .str label := by
  rcases h with ⟨s, t, hs, rfl, hst⟩ | ⟨hnone, -⟩
  · cases hs
    rcases h' with ⟨t', u, ht, hu, htu⟩ | ⟨-, hnone⟩
    · cases ht
      cases hu
      rw [String.le_antisymm htu hst]
    · exact absurd rfl (hnone label)
  · exact absurd rfl (hnone label)

/-! ### Runs of one label -/

/-- **A text is all in one run** of labels in order. -/
theorem exists_run (label : String) :
    ∀ {keys : List Scalar}, (keys.map Value.scalar).Pairwise InOrder →
    ∃ a n b, keys = a ++ (List.replicate n (.str label) ++ b) ∧ Scalar.str label ∉ a ∧
      Scalar.str label ∉ b := by
  intro keys
  induction keys with
  | nil => intro _; exact ⟨[], 0, [], rfl, by simp, by simp⟩
  | cons k keys ih =>
    intro h
    rw [List.map_cons, List.pairwise_cons] at h
    obtain ⟨hk, hkeys⟩ := h
    obtain ⟨a, n, b, heq, ha, hb⟩ := ih hkeys
    by_cases hlabel : k = .str label
    · subst hlabel
      by_cases hin : Scalar.str label ∈ keys
      · -- what stands before another copy lies between two of them, so nothing does
        have hnil : a = [] := by
          cases a with
          | nil => rfl
          | cons x a =>
            rw [heq, List.cons_append, List.map_cons, List.pairwise_cons] at hkeys
            rw [heq, List.cons_append, List.mem_cons] at hin
            have hx : Value.scalar x = .str label := by
              refine eq_of_between
                (hk _ (by rw [heq]; exact List.mem_map_of_mem List.mem_cons_self)) ?_
              refine hkeys.1 _ (List.mem_map_of_mem (hin.resolve_left fun hx => ha ?_))
              rw [hx]
              exact List.mem_cons_self
            cases hx
            exact absurd List.mem_cons_self ha
        subst hnil
        exact ⟨[], n + 1, b, by rw [heq, List.replicate_succ]; rfl, by simp, hb⟩
      · exact ⟨[], 1, keys, rfl, by simp, hin⟩
    · exact ⟨k :: a, n, b, by rw [heq]; rfl, by simp [ha, Ne.symm hlabel], hb⟩

def isOf (label : String) (group : List Scalar) : Bool :=
  group.head?.any fun l => l.same (.str label)

theorem countOf_eq (groups : List (List Scalar)) (label : String) :
    countOf groups label = ((groups.filter (isOf label)).getLast?.map List.length).getD 0 := rfl

theorem isOf_iff {group : List Scalar} : isOf label group = true ↔
    group.head? = some (.str label) := by
  rw [isOf, Option.any_eq_true]
  constructor
  · rintro ⟨l, hl, hsame⟩
    rw [hl, (Scalar.same_str_iff l label).mp hsame]
  · intro h
    exact ⟨_, h, (Scalar.same_str_iff _ label).mpr rfl⟩

theorem filter_isOf_splitBy {keys : List Scalar} (h : Scalar.str label ∉ keys) :
    (keys.splitBy Scalar.same).filter (isOf label) = [] := by
  rw [List.filter_eq_nil_iff]
  intro group hgroup hof
  have hin : Scalar.str label ∈ (keys.splitBy Scalar.same).flatten :=
    List.mem_flatten.mpr ⟨group, hgroup, List.mem_of_mem_head? (isOf_iff.mp hof)⟩
  rw [List.flatten_splitBy] at hin
  exact h hin

/-- Of labels in order, a text is counted right. -/
theorem countOf_splitBy {keys : List Scalar} (h : (keys.map Value.scalar).Pairwise InOrder)
    (label : String) :
    countOf (keys.splitBy Scalar.same) label = keys.countP fun k => k.same (.str label) := by
  have hnone : ∀ l : List Scalar, Scalar.str label ∉ l →
      l.countP (fun k => k.same (.str label)) = 0 := by
    intro l hl
    refine List.countP_eq_zero.mpr fun k hk hsame => hl ?_
    rw [← (Scalar.same_str_iff k label).mp hsame]
    exact hk
  have hself : (Scalar.str label).same (.str label) = true := (Scalar.same_str_iff _ _).mpr rfl
  obtain ⟨a, n, b, rfl, ha, hb⟩ := exists_run label h
  rw [List.countP_append, List.countP_append, hnone a ha, hnone b hb, List.countP_replicate,
    if_pos hself, countOf_eq]
  cases n with
  | zero =>
    rw [filter_isOf_splitBy (by simp [ha, hb])]
    rfl
  | succ n =>
    -- the labels next to the run are others, so the run is split off on both sides
    have hleft : ∀ x ∈ a.getLast?, ∀ y ∈ (List.replicate (n + 1) (Scalar.str label) ++ b).head?,
        x.same y = false := by
      intro x hx y hy
      obtain rfl : Scalar.str label = y := Option.some.inj hy
      rw [← Bool.not_eq_true, Scalar.same_str_iff]
      rintro rfl
      exact ha (List.mem_of_getLast? hx)
    have hright : ∀ x ∈ (List.replicate (n + 1) (Scalar.str label)).getLast?,
        ∀ y ∈ b.head?, x.same y = false := by
      intro x hx y hy
      rw [List.eq_of_mem_replicate (List.mem_of_getLast? hx), ← Bool.not_eq_true,
        Scalar.str_same_iff]
      rintro rfl
      exact hb (List.mem_of_mem_head? hy)
    have hrun : (List.replicate (n + 1) (Scalar.str label)).splitBy Scalar.same =
        [List.replicate (n + 1) (Scalar.str label)] :=
      List.splitBy_of_isChain (by simp) (List.isChain_replicate_of_rel _ hself)
    have hof : isOf label (List.replicate (n + 1) (Scalar.str label)) = true := isOf_iff.mpr rfl
    rw [List.splitBy_append hleft, List.splitBy_append hright, hrun, List.filter_append,
      List.filter_append, filter_isOf_splitBy ha, filter_isOf_splitBy hb, List.filter_singleton,
        hof]
    simp

theorem eq_map_of_mapM_key? : ∀ {labels : List Value} {keys : List Scalar},
    labels.mapM Value.key? = .ok keys →
    labels = keys.map Value.scalar := by
  intro labels
  induction labels with
  | nil => intro keys h; cases h; rfl
  | cons v labels ih =>
    intro keys h
    obtain ⟨k, rest, hk, hrest, rfl⟩ := mapM_cons_eq_ok_iff.mp h
    rw [ih hrest, List.map_cons, key?_eq_ok hk]

/-- **Sorting and splitting do not change a count.** -/
theorem countOf_grouped {labels : List Value} {groups : List (List Scalar)}
    (h : grouped labels = .ok groups)
    (label : String) : countOf groups label = labels.countP fun v => v.same (.str label) := by
  obtain ⟨sorted, hsort, h⟩ := bind_eq_ok_iff.mp h
  obtain ⟨keys, hkeys, h⟩ := bind_eq_ok_iff.mp h
  cases h
  have hperm := perm_of_sortBy hsort
  have hsorted := compares_inOrder.pairwise_of_sortBy hsort
  rw [eq_map_of_mapM_key? hkeys] at hperm hsorted
  rw [countOf_splitBy hsorted, ← hperm.countP_eq, List.countP_map]
  rfl

/-! ### The tests under an id -/

def hasLabel (manifest : Value) (labelling : Labelling) (label id : String) : Bool :=
  match findTest manifest id with
  | .ok t => (labelling.label t).same (.str label)
  | .error _ => false

def testIds (manifest : Value) (id : String) : List String :=
  ((Entries.get? (childMap manifest) id).map (wantedIds ["test"])).getD []

/-- **The number of tests with a label** that the lineage lists under an id. -/
def testCount (manifest : Value) (labelling : Labelling) (id label : String) : Nat :=
  (testIds manifest id).countP (hasLabel manifest labelling label)

/-- The requirements that a model does not meet. -/
def unmet (manifest : Value) (labelling : Labelling) (required : List Requirement) (m : Model) :
    List Requirement :=
  required.filter fun q => (testCount manifest labelling m.id q.label : Int) < max 1 q.count

/-- How many of a group of tests a model has. -/
def groupFound (manifest : Value) (group : List String) (m : Model) : Nat :=
  group.countP fun name => 0 < testCount manifest .byName m.id name

theorem fits_model (id key : String) :
    Subject.fits (.model (.str id)) key = .ok (decide (key = id)) := by
  change Except.ok ((Scalar.str id).same (.str key)) = _
  congr 1
  rw [Bool.eq_iff_iff, decide_eq_true_iff]
  exact (Scalar.same_str_iff (.str id) key).trans ⟨fun h => (Scalar.str.inj h).symm, fun h => by
    rw [h]⟩

theorem keyOf_eq_iff {id : String} {k : Scalar} : KeyOf (· = id) k ↔ k = .str id := by
  cases k with
  | str key => exact ⟨fun h => congrArg Scalar.str h, Scalar.str.inj⟩
  | _ => exact ⟨False.elim, fun h => (nomatch h)⟩

theorem flatMap_key_eq {id : String} (f : Value → List String) : ∀ {entries : Entries},
    (entries.map (·.1)).Nodup → (entries.flatMap fun e => if KeyOf (· = id) e.1 then f e.2
      else []) = ((Entries.get? entries id).map f).getD [] := by
  intro entries
  induction entries with
  | nil => intro _; rfl
  | cons e entries ih =>
    intro h
    obtain ⟨he, hrest⟩ := List.nodup_cons.mp h
    rw [List.flatMap_cons, Entries.get?, Entries.find?, List.find?_cons]
    by_cases hkey : e.1 = .str id
    · have hnone : (entries.flatMap fun e => if KeyOf (· = id) e.1 then f e.2 else []) = [] := by
        refine List.flatMap_eq_nil_iff.mpr fun e' he' => if_neg fun hk => he ?_
        exact List.mem_map.mpr ⟨e', he', (keyOf_eq_iff.mp hk).trans hkey.symm⟩
      rw [if_pos (keyOf_eq_iff.mpr hkey), hnone, List.append_nil,
        (Scalar.same_str_iff _ _).mpr hkey]
      rfl
    · have hsame : e.1.same (.str id) = false := by
        rw [← Bool.not_eq_true, Scalar.same_str_iff]
        exact hkey
      rw [if_neg (mt keyOf_eq_iff.mp hkey), List.nil_append, ih hrest, hsame]
      rfl

theorem Requirement.isMissed_iff (q : Requirement) (found : Nat) :
    q.isMissed found = true ↔ (found : Int) < max 1 q.count := by
  rw [isMissed, Bool.or_eq_true, beq_iff_eq, decide_eq_true_iff]
  omega

theorem filterMap_ite_some {α β : Type} {p : α → Prop} [DecidablePred p] {f : α → β} : ∀ l : List α,
    (l.filterMap fun a => if p a then some (f a) else none) = (l.filter fun a => p a).map f := by
  intro l
  induction l with
  | nil => rfl
  | cons a l ih =>
    rw [List.filterMap_cons, List.filter_cons, ih]
    by_cases ha : p a
    · rw [if_pos ha, if_pos (decide_eq_true ha)]
      rfl
    · rw [if_neg ha, if_neg (by simpa using ha)]

theorem missed_eq {subject : String} {groups : List (List Scalar)} {count : String → Nat}
    (h : ∀ label, countOf groups label = count label) (required : List Requirement) :
    missed subject required groups = (required.filter fun q =>
      (count q.label : Int) < max 1 q.count).map fun q =>
      q.line subject (count q.label) := by
  rw [missed, ← filterMap_ite_some]
  simp only [h, Requirement.isMissed_iff]

theorem keysOnce_of_fieldD {v d x : Value} {key : String} (h : v.fieldD key d = .ok x)
    (hv : Json.KeysOnce v) (hd : Json.KeysOnce d) : Json.KeysOnce x := by
  cases hv with
  | scalar s => cases h
  | seq hitems => cases h
  | @map entries hkeys hvalues =>
    obtain rfl := Except.ok.inj h
    cases hfound : Entries.get? entries key with
    | none => exact hd
    | some y =>
      obtain ⟨e, he, rfl⟩ := Option.map_eq_some_iff.mp hfound
      exact hvalues e (List.mem_of_find?_eq_some he)

/-- **A manifest that was read lists each id once** in its lineage. -/
theorem nodup_childMap_of_read {text : String} {manifest : Value}
    (h : Json.read text = .ok manifest) : ((childMap manifest).map (·.1)).Nodup := by
  rw [childMap]
  cases hentries : sectionNodes manifest "child_map" with
  | error fault => exact List.nodup_nil
  | ok entries =>
    obtain ⟨lineage, hlineage, hentries⟩ := bind_eq_ok_iff.mp hentries
    have hmap := keysOnce_of_fieldD hlineage (Json.keysOnce_of_read h) Json.keysOnce_nil
    cases hmap with
    | scalar s => cases hentries
    | seq hitems => cases hentries
    | map hkeys hvalues =>
      cases hentries
      exact hkeys

section

variable {manifest : Value} (hkeys : ((childMap manifest).map (·.1)).Nodup)

include hkeys

/-- **What is found under a label** is the number of tests with it. -/
theorem countOf_eq_testCount {id : String} {labelling : Labelling} {tests : List Test}
    {groups : List (List Scalar)} (htests : testsOf manifest (.model (.str id)) = .ok tests)
    (hgroups : labelling.groups tests = .ok groups)
    (label : String) : countOf groups label = testCount manifest labelling id label := by
  obtain ⟨rs, hrs, hids⟩ := ids_of_testsOf htests
  have hlisted : testIds manifest id = tests.map (·.id) := by
    rw [hids, ids_of_fitting (fits_model id) hrs, testIds, ← flatMap_key_eq _ hkeys]
    rfl
  rw [countOf_grouped hgroups, testCount, hlisted, List.countP_map, List.countP_map]
  refine List.countP_congr fun t ht => ?_
  rw [Function.comp_apply, Function.comp_apply, hasLabel, findTest_of_testsOf htests ht]

theorem lines_of_modelRequired {labelling : Labelling} {required : List Requirement} {m : Model}
    {lines : List String} (h : modelRequired manifest labelling required m = .ok lines) :
    lines = (unmet manifest labelling required m).map fun q =>
      q.line m.name.text (testCount manifest labelling m.id q.label) := by
  obtain ⟨tests, htests, h⟩ := bind_eq_ok_iff.mp h
  obtain ⟨groups, hgroups, h⟩ := bind_eq_ok_iff.mp h
  cases h
  exact missed_eq (countOf_eq_testCount hkeys htests hgroups) required

theorem lines_of_modelGroup {group : List String} {count : Int} {m : Model} {lines : List String}
    (h : modelGroup manifest group count m = .ok lines) :
    lines = if (groupFound manifest group m : Int) < count then
      [groupLine m.name.text group (groupFound manifest group m)] else [] := by
  obtain ⟨tests, htests, h⟩ := bind_eq_ok_iff.mp h
  obtain ⟨groups, hgroups, h⟩ := bind_eq_ok_iff.mp h
  cases h
  have hfound : groupCount group groups = groupFound manifest group m := by
    rw [groupCount, groupFound, List.countP_eq_length_filter]
    refine congrArg List.length (List.filter_congr fun name _ => ?_)
    rw [countOf_eq_testCount hkeys htests hgroups, Bool.eq_iff_iff, bne_iff_ne, decide_eq_true_iff,
      Nat.pos_iff_ne_zero]
  rw [groupMissed, hfound]

end

/-! ### The checks -/

/-- The models that a request selects. -/
def Selects (r : Request) (t : Tree) (manifest : Value) (ms : List Model) : Prop :=
  ∃ files, r.modelFiles t manifest = .ok files ∧
    (models manifest files.stems r.scope).toExcept = .ok ms

/-- A check of models that comes to an end prints what there is to complain about each of them, and
fails if there is anything. -/
theorem lines_of_checkModels {r : Request} {t : Tree} {manifest : Value}
    {complaints : Model → Except Fault (List String)}
    {f : Model → List String} (hspec : ∀ m lines, complaints m = .ok lines → lines = f m)
    {status : Status}
    (h : (checkModels (r.models t manifest) complaints).report.outcome = .ok status) :
    ∃ ms, Selects r t manifest ms ∧ (status = 0 ∨ status = 1) ∧ (status = 1 ↔ ∃ m ∈ ms, f m ≠ []) ∧
      (checkModels (r.models t manifest) complaints).report.lines = ms.flatMap f := by
  obtain ⟨hlines, hstatus⟩ := Findings.verdict h
  obtain ⟨ms, found, hms, hfound, heq⟩ := Findings.lines_of_bind hlines
  rw [Request.models, Feed.toExcept_ofExcept] at hms
  obtain ⟨feed, hfeed, hms⟩ := bind_eq_ok_iff.mp hms
  obtain ⟨files, hfiles, hfeed⟩ := bind_eq_ok_iff.mp hfeed
  cases hfeed
  have hall : ms.mapM complaints = .ok (ms.map f) := by
    refine mapM_eq_ok_map fun m hm => ?_
    obtain ⟨lines, -, hlines⟩ := ok_of_mapM hfound m hm
    rw [hlines, hspec m lines hlines]
  rw [hall] at hfound
  cases hfound
  rw [← List.flatMap_def] at heq
  refine ⟨ms, ⟨files, hfiles, hms⟩, ?_, ?_, heq⟩
  · rw [hstatus]
    exact Findings.status_eq_zero_or_one _
  · rw [hstatus, Findings.status_eq_one_iff, heq, Ne, List.flatMap_eq_nil_iff]
    simp only [not_forall, exists_prop, Ne]

/-- **The checks count right.**  Let each id have one entry in the lineage, as it has in a manifest
that was read (`nodup_childMap_of_read`).  A check of the required tests that comes to an end fails
just if a selected model has fewer tests of a required label than it needs, one in any case.  It
prints a line with the number for each such model and requirement, in their orders.  A check of a
group of tests fails just if a selected model has too few of them. -/
theorem model_tests_counted {manifest : Value} (hkeys : ((childMap manifest).map (·.1)).Nodup)
    (t : Tree) (r : Request) :
    (∀ labelling required status,
      (checkModelRequired t manifest labelling required r).report.outcome = .ok status →
      ∃ ms, Selects r t manifest ms ∧ (status = 0 ∨ status = 1) ∧
        (status = 1 ↔ ∃ m ∈ ms, ∃ q ∈ required,
          (testCount manifest labelling m.id q.label : Int) < max 1 q.count) ∧
        (checkModelRequired t manifest labelling required r).report.lines = ms.flatMap fun m =>
          (unmet manifest labelling required m).map fun q =>
            q.line m.name.text (testCount manifest labelling m.id q.label)) ∧
    ∀ group count status, (checkModelGroup t manifest group count r).report.outcome = .ok status →
      ∃ ms, Selects r t manifest ms ∧ (status = 0 ∨ status = 1) ∧
        (status = 1 ↔ ∃ m ∈ ms, (groupFound manifest group m : Int) < count) ∧
        (checkModelGroup t manifest group count r).report.lines =
          (ms.filter fun m => (groupFound manifest group m : Int) < count).map fun m =>
            groupLine m.name.text group (groupFound manifest group m) := by
  refine ⟨fun labelling required status h => ?_, fun group count status h => ?_⟩
  · obtain ⟨ms, hms, hcodes, hstatus, hlines⟩ :=
      lines_of_checkModels (fun _ _ => lines_of_modelRequired hkeys) h
    refine ⟨ms, hms, hcodes, hstatus.trans (exists_congr fun m => and_congr_right fun _ => ?_),
      hlines⟩
    rw [Ne, List.map_eq_nil_iff, unmet, List.filter_eq_nil_iff]
    simp only [decide_eq_true_iff, not_forall, not_not, exists_prop]
  · obtain ⟨ms, hms, hcodes, hstatus, hlines⟩ :=
      lines_of_checkModels (fun _ _ => lines_of_modelGroup hkeys) h
    refine ⟨ms, hms, hcodes, hstatus.trans (exists_congr fun m => and_congr_right fun _ => ?_),
      hlines.trans ?_⟩
    · rw [ne_eq, ite_eq_right_iff]
      simp
    · rw [← filterMap_ite_some, List.filterMap_eq_flatMap_toList]
      refine List.flatMap_congr fun m _ => ?_
      split <;> rfl

/-! ### A model with three tests -/

/-- A manifest with a model that has two tests of one name and one of another between them. -/
def tested : Value :=
  .record [
    ("nodes", .record [
      ("model.m", .record [("name", .str "m")]),
      ("test.a", .record [("test_metadata", .record [("name", .str "unique")])]),
      ("test.b", .record [("test_metadata", .record [("name", .str "not_null")])]),
      ("test.c", .record [("test_metadata", .record [("name", .str "unique")])])]),
    ("child_map", .record [("model.m", .strs ["test.a", "test.b", "test.c"])])]

def testedText : String :=
  "\x7b\"nodes\":\x7b\"model.m\":\x7b\"name\":\"m\"\x7d," ++
  "\"test.a\":\x7b\"test_metadata\":\x7b\"name\":\"unique\"\x7d\x7d," ++
  "\"test.b\":\x7b\"test_metadata\":\x7b\"name\":\"not_null\"\x7d\x7d," ++
  "\"test.c\":\x7b\"test_metadata\":\x7b\"name\":\"unique\"\x7d\x7d\x7d," ++
  "\"child_map\":\x7b\"model.m\":[\"test.a\",\"test.b\",\"test.c\"]\x7d\x7d"

theorem read_testedText : Json.read testedText = .ok tested :=
  Yaml.eq_ok_of_alike (by decide +kernel)

def three : List Requirement := [⟨"unique", 2⟩, ⟨"not_null", 2⟩, ⟨"data", -1⟩]

/-- Of three requirements the model meets the first. -/
theorem model_tests_counted_tested :
    Json.read testedText = .ok tested ∧
    three.map (fun q => testCount tested .byName "model.m" q.label) = [2, 1, 0] ∧
    (checkModelRequired ⟨[]⟩ tested .byName three { paths := ["m.sql"] }).report.outcome =
      .ok 1 ∧
    (checkModelGroup ⟨[]⟩ tested ["unique", "data"] 2 { paths := ["m.sql"] }).report.outcome =
      .ok 1 ∧
    (∃ ms, Selects { paths := ["m.sql"] } ⟨[]⟩ tested ms ∧
      ∃ m ∈ ms, ∃ q ∈ three, (testCount tested .byName m.id q.label : Int) < max 1 q.count) ∧
    ∃ ms, Selects { paths := ["m.sql"] } ⟨[]⟩ tested ms ∧
      ∃ m ∈ ms, (groupFound tested ["unique", "data"] m : Int) < 2 := by
  have hkeys := nodup_childMap_of_read read_testedText
  have hrequired : (checkModelRequired ⟨[]⟩ tested .byName three
      { paths := ["m.sql"] }).report.outcome = .ok 1 := eq_ok_of_toOption rfl
  have hgroup : (checkModelGroup ⟨[]⟩ tested ["unique", "data"] 2
      { paths := ["m.sql"] }).report.outcome = .ok 1 := eq_ok_of_toOption rfl
  obtain ⟨hmodels, hgroups⟩ := model_tests_counted hkeys ⟨[]⟩ { paths := ["m.sql"] }
  obtain ⟨ms, hms, -, hstatus, -⟩ := hmodels .byName three 1 hrequired
  obtain ⟨ms', hms', -, hstatus', -⟩ := hgroups ["unique", "data"] 2 1 hgroup
  exact ⟨read_testedText, rfl, hrequired, hgroup, ⟨ms, hms, hstatus.mp rfl⟩,
    ms', hms', hstatus'.mp rfl⟩

end Tests

end ProjectLint
