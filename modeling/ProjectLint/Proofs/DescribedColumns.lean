import ProjectLint.Proofs.Gaps
import ProjectLint.Proofs.Yaml.ReadBack

/-!
# Columns that are described somewhere

A description in the manifest or in a property file should be enough for a column.  The check of
columns does not ask this column by column: it adds up what the mentions of a model leave
undescribed, and only a mention that leaves nothing undescribed clears what came before it.  So a
column that one mention describes is reported all the same if another one leaves it out and **no
complete mention follows**; `reported_undescribed_iff` says that this is the only way.
-/

namespace ProjectLint

/-! ### Sets of names -/

theorem str_mem_foldl_distinct (s : String) : ∀ l seen : List Scalar,
    .str s ∈ l.foldl (fun seen x => if seen.any (·.same x) then seen else seen ++ [x]) seen ↔
      .str s ∈ seen ∨ .str s ∈ l := by
  intro l
  induction l with
  | nil => intro seen; simp
  | cons x l ih =>
    intro seen
    have hstep : .str s ∈ (if seen.any (·.same x) then seen else seen ++ [x]) ↔ .str s ∈ seen ∨
        .str s = x := by
      by_cases h : seen.any (·.same x) = true
      · rw [if_pos h]
        refine ⟨.inl, fun hs => hs.elim id ?_⟩
        rintro rfl
        obtain ⟨y, hy, hsame⟩ := List.any_eq_true.mp h
        rwa [(Scalar.same_str_iff y s).mp hsame] at hy
      · rw [if_neg h]
        simp
    rw [List.foldl_cons, ih, hstep, List.mem_cons, or_assoc]

theorem str_mem_distinct {s : String} {l : List Scalar} : .str s ∈ distinct l ↔ .str s ∈ l := by
  rw [distinct, str_mem_foldl_distinct]
  simp

theorem foldl_distinct_eq_nil_iff : ∀ l seen : List Scalar,
    l.foldl (fun seen x => if seen.any (·.same x) then seen else seen ++ [x]) seen = [] ↔
      seen = [] ∧ l = [] := by
  intro l
  induction l with
  | nil => intro seen; simp
  | cons x l ih =>
    intro seen
    rw [List.foldl_cons, ih]
    cases seen with
    | nil => simp
    | cons y seen => split <;> simp

theorem distinct_eq_nil_iff {l : List Scalar} : distinct l = [] ↔ l = [] := by
  rw [distinct, foldl_distinct_eq_nil_iff, and_iff_right rfl]

namespace Descriptions

/-! ### What a mention says of a column -/

/-- The mention lists a column, with a description or without one. -/
def Mention.Lists (x : Mention) (column : Scalar) (told : Bool) : Prop :=
  match x with
  | .node _ body =>
    ∃ columns part, body.fieldD "columns" (.map []) = .ok (.map columns) ∧
      (column, part) ∈ columns ∧
      isDescribed part = .ok told
  | .entry _ body => ∃ columns parts part, body.fieldD "columns" (.seq []) = .ok columns ∧
      columns.items = .ok parts ∧ part ∈ parts ∧ part.field "name" = .ok (.scalar column) ∧
        isDescribed part = .ok told

theorem undescribedColumn_eq_some_iff {e : Scalar × Value} {column : Scalar} :
    undescribedColumn e = .ok (some column) ↔ e.1 = column ∧ isDescribed e.2 = .ok false := by
  obtain ⟨key, part⟩ := e
  cases part with
  | map fields =>
    obtain ⟨told, htold⟩ : ∃ told, isDescribed (.map fields) = .ok told := ⟨_, rfl⟩
    rw [undescribedColumn]
    dsimp only
    rw [htold, ok_bind]
    cases told <;> simp [pure, Except.pure]
  | _ =>
    constructor
    · intro h
      cases h
    · rintro ⟨-, h⟩
      cases h

theorem undescribedPart_eq_some_iff {part : Value} {column : Scalar} :
    undescribedPart part = .ok (some column) ↔
      part.field "name" = .ok (.scalar column) ∧ isDescribed part = .ok false := by
  rw [undescribedPart, bind_eq_ok_iff]
  constructor
  · rintro ⟨told, htold, h⟩
    cases told with
    | true => cases h
    | false =>
      obtain ⟨name, hname, h⟩ := bind_eq_ok_iff.mp h
      obtain ⟨key, hkey, h⟩ := bind_eq_ok_iff.mp h
      cases h
      rw [hname, key?_eq_ok hkey]
      exact ⟨rfl, htold⟩
  · rintro ⟨hname, htold⟩
    refine ⟨false, htold, ?_⟩
    rw [hname]
    rfl

variable {names : List Scalar}

theorem mem_undescribedColumns {v : Value} (h : undescribedColumns v = .ok names) :
    ∃ columns, v = .map columns ∧
      ∀ column, column ∈ names ↔ ∃ part, (column, part) ∈ columns ∧
        isDescribed part = .ok false := by
  obtain ⟨columns, hcolumns, h⟩ := bind_eq_ok_iff.mp h
  obtain ⟨found, hfound, h⟩ := bind_eq_ok_iff.mp h
  cases h
  refine ⟨columns, ?_, fun column => ?_⟩
  · cases v with
    | map entries => rw [Except.ok.inj hcolumns]
    | _ => cases hcolumns
  · rw [List.mem_filterMap]
    constructor
    · rintro ⟨x, hx, rfl⟩
      obtain ⟨⟨key, part⟩, he, hsome⟩ := mem_of_mapM hfound _ hx
      obtain ⟨rfl, htold⟩ := undescribedColumn_eq_some_iff.mp hsome
      exact ⟨part, he, htold⟩
    · rintro ⟨part, he, htold⟩
      exact ⟨some column, (mem_mapM_iff hfound).mpr
        ⟨_, he, undescribedColumn_eq_some_iff.mpr ⟨rfl, htold⟩⟩, rfl⟩

theorem exists_undescribed {v : Value} (h : undescribed v = .ok names) :
    ∃ parts all, v.items = .ok parts ∧ names = distinct all ∧ ∀ column, column ∈ all ↔
      ∃ part ∈ parts, part.field "name" = .ok (.scalar column) ∧ isDescribed part = .ok false := by
  obtain ⟨parts, hparts, h⟩ := bind_eq_ok_iff.mp h
  obtain ⟨found, hfound, h⟩ := bind_eq_ok_iff.mp h
  cases h
  refine ⟨parts, found.filterMap id, hparts, rfl, fun column => ?_⟩
  rw [List.mem_filterMap]
  constructor
  · rintro ⟨x, hx, rfl⟩
    obtain ⟨part, hpart, hsome⟩ := mem_of_mapM hfound _ hx
    exact ⟨part, hpart, undescribedPart_eq_some_iff.mp hsome⟩
  · rintro ⟨part, hpart, hsome⟩
    exact ⟨some column, (mem_mapM_iff hfound).mpr ⟨part, hpart,
      undescribedPart_eq_some_iff.mpr hsome⟩, rfl⟩

/-- **What a mention lacks** are the columns that it lists without a description. -/
theorem lacks_spec {x : Mention} (h : PartCheck.columns.gapOf x = .ok names) :
    (∀ s, .str s ∈ names ↔ x.Lists (.str s) false) ∧
    (names = [] ↔ ∀ column, ¬ x.Lists column false) := by
  cases x with
  | node name body =>
    obtain ⟨v, hv, h⟩ := bind_eq_ok_iff.mp h
    obtain ⟨columns, rfl, hmem⟩ := mem_undescribedColumns h
    have hlists : ∀ column, column ∈ names ↔ (Mention.node name body).Lists column false := by
      intro column
      rw [hmem]
      constructor
      · rintro ⟨part, hpart, htold⟩
        exact ⟨columns, part, hv, hpart, htold⟩
      · rintro ⟨columns', part, hv', hpart, htold⟩
        cases hv.symm.trans hv'
        exact ⟨part, hpart, htold⟩
    exact ⟨fun s => hlists _, by simp only [List.eq_nil_iff_forall_not_mem, hlists]⟩
  | entry name body =>
    obtain ⟨v, hv, h⟩ := bind_eq_ok_iff.mp h
    obtain ⟨parts, all, hparts, rfl, hmem⟩ := exists_undescribed h
    have hlists : ∀ column, column ∈ all ↔ (Mention.entry name body).Lists column false := by
      intro column
      rw [hmem]
      constructor
      · rintro ⟨part, hpart, hname, htold⟩
        exact ⟨v, parts, part, hv, hparts, hpart, hname, htold⟩
      · rintro ⟨v', parts', part, hv', hparts', hpart, hname, htold⟩
        cases hv.symm.trans hv'
        cases hparts.symm.trans hparts'
        exact ⟨part, hpart, hname, htold⟩
    refine ⟨fun s => by rw [str_mem_distinct, hlists], ?_⟩
    rw [distinct_eq_nil_iff]
    simp only [List.eq_nil_iff_forall_not_mem, hlists]

/-! ### What is reported -/

theorem concat_eq_append_cons_iff {α : Type} {l before after : List α} {x z : α} :
    l ++ [z] = before ++ x :: after ↔
      (l = before ∧ z = x ∧ after = []) ∨ ∃ rest, after = rest ++ [z] ∧
        l = before ++ x :: rest := by
  constructor
  · intro h
    rcases List.eq_nil_or_concat after with rfl | ⟨rest, last, rfl⟩
    · obtain ⟨rfl, hz⟩ := List.append_inj' h rfl
      exact .inl ⟨rfl, List.singleton_inj.mp hz, rfl⟩
    · rw [List.concat_eq_append, ← List.cons_append, ← List.append_assoc] at h
      obtain ⟨rfl, hz⟩ := List.append_inj' h rfl
      rw [List.concat_eq_append, List.singleton_inj.mp hz]
      exact .inr ⟨rest, rfl, rfl⟩
  · rintro (⟨rfl, rfl, rfl⟩ | ⟨rest, rfl, rfl⟩)
    · rfl
    · simp

theorem mem_flatten_rtakeWhile {α : Type} {f : α → List Scalar} {part : Scalar} : ∀ {l : List α},
    part ∈ ((l.map f).rtakeWhile fun gap => !gap.isEmpty).flatten ↔
      ∃ before x after, l = before ++ x :: after ∧ part ∈ f x ∧ ∀ y ∈ after, f y ≠ [] := by
  intro l
  induction l using List.reverseRecOn with
  | nil => simp
  | append_singleton l z ih =>
    have hsplit : (∃ before x after, l ++ [z] = before ++ x :: after ∧ part ∈ f x ∧
        ∀ y ∈ after, f y ≠ []) ↔
        part ∈ f z ∨ f z ≠ [] ∧ ∃ before x after, l = before ++ x :: after ∧ part ∈ f x ∧
          ∀ y ∈ after, f y ≠ [] := by
      simp only [concat_eq_append_cons_iff]
      constructor
      · rintro ⟨before, x, after, ⟨rfl, rfl, rfl⟩ | ⟨rest, rfl, rfl⟩, hx, hafter⟩
        · exact .inl hx
        · exact .inr ⟨hafter z (by simp), before, x, rest, rfl, hx,
            fun y hy => hafter y (by simp [hy])⟩
      · rintro (hz | ⟨hz, before, x, rest, rfl, hx, hrest⟩)
        · exact ⟨l, z, [], .inl ⟨rfl, rfl, rfl⟩, hz, fun y hy => nomatch hy⟩
        · refine ⟨before, x, rest ++ [z], .inr ⟨rest, rfl, rfl⟩, hx, fun y hy => ?_⟩
          rcases List.mem_append.mp hy with hy | hy
          · exact hrest y hy
          · rwa [List.mem_singleton.mp hy]
    rw [hsplit, List.map_append, List.map_singleton, List.rtakeWhile_concat, ← ih]
    by_cases hz : f z = []
    · simp [hz]
    · simp [hz, or_comm]

/-- **What is reported under a model**: the columns that a mention lists without a description, if
all mentions behind it lack something. -/
theorem mem_get_iff_lists {t : Tree} {manifest : Value} {r : Request} {files : FileMap}
    {mentions : List Mention}
    {gaps : Gaps} (hwalk : PartCheck.columns.Walk t manifest r files mentions gaps)
    (m column : String) :
    .str column ∈ gaps.get (.str m) ↔ ∃ before x after, Mention.of mentions m = before ++
      x :: after ∧ x.Lists (.str column) false ∧ ∀ y ∈ after, ∃ other, y.Lists other false := by
  rw [hwalk.noted, PartCheck.reported, mem_flatten_rtakeWhile]
  refine exists_congr fun before => exists_congr fun x => exists_congr fun after => and_congr_right
    fun heq => ?_
  have hread : ∀ y ∈ x :: after, PartCheck.columns.gapOf y = .ok (PartCheck.columns.lacks y) :=
    fun y hy =>
    hwalk.read y (List.mem_of_mem_filter (heq ▸ List.mem_append_right _ hy))
  refine and_congr ((lacks_spec (hread x List.mem_cons_self)).1 column)
    (forall₂_congr fun y hy => ?_)
  rw [Ne, (lacks_spec (hread y (List.mem_cons_of_mem _ hy))).2]
  simp only [not_forall, not_not]

/-- **When a description in one place is enough.**  Take a run that gives a verdict.  A column is
reported under a model just if a mention of the model lists it without a description and all
mentions behind that one lack something.  And no column is reported that a mention describes, just
if every mention that leaves out such a column is followed by one that is complete. -/
theorem reported_undescribed_iff {t : Tree} {manifest : Value} {r : Request} {status : Status}
    (h : (checkColumns t manifest r).report.outcome = .ok status) : ∃ files mentions gaps,
      PartCheck.columns.Walk t manifest r files mentions gaps ∧
      (∀ m column, .str column ∈ gaps.get (.str m) ↔ ∃ before x after,
        Mention.of mentions m = before ++ x :: after ∧ x.Lists (.str column) false ∧
          ∀ y ∈ after, ∃ other, y.Lists other false) ∧
      ((∀ m column, .str column ∈ gaps.get (.str m) →
          ¬ ∃ x ∈ Mention.of mentions m, x.Lists (.str column) true) ↔
        ∀ m column before x after, Mention.of mentions m = before ++ x :: after →
          x.Lists (.str column) false → (∃ y ∈ Mention.of mentions m, y.Lists (.str column) true) →
            ∃ y ∈ after, ∀ other, ¬ y.Lists other false) := by
  obtain ⟨files, mentions, gaps, hwalk, -, -⟩ := PartCheck.exists_walk (c := .columns) h
  have hreported := mem_get_iff_lists hwalk
  refine ⟨files, mentions, gaps, hwalk, hreported, ?_, ?_⟩
  · intro hsound m column before x after heq hx hy
    by_contra hnone
    refine hsound m column ((hreported m column).mpr ⟨before, x, after, heq, hx, fun y hy => ?_⟩) hy
    by_contra hcomplete
    exact hnone ⟨y, hy, fun other hother => hcomplete ⟨other, hother⟩⟩
  · intro hfollowed m column hmem hy
    obtain ⟨before, x, after, heq, hx, hafter⟩ := (hreported m column).mp hmem
    obtain ⟨y, hy, hcomplete⟩ := hfollowed m column before x after heq hx hy
    obtain ⟨other, hother⟩ := hafter y hy
    exact hcomplete other hother

/-! ### Two columns, each described in one place -/

def halfNode : Mention :=
  .node "m" (.record [("name", .str "m"), ("columns", .record [
    ("c", .record [("name", .str "c"), ("description", .str "")]),
    ("d", .record [("name", .str "d"), ("description", .str "x")])])])

def halfEntry (second : List (String × Value)) : Mention :=
  .entry (.str "m") (.record [("name", .str "m"), ("columns", .seq [
    .record [("name", .str "c"), ("description", .str "x")],
      .record ([("name", .str "d")] ++ second)])])

def documentOf : Mention → Yaml.Document
  | .node _ body => ⟨.record [("models", .seq [body])], []⟩
  | .entry _ body => ⟨.record [("models", .seq [body])], []⟩

theorem readProperties_halfFiles :
    PartCheck.halfFiles.readProperties "half.yml" = .ok (documentOf (halfEntry [])) ∧
      PartCheck.halfFiles.readProperties "whole.yml" =
        .ok (documentOf (halfEntry [("description", .str "y")])) :=
  ⟨Yaml.eq_of_yields (by decide +kernel), Yaml.eq_of_yields (by decide +kernel)⟩

theorem scripts_halves :
    PartCheck.columns.scripts PartCheck.halves { paths := ["m.sql", "half.yml"] } =
        .ok [("m", ⟨.relative, ["m.sql"]⟩)] ∧
      PartCheck.columns.scripts PartCheck.halves { paths := ["m.sql", "whole.yml"] } =
        .ok [("m", ⟨.relative, ["m.sql"]⟩)] :=
  ⟨rfl, rfl⟩

theorem entries_halfFiles :
    PartCheck.columns.entries PartCheck.halfFiles { paths := ["m.sql", "half.yml"] }
      [("m", ⟨.relative, ["m.sql"]⟩)] = .ok [halfEntry []] ∧
      PartCheck.columns.entries PartCheck.halfFiles { paths := ["m.sql", "whole.yml"] }
        [("m", ⟨.relative, ["m.sql"]⟩)] = .ok [halfEntry [("description", .str "y")]] := by
  obtain ⟨hhalf, hwhole⟩ := readProperties_halfFiles
  constructor
  · have hfiles : (propertyFiles ["m.sql", "half.yml"]).files = [⟨.relative, ["half.yml"]⟩] := rfl
    have htext : Path.text ⟨.relative, ["half.yml"]⟩ = "half.yml" := by decide
    dsimp only [PartCheck.entries]
    rw [hfiles, modelEntries, Feed.flatMap, entriesOfFile, htext, hhalf]
    rfl
  · have hfiles : (propertyFiles ["m.sql", "whole.yml"]).files = [⟨.relative, ["whole.yml"]⟩] := rfl
    have htext : Path.text ⟨.relative, ["whole.yml"]⟩ = "whole.yml" := by decide
    dsimp only [PartCheck.entries]
    rw [hfiles, modelEntries, Feed.flatMap, entriesOfFile, htext, hwhole]
    rfl

theorem mentions_eq {file : String} {x : Mention}
    (hscripts : PartCheck.columns.scripts PartCheck.halves { paths := ["m.sql", file] } =
      .ok [("m", ⟨.relative, ["m.sql"]⟩)])
    (hentries : PartCheck.columns.entries PartCheck.halfFiles { paths := ["m.sql", file] }
      [("m", ⟨.relative, ["m.sql"]⟩)] = .ok [x])
    {files : FileMap} {mentions : List Mention} {gaps : Gaps}
    (hwalk : PartCheck.columns.Walk PartCheck.halfFiles PartCheck.halves
      { paths := ["m.sql", file] } files mentions gaps) : mentions = [halfNode, x] := by
  obtain rfl := Except.ok.inj (hscripts.symm.trans hwalk.scripts)
  obtain ⟨ns, es, hns, hes, rfl⟩ := hwalk.order
  have hnodes : PartCheck.columns.nodes PartCheck.halves { paths := ["m.sql", file] }
      [("m", ⟨.relative, ["m.sql"]⟩)] = .ok [halfNode] := rfl
  rw [← Except.ok.inj (hnodes.symm.trans hns), ← Except.ok.inj (hentries.symm.trans hes)]
  rfl

theorem lists_halfNode : halfNode.Lists (.str "c") false :=
  ⟨_, _, rfl, List.mem_cons_self, rfl⟩

theorem lists_halfEntry (second : List (String × Value)) :
    (halfEntry second).Lists (.str "c") true :=
  ⟨_, _, _, rfl, rfl, List.mem_cons_self, rfl, rfl⟩

/-- The entry with both columns described is complete, so that the other mention of the model does
no harm. -/
theorem reported_whole :
    (checkColumns PartCheck.halfFiles PartCheck.halves
      { paths := ["m.sql", "whole.yml"] }).report.outcome = .ok 0 ∧
    ∃ files mentions gaps, PartCheck.columns.Walk PartCheck.halfFiles PartCheck.halves
        { paths := ["m.sql", "whole.yml"] } files mentions gaps ∧
      (∃ x ∈ mentions, x.Lists (.str "c") false) ∧ (∃ x ∈ mentions, x.Lists (.str "c") true) ∧
      ∀ m column, .str column ∈ gaps.get (.str m) →
        ¬ ∃ x ∈ Mention.of mentions m, x.Lists (.str column) true := by
  have houtcome : (checkColumns PartCheck.halfFiles PartCheck.halves
      { paths := ["m.sql", "whole.yml"] }).report.outcome = .ok 0 :=
    eq_ok_of_toOption (by decide +kernel)
  obtain ⟨files, mentions, gaps, hwalk, -, hiff⟩ := reported_undescribed_iff houtcome
  obtain rfl := mentions_eq scripts_halves.2 entries_halfFiles.2 hwalk
  have hcomplete : ∀ other, ¬ (halfEntry [("description", .str "y")]).Lists other false :=
    (lacks_spec rfl).2.mp rfl
  refine ⟨houtcome, files, _, gaps, hwalk, ⟨_, List.mem_cons_self, lists_halfNode⟩,
    ⟨_, List.mem_cons_of_mem _ List.mem_cons_self, lists_halfEntry _⟩, hiff.mpr ?_⟩
  intro m column before x after heq hx _
  have hmem : x ∈ Mention.of [halfNode, halfEntry [("description", .str "y")]] m :=
    heq ▸ List.mem_append_right before List.mem_cons_self
  rcases List.mem_pair.mp (List.mem_of_mem_filter hmem) with rfl | rfl
  · obtain rfl : "m" = m :=
      Scalar.str.inj ((Scalar.same_str_iff _ m).mp (List.mem_filter.mp hmem).2)
    have hboth : Mention.of [halfNode, halfEntry [("description", .str "y")]] "m" =
        [halfNode, halfEntry [("description", .str "y")]] := rfl
    rw [hboth] at heq
    cases before with
    | nil => cases heq; exact ⟨_, List.mem_cons_self, hcomplete⟩
    | cons y before =>
      obtain ⟨-, hrest⟩ := List.cons.inj heq
      have hnode : halfNode ∈ [halfEntry [("description", .str "y")]] :=
        hrest ▸ List.mem_append_right before List.mem_cons_self
      cases List.mem_singleton.mp hnode
  · exact absurd hx (hcomplete _)

/-- **Neither column is described in both places**, and both are reported although each is described
in one. -/
theorem reported_half :
    (checkColumns PartCheck.halfFiles PartCheck.halves
      { paths := ["m.sql", "half.yml"] }).report.outcome = .ok 1 ∧
    ∃ files mentions gaps, PartCheck.columns.Walk PartCheck.halfFiles PartCheck.halves
        { paths := ["m.sql", "half.yml"] } files mentions gaps ∧
      .str "c" ∈ gaps.get (.str "m") ∧ ∃ x ∈ Mention.of mentions "m", x.Lists (.str "c") true := by
  have houtcome : (checkColumns PartCheck.halfFiles PartCheck.halves
      { paths := ["m.sql", "half.yml"] }).report.outcome = .ok 1 :=
    eq_ok_of_toOption (by decide +kernel)
  obtain ⟨files, mentions, gaps, hwalk, -, -⟩ := PartCheck.exists_walk (c := .columns) houtcome
  obtain rfl := mentions_eq scripts_halves.1 entries_halfFiles.1 hwalk
  refine ⟨houtcome, files, _, gaps, hwalk, (mem_get_iff_lists hwalk "m" "c").mpr ?_,
    halfEntry [], List.mem_cons_of_mem _ List.mem_cons_self, lists_halfEntry []⟩
  refine ⟨[], halfNode, [halfEntry []], rfl, lists_halfNode, fun y hy => ?_⟩
  obtain rfl := List.mem_singleton.mp hy
  exact ⟨.str "d", _, _, _, rfl, rfl, List.mem_cons_of_mem _ List.mem_cons_self, rfl, rfl⟩

end Descriptions

end ProjectLint
