import ProjectLint.Checks.Columns
import ProjectLint.Checks.Contracts
import ProjectLint.Checks.Descriptions
import ProjectLint.Checks.Freshness
import ProjectLint.Checks.Keys
import ProjectLint.Checks.Relations
import ProjectLint.Checks.Tests
import ProjectLint.Proofs.Outcomes

/-!
# Batches of property files

The checks of source tables walk through the property files one by one and through the tables of
each file. Feeds under `++` are a monoid in which a broken feed absorbs what comes behind it, and
both walks respect it: `Feed.flatMap_append` for the files, `Feed.bind_append` for the tables.  So
**the findings in two batches of files are the findings in the first, followed by those in the
second** (`SourceCheck.findings_append`), whatever the check makes of a table.
`SourceCheck.report_batches` says what this means for lines, status and faults.
-/

namespace ProjectLint

namespace Feed

/-! ### Feeds one after another -/

variable {α : Type} {a : Feed α}

variable {f : Fault}

theorem append_of_stop (h : a.stop = some f) (b : Feed α) : a ++ b = a := by
  change append a b = a
  rw [append, h]

theorem append_of_none (h : a.stop = none) (b : Feed α) :
    a ++ b = ⟨a.items ++ b.items, b.stop⟩ := by
  change append a b = _
  rw [append, h]

theorem append_assoc (a b c : Feed α) : a ++ b ++ c = a ++ (b ++ c) := by
  cases ha : a.stop with
  | some f => rw [append_of_stop ha, append_of_stop ha, append_of_stop ha]
  | none =>
    rw [append_of_none ha, append_of_none ha]
    cases hb : b.stop with
    | some f => rw [append_of_stop rfl, append_of_stop hb, hb]
    | none => rw [append_of_none rfl, append_of_none hb, List.append_assoc]

theorem flatMap_append {β : Type} (f : α → Feed β) (b : List α) : ∀ a : List α,
    flatMap f (a ++ b) = flatMap f a ++ flatMap f b := by
  intro a
  induction a with
  | nil => rfl
  | cons x a ih => rw [List.cons_append, flatMap, flatMap, ih, append_assoc]

theorem stop_bind_of_stop {β : Type} (h : a.stop = some f) (g : α → Feed β) :
    ∃ f', (a.bind g).stop = some f' := by
  rw [bind, h]
  cases hg : (flatMap g a.items).stop with
  | some f' => exact ⟨f', by rw [append_of_stop hg, hg]⟩
  | none => exact ⟨f, by rw [append_of_none hg]⟩

theorem bind_append {β : Type} (a b : Feed α) (g : α → Feed β) :
    (a ++ b).bind g = a.bind g ++ b.bind g := by
  cases ha : a.stop with
  | some f =>
    obtain ⟨f', hf'⟩ := stop_bind_of_stop ha g
    rw [append_of_stop ha, append_of_stop hf']
  | none =>
    have hend : flatMap g a.items ++ ⟨[], none⟩ = flatMap g a.items := by
      cases hg : (flatMap g a.items).stop with
      | some f => rw [append_of_stop hg]
      | none => rw [append_of_none hg, List.append_nil, ← hg]
    rw [append_of_none ha, bind, bind, bind, flatMap_append, append_assoc, ha, hend]

end Feed

/-! ### The report on findings -/

namespace Findings

theorem report_of_stop {a : Findings} (h : a.stop = some f) : a.report = ⟨a.items, .error f⟩ := by
  rw [report, h]

theorem report_of_none {a : Findings} (h : a.stop = none) :
    a.report = ⟨a.items, .ok (status a.items)⟩ := by
  rw [report, h]

theorem status_append (a b : List String) : status (a ++ b) = max (status a) (status b) := by
  cases a <;> cases b <;> rfl

/-- **The report on findings in two parts**: that on the first, then that on the second; the greater
status counts. -/
theorem report_append (a b : Findings) : Findings.report (a ++ b) =
    a.report.bind fun s => b.report.bind fun s' => .pure (max s s') := by
  cases ha : a.stop with
  | some f => rw [Feed.append_of_stop ha, report_of_stop ha]; rfl
  | none =>
    rw [Feed.append_of_none ha, report_of_none ha]
    cases hb : b.stop with
    | some f => rw [report_of_stop rfl, report_of_stop hb]; rfl
    | none =>
      rw [report_of_none rfl, report_of_none hb, status_append]; simp [Report.bind, Report.pure]

end Findings

theorem Request.sourceTables_append (r : Request) (t : Tree) (p q : List String) :
    ({ r with paths := p ++ q } : Request).sourceTables t =
      ({ r with paths := p } : Request).sourceTables t ++
        ({ r with paths := q } : Request).sourceTables t :=
  Feed.flatMap_append _ q p

/-! ### The checks of source tables -/

/-- The checks of source tables, each with what it is given besides the files. -/
inductive SourceCheck where
  | children (manifest : Value) (bounds : List Relations.Bound)
  | columnDescriptions
  | columns (catalog : Value)
  | freshness (required : List String)
  | labels (keys : List String)
  | loader
  | metaKeys (required : Keys.Required)
  | testCount (manifest : Value) (count : Int)
  | testGroup (manifest : Value) (group : List String) (count : Int)
  /-- By the names or by the kinds of tests. -/
  | requiredTests (manifest : Value) (labelling : Tests.Labelling)
      (required : List Tests.Requirement)
  | descriptions
  | tags (known : List String)

namespace SourceCheck

def findings (c : SourceCheck) (t : Tree) (r : Request) : Findings :=
  match c with
  | .children manifest bounds => Relations.checkTableBounds t manifest bounds r
  | .columnDescriptions => Descriptions.checkTableColumns t r
  | .columns catalog => Columns.checkTables t catalog r
  | .freshness required => Freshness.checkFreshness t required r
  | .labels keys => Keys.checkTableLabels t keys r
  | .loader => Freshness.checkLoader t r
  | .metaKeys required => Keys.checkTableMeta t required r
  | .testCount manifest count => Tests.checkTableCount t manifest count r
  | .testGroup manifest group count => Tests.checkTableGroup t manifest group count r
  | .requiredTests manifest labelling required =>
    Tests.checkTableRequired t manifest labelling required r
  | .descriptions => Descriptions.checkSourceTables t r
  | .tags known => Contracts.checkTableTags t known r

/-- The report on the property files of a batch. -/
def report (c : SourceCheck) (t : Tree) (withDisabled : Bool) (paths : List String) :
    Report Status :=
  (c.findings t { paths := paths, withDisabled := withDisabled }).report

/-- What a check makes of one table, once it has looked at what does not depend on the files. -/
def onTable : SourceCheck → Except Fault (SourceTable → Findings)
  | .children manifest bounds => .ok (Relations.tableBounds manifest bounds)
  | .columnDescriptions => .ok fun s => Findings.of (Descriptions.tableColumns s)
  | .columns catalog =>
    (Columns.catalogSources catalog).map fun sources s =>
      Findings.of (Columns.tableColumns sources s)
  | .freshness required => .ok fun s => Findings.of (Freshness.tableFreshness required s)
  | .labels keys => .ok fun s => Findings.of (Keys.tableLabels keys s)
  | .loader => .ok fun s => Findings.of (Freshness.tableLoader s)
  | .metaKeys required => .ok fun s => Findings.of (Keys.tableMeta required s)
  | .testCount manifest count => .ok fun s => Findings.of (Tests.tableCount manifest count s)
  | .testGroup manifest group count =>
    .ok fun s => Findings.of (Tests.tableGroup manifest group count s)
  | .requiredTests manifest labelling required => .ok fun s =>
    Findings.of (Tests.tableRequired manifest labelling required s)
  | .descriptions => .ok fun s => Findings.of do
    return if ← Descriptions.isDescribed s.tableBody then []
      else [red s.label ++ ": does not have defined description."]
  | .tags known => .ok fun s => Findings.of (Contracts.tableTags known s)

theorem findings_eq (c : SourceCheck) (t : Tree) (r : Request) :
    c.findings t r = .ofExcept (c.onTable.map (r.sourceTables t).bind) := by
  cases c with
  | columns catalog =>
    change Columns.checkTables t catalog r = _
    rw [Columns.checkTables, onTable]
    cases Columns.catalogSources catalog <;> rfl
  | _ => rfl

/-- **The findings in two batches**: those in the first, followed by those in the second. -/
theorem findings_append (c : SourceCheck) (t : Tree) (r : Request) (p q : List String) :
    c.findings t { r with paths := p ++ q } =
      c.findings t { r with paths := p } ++ c.findings t { r with paths := q } := by
  rw [findings_eq, findings_eq, findings_eq]
  cases c.onTable with
  | error f => rfl
  | ok g =>
    exact (congrArg (Feed.bind · g) (r.sourceTables_append t p q)).trans (Feed.bind_append _ _ g)

/-- **Checks are compositional over batches of files.**  If both batches are checked to the end, so
are the two in one, with the lines of the first followed by those of the second, and the greater
status.  A fault in the first batch is the fault of both, after the same lines.  A fault in the
second comes after the lines of the first and its own. -/
theorem report_batches (c : SourceCheck) (t : Tree) (withDisabled : Bool) (p q : List String) :
    (∀ s s', (c.report t withDisabled p).outcome = .ok s →
      (c.report t withDisabled q).outcome = .ok s' →
      c.report t withDisabled (p ++ q) =
        ⟨(c.report t withDisabled p).lines ++ (c.report t withDisabled q).lines, .ok (max s s')⟩) ∧
    (∀ f, (c.report t withDisabled p).outcome = .error f →
      c.report t withDisabled (p ++ q) = ⟨(c.report t withDisabled p).lines, .error f⟩) ∧
    (∀ s f, (c.report t withDisabled p).outcome = .ok s →
      (c.report t withDisabled q).outcome = .error f →
      c.report t withDisabled (p ++ q) =
        ⟨(c.report t withDisabled p).lines ++ (c.report t withDisabled q).lines, .error f⟩) := by
  have happend : c.report t withDisabled (p ++ q) = (c.report t withDisabled p).bind fun s =>
      (c.report t withDisabled q).bind fun s' => .pure (max s s') := by
    rw [report, c.findings_append t { paths := [], withDisabled := withDisabled } p q]
    exact Findings.report_append _ _
  rw [happend]
  generalize c.report t withDisabled p = a
  generalize c.report t withDisabled q = b
  refine ⟨fun s s' ha hb => ?_, fun f ha => ?_, fun s f ha hb => ?_⟩
  · simp [Report.bind, Report.pure, ha, hb]
  · exact Report.bind_error _ ha
  · simp [Report.bind, ha, hb]

def twoTables : Tree := ⟨[
  (["a.yml"], .file "sources:\n- name: s\n  tables:\n  - name: t\n    description: x\n".toUTF8),
  (["b.yml"], .file "sources:\n- name: s\n  tables:\n  - name: u\n".toUTF8)]⟩

/-- The batch that fails comes last or first, and is followed by a file that is not there. -/
theorem report_twoTables :
    (report .descriptions twoTables false ["a.yml"]).outcome = .ok 0 ∧
    (report .descriptions twoTables false ["b.yml"]).outcome = .ok 1 ∧
    (report .descriptions twoTables false ["c.yml"]).outcome = .error (.noSuchFile "c.yml") ∧
    report .descriptions twoTables false ["a.yml", "b.yml"] =
      ⟨[red "s.u" ++ ": does not have defined description."], .ok 1⟩ ∧
    report .descriptions twoTables false ["b.yml", "c.yml"] =
      ⟨[red "s.u" ++ ": does not have defined description."], .error (.noSuchFile "c.yml")⟩ ∧
    report .descriptions twoTables false ["c.yml", "b.yml"] =
      ⟨[], .error (.noSuchFile "c.yml")⟩ := by
  have ha : (report .descriptions twoTables false ["a.yml"]).outcome = .ok 0 :=
    eq_ok_of_toOption (by decide +kernel)
  have hb : (report .descriptions twoTables false ["b.yml"]).outcome = .ok 1 :=
    eq_ok_of_toOption (by decide +kernel)
  have hc : (report .descriptions twoTables false ["c.yml"]).outcome =
      .error (.noSuchFile "c.yml") := rfl
  have halines : (report .descriptions twoTables false ["a.yml"]).lines = [] := by decide +kernel
  have hblines : (report .descriptions twoTables false ["b.yml"]).lines =
      [red "s.u" ++ ": does not have defined description."] := by decide +kernel
  have hclines : (report .descriptions twoTables false ["c.yml"]).lines = [] := by decide +kernel
  refine ⟨ha, hb, hc, ?_, ?_, ?_⟩
  · have h := (report_batches .descriptions twoTables false ["a.yml"] ["b.yml"]).1 0 1 ha hb
    rwa [halines, hblines] at h
  · have h := (report_batches .descriptions twoTables false ["b.yml"] ["c.yml"]).2.2 1 _ hb hc
    rwa [hblines, hclines] at h
  · have h := (report_batches .descriptions twoTables false ["c.yml"] ["b.yml"]).2.1 _ hc
    rwa [hclines] at h

end SourceCheck

end ProjectLint
