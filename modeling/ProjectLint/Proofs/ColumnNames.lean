import ProjectLint.Checks.Naming
import ProjectLint.Proofs.Findings

/-!
# Names and types of columns

A pattern is the mark of certain types: a column should have a type among those given just if its
name matches.  The check asks this in two branches, each with a message of its own.  `columnName_eq`
puts the two together: a column is complained about once if **just one of the two holds**, and not
at all otherwise.  From this `naming_contract` tells the verdict and all that is printed.
-/

namespace ProjectLint.Naming

/-! ### One column -/

/-- The column has one of the types, whatever the case. -/
def ofType (types : List String) (column : Value) : Bool :=
  (column.field "type" >>= Value.str?).toOption.any fun type => types.any fun t =>
    Text.lower t == Text.lower type

/-- The name of the column starts with a match of the pattern, whatever the case. -/
def namedBy (pattern : String) (column : Value) : Bool :=
  (column.field "name" >>= fits pattern true).toOption.getD false

/-- The column is of one of the types, or named by the pattern, but not both. -/
def breaks (pattern : String) (types : List String) (column : Value) : Bool :=
  ofType types column != namedBy pattern column

def shownField (column : Value) (key : String) : String :=
  ((column.field key).toOption.getD .null).text

/-- What is said about a column that breaks the rule. -/
def message (pattern : String) (types : List String) (m : Model) (column : Value) : String :=
  "model " ++ red m.id ++ ", in file " ++ yellow (m.filename ++ ".sql") ++ " \n" ++
    yellow (shownField column "name") ++
    if ofType types column then
      ": column is of type " ++ yellow (shownField column "type") ++
        " and does not match regex pattern " ++ yellow pattern ++ "."
    else ": name matches regex pattern " ++ yellow pattern ++ " and is of type " ++
      yellow (shownField column "type") ++ " instead of " ++ yellow (", ".intercalate types) ++ "."

variable {types : List String}

theorem ofType_of_isOfType {column type : Value} {typed : Bool}
    (htype : column.field "type" = .ok type)
    (h : isOfType types type = .ok typed) : typed = ofType types column := by
  rw [ofType, htype, ok_bind]
  cases types with
  | nil =>
    cases h
    cases type.str?.toOption <;> rfl
  | cons first rest =>
    obtain ⟨text, htext, h⟩ := bind_eq_ok_iff.mp h
    cases h
    rw [htext]
    rfl

/-- **A column is complained about** once if it breaks the rule, and not at all otherwise. -/
theorem columnName_eq {pattern : String} {m : Model} {column : Value} {lines : List String}
    (h : (columnName pattern types m column).toExcept = .ok lines) :
    lines = if breaks pattern types column then [message pattern types m column] else [] := by
  rw [columnName, Findings.toExcept_of] at h
  obtain ⟨name, hname, h⟩ := bind_eq_ok_iff.mp h
  obtain ⟨type, htype, h⟩ := bind_eq_ok_iff.mp h
  obtain ⟨typed, htyped, h⟩ := bind_eq_ok_iff.mp h
  obtain ⟨named, hnamed, h⟩ := bind_eq_ok_iff.mp h
  have hnamed' : named = namedBy pattern column := by
    rw [namedBy, hname, ok_bind, hnamed]
    rfl
  have hshown : ∀ {key : String} {v : Value}, column.field key = .ok v →
      shownField column key = v.text := by
    intro key v hv
    rw [shownField, hv]
    rfl
  rw [breaks, message, ← ofType_of_isOfType htype htyped, ← hnamed', hshown hname, hshown htype]
  obtain rfl := Except.ok.inj h
  cases typed <;> cases named <;> simp [String.append_assoc]

/-! ### All columns -/

/-- The columns of a model in the order of the catalog. -/
def columnsIn (m : Model) : List Value := (columnsOf m).toOption.getD []

/-- **The complaints about a model**: one message for each column that breaks the rule, in their
order. -/
theorem lines_of_columns {pattern : String} {m : Model} {lines : List String}
    (h : (Feed.ofExcept do
      return Feed.flatMap (columnName pattern types m) (← columnsOf m)).toExcept = .ok lines) :
    columnsOf m = .ok (columnsIn m) ∧
      lines = ((columnsIn m).filter (breaks pattern types)).map (message pattern types m) := by
  rw [Feed.toExcept_ofExcept] at h
  obtain ⟨feed, hfeed, h⟩ := bind_eq_ok_iff.mp h
  obtain ⟨columns, hcolumns, hfeed⟩ := bind_eq_ok_iff.mp hfeed
  cases hfeed
  rw [Feed.toExcept_flatMap] at h
  obtain ⟨found, hfound, rfl⟩ := map_eq_ok_iff.mp h
  have hin : columnsIn m = columns := by
    rw [columnsIn, hcolumns]
    rfl
  have hall : found = columns.map fun c => if breaks pattern types c then
      [message pattern types m c] else [] := by
    refine Except.ok.inj (hfound.symm.trans (mapM_eq_ok_map fun c hc => ?_))
    obtain ⟨part, -, hpart⟩ := ok_of_mapM hfound c hc
    rw [hpart, columnName_eq hpart]
  rw [hin, hall, ← List.flatMap_def, ← List.filterMap_eq_map, List.filterMap_filter,
    List.filterMap_eq_flatMap_toList]
  refine ⟨hcolumns, List.flatMap_congr fun c _ => ?_⟩
  cases breaks pattern types c <;> rfl

/-- **Just the columns of the given types are named by the pattern.**  A check that comes to an end
has selected models of the catalog.  It fails just if a column of one of them is of one of the types
or named by the pattern, but not both. It prints one message for each such column, in the order of
the catalog. -/
theorem naming_contract {t : Tree} {manifest catalog : Value} {pattern : String}
    {types : List String} {r : Request} {s : Status}
    (h : (checkColumns t manifest catalog pattern types r).report.outcome = .ok s) :
    ∃ paths ms, r.withScripts t manifest = .ok paths ∧
      (models catalog (scriptFiles paths).stems r.scope).toExcept = .ok ms ∧
      (∀ m ∈ ms, columnsOf m = .ok (columnsIn m)) ∧ (s = 0 ∨ s = 1) ∧
      (s = 1 ↔ ∃ m ∈ ms, ∃ column ∈ columnsIn m, ofType types column ≠ namedBy pattern column) ∧
      (checkColumns t manifest catalog pattern types r).report.lines = ms.flatMap fun m =>
        ((columnsIn m).filter (breaks pattern types)).map (message pattern types m) := by
  obtain ⟨hlines, hstatus⟩ := Findings.verdict h
  obtain ⟨ms, hms, hlines⟩ := Feed.toExcept_bind_eq_ok hlines
  rw [catalogModels, Feed.toExcept_ofExcept] at hms
  obtain ⟨feed, hfeed, hms⟩ := bind_eq_ok_iff.mp hms
  obtain ⟨paths, hpaths, hfeed⟩ := bind_eq_ok_iff.mp hfeed
  cases hfeed
  rw [Feed.toExcept_flatMap] at hlines
  obtain ⟨found, hfound, hflat⟩ := map_eq_ok_iff.mp hlines
  have hall : found = ms.map fun m =>
      ((columnsIn m).filter (breaks pattern types)).map (message pattern types m) := by
    refine Except.ok.inj (hfound.symm.trans (mapM_eq_ok_map fun m hm => ?_))
    obtain ⟨part, -, hpart⟩ := ok_of_mapM hfound m hm
    rw [hpart, (lines_of_columns hpart).2]
  rw [hall, ← List.flatMap_def] at hflat
  refine ⟨paths, ms, hpaths, hms, fun m hm => ?_, ?_, ?_, hflat.symm⟩
  · obtain ⟨part, -, hpart⟩ := ok_of_mapM hfound m hm
    exact (lines_of_columns hpart).1
  · rw [hstatus]
    exact Findings.status_eq_zero_or_one _
  · rw [hstatus, Findings.status_eq_one_iff, ← hflat, Ne, List.flatMap_eq_nil_iff]
    simp [breaks]

/-! ### A column of each kind -/

def fourColumns : Value :=
  .record [("nodes", .record [("model.p.m", .record [("columns", .record [
    ("a", .record [("name", .str "IS_PAID"), ("type", .str "boolean")]),
    ("b", .record [("name", .str "paid"), ("type", .str "Boolean")]),
    ("c", .record [("name", .str "is_open"), ("type", .str "TEXT")]),
    ("d", .record [("name", .str "open"), ("type", .str "TEXT")])])])])]

/-- Two of the four columns break the rule. -/
theorem naming_contract_fourColumns :
    (checkColumns ⟨[]⟩ (.record []) fourColumns "is_" ["BOOLEAN"]
      { paths := ["m.sql"] }).report.outcome = .ok 1 ∧
    ∃ paths ms, Request.withScripts { paths := ["m.sql"] } ⟨[]⟩ (.record []) = .ok paths ∧
      (models fourColumns (scriptFiles paths).stems ⟨false, false⟩).toExcept = .ok ms ∧
      (∃ m ∈ ms, ∃ column ∈ columnsIn m, ofType ["BOOLEAN"] column ≠ namedBy "is_" column) ∧
      (checkColumns ⟨[]⟩ (.record []) fourColumns "is_" ["BOOLEAN"]
        { paths := ["m.sql"] }).report.lines = ms.flatMap fun m =>
          ((columnsIn m).filter (breaks "is_" ["BOOLEAN"])).map (message "is_" ["BOOLEAN"] m) := by
  have houtcome : (checkColumns ⟨[]⟩ (.record []) fourColumns "is_" ["BOOLEAN"]
      { paths := ["m.sql"] }).report.outcome = .ok 1 := eq_ok_of_toOption (by decide +kernel)
  obtain ⟨paths, ms, hpaths, hms, -, -, hfails, hlines⟩ := naming_contract houtcome
  exact ⟨houtcome, paths, ms, hpaths, hms, hfails.mp rfl, hlines⟩

end ProjectLint.Naming
