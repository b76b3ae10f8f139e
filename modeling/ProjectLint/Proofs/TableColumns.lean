import ProjectLint.Proofs.DescribedColumns
import ProjectLint.Proofs.Unify

/-!
# Columns of source tables

The tables of a source are taken away from it when they are listed, so a source that stands in a
file a second time, under an alias, lists none.  It is one and the same source, hence **no table is
lost by this** (`exists_listed_iff`): what is checked are the tables of all sources that count.

For every table the names of the columns without a description are collected, and the table is
complained about if they are all filled in.  So a column that has neither name nor description
silences what is to be said about the others, and `column_gaps_verdict_iff` says that this is the
only way in which a verdict can be wrong.
-/

namespace ProjectLint

open Yaml (Document Place valueAt?)

/-! ### The tables that property files list -/

def InScope (withDisabled : Bool) (source : Value) : Prop :=
  withDisabled = true ∨ isEnabled source = .ok true

def ListsTable (withDisabled : Bool) (root table : Value) : Prop :=
  ∃ sources, sectionItems root "sources" = .ok sources ∧
    ∃ source ∈ sources, InScope withDisabled source ∧
    ∃ tables, sectionItems source "tables" = .ok tables ∧ table ∈ tables

/-- **One of the property files lists the table.** -/
def Request.Lists (r : Request) (t : Tree) (table : Value) : Prop :=
  ∃ path ∈ r.paths, ∃ d, t.readProperties (Path.ofString path).text = .ok d ∧
    ListsTable r.withDisabled d.root table

variable {source : Value} {withDisabled : Bool} {file : Path} {xs : List SourceTable} {i : Nat}
    {fields : Entries}

theorem tablesOf_of_inScope (h : InScope withDisabled source) (file : Path) (seen : Bool) :
    tablesOf file withDisabled seen source = .ofExcept do
      let name ← source.field "name"
      let fields ← source.entries
      let tables := if seen then .seq [] else (Entries.get? fields "tables").getD (.seq [])
      return .filterMapE (tableOf file name (.map (Entries.erase fields "tables")))
        (← tables.items) := by
  cases withDisabled with
  | true => rfl
  | false =>
    have henabled : isEnabled source = .ok true := h.resolve_left (by decide)
    rw [tablesOf, henabled]
    rfl

theorem tablesOf_of_not_inScope {seen : Bool} (h : ¬ InScope withDisabled source)
    (hxs : (tablesOf file withDisabled seen source).toExcept = .ok xs) :
    xs = [] ∧ isEnabled source = .ok false := by
  cases withDisabled with
  | true => exact absurd (.inl rfl) h
  | false =>
    cases henabled : isEnabled source with
    | error f =>
      rw [tablesOf, henabled] at hxs
      cases hxs
    | ok enabled =>
      cases enabled with
      | true => exact absurd (.inr henabled) h
      | false =>
        rw [tablesOf, henabled] at hxs
        cases hxs
        exact ⟨rfl, rfl⟩

theorem bodies_of_tableOf {name body : Value} : ∀ {items : List Value}
    {found : List (Option SourceTable)}, items.mapM (tableOf file name body) = .ok found →
      found.reduceOption.map (·.tableBody) = items := by
  intro items
  induction items with
  | nil => intro found h; cases h; rfl
  | cons item items ih =>
    intro found h
    obtain ⟨x, rest, hx, hrest, rfl⟩ := mapM_cons_eq_ok_iff.mp h
    obtain ⟨table, -, hx⟩ := bind_eq_ok_iff.mp hx
    cases hx
    rw [List.reduceOption_cons_of_some, List.map_cons, ih hrest]

theorem exists_map_of_isEnabled {enabled : Bool} (h : isEnabled source = .ok enabled) :
    ∃ fields, source = .map fields := by
  obtain ⟨config, hconfig, -⟩ := bind_eq_ok_iff.mp h
  exact isMapping_of_fieldD hconfig

/-- **What is listed for one source**: its tables, unless it does not count or was seen before. -/
theorem tablesOf_spec {seen : Bool}
    (h : (tablesOf file withDisabled seen source).toExcept = .ok xs) :
    (∃ fields, source = .map fields) ∧
      (InScope withDisabled source → seen = false →
        sectionItems source "tables" = .ok (xs.map (·.tableBody))) ∧
      (InScope withDisabled source ∧ seen = false ∨ xs = []) := by
  by_cases hscope : InScope withDisabled source
  · rw [tablesOf_of_inScope hscope, Feed.toExcept_ofExcept] at h
    obtain ⟨feed, hfeed, hxs⟩ := bind_eq_ok_iff.mp h
    obtain ⟨name, -, hfeed⟩ := bind_eq_ok_iff.mp hfeed
    obtain ⟨fields, hfields, hfeed⟩ := bind_eq_ok_iff.mp hfeed
    obtain ⟨items, hitems, hfeed⟩ := bind_eq_ok_iff.mp hfeed
    cases hfeed
    obtain rfl := eq_map_of_entries hfields
    rw [Feed.toExcept_filterMapE] at hxs
    obtain ⟨found, hfound, rfl⟩ := map_eq_ok_iff.mp hxs
    refine ⟨⟨fields, rfl⟩, fun _ hseen => ?_, ?_⟩
    · rw [hseen, if_neg (by decide)] at hitems
      rw [bodies_of_tableOf hfound]
      exact hitems
    · cases seen with
      | false => exact .inl ⟨hscope, rfl⟩
      | true =>
        rw [if_pos rfl] at hitems
        cases hitems
        cases hfound
        exact .inr rfl
  · obtain ⟨rfl, hdisabled⟩ := tablesOf_of_not_inScope hscope h
    exact ⟨exists_map_of_isEnabled hdisabled, fun h => absurd h hscope, .inr rfl⟩

/-! ### Sources under an alias -/

theorem parts_of_items {v : Value} {items : List Value} (h : v.items = .ok items)
    (hi : items[i]? = some (.map fields)) :
    (Wording.parts v)[i]? = some (.map fields) := by
  have hscalar : ∀ {α : Type} {f : α → Scalar} {l : List α},
      (l.map fun x => Value.scalar (f x))[i]? ≠ some (.map fields) := by
    intro α f l h
    rw [List.getElem?_map, Option.map_eq_some_iff] at h
    obtain ⟨x, -, hx⟩ := h
    cases hx
  cases v with
  | seq xs => cases h; exact hi
  | pair a b => cases h; exact hi
  | map entries => cases h; exact absurd hi hscalar
  | set members => cases h; exact absurd hi hscalar
  | enclosing shape => cases h
  | scalar s =>
    cases s with
    | str s => cases h; exact absurd hi hscalar
    | bytes b => cases h; exact absurd hi hscalar
    | _ => cases h

/-- A mapping in a section is a part of the document. -/
theorem valueAt?_section {root : Value} {part : String} {items : List Value}
    (h : sectionItems root part = .ok items) (hi : items[i]? = some (.map fields)) :
    valueAt? root ((Document.fieldIndex? root part).toList ++ [i]) = some (.map fields) := by
  obtain ⟨v, hv, hitems⟩ := bind_eq_ok_iff.mp h
  obtain ⟨v?, hv?, rfl⟩ := map_eq_ok_iff.mp hv
  cases root with
  | map entries =>
    have hget : Entries.get? entries part = v? := Except.ok.inj hv?
    cases v? with
    | none =>
      cases hitems
      cases hi
    | some w =>
      obtain ⟨e, he, rfl⟩ := Option.map_eq_some_iff.mp hget
      cases hindex : Document.fieldIndex? (.map entries) part with
      | none =>
        rw [Document.fieldIndex?, List.findIdx?_eq_none_iff] at hindex
        have hkey := List.find?_some he
        rw [hindex e (List.mem_of_find?_eq_some he)] at hkey
        cases hkey
      | some n =>
        have hentry : entries[n]? = some e := by
          rw [← he, List.find?_eq_bind_findIdx?_getElem?]
          rw [Document.fieldIndex?] at hindex
          rw [hindex]
          rfl
        rw [Option.toList_some, List.singleton_append, Yaml.valueAt?_map hentry]
        exact Wording.valueAt?_parts (parts_of_items hitems hi)
  | _ => cases hv?

theorem mem_zip_range_iff {α : Type} {l : List α} {a : α} : (i, a) ∈ (List.range l.length).zip l ↔
    l[i]? = some a := by
  rw [List.mem_iff_getElem?]
  simp only [List.getElem?_zip_eq_some]
  constructor
  · rintro ⟨k, hk, ha⟩
    obtain ⟨-, rfl⟩ := List.getElem?_eq_some_iff.mp hk
    rw [List.getElem_range]
    exact ha
  · intro ha
    have hi : i < l.length := (List.getElem?_eq_some_iff.mp ha).1
    exact ⟨i, by rw [List.getElem?_range hi], ha⟩

/-- **A source that was seen before** is one that stands earlier in its section. -/
theorem exists_earlier {d : Document} (hd : d.Coherent) {sources : List Value}
    (hsources : sectionItems d.root "sources" = .ok sources)
    (hmaps : ∀ s ∈ sources, ∃ fields, s = .map fields) (hi : sources[i]? = some source)
    (hseen : seenBefore d ((Document.fieldIndex? d.root "sources").toList ++ [i]) (List.range i)
      (Document.fieldIndex? d.root "sources").toList = true) : ∃ n < i,
        sources[n]? = some source := by
  unfold seenBefore at hseen
  split at hseen
  · cases hseen
  · rename_i id hid
    obtain ⟨n, hn, hshare⟩ := List.any_eq_true.mp hseen
    have hlt : n < i := List.mem_range.mp hn
    obtain ⟨other, hother⟩ : ∃ other, sources[n]? = some other :=
      ⟨_, List.getElem?_eq_getElem (hlt.trans (List.getElem?_eq_some_iff.mp hi).1)⟩
    obtain ⟨fields, rfl⟩ := hmaps source (List.mem_of_getElem? hi)
    obtain ⟨fields', rfl⟩ := hmaps other (List.mem_of_getElem? hother)
    rcases hd.same _ (Document.mem_shares_of_shareAt? hid) _
        (Document.mem_shares_of_shareAt? (eq_of_beq hshare)) rfl
      _ _ (valueAt?_section hsources hi) (valueAt?_section hsources hother) with heq | h | h
    · exact ⟨n, hlt, heq ▸ hother⟩
    · cases h
    · cases h

/-- **What a document lists**: the tables of all sources that count. -/
theorem exists_listed_iff {d : Document} (hd : d.Coherent)
    (h : (tablesOfDocument file withDisabled d).toExcept = .ok xs) {table : Value} :
    (∃ x ∈ xs, x.tableBody = table) ↔ ListsTable withDisabled d.root table := by
  rw [tablesOfDocument, Feed.toExcept_ofExcept] at h
  obtain ⟨feed, hfeed, h⟩ := bind_eq_ok_iff.mp h
  obtain ⟨sources, hsources, hfeed⟩ := bind_eq_ok_iff.mp hfeed
  cases hfeed
  rw [Feed.toExcept_flatMap] at h
  obtain ⟨found, hfound, rfl⟩ := map_eq_ok_iff.mp h
  have hmaps : ∀ s ∈ sources, ∃ fields, s = .map fields := by
    intro s hs
    obtain ⟨i, hi⟩ := List.mem_iff_getElem?.mp hs
    obtain ⟨l, -, hl⟩ := ok_of_mapM hfound (i, s) (mem_zip_range_iff.mpr hi)
    exact (tablesOf_spec hl).1
  constructor
  · rintro ⟨x, hx, rfl⟩
    obtain ⟨l, hl, hx⟩ := List.mem_flatten.mp hx
    obtain ⟨⟨i, source⟩, hmem, hlist⟩ := mem_of_mapM hfound l hl
    obtain ⟨-, htables, hcounts⟩ := tablesOf_spec hlist
    rcases hcounts with ⟨hscope, hseen⟩ | rfl
    · exact ⟨sources, hsources, source, List.mem_of_getElem? (mem_zip_range_iff.mp hmem), hscope, _,
        htables hscope hseen, List.mem_map_of_mem hx⟩
    · cases hx
  · rintro ⟨sources', hsources', source, hsource, hscope, tables, htables, htable⟩
    obtain rfl := Except.ok.inj (hsources.symm.trans hsources')
    obtain ⟨i, hi⟩ := List.mem_iff_getElem?.mp hsource
    -- by induction on where the source stands: one that was seen before stands further up
    induction i using Nat.strong_induction_on with
    | _ i ih =>
      obtain ⟨l, hl, hlist⟩ := ok_of_mapM hfound (i, source) (mem_zip_range_iff.mpr hi)
      by_cases hseen : seenBefore d ((Document.fieldIndex? d.root "sources").toList ++ [i])
        (List.range i)
          (Document.fieldIndex? d.root "sources").toList = true
      · obtain ⟨n, hn, hsame⟩ := exists_earlier hd hsources hmaps hi hseen
        exact ih n hn hsame
      · have hbodies := (tablesOf_spec hlist).2.1 hscope (by simpa using hseen)
        rw [Except.ok.inj (htables.symm.trans hbodies)] at htable
        obtain ⟨x, hx, heq⟩ := List.mem_map.mp htable
        exact ⟨x, List.mem_flatten.mpr ⟨l, hl, hx⟩, heq⟩

/-- **What a request looks at**: the tables that its files list. -/
theorem Request.exists_sourceTable_iff {r : Request} {t : Tree}
    (h : (r.sourceTables t).toExcept = .ok xs)
    {table : Value} : (∃ x ∈ xs, x.tableBody = table) ↔ r.Lists t table := by
  rw [sourceTables, ProjectLint.sourceTables, Feed.toExcept_flatMap] at h
  obtain ⟨found, hfound, rfl⟩ := map_eq_ok_iff.mp h
  have hfile : ∀ {path : String} {l : List SourceTable},
      (tablesOfFile t r.withDisabled (Path.ofString path)).toExcept = .ok l →
        ∃ d, t.readProperties (Path.ofString path).text = .ok d ∧
          ((∃ x ∈ l, x.tableBody = table) ↔ ListsTable r.withDisabled d.root table) := by
    intro path l hl
    rw [tablesOfFile, Feed.toExcept_ofExcept] at hl
    obtain ⟨feed, hfeed, hl⟩ := bind_eq_ok_iff.mp hl
    obtain ⟨d, hread, hfeed⟩ := bind_eq_ok_iff.mp hfeed
    cases hfeed
    exact ⟨d, hread, exists_listed_iff (Wording.coherent_of_readProperties hread) hl⟩
  constructor
  · rintro ⟨x, hx, hbody⟩
    obtain ⟨l, hl, hx⟩ := List.mem_flatten.mp hx
    obtain ⟨path, hpath, hlist⟩ := mem_of_mapM hfound l hl
    obtain ⟨d, hread, hiff⟩ := hfile hlist
    exact ⟨path, hpath, d, hread, hiff.mp ⟨x, hx, hbody⟩⟩
  · rintro ⟨path, hpath, d, hread, hlists⟩
    obtain ⟨l, hl, hlist⟩ := ok_of_mapM hfound path hpath
    obtain ⟨d', hread', hiff⟩ := hfile hlist
    obtain rfl := Except.ok.inj (hread.symm.trans hread')
    obtain ⟨x, hx, hbody⟩ := hiff.mpr hlists
    exact ⟨x, List.mem_flatten.mpr ⟨l, hl, hx⟩, hbody⟩

/-! ### Columns of one table -/

/-- A set keeps what was seen, has nothing but what was seen or given, and an equal one in the place
of each member. -/
theorem foldl_distinct_spec : ∀ l seen : List Scalar,
    let members := l.foldl (fun seen x => if seen.any (·.same x) then seen else seen ++ [x]) seen
    (∀ c ∈ seen, c ∈ members) ∧ (∀ c ∈ members, c ∈ seen ∨ c ∈ l) ∧
      ∀ c ∈ l, c ∈ members ∨ ∃ y ∈ members, y.same c = true := by
  intro l
  induction l with
  | nil => exact fun seen => ⟨fun c hc => hc, fun c hc => .inl hc, by simp⟩
  | cons x l ih =>
    intro seen
    rw [List.foldl_cons]
    by_cases hx : seen.any (·.same x) = true
    · rw [if_pos hx]
      obtain ⟨hkept, honly, hall⟩ := ih seen
      refine ⟨hkept, fun c hc => (honly c hc).imp_right (List.mem_cons_of_mem x), fun c hc => ?_⟩
      rcases List.mem_cons.mp hc with rfl | hc
      · obtain ⟨y, hy, hsame⟩ := List.any_eq_true.mp hx
        exact .inr ⟨y, hkept y hy, hsame⟩
      · exact hall c hc
    · rw [if_neg hx]
      obtain ⟨hkept, honly, hall⟩ := ih (seen ++ [x])
      refine ⟨fun c hc => hkept c (List.mem_append_left _ hc), fun c hc => ?_, fun c hc => ?_⟩
      · rw [List.mem_cons, ← or_assoc, ← List.mem_singleton (a := c) (b := x), ← List.mem_append]
        exact honly c hc
      · rcases List.mem_cons.mp hc with rfl | hc
        · exact .inl (hkept c (by simp))
        · exact hall c hc

theorem mem_of_mem_distinct {c : Scalar} {l : List Scalar} (h : c ∈ distinct l) : c ∈ l :=
  ((foldl_distinct_spec l []).2.1 c h).resolve_left (by simp)

theorem mem_distinct_of_texts {c : Scalar} {l : List Scalar} {texts : List String}
    (htexts : distinct l = texts.map .str) (h : c ∈ l) : c ∈ distinct l := by
  rcases (foldl_distinct_spec l []).2.2 c h with h | ⟨y, hy, hsame⟩
  · exact h
  · change y ∈ distinct l at hy
    obtain ⟨s, -, rfl⟩ := List.mem_map.mp (htexts ▸ hy)
    rwa [← (Scalar.str_same_iff _ _).mp hsame] at hy

namespace Descriptions

/-- The table has a column without a description, and the name of this column is filled in or
not. -/
def LacksDescription (table : Value) (named : Bool) : Prop :=
  ∃ columns, sectionItems table "columns" = .ok columns ∧ ∃ column ∈ columns, ∃ name,
    column.field "name" = .ok name ∧ name.truthy = named ∧ isDescribed column = .ok false

theorem lacksDescription_iff {table v : Value} {names : List Scalar}
    (hv : table.fieldD "columns" (.seq []) = .ok v) (h : undescribed v = .ok names) :
    ∃ all, names = distinct all ∧
      ∀ named, LacksDescription table named ↔ ∃ c ∈ all, (Value.scalar c).truthy = named := by
  obtain ⟨parts, all, hparts, rfl, hall⟩ := exists_undescribed h
  have hcolumns : sectionItems table "columns" = .ok parts := by
    rw [sectionItems, hv, ok_bind, hparts]
  refine ⟨all, rfl, fun named => ⟨?_, ?_⟩⟩
  · rintro ⟨columns, hcolumns', column, hcolumn, name, hname, hnamed, hlacks⟩
    obtain rfl := Except.ok.inj (hcolumns.symm.trans hcolumns')
    -- the name of a column without a description is a scalar, since it was put into a set
    obtain ⟨parts', hparts', h⟩ := bind_eq_ok_iff.mp h
    obtain ⟨found, hfound, -⟩ := bind_eq_ok_iff.mp h
    obtain rfl := Except.ok.inj (hparts.symm.trans hparts')
    obtain ⟨o, -, ho⟩ := ok_of_mapM hfound column hcolumn
    rw [undescribedPart, hlacks, ok_bind, if_neg (by decide), hname, ok_bind] at ho
    obtain ⟨c, hc, -⟩ := bind_eq_ok_iff.mp ho
    obtain rfl := key?_eq_ok hc
    exact ⟨c, (hall c).mpr ⟨column, hcolumn, hname, hlacks⟩, hnamed⟩
  · rintro ⟨c, hc, hnamed⟩
    obtain ⟨column, hcolumn, hname, hlacks⟩ := (hall c).mp hc
    exact ⟨parts, hcolumns, column, hcolumn, _, hname, hnamed, hlacks⟩

/-- **When a table is complained about**: a column with a name lacks a description, and none without
a name does. -/
theorem tableColumns_ne_nil_iff {x : SourceTable} {lines : List String}
    (h : tableColumns x = .ok lines) :
    lines ≠ [] ↔ LacksDescription x.tableBody true ∧ ¬ LacksDescription x.tableBody false := by
  obtain ⟨v, hv, h⟩ := bind_eq_ok_iff.mp h
  obtain ⟨missing, hmissing, h⟩ := bind_eq_ok_iff.mp h
  obtain ⟨all, rfl, hlacks⟩ := lacksDescription_iff hv hmissing
  rw [hlacks, hlacks]
  by_cases hguard :
    ((distinct all).isEmpty || !(distinct all).all fun c => (Value.scalar c).truthy) = true
  · rw [if_pos hguard] at h
    cases h
    refine iff_of_false (fun h => h rfl) ?_
    rintro ⟨⟨c, hc, -⟩, hfilled⟩
    rcases (Bool.or_eq_true _ _).mp hguard with hempty | hsome
    · rw [distinct_eq_nil_iff.mp (List.isEmpty_iff.mp hempty)] at hc
      cases hc
    · rw [Bool.not_eq_true', List.all_eq_false] at hsome
      obtain ⟨c, hc, hfalse⟩ := hsome
      exact hfilled ⟨c, mem_of_mem_distinct hc, by simpa using hfalse⟩
  · rw [if_neg hguard] at h
    obtain ⟨list, hlist, h⟩ := bind_eq_ok_iff.mp h
    cases h
    obtain ⟨htexts, -⟩ := eq_of_bullets hlist
    rw [Bool.or_eq_true, not_or, Bool.not_eq_true', Bool.not_eq_false] at hguard
    have hfilled : ∀ c ∈ all, (Value.scalar c).truthy = true := fun c hc =>
      List.all_eq_true.mp hguard.2 c (mem_distinct_of_texts htexts hc)
    obtain ⟨c, hc⟩ := List.exists_mem_of_ne_nil all fun hnil =>
      hguard.1 (by rw [distinct_eq_nil_iff.mpr hnil]; rfl)
    refine iff_of_true (List.cons_ne_nil _ _) ⟨⟨c, hc, hfilled c hc⟩, ?_⟩
    rintro ⟨c, hc, hfalse⟩
    rw [hfilled c hc] at hfalse
    cases hfalse

/-- **What a verdict on the columns of source tables is worth.**  The status is one if in some table
a column with a name lacks a description and all columns that lack one have a name.  It is right
about the columns with a name unless there are such columns without a description and each of their
tables has a column with neither name nor description. -/
theorem column_gaps_verdict_iff {t : Tree} {r : Request} {s : Status}
    (h : (checkTableColumns t r).report.outcome = .ok s) :
    (s = 0 ∨ s = 1) ∧
      (s = 1 ↔ ∃ table, r.Lists t table ∧ LacksDescription table true ∧
        ¬ LacksDescription table false) ∧
      ((s = 1 ↔ ∃ table, r.Lists t table ∧ LacksDescription table true) ↔
        ((∃ table, r.Lists t table ∧ LacksDescription table true) →
          ∃ table, r.Lists t table ∧ LacksDescription table true ∧
            ¬ LacksDescription table false)) := by
  obtain ⟨hlines, hs⟩ := Findings.verdict h
  obtain ⟨xs, hxs, hlines⟩ := Feed.toExcept_bind_eq_ok hlines
  have hone : s = 1 ↔ ∃ table, r.Lists t table ∧ LacksDescription table true ∧
      ¬ LacksDescription table false := by
    rw [hs, Findings.status_eq_one_iff, Findings.ne_nil_iff_of_flatMap hlines
      fun x _ found hfound =>
      tableColumns_ne_nil_iff ((Findings.toExcept_of _).symm.trans hfound)]
    simp only [← Request.exists_sourceTable_iff hxs]
    constructor
    · rintro ⟨x, hx, hgap⟩
      exact ⟨x.tableBody, ⟨x, hx, rfl⟩, hgap⟩
    · rintro ⟨table, ⟨x, hx, rfl⟩, hgap⟩
      exact ⟨x, hx, hgap⟩
  refine ⟨hs ▸ Findings.status_eq_zero_or_one _, hone, ?_⟩
  rw [hone]
  refine ⟨fun hright => hright.mpr, fun hcond => ⟨?_, hcond⟩⟩
  rintro ⟨table, hlists, hnamed, -⟩
  exact ⟨table, hlists, hnamed⟩

/-! ### A column without a name -/

/-- Two files that list a table with a column that lacks a description: alone, and beside one that
lacks a name as well. -/
def columnFiles : Tree := ⟨[
  (["named.yml"],
    .file "sources:\n- name: s\n  tables:\n  - name: t\n    columns:\n    - name: c\n".toUTF8),
  (["nameless.yml"],
    .file ("sources:\n- name: s\n  tables:\n  - name: t\n" ++
      "    columns:\n    - name: c\n    - tags: d\n").toUTF8)]⟩

def tableWith (columns : List Value) : Value :=
  .record [("name", .str "t"), ("columns", .seq (.record [("name", .str "c")] :: columns))]

def documentWith (table : Value) : Document :=
  ⟨.record [("sources", .seq [.record [("name", .str "s"), ("tables", .seq [table])]])], []⟩

theorem readProperties_columnFiles :
    columnFiles.readProperties (Path.ofString "named.yml").text =
      .ok (documentWith (tableWith [])) ∧
    columnFiles.readProperties (Path.ofString "nameless.yml").text =
      .ok (documentWith (tableWith [.record [("tags", .str "d")]])) :=
  ⟨Yaml.eq_of_yields (by decide +kernel), Yaml.eq_of_yields (by decide +kernel)⟩

/-- The table that has all columns named is complained about, the other one is not. -/
theorem column_gaps_verdict_named :
    (checkTableColumns columnFiles { paths := ["nameless.yml", "named.yml"] }).report.outcome =
      .ok 1 ∧ ∃ table, Request.Lists { paths := ["nameless.yml", "named.yml"] } columnFiles table ∧
        LacksDescription table true ∧ ¬ LacksDescription table false := by
  have houtcome : (checkTableColumns columnFiles
      { paths := ["nameless.yml", "named.yml"] }).report.outcome = .ok 1 := by
    rw [checkTableColumns, Request.sourceTables, sourceTables, Feed.flatMap, Feed.flatMap,
      tablesOfFile, tablesOfFile, readProperties_columnFiles.1, readProperties_columnFiles.2]
    rfl
  exact ⟨houtcome, (column_gaps_verdict_iff houtcome).2.1.mp rfl⟩

/-- **A column that lacks name and description** silences the table: the named one beside it is not
found. -/
theorem column_gaps_verdict_nameless :
    (checkTableColumns columnFiles { paths := ["nameless.yml"] }).report.outcome = .ok 0 ∧
      ∃ table, Request.Lists { paths := ["nameless.yml"] } columnFiles table ∧
        LacksDescription table true := by
  constructor
  · rw [checkTableColumns, Request.sourceTables, sourceTables, Feed.flatMap, tablesOfFile,
      readProperties_columnFiles.2]
    rfl
  · refine ⟨tableWith [.record [("tags", .str "d")]], ⟨"nameless.yml", List.mem_singleton_self _, _,
      readProperties_columnFiles.2, _, rfl, _, List.mem_singleton_self _, .inr rfl, _, rfl,
        List.mem_singleton_self _⟩, ?_⟩
    exact ⟨_, rfl, _, List.mem_cons_self, _, rfl, rfl, rfl⟩

end Descriptions

end ProjectLint
