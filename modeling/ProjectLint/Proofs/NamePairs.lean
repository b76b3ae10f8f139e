import Mathlib.Data.List.Pairwise
import ProjectLint.Checks.Columns
import ProjectLint.Proofs.CalledNames
import ProjectLint.Proofs.Findings
import ProjectLint.Proofs.Lineage
import ProjectLint.Proofs.Yaml.ReadBack

/-!
# Source tables under pairs of names

A source table goes by two names, that of its source and its own.  Two checks keep tables under the
pair of these names, and a pair does not know which name comes first (`NamePair.str_same_iff`).  So
a table `a.b` and a table `b.a` stand in one place: what is put there last is what is found there
(`ByPair.get?_put`).

The check of columns looks tables up in the catalog by their pairs, and may come upon the one with
the names exchanged (`catalog_own_iff`).  The check of calls strikes out of the calls in the scripts
those that the manifest lists, and strikes one out for the table with the names exchanged too
(`reported_missing_iff`).
-/

namespace ProjectLint

open Scripts (SourceCall same_pair_iff)

/-! ### Pairs -/

theorem distinct_pair (a b : Scalar) : distinct [a, b] = if a.same b then [a] else [a, b] := by
  cases h : a.same b <;> simp [distinct, h]

/-- **Two names in either order** make the same pair. -/
theorem NamePair.str_same_iff {s t : String} {p : NamePair} :
    (⟨.str s, .str t⟩ : NamePair).same p = true ↔ p = ⟨.str s, .str t⟩ ∨ p = ⟨.str t, .str s⟩ := by
  obtain ⟨a, b⟩ := p
  have hmembers : NamePair.members ⟨.str s, .str t⟩ = textSet [s, t] := rfl
  rw [NamePair.same, Bool.and_eq_true, hmembers, isSubset_textSet_iff, isSubset_to_textSet_iff,
    NamePair.members, distinct_pair]
  simp only [NamePair.mk.injEq]
  by_cases hsame : a.same b = true
  · rw [if_pos hsame]
    constructor
    · rintro ⟨hin, -⟩
      obtain rfl := List.mem_singleton.mp (hin s (by simp))
      have ht := List.mem_singleton.mp (hin t (by simp))
      rw [(Scalar.str_same_iff s b).mp hsame, ht]
      exact .inl ⟨rfl, rfl⟩
    · rintro (⟨rfl, rfl⟩ | ⟨rfl, rfl⟩)
      · cases (Scalar.str_same_iff _ _).mp hsame
        simp
      · cases (Scalar.str_same_iff _ _).mp hsame
        simp
  · rw [if_neg hsame]
    constructor
    · rintro ⟨hin, hout⟩
      have hs := hin s (by simp)
      have ht := hin t (by simp)
      have ha := hout a (by simp)
      have hb := hout b (by simp)
      simp only [List.mem_cons, List.not_mem_nil, or_false, exists_eq_or_imp, exists_eq_left]
        at hs ht ha hb
      grind
    · rintro (⟨rfl, rfl⟩ | ⟨rfl, rfl⟩) <;> simp

namespace ByPair

variable {α : Type}

def Texts (m : ByPair α) : Prop := ∀ e ∈ m, ∃ c : SourceCall, e.1 = c.pair

theorem Texts.put {m : ByPair α} (h : m.Texts) (c : SourceCall) (x : α) :
    Texts (m.put c.pair x) := by
  rcases Scripts.put_cases c.pair x m with ⟨-, hput⟩ | ⟨before, e, after, rfl, -, hput⟩
  · rw [hput]
    exact List.forall_mem_append.mpr ⟨h, fun _ hf => ⟨c, by rw [List.mem_singleton.mp hf]⟩⟩
  · rw [hput]
    intro f hf
    rcases List.mem_append.mp hf with hf | hf
    · exact h f (List.mem_append_left _ hf)
    · rcases List.mem_cons.mp hf with rfl | hf
      · exact h e (List.mem_append_right _ List.mem_cons_self)
      · exact h f (List.mem_append_right _ (List.mem_cons_of_mem _ hf))

theorem get?_cons (e : NamePair × α) (m : ByPair α) (p : NamePair) :
    get? (e :: m) p = if e.1.same p then some e.2 else m.get? p := by
  rw [get?, get?, List.find?_cons]
  cases e.1.same p <;> rfl

/-- **The last thing that is put under a pair is found under it**, and under no pair of other
names. -/
theorem get?_put (c d : SourceCall) (x : α) : ∀ {m : ByPair α}, m.Texts →
    (m.put c.pair x).get? d.pair = if c.pair.same d.pair then some x else m.get? d.pair := by
  intro m
  induction m with
  | nil => exact fun _ => get?_cons _ _ _
  | cons e m ih =>
    intro hm
    obtain ⟨⟨k, hk⟩, hrest⟩ := List.forall_mem_cons.mp hm
    obtain ⟨p, y⟩ := e
    obtain rfl : p = k.pair := hk
    rw [ByPair.put, get?_cons]
    have hkc := same_pair_iff k c
    have hkd := same_pair_iff k d
    have hcd := same_pair_iff c d
    split
    · rename_i h
      have hsame : k.pair.same d.pair = c.pair.same d.pair := by
        rw [Bool.eq_iff_iff, hkd, hcd]
        exact ⟨(hkc.mp h).symm.trans, (hkc.mp h).trans⟩
      rw [get?_cons, hsame]
      split <;> rfl
    · rename_i h
      rw [get?_cons, ih hrest]
      by_cases h' : k.Alike d
      · rw [if_pos (hkd.mpr h'), if_neg fun hc => h (hkc.mpr (h'.trans (hcd.mp hc).symm))]
        rw [if_pos (hkd.mpr h')]
      · rw [if_neg (mt hkd.mp h'), if_neg (mt hkd.mp h')]

end ByPair

/-! ### The catalog -/

namespace Columns

/-- The id ends in the two names, in their order. -/
def IsIdOf (c : SourceCall) (id : String) : Prop := [c.source, c.table] <:+ idParts id

instance (c : SourceCall) : DecidablePred (IsIdOf c) :=
  fun _ => inferInstanceAs (Decidable (_ <:+ _))

/-- The id ends in the two names, in either order. -/
def HasPair (c : SourceCall) (id : String) : Prop := IsIdOf c id ∨ IsIdOf ⟨c.table, c.source⟩ id

instance (c : SourceCall) : DecidablePred (HasPair c) :=
  fun _ => inferInstanceAs (Decidable (_ ∨ _))

/-- The last source of a catalog with an id of a certain form. -/
def lastOf (entries : Entries) (form : String → Prop) [DecidablePred form] :
    Option (Scalar × Value) :=
  (entries.filter fun e => KeyOf form e.1).getLast?

theorem lastOf_cons (e : Scalar × Value) (entries : Entries) (form : String → Prop)
    [DecidablePred form] :
    lastOf (e :: entries) form = (lastOf entries form).or (if KeyOf form e.1 then some e
      else none) := by
  rw [lastOf, lastOf, List.filter_cons]
  by_cases h : KeyOf form e.1
  · simp only [h, decide_true, if_true, List.getLast?_cons]
    cases (entries.filter fun e => KeyOf form e.1).getLast? <;> rfl
  · simp only [h, decide_false, if_false, Option.or_none, Bool.false_eq_true]

/-- **An id of two parts or more** is put under the last two. -/
theorem lastTwo_spec {id : String} (h : 2 ≤ (idParts id).length) :
    ∃ c : SourceCall, lastTwo id = .ok c.pair ∧ ∀ d, IsIdOf d id ↔ d = c := by
  obtain ⟨table, source, rest, hparts⟩ :
      ∃ table source rest, (idParts id).reverse = table :: source :: rest := by
    rw [← List.length_reverse] at h
    cases hparts : (idParts id).reverse with
    | nil => rw [hparts] at h; simp at h
    | cons table rest =>
      cases rest with
      | nil => rw [hparts] at h; simp at h
      | cons source rest => exact ⟨table, source, rest, rfl⟩
  refine ⟨⟨source, table⟩, by rw [lastTwo, hparts]; rfl, fun d => ?_⟩
  rw [IsIdOf, ← List.reverse_prefix, hparts]
  obtain ⟨s, t⟩ := d
  simp [and_comm]

variable {c : SourceCall}

theorem hasPair_iff {id : String} (hc : ∀ d, IsIdOf d id ↔ d = c) (d : SourceCall) :
    HasPair d id ↔ c.Alike d := by
  obtain ⟨s, t⟩ := c
  obtain ⟨s', t'⟩ := d
  rw [HasPair, hc, hc]
  simp only [SourceCall.mk.injEq, SourceCall.Alike]
  grind

/-- The ids have two parts or more. -/
def Parted (entries : Entries) : Prop :=
  ∀ e ∈ entries, KeyOf (fun id => 2 ≤ (idParts id).length) e.1

variable {x : SourceTable} {entries : Entries}

/-- **What is found in the catalog under two names** is the last source with an id that ends in
them, in either order. -/
theorem get?_catalogSources (h : Parted entries) : ∀ {m : ByPair Value}, m.Texts →
    ∃ m', entries.foldlM (fun m e => do return ByPair.put m (← lastTwo (← idText e.1)) e.2) m =
      .ok m' ∧ ∀ c : SourceCall, m'.get? c.pair = ((lastOf entries (HasPair c)).map (·.2)).or
        (m.get? c.pair) := by
  induction entries with
  | nil => exact fun {m} _ => ⟨m, rfl, fun c => by rw [lastOf]; rfl⟩
  | cons e entries ih =>
    intro m hm
    obtain ⟨hparts, hrest⟩ := List.forall_mem_cons.mp h
    obtain ⟨key, v⟩ := e
    cases key with
    | str id =>
      obtain ⟨c, htwo, hids⟩ := lastTwo_spec hparts
      obtain ⟨m', hfold, hget⟩ := ih hrest (hm.put c v)
      refine ⟨m', ?_, fun d => ?_⟩
      · rw [List.foldlM_cons, idText, ok_bind, htwo]
        exact hfold
      · have hkey : KeyOf (HasPair d) (.str id) ↔ c.pair.same d.pair = true :=
          (hasPair_iff hids d).trans (same_pair_iff c d).symm
        rw [hget, ByPair.get?_put c d v hm, lastOf_cons]
        simp only [hkey]
        cases lastOf entries (HasPair d) with
        | some f => rfl
        | none => split <;> rfl
    | _ => cases hparts

/-! ### Which source of the catalog is found -/

theorem lastOf_eq_none_iff {form : String → Prop} [DecidablePred form] :
    lastOf entries form = none ↔ ∀ e ∈ entries, ¬ KeyOf form e.1 := by
  rw [lastOf, List.getLast?_eq_none_iff, List.filter_eq_nil_iff]
  simp only [decide_eq_true_iff]

theorem keyOf_of_lastOf {form : String → Prop} [DecidablePred form] {e : Scalar × Value}
    (h : lastOf entries form = some e) : e ∈ entries ∧ KeyOf form e.1 := by
  obtain ⟨hmem, hkey⟩ := List.mem_filter.mp (List.mem_of_getLast? h)
  exact ⟨hmem, of_decide_eq_true hkey⟩

/-- The last source of one form is the last one of a wider form too, if one of the first form stands
behind every one that has the wider form only. -/
theorem lastOf_eq_lastOf_iff {wide narrow : String → Prop} [DecidablePred wide]
    [DecidablePred narrow] (hmono : ∀ id, narrow id → wide id) :
    ∀ entries : Entries, lastOf entries wide = lastOf entries narrow ↔
      ∀ before e after, entries = before ++ e :: after → KeyOf wide e.1 → ¬ KeyOf narrow e.1 →
        ∃ f ∈ after, KeyOf narrow f.1 := by
  intro entries
  induction entries with
  | nil =>
    refine iff_of_true rfl fun before e after h => ?_
    simp at h
  | cons e entries ih =>
    have hsplit : (∀ before e' after, e :: entries = before ++ e' :: after → KeyOf wide e'.1 →
        ¬ KeyOf narrow e'.1 → ∃ f ∈ after, KeyOf narrow f.1) ↔
          (KeyOf wide e.1 → ¬ KeyOf narrow e.1 → ∃ f ∈ entries, KeyOf narrow f.1) ∧
          lastOf entries wide = lastOf entries narrow := by
      rw [ih]
      constructor
      · intro h
        exact ⟨h [] e entries rfl, fun before e' after heq =>
          h (e :: before) e' after (by rw [heq]; rfl)⟩
      · rintro ⟨hfirst, hrest⟩ before e' after heq
        rcases List.cons_eq_append_iff.mp heq with ⟨-, h⟩ | ⟨before', -, h⟩
        · obtain ⟨rfl, rfl⟩ := List.cons.inj h
          exact hfirst
        · exact hrest before' e' after h
    rw [hsplit, lastOf_cons, lastOf_cons]
    cases hn : lastOf entries narrow with
    | some f =>
      -- a source of the narrower form is among the others, so the first one does not matter
      obtain ⟨hf, hkey⟩ := keyOf_of_lastOf hn
      have hsome : lastOf entries wide ≠ none :=
        fun h => lastOf_eq_none_iff.mp h f hf (hkey.mono hmono)
      obtain ⟨g, hg⟩ := Option.ne_none_iff_exists'.mp hsome
      rw [hg, Option.some_or, Option.some_or]
      exact ⟨fun h => ⟨fun _ _ => ⟨f, hf, hkey⟩, h⟩, fun h => h.2⟩
    | none =>
      have hnone := lastOf_eq_none_iff.mp hn
      by_cases hkey : KeyOf narrow e.1
      · rw [if_pos hkey, if_pos (hkey.mono hmono)]
        cases hw : lastOf entries wide with
        | none => exact iff_of_true rfl ⟨fun _ h => absurd hkey h, rfl⟩
        | some g =>
          refine iff_of_false (fun h => ?_) (fun h => by cases h.2)
          obtain rfl : g = e := Option.some.inj h
          exact hnone g (keyOf_of_lastOf hw).1 hkey
      · rw [if_neg hkey]
        by_cases hwide : KeyOf wide e.1
        · rw [if_pos hwide]
          refine iff_of_false (by simp) fun h => ?_
          obtain ⟨f, hf, hfkey⟩ := h.1 hwide hkey
          exact hnone f hf hfkey
        · rw [if_neg hwide, Option.or_none, Option.or_none]
          exact ⟨fun h => ⟨fun h' => absurd h' hwide, h⟩, fun h => h.2⟩

/-! ### What is said about a table -/

/-- The complaint about a table that the catalog does not have. -/
def notInDatabase (x : SourceTable) : String :=
  "Unable to find source `" ++ x.label ++
    "` in catalog file. Make sure you run `dbt docs generate` before executing this hook."

/-- **What is said about a table** that is compared with a source of the catalog, if there is
one. -/
def complaintsFor (x : SourceTable) : Option Value → Except Fault (List String)
  | none => .ok [notInDatabase x]
  | some node =>
    if node.truthy then do
      tableLines x (← compareTable (← node.fieldD "columns" (.map []))
        (← x.tableBody.fieldD "columns" (.seq [])))
    else .ok [notInDatabase x]

theorem tableColumns_eq (hsource : x.source = .str c.source) (htable : x.table = .str c.table)
    (m : ByPair Value) :
    tableColumns m x = complaintsFor x (m.get? c.pair) := by
  have hfirst : x.source.key? = .ok (.str c.source) := by rw [hsource]; rfl
  have hsecond : x.table.key? = .ok (.str c.table) := by rw [htable]; rfl
  rw [tableColumns, hfirst, hsecond]
  change (if !((m.get? c.pair).getD (.map [])).truthy then Except.ok [notInDatabase x]
    else do tableLines x (← compareTable (← ((m.get? c.pair).getD (.map [])).fieldD "columns"
      (.map [])) (← x.tableBody.fieldD "columns" (.seq [])))) = _
  cases m.get? c.pair with
  | none => rfl
  | some node =>
    rw [complaintsFor, Option.getD_some]
    cases node.truthy <;> rfl

theorem starts_of_tableLines {d : Difference} {lines : List String} (h : tableLines x d = .ok lines)
    {line : String}
    (hline : line ∈ lines) : ∃ name rest, fullName x = .ok name ∧ line = name ++ rest := by
  cases hname : fullName x with
  | error f =>
    cases h₁ : d.describedOnly.isEmpty <;> cases h₂ : d.catalogOnly.isEmpty <;>
      simp only [tableLines, hname, h₁, h₂] at h
    · cases h
    · cases h
    · cases h
    · cases h
      cases hline
  | ok name =>
    cases h₁ : d.describedOnly.isEmpty <;> cases h₂ : d.catalogOnly.isEmpty <;>
      simp only [tableLines, hname, h₁, h₂, String.append_assoc] at h <;> cases h
    · rcases List.mem_pair.mp hline with rfl | rfl
      · exact ⟨_, _, rfl, rfl⟩
      · exact ⟨_, _, rfl, rfl⟩
    · exact ⟨_, _, rfl, List.mem_singleton.mp hline⟩
    · exact ⟨_, _, rfl, List.mem_singleton.mp hline⟩
    · cases hline

theorem eq_empty_of_first_dot {opening source table tail rest : String}
    (hopening : '.' ∉ opening.toList)
    (hdot : '.' ∉ source.toList)
    (h : opening ++ (source ++ "." ++ table) ++ tail = source ++ "." ++ table ++ rest) :
    opening = "" := by
  have hboth : '.' ∉ opening.toList ++ source.toList :=
    fun hmem => (List.mem_append.mp hmem).elim hopening hdot
  have hdots : ".".toList = ['.'] := rfl
  have hsplit := congrArg (fun text => Text.splitList '.' text.toList) h
  simp only [String.toList_append, List.append_assoc, hdots, List.cons_append, List.nil_append]
    at hsplit
  rw [← List.append_assoc, Text.splitList_append, Text.splitList_append,
    Text.splitList_of_not_mem hboth, Text.splitList_of_not_mem hdot] at hsplit
  exact String.toList_eq_nil_iff.mp (List.append_left_eq_self.mp (List.cons.inj hsplit).1)

theorem not_mem_tableLines (hsource : x.source = .str c.source) (htable : x.table = .str c.table)
    (hdot : '.' ∉ c.source.toList) {d : Difference} {lines : List String}
    (h : tableLines x d = .ok lines) :
    notInDatabase x ∉ lines := by
  intro hmem
  obtain ⟨name, rest, hname, hline⟩ := starts_of_tableLines h hmem
  have hfull : fullName x = .ok (c.source ++ "." ++ c.table) := by
    rw [fullName, hsource, htable]; rfl
  have hlabel : x.label = c.source ++ "." ++ c.table := by
    rw [SourceTable.label, hsource, htable]; rfl
  unfold notInDatabase at hline
  rw [hlabel, ← Except.ok.inj (hfull.symm.trans hname)] at hline
  exact absurd (eq_empty_of_first_dot (by decide) hdot hline) (by decide)

/-- **The complaint that a table is not found** is made if no source of the catalog is found, or an
empty one. -/
theorem complaintsFor_eq_iff (hsource : x.source = .str c.source) (htable : x.table = .str c.table)
    (hdot : '.' ∉ c.source.toList) (found : Option Value) :
    complaintsFor x found = .ok [notInDatabase x] ↔ ∀ node, found = some node →
      node.truthy = false := by
  cases found with
  | none => exact iff_of_true rfl fun node h => by cases h
  | some node =>
    rw [complaintsFor]
    cases hnode : node.truthy with
    | false =>
      refine iff_of_true rfl fun other h => ?_
      obtain rfl := Option.some.inj h
      exact hnode
    | true =>
      refine iff_of_false (fun h => ?_) fun h => ?_
      · rw [if_pos rfl] at h
        obtain ⟨columns, -, h⟩ := bind_eq_ok_iff.mp h
        obtain ⟨described, -, h⟩ := bind_eq_ok_iff.mp h
        obtain ⟨d, -, h⟩ := bind_eq_ok_iff.mp h
        exact not_mem_tableLines hsource htable hdot h (List.mem_singleton_self _)
      · rw [h node rfl] at hnode
        cases hnode

/-- **With which source of the catalog a table is compared.**  If all ids of the catalog have two
parts or more, every table whose names are texts is compared with the last source that has an id
with these names at its end, in either order, and is said not to be found if there is none, or it is
empty.  That is the last one with the names in their order just if such a source stands behind every
one that has them exchanged. -/
theorem catalog_own_iff {t : Tree} {catalog : Value} {r : Request} {entries : Entries}
    (hentries : sectionNodes catalog "sources" = .ok entries) (hparts : Parted entries) :
    ∃ sources, catalogSources catalog = .ok sources ∧
      checkTables t catalog r = ProjectLint.checkTables (r.sourceTables t) (tableColumns sources) ∧
      ∀ (x : SourceTable) (c : SourceCall), x.source = .str c.source → x.table = .str c.table →
        '.' ∉ c.source.toList →
          tableColumns sources x = complaintsFor x ((lastOf entries (HasPair c)).map (·.2)) ∧
          (tableColumns sources x = .ok [notInDatabase x] ↔
            ∀ e, lastOf entries (HasPair c) = some e → e.2.truthy = false) ∧
          (lastOf entries (HasPair c) = lastOf entries (IsIdOf c) ↔
            ∀ before e after, entries = before ++ e :: after → KeyOf (HasPair c) e.1 →
              ¬ KeyOf (IsIdOf c) e.1 → ∃ f ∈ after, KeyOf (IsIdOf c) f.1) := by
  obtain ⟨sources, hsources, hget⟩ := get?_catalogSources hparts (m := []) fun e he => by cases he
  have hcatalog : catalogSources catalog = .ok sources := by
    rw [catalogSources, hentries]; exact hsources
  refine ⟨sources, hcatalog, by rw [checkTables, hcatalog]; rfl, fun x c hsource htable hdot => ?_⟩
  have heq : tableColumns sources x = complaintsFor x ((lastOf entries (HasPair c)).map (·.2)) := by
    rw [tableColumns_eq hsource htable, hget, ByPair.get?, List.find?_nil, Option.map_none,
      Option.or_none]
  refine ⟨heq, ?_, lastOf_eq_lastOf_iff (fun _ => .inl) entries⟩
  rw [heq, complaintsFor_eq_iff hsource htable hdot]
  simp only [Option.map_eq_some_iff, forall_exists_index, and_imp, forall_apply_eq_imp_iff₂]

/-! ### Names exchanged -/

def tableFile : Tree :=
  ⟨[(["s.yml"],
    .file "sources:\n- name: a\n  tables:\n  - name: b\n    columns:\n    - name: c\n".toUTF8)]⟩

def columnNode : Value := .record [("columns", .record [("c", .str "int")])]

def catalogOf (ids : List String) : Value :=
  .record [("sources", .record (ids.map fun id => (id, columnNode)))]

theorem sourceTables_tableFile : ∃ x : SourceTable, x.source = .str "a" ∧ x.table = .str "b" ∧
    Request.sourceTables { paths := ["s.yml"] } tableFile = ⟨[x], none⟩ ∧
    x.tableBody = .record [("name", .str "b"),
      ("columns", .seq [.record [("name", .str "c")]])] := by
  have hread : tableFile.readProperties (Path.ofString "s.yml").text =
      .ok ⟨.record [("sources", .seq [.record [("name", .str "a"),
        ("tables", .seq [.record [("name", .str "b"),
          ("columns", .seq [.record [("name", .str "c")]])]])]])], []⟩ :=
    Yaml.eq_of_yields (by decide +kernel)
  refine ⟨⟨.str "a", .str "b", Path.ofString "s.yml", .record [("name", .str "a")], _⟩, rfl, rfl,
    ?_, rfl⟩
  rw [Request.sourceTables, sourceTables, Feed.flatMap, tablesOfFile, hread]
  rfl

/-- A table is compared with its own source if that stands behind the one with the names
exchanged. -/
theorem catalog_own_behind :
    ∃ sources, catalogSources (catalogOf ["source.p.b.a", "source.p.a.b"]) = .ok sources ∧
      ∃ x ∈ (Request.sourceTables { paths := ["s.yml"] } tableFile).items, ∃ entries,
        sectionNodes (catalogOf ["source.p.b.a", "source.p.a.b"]) "sources" = .ok entries ∧
        Parted entries ∧
        tableColumns sources x =
          complaintsFor x ((lastOf entries (IsIdOf ⟨"a", "b"⟩)).map (·.2)) := by
  obtain ⟨x, hsource, htable, htables, -⟩ := sourceTables_tableFile
  have hparts : Parted [(.str "source.p.b.a", columnNode), (.str "source.p.a.b", columnNode)] := by
    refine List.forall_mem_cons.mpr ⟨?_, List.forall_mem_singleton.mpr ?_⟩
    · exact of_decide_eq_true rfl
    · exact of_decide_eq_true rfl
  obtain ⟨sources, hsources, -, hall⟩ :=
    @catalog_own_iff tableFile (catalogOf ["source.p.b.a", "source.p.a.b"])
    { paths := ["s.yml"] } _ rfl hparts
  obtain ⟨heq, -, hown⟩ := hall x ⟨"a", "b"⟩ hsource htable (by decide)
  refine ⟨sources, hsources, x, by rw [htables]; exact List.mem_singleton_self x, _, rfl, hparts,
    ?_⟩
  rw [heq, hown.mpr]
  intro before e after hentries _ hnot
  rcases before with _ | ⟨f, _ | ⟨g, before⟩⟩
  · obtain ⟨-, rfl⟩ := List.cons.inj hentries
    exact ⟨_, List.mem_singleton_self _, of_decide_eq_true rfl⟩
  · obtain ⟨-, h⟩ := List.cons.inj hentries
    obtain ⟨rfl, -⟩ := List.cons.inj h
    exact absurd (of_decide_eq_true rfl) hnot
  · obtain ⟨-, h⟩ := List.cons.inj hentries
    obtain ⟨-, h⟩ := List.cons.inj h
    simp at h

/-- **A table that the catalog does not have** is compared with the one that has the names
exchanged, and all is well. -/
theorem catalog_exchanged :
    (∃ entries, sectionNodes (catalogOf ["source.p.b.a"]) "sources" = .ok entries ∧
      lastOf entries (IsIdOf ⟨"a", "b"⟩) = none) ∧
    (∃ x ∈ (Request.sourceTables { paths := ["s.yml"] } tableFile).items,
      x.source = .str "a" ∧ x.table = .str "b") ∧
    (checkTables tableFile (catalogOf ["source.p.b.a"]) { paths := ["s.yml"] }).report.outcome =
      .ok 0 := by
  obtain ⟨x, hsource, htable, htables, hbody⟩ := sourceTables_tableFile
  refine ⟨⟨_, rfl, lastOf_eq_none_iff.mpr (List.forall_mem_singleton.mpr (of_decide_eq_true rfl))⟩,
    ⟨x, by rw [htables]; exact List.mem_singleton_self x, hsource, htable⟩, ?_⟩
  have hcatalog : catalogSources (catalogOf ["source.p.b.a"]) =
      .ok [(⟨.str "b", .str "a"⟩, columnNode)] := rfl
  have hget : ByPair.get? [(⟨.str "b", .str "a"⟩, columnNode)] (SourceCall.pair ⟨"a", "b"⟩) =
      some columnNode := rfl
  have hlines : tableColumns [(⟨.str "b", .str "a"⟩, columnNode)] x = .ok [] := by
    rw [tableColumns_eq (c := ⟨"a", "b"⟩) hsource htable, hget, complaintsFor, hbody]
    rfl
  rw [checkTables, hcatalog]
  change (ProjectLint.checkTables _ _).report.outcome = _
  rw [htables, ProjectLint.checkTables, Feed.bind, Feed.flatMap, hlines]
  rfl

end Columns

/-! ### Calls in scripts -/

namespace Scripts

/-- What the calls in a script name. -/
def namesIn (t : Tree) (file : Path) : Except Fault (List Called) := do
  (Script.calls (← t.readText file.text)).mapM nameOf

/-- One of the scripts calls the source table. -/
def CalledIn (t : Tree) (files : List Path) (c : SourceCall) : Prop :=
  ∃ f ∈ files, ∃ names, namesIn t f = .ok names ∧ .table c ∈ names

theorem CalledIn.mono {t : Tree} {files files' : List Path} (hsub : ∀ f ∈ files, f ∈ files')
    (h : CalledIn t files c) :
    CalledIn t files' c := by
  obtain ⟨f, hf, names, hnames, hc⟩ := h
  exact ⟨f, hsub f hf, names, hnames, hc⟩

/-- **Scripts in which every call names something** are gone through to the end, and all names are
noted. -/
theorem exists_mentions {t : Tree} :
    ∀ {files : List Path}, (∀ f ∈ files, ∃ names, namesIn t f = .ok names) →
    ∀ {before : List Called} {m : Mentions}, Lists before m →
      ∃ found names, files.foldlM (Mentions.addFile t) m = .ok found ∧
        Lists (before ++ names) found ∧ ∀ c, .table c ∈ names ↔ CalledIn t files c := by
  intro files
  induction files with
  | nil =>
    intro _ before m hm
    refine ⟨m, [], rfl, (List.append_nil before).symm ▸ hm,
      fun c => iff_of_false List.not_mem_nil ?_⟩
    rintro ⟨f, hf, -⟩
    cases hf
  | cons f files ih =>
    intro h before m hm
    obtain ⟨⟨names, hnames⟩, hrest⟩ := List.forall_mem_cons.mp h
    obtain ⟨text, htext, hcalls⟩ := bind_eq_ok_iff.mp hnames
    obtain ⟨m', hadd, hm'⟩ := lists_foldlM hm hcalls
    obtain ⟨found, more, hfold, hfound, hmore⟩ := ih hrest hm'
    refine ⟨found, names ++ more, ?_, by rwa [List.append_assoc] at hfound, fun c => ?_⟩
    · rw [List.foldlM_cons, Mentions.addFile, htext, ok_bind, hadd]
      exact hfold
    · rw [List.mem_append, hmore]
      constructor
      · rintro (hc | hc)
        · exact ⟨f, List.mem_cons_self, names, hnames, hc⟩
        · exact hc.mono fun g hg => List.mem_cons_of_mem f hg
      · rintro ⟨g, hg, names', hnames', hc⟩
        rcases List.mem_cons.mp hg with rfl | hg
        · rw [Except.ok.inj (hnames.symm.trans hnames')]
          exact .inl hc
        · exact .inr ⟨g, hg, names', hnames', hc⟩

/-- A manifest with its nodes and sources, of which all have names that can be looked for. -/
structure WellNamed (manifest : Value) (nodes sources : Entries) : Prop where
  hasNodes : sectionNodes manifest "nodes" = .ok nodes
  hasSources : sectionNodes manifest "sources" = .ok sources
  node : ∀ e ∈ nodes, ∃ name, e.2.field "name" = .ok (.scalar name)
  source : ∀ e ∈ sources, ∃ source name, e.2.field "source_name" = .ok (.scalar source) ∧
    e.2.field "name" = .ok (.scalar name)

/-- One of the sources has the two names, in their order. -/
def Listed (sources : Entries) (c : SourceCall) : Prop :=
  ∃ e ∈ sources, e.2.field "source_name" = .ok (.str c.source) ∧
    e.2.field "name" = .ok (.str c.table)

/-- The names of the table exchanged. -/
def SourceCall.exchanged (c : SourceCall) : SourceCall := ⟨c.table, c.source⟩

theorem SourceCall.alike_iff {d : SourceCall} : c.Alike d ↔ c = d ∨ c = d.exchanged := by
  obtain ⟨s, t⟩ := c
  obtain ⟨s', t'⟩ := d
  simp only [SourceCall.Alike, SourceCall.exchanged, SourceCall.mk.injEq]

theorem exists_unlistedModels {manifest : Value} {nodes sources : Entries}
    (h : WellNamed manifest nodes sources)
    (models : List String) : ∃ rest, unlistedModels manifest models = .ok rest := by
  obtain ⟨names, hnames⟩ : ∃ names, (nodes.mapM fun e => do (← e.2.field "name").key?) =
      Except.ok names := by
    refine exists_mapM_eq_ok fun e he => ?_
    obtain ⟨name, hname⟩ := h.node e he
    exact ⟨name, by rw [hname]; rfl⟩
  rw [unlistedModels, h.hasNodes, ok_bind, hnames]
  split
  · exact ⟨[], rfl⟩
  · exact ⟨_, rfl⟩

theorem foldl_erase {α : Type} (m : ByPair α) : ∀ pairs : List NamePair,
    pairs.foldl ByPair.erase m = m.filter fun e => pairs.all fun p => !e.1.same p := by
  intro pairs
  induction pairs generalizing m with
  | nil => simp
  | cons p pairs ih =>
    rw [List.foldl_cons, ih, ByPair.erase, List.filter_filter]
    simp only [List.all_cons, Bool.and_comm]

theorem pairOf_eq_ok_iff {body : Value} {p : NamePair} :
    (do
      let source ← body.field "source_name"
      let table ← body.field "name"
      return NamePair.mk (← source.key?) (← table.key?)) = Except.ok p ↔
    body.field "source_name" = .ok (.scalar p.first) ∧
    body.field "name" = .ok (.scalar p.second) := by
  constructor
  · intro h
    obtain ⟨source, hsource, h⟩ := bind_eq_ok_iff.mp h
    obtain ⟨table, htable, h⟩ := bind_eq_ok_iff.mp h
    obtain ⟨first, hfirst, h⟩ := bind_eq_ok_iff.mp h
    obtain ⟨second, hsecond, h⟩ := bind_eq_ok_iff.mp h
    cases h
    rw [hsource, htable, key?_eq_ok hfirst, key?_eq_ok hsecond]
    exact ⟨rfl, rfl⟩
  · rintro ⟨hsource, htable⟩
    rw [hsource, htable]
    rfl

variable {tables : List SourceCall}

/-- **What a manifest leaves over**: the tables that it does not list, with their names in either
order. -/
theorem exists_unlistedSources {manifest : Value} {nodes sources : Entries}
    (h : WellNamed manifest nodes sources) {m : ByPair SourceCall} (hm : Keyed tables m) :
    ∃ rest, unlistedSources manifest m = .ok rest ∧
      ∀ e, e ∈ rest ↔ e ∈ m ∧ ¬ (Listed sources e.2 ∨ Listed sources e.2.exchanged) := by
  obtain ⟨pairs, hpairs⟩ : ∃ pairs, (sources.mapM fun e => do
      let source ← e.2.field "source_name"
      let table ← e.2.field "name"
      return NamePair.mk (← source.key?) (← table.key?)) = Except.ok pairs := by
    refine exists_mapM_eq_ok fun e he => ?_
    obtain ⟨source, name, hsource, hname⟩ := h.source e he
    exact ⟨⟨source, name⟩, pairOf_eq_ok_iff.mpr ⟨hsource, hname⟩⟩
  have hlisted : ∀ c : SourceCall, c.pair ∈ pairs ↔ Listed sources c := by
    intro c
    rw [mem_mapM_iff hpairs]
    exact exists_congr fun e => and_congr_right fun _ => pairOf_eq_ok_iff
  have hany : ∀ e ∈ m, (∃ p ∈ pairs, e.1.same p = true) ↔ Listed sources e.2 ∨
      Listed sources e.2.exchanged := by
    intro e he
    obtain ⟨k, hk, halike⟩ := hm.key e he
    have hsame : ∀ p, e.1.same p = true ↔ p = k.pair ∨ p = k.exchanged.pair := by
      intro p
      rw [hk]
      exact NamePair.str_same_iff
    simp only [hsame, and_or_left, exists_or, exists_eq_right, hlisted]
    rcases SourceCall.alike_iff.mp halike with rfl | rfl
    · rfl
    · exact or_comm
  have hmem : ∀ e, e ∈ pairs.foldl ByPair.erase m ↔
      e ∈ m ∧ ¬ (Listed sources e.2 ∨ Listed sources e.2.exchanged) := by
    intro e
    rw [foldl_erase, List.mem_filter]
    refine and_congr_right fun he => ?_
    rw [← hany e he, List.all_eq_true]
    simp only [Bool.not_eq_true', not_exists, not_and, Bool.not_eq_true]
  rw [unlistedSources, h.hasSources, ok_bind, hpairs]
  cases m with
  | nil =>
    refine ⟨[], rfl, fun e => ?_⟩
    simp
  | cons e m => exact ⟨_, rfl, hmem⟩

/-- **What is reported** of the tables that are called and not listed: one of each two with their
names exchanged, if neither of them is listed. -/
structure Reports (called listed : SourceCall → Prop) (reported : List SourceCall) : Prop where
  sound : ∀ c ∈ reported, called c ∧ ¬ listed c ∧ ¬ listed c.exchanged
  complete : ∀ c, called c → ¬ listed c → ¬ listed c.exchanged → c ∈ reported ∨
    c.exchanged ∈ reported
  once : ∀ c ∈ reported, c.exchanged ∈ reported → c.source = c.table

theorem Reports.faithful_iff {called listed given : SourceCall → Prop} {reported : List SourceCall}
    (h : Reports called listed reported) (hgiven : ∀ c, called c → given c) :
    (∀ c, given c → (c ∈ reported ↔ ¬ listed c)) ↔ ∀ c, given c → ¬ listed c →
      called c ∧ (c.source ≠ c.table → ¬ listed c.exchanged ∧ ¬ called c.exchanged) := by
  constructor
  · intro hfaithful c hc hunlisted
    have hreported := (hfaithful c hc).mpr hunlisted
    obtain ⟨hcalled, -, hother⟩ := h.sound c hreported
    refine ⟨hcalled, fun hne => ⟨hother, fun hexchanged => hne ?_⟩⟩
    exact h.once c hreported ((hfaithful _ (hgiven _ hexchanged)).mpr hother)
  · intro hclear c hc
    refine ⟨fun hreported => (h.sound c hreported).2.1, fun hunlisted => ?_⟩
    obtain ⟨hcalled, hapart⟩ := hclear c hc hunlisted
    by_cases heq : c.source = c.table
    · have hself : c.exchanged = c := by
        obtain ⟨s, t⟩ := c
        obtain rfl : s = t := heq
        rfl
      have hreported := h.complete c hcalled hunlisted (hself.symm ▸ hunlisted)
      rwa [hself, or_self] at hreported
    · obtain ⟨hother, hnot⟩ := hapart heq
      refine (h.complete c hcalled hunlisted hother).resolve_right fun hexchanged => hnot ?_
      exact (h.sound _ hexchanged).1

theorem reports_of_keyed {called listed : SourceCall → Prop} {m rest : ByPair SourceCall}
    (hm : Keyed tables m)
    (hcalled : ∀ c, c ∈ tables ↔ called c) (hrest : ∀ e, e ∈ rest ↔ e ∈ m ∧
      ¬ (listed e.2 ∨ listed e.2.exchanged)) :
    Reports called listed (rest.map (·.2)) := by
  refine ⟨fun c hc => ?_, fun c hc hunlisted hother => ?_, fun c hc hexchanged => ?_⟩
  · obtain ⟨e, he, rfl⟩ := List.mem_map.mp hc
    obtain ⟨hem, hunlisted⟩ := (hrest e).mp he
    exact ⟨(hcalled _).mp (hm.called e hem), not_or.mp hunlisted⟩
  · obtain ⟨e, he, halike⟩ := hm.every c ((hcalled c).mpr hc)
    rcases SourceCall.alike_iff.mp halike with heq | heq
    · exact .inl (List.mem_map.mpr ⟨e,
        (hrest e).mpr ⟨he, by rw [heq, not_or]; exact ⟨hunlisted, hother⟩⟩, heq⟩)
    · exact .inr (List.mem_map.mpr ⟨e,
        (hrest e).mpr ⟨he, by rw [heq, not_or]; exact ⟨hother, hunlisted⟩⟩, heq⟩)
  · obtain ⟨e, he, rfl⟩ := List.mem_map.mp hc
    obtain ⟨f, hf, hfe⟩ := List.mem_map.mp hexchanged
    have : Std.Symm fun e f : NamePair × SourceCall => ¬ e.2.Alike f.2 :=
      ⟨fun _ _ h h' => h h'.symm⟩
    by_contra hne
    refine hm.once.forall ((hrest f).mp hf).1 ((hrest e).mp he).1 ?_
      (SourceCall.alike_iff.mpr (.inr hfe))
    rintro rfl
    exact hne (congrArg SourceCall.source hfe)

/-- **Whether a call is reported as missing.**  If every call in the scripts that are read names
something and the names in the manifest can be looked for, the run gives a report on the tables that
are called and not listed.  For all calls in the scripts that are given it is right just if the
script of each call that is not listed is read, and the table with the names exchanged is neither
listed nor called, unless the names are equal. -/
theorem reported_missing_iff {t : Tree} {manifest : Value} {paths : List String}
    {nodes sources : Entries} (hmanifest : WellNamed manifest nodes sources)
    (hscripts : ∀ f ∈ (scriptFiles paths).files, ∃ names, namesIn t f = .ok names) :
    ∃ found, missing t manifest paths = .ok found ∧
      (checkCalls t manifest paths).report =
        ⟨missingLines found, .ok (Findings.status (missingLines found))⟩ ∧
      Reports (CalledIn t (scriptFiles paths).files) (Listed sources) (found.sources.map (·.2)) ∧
      ((∀ c, CalledIn t (FileMap.given scriptSuffixes paths) c →
          (c ∈ found.sources.map (·.2) ↔ ¬ Listed sources c)) ↔
        ∀ c, CalledIn t (FileMap.given scriptSuffixes paths) c → ¬ Listed sources c →
          CalledIn t (scriptFiles paths).files c ∧
          (c.source ≠ c.table →
            ¬ Listed sources c.exchanged ∧
            ¬ CalledIn t (scriptFiles paths).files c.exchanged)) := by
  obtain ⟨named, names, hnamed, hlists, hcalled⟩ := exists_mentions hscripts .empty
  rw [List.nil_append] at hlists
  obtain ⟨models, hmodels⟩ := exists_unlistedModels hmanifest named.models
  obtain ⟨rest, hrest, hmem⟩ := exists_unlistedSources hmanifest hlists.tables
  have hmissing : missing t manifest paths = .ok ⟨models, rest⟩ := by
    rw [missing, mentions, hnamed, ok_bind, hmodels, ok_bind, hrest]
    rfl
  have htables : ∀ c, c ∈ names.filterMap Called.table? ↔
      CalledIn t (scriptFiles paths).files c := by
    intro c
    rw [← hcalled, List.mem_filterMap]
    constructor
    · rintro ⟨d, hd, htable⟩
      cases d with
      | model name => cases htable
      | table call => cases htable; exact hd
    · exact fun hc => ⟨_, hc, rfl⟩
  have hreports := reports_of_keyed hlists.tables htables hmem
  refine ⟨⟨models, rest⟩, hmissing, by rw [checkCalls, hmissing]; rfl, hreports,
    hreports.faithful_iff fun c hc => ?_⟩
  exact hc.mono fun f hf => ((mem_files_ofPaths _ _).mp hf).mem

/-! ### Calls with the names exchanged -/

open Script (PlainCall Layout)

theorem namesIn_layout {l : Layout} (hline : l.OnePerLine) {t : Tree} {file : Path}
    {place : List String}
    (hfile : t.follow file.text = .file place l.text.toUTF8) : namesIn t file = .ok (named l) := by
  have hread : t.readText file.text = .ok (Text.unifyNewlines l.text) := by
    rw [Tree.readText, Tree.readBytes, hfile]
    simp only [Text.decode_toUTF8]
  rw [namesIn, hread, ok_bind, Script.calls_layout, mapM_nameOf_of_onePerLine hline]

theorem noBrace_nil : ∀ c ∈ ([] : List Char), c ≠ '\x7b' ∧ c ≠ '\x7d' := by simp

theorem noBrace_newline : ∀ c ∈ ['\n'], c ≠ '\x7b' ∧ c ≠ '\x7d' :=
  List.forall_mem_singleton.mpr (by decide)

def callLines (calls : List PlainCall) : Layout :=
  ⟨⟨[], noBrace_nil⟩, calls.map fun p => (p, ⟨['\n'], noBrace_newline⟩)⟩

theorem onePerLine_callLines (calls : List PlainCall) : (callLines calls).OnePerLine := by
  intro piece hpiece
  obtain ⟨p, -, rfl⟩ := List.mem_map.mp ((List.dropLast_sublist _).subset hpiece)
  exact .inl List.mem_cons_self

theorem calledIn_callLines {calls : List PlainCall} :
    CalledIn (lone (callLines calls)) [Path.ofString "m.sql"] c ↔ .table c ∈ calls.map ofPlain := by
  have hnames : namesIn (lone (callLines calls)) (Path.ofString "m.sql") =
      .ok (calls.map ofPlain) := by
    rw [@namesIn_layout _ (onePerLine_callLines calls) _ _ ["m.sql"] rfl, named, callLines,
      List.map_map, List.map_map]
    rfl
  constructor
  · rintro ⟨f, hf, names, hnames', hc⟩
    rw [List.mem_singleton.mp hf] at hnames'
    rwa [Except.ok.inj (hnames.symm.trans hnames')]
  · exact fun hc => ⟨_, List.mem_singleton_self _, _, hnames, hc⟩

def sourcesOf (tables : List SourceCall) : Entries :=
  tables.map fun c => (.str ("source.p." ++ c.source ++ "." ++ c.table),
    .record [("source_name", .str c.source), ("name", .str c.table)])

def manifestOf (tables : List SourceCall) : Value := .record [("sources", .map (sourcesOf tables))]

theorem wellNamed_manifestOf (tables : List SourceCall) :
    WellNamed (manifestOf tables) [] (sourcesOf tables) := by
  refine ⟨rfl, rfl, fun e he => (by cases he), fun e he => ?_⟩
  obtain ⟨c, -, rfl⟩ := List.mem_map.mp he
  exact ⟨.str c.source, .str c.table, rfl, rfl⟩

theorem listed_sourcesOf : Listed (sourcesOf tables) c ↔ c ∈ tables := by
  constructor
  · rintro ⟨e, he, hsource, hname⟩
    obtain ⟨d, hd, rfl⟩ := List.mem_map.mp he
    obtain ⟨s, t⟩ := c
    cases hsource
    cases hname
    exact hd
  · exact fun hc => ⟨_, List.mem_map.mpr ⟨c, hc, rfl⟩, rfl, rfl⟩

/-- Of two calls the one is reported that the manifest does not list. -/
theorem reported_apart :
    ∃ found, missing (lone (callLines [.source nameA nameB, .source nameB nameB]))
      (manifestOf [⟨"b", "b"⟩]) ["m.sql"] = .ok found ∧
      ⟨"a", "b"⟩ ∈ found.sources.map (·.2) ∧ ⟨"b", "b"⟩ ∉ found.sources.map (·.2) := by
  have hfiles : (scriptFiles ["m.sql"]).files = [Path.ofString "m.sql"] := rfl
  have hgiven : FileMap.given scriptSuffixes ["m.sql"] = [Path.ofString "m.sql"] := rfl
  have htable : ∀ c, .table c ∈ [PlainCall.source nameA nameB, .source nameB nameB].map ofPlain ↔
      c = ⟨"a", "b"⟩ ∨ c = ⟨"b", "b"⟩ := by
    intro c
    simp only [List.map_cons, List.map_nil, List.mem_cons, List.not_mem_nil, or_false, ofPlain,
      Called.table.injEq]
    rfl
  have hscripts : ∀ f ∈ (scriptFiles ["m.sql"]).files, ∃ names,
      namesIn (lone (callLines [.source nameA nameB, .source nameB nameB])) f = .ok names := by
    rw [hfiles, List.forall_mem_singleton]
    exact ⟨_, @namesIn_layout _ (onePerLine_callLines _) _ _ ["m.sql"] rfl⟩
  obtain ⟨found, hmissing, -, -, hiff⟩ :=
    reported_missing_iff (wellNamed_manifestOf [⟨"b", "b"⟩]) hscripts
  rw [hfiles, hgiven] at hiff
  simp only [calledIn_callLines, htable, listed_sourcesOf, List.mem_singleton] at hiff
  have hright := hiff.mpr (by
    rintro c (rfl | rfl) hunlisted
    · exact ⟨.inl rfl, fun _ => ⟨by simp [SourceCall.exchanged], by simp [SourceCall.exchanged]⟩⟩
    · exact absurd rfl hunlisted)
  refine ⟨found, hmissing, (hright _ (.inl rfl)).mpr (by simp), fun hmem => ?_⟩
  exact (hright _ (.inr rfl)).mp hmem rfl

/-- **A call is taken for that of another table** if the manifest lists one with the names
exchanged. -/
theorem reported_exchanged :
    missing (lone (callLines [.source nameA nameB])) (manifestOf [⟨"b", "a"⟩]) ["m.sql"] =
      .ok .empty ∧
    CalledIn (lone (callLines [.source nameA nameB])) (FileMap.given scriptSuffixes ["m.sql"])
      ⟨"a", "b"⟩ ∧
    ¬ Listed (sourcesOf [⟨"b", "a"⟩]) ⟨"a", "b"⟩ := by
  have hgiven : FileMap.given scriptSuffixes ["m.sql"] = [Path.ofString "m.sql"] := rfl
  have hmentions : mentions (lone (callLines [.source nameA nameB])) ["m.sql"] =
      .ok ⟨[], [(⟨.str "a", .str "b"⟩, ⟨"a", "b"⟩)]⟩ := by
    rw [@mentions_layout _ _ "m.sql" ["m.sql"] rfl rfl]
    rfl
  refine ⟨by rw [missing, hmentions]; rfl, ?_, ?_⟩
  · rw [hgiven, calledIn_callLines]
    exact List.mem_singleton_self _
  · rw [listed_sourcesOf]
    simp

end Scripts

end ProjectLint
