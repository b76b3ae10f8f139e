import Mathlib.Data.List.Basic
import ProjectLint.Project.Lineage
import ProjectLint.Proofs.Outcomes
import ProjectLint.Proofs.Texts

/-!
# Whose children a table is credited with

A source table is looked for in the lineage by its two names: an id stands for the table if both
names and the word `source` are among its parts, in whatever order and in whatever place
(`fits_sourceTable`).  The id of the table is such an id, but not the only one: with the names
exchanged, with the name of the package or the word `source` for one of them, or within the id of
something that is no source, the same parts stand for something else (`Mistaken`).
`relatives_own_iff` says that these are the only ids through which a table is credited with what
depends on another one.
-/

namespace ProjectLint

/-! ### Ids of tables -/

/-- **The id of a source table**: it starts with `source` and ends in the name of the source and
that of the table. -/
def IsTableId (source table id : String) : Prop :=
  firstPart (idParts id) = "source" ∧ [source, table] <:+ idParts id

instance (source table id : String) : Decidable (IsTableId source table id) :=
  inferInstanceAs (Decidable (_ ∧ _))

def HasNames (source table id : String) : Prop :=
  "source" ∈ idParts id ∧ source ∈ idParts id ∧ table ∈ idParts id

instance (source table id : String) : Decidable (HasNames source table id) :=
  inferInstanceAs (Decidable (_ ∧ _ ∧ _))

/-- An id that has the names of a table, but is not the id of the table. -/
def Mistaken (source table id : String) : Prop :=
  HasNames source table id ∧ ¬ IsTableId source table id

instance (source table id : String) : Decidable (Mistaken source table id) :=
  inferInstanceAs (Decidable (_ ∧ _))

theorem firstPart_mem {parts : List String} {part : String} (h : firstPart parts = part)
    (hne : part ≠ "") :
    part ∈ parts := by
  cases parts with
  | nil => exact absurd h.symm hne
  | cons p rest =>
    obtain rfl : p = part := h
    exact List.mem_cons_self

theorem IsTableId.hasNames {source table id : String} (h : IsTableId source table id) :
    HasNames source table id := by
  obtain ⟨hfirst, before, hparts⟩ := h
  refine ⟨firstPart_mem hfirst (by decide), ?_, ?_⟩
  · simp [← hparts]
  · simp [← hparts]

theorem any_same_str_iff {parts : List String} {name : String} :
    (parts.any fun p => (Scalar.str name).same (.str p)) = true ↔ name ∈ parts := by
  simp [Scalar.same]

/-- **An id stands for a table if it has its names.** -/
theorem fits_sourceTable (source table id : String) :
    Subject.fits (.sourceTable (.str source) (.str table)) id =
      .ok (decide (HasNames source table id)) := by
  change Except.ok (List.all [Scalar.str "source", .str source, .str table] fun k =>
    (idParts id).any fun p => k.same (.str p)) = _
  congr 1
  rw [Bool.eq_iff_iff, decide_eq_true_iff]
  simp only [List.all_cons, List.all_nil, Bool.and_true, Bool.and_eq_true, any_same_str_iff,
    HasNames]

/-! ### What an entry lists -/

theorem str?_eq_ok {v : Value} {s : String} (h : v.str? = .ok s) : v = .str s := by
  unfold Value.str? at h
  split at h
  · rw [Except.ok.inj h]
  · cases h

theorem idText_eq_ok {key : Scalar} {id : String} (h : idText key = .ok id) : key = .str id := by
  unfold idText at h
  split at h
  · rw [Except.ok.inj h]
  · cases h

def Relative.id : Relative → String
  | .test t => t.id
  | .model m => m.id
  | .source s => s.id

def textItem? : Value → Option String
  | .str s => some s
  | _ => none

/-- The ids of the wanted kinds that an entry of a lineage map lists. -/
def wantedIds (kinds : List String) (ids : Value) : List String :=
  ((ids.items.toOption.getD []).filterMap textItem?).filter fun id =>
    kinds.contains (firstPart (idParts id))

variable {manifest : Value} {subject : Subject}

theorem id_of_relative {kind id : String} {r : Relative} (h : relative manifest kind id = .ok r) :
    r.id = id := by
  unfold relative at h
  split at h
  · obtain ⟨test, htest, h⟩ := bind_eq_ok_iff.mp h
    cases h
    obtain ⟨nodes, -, h⟩ := bind_eq_ok_iff.mp htest
    obtain ⟨node, -, h⟩ := bind_eq_ok_iff.mp h
    obtain ⟨tags, -, h⟩ := bind_eq_ok_iff.mp h
    obtain ⟨isData, -, h⟩ := bind_eq_ok_iff.mp h
    obtain ⟨rule, -, h⟩ := bind_eq_ok_iff.mp h
    obtain ⟨name, -, h⟩ := bind_eq_ok_iff.mp h
    cases h
    rfl
  split at h
  · obtain ⟨nodes, -, h⟩ := bind_eq_ok_iff.mp h
    obtain ⟨node, -, h⟩ := bind_eq_ok_iff.mp h
    obtain ⟨name, -, h⟩ := bind_eq_ok_iff.mp h
    obtain ⟨path, -, h⟩ := bind_eq_ok_iff.mp h
    cases h
    rfl
  · obtain ⟨nodes, -, h⟩ := bind_eq_ok_iff.mp h
    obtain ⟨node, -, h⟩ := bind_eq_ok_iff.mp h
    obtain ⟨source, -, h⟩ := bind_eq_ok_iff.mp h
    obtain ⟨name, -, h⟩ := bind_eq_ok_iff.mp h
    obtain ⟨path, -, h⟩ := bind_eq_ok_iff.mp h
    cases h
    rfl

variable {kinds : List String} {rs : List Relative}

theorem listed_eq_ok {item : Value} {r : Option Relative} (h : listed manifest kinds item = .ok r) :
    ∃ id, item = .str id ∧
      r.map Relative.id = if kinds.contains (firstPart (idParts id)) then some id else none := by
  unfold listed at h
  obtain ⟨id, hid, h⟩ := bind_eq_ok_iff.mp h
  refine ⟨id, str?_eq_ok hid, ?_⟩
  dsimp only at h
  split at h
  · rename_i hkind
    obtain ⟨found, hfound, h⟩ := bind_eq_ok_iff.mp h
    cases h
    rw [if_pos hkind, Option.map_some, id_of_relative hfound]
  · rename_i hkind
    cases h
    rw [if_neg hkind, Option.map_none]

theorem ids_of_mapM_listed : ∀ {items : List Value}
    {found : List (Option Relative)}, items.mapM (listed manifest kinds) = .ok found →
      (found.filterMap id).map Relative.id =
        (items.filterMap textItem?).filter fun id => kinds.contains (firstPart (idParts id)) := by
  intro items
  induction items with
  | nil => intro found h; cases h; rfl
  | cons item items ih =>
    intro found h
    obtain ⟨r, rest, hr, hrest, rfl⟩ := mapM_cons_eq_ok_iff.mp h
    obtain ⟨x, rfl, hx⟩ := listed_eq_ok hr
    have htext : (Value.str x :: items).filterMap textItem? = x :: items.filterMap textItem? := rfl
    rw [htext, List.filter_cons]
    by_cases hkind : kinds.contains (firstPart (idParts x)) = true
    · rw [if_pos hkind, Option.map_eq_some_iff] at hx
      obtain ⟨found, rfl, hid⟩ := hx
      rw [if_pos hkind, ← ih hrest, ← hid]
      rfl
    · rw [if_neg hkind, Option.map_eq_none_iff] at hx
      rw [if_neg hkind, ← ih hrest, hx]
      rfl

theorem ids_of_listedAll {ids : Value} (h : listedAll manifest kinds ids = .ok rs) :
    rs.map Relative.id = wantedIds kinds ids := by
  obtain ⟨items, hitems, h⟩ := bind_eq_ok_iff.mp h
  obtain ⟨found, hfound, h⟩ := bind_eq_ok_iff.mp h
  cases h
  rw [ids_of_mapM_listed hfound, wantedIds, hitems]
  rfl

/-! ### What is found in the lineage -/

/-- The entries of a manifest that say what depends on what. -/
def childMap (manifest : Value) : Entries := (sectionNodes manifest "child_map").toOption.getD []

/-- A key that is a text of a certain form. -/
def KeyOf (form : String → Prop) : Scalar → Prop
  | .str key => form key
  | _ => False

instance (form : String → Prop) [DecidablePred form] : DecidablePred (KeyOf form)
  | .str key => inferInstanceAs (Decidable (form key))
  | .null | .bool _ | .int _ | .float _ | .bytes _ | .date _ | .moment _ => .isFalse id

theorem KeyOf.mono {form form' : String → Prop} (h : ∀ key, form key → form' key) {k : Scalar}
    (hk : KeyOf form k) :
    KeyOf form' k := by
  cases k with
  | str key => exact h key hk
  | _ => exact hk

theorem keyOf_mistaken_iff {source table : String} {k : Scalar} : KeyOf (Mistaken source table) k ↔
    KeyOf (HasNames source table) k ∧ ¬ KeyOf (IsTableId source table) k := by
  cases k with
  | str key => exact Iff.rfl
  | _ => exact ⟨False.elim, fun h => h.1⟩

/-- The ids of the wanted kinds that are listed under keys of a certain form. -/
def idsUnder (manifest : Value) (form : String → Prop) [DecidablePred form] (kinds : List String) :
    List String :=
  (childMap manifest).flatMap fun e => if KeyOf form e.1 then wantedIds kinds e.2 else []

def listedUnder (manifest : Value) (lineage : String) (form : String → Prop) [DecidablePred form]
    (kinds : List String) : List String :=
  ((sectionNodes manifest lineage).toOption.getD []).flatMap fun e =>
    if KeyOf form e.1 then wantedIds kinds e.2 else []

theorem mem_idsUnder {form : String → Prop} [DecidablePred form] {id : String} :
    id ∈ idsUnder manifest form kinds ↔ ∃ e ∈ childMap manifest, KeyOf form e.1 ∧
      id ∈ wantedIds kinds e.2 := by
  rw [idsUnder, List.mem_flatMap]
  refine exists_congr fun e => and_congr_right fun _ => ?_
  split
  · rename_i hform
    exact (and_iff_right hform).symm
  · rename_i hform
    simp [hform]

section

variable {manifest : Value} {subject : Subject} {form : String → Prop} [DecidablePred form]
  (hfits : ∀ id, subject.fits id = .ok (decide (form id)))

include hfits

theorem ids_of_mapM_entries {kinds : List String} :
    ∀ {entries : Entries} {found : List (List Relative)}, (entries.mapM fun entry => do
      let id ← idText entry.1
      if ← subject.fits id then listedAll manifest kinds entry.2 else return []) = .ok found →
    found.flatten.map Relative.id =
      entries.flatMap fun e => if KeyOf form e.1 then wantedIds kinds e.2 else [] := by
  intro entries
  induction entries with
  | nil => intro found h; cases h; rfl
  | cons e entries ih =>
    intro found h
    obtain ⟨first, rest, hfirst, hrest, rfl⟩ := mapM_cons_eq_ok_iff.mp h
    rw [List.flatten_cons, List.map_append, List.flatMap_cons, ih hrest]
    congr 1
    obtain ⟨key, hkey, hfirst⟩ := bind_eq_ok_iff.mp hfirst
    rw [hfits, ok_bind] at hfirst
    have hiff : KeyOf form e.1 ↔ form key := by
      rw [idText_eq_ok hkey]
      rfl
    by_cases hform : form key
    · rw [decide_eq_true hform, if_pos rfl] at hfirst
      rw [if_pos (hiff.mpr hform), ids_of_listedAll hfirst]
    · rw [decide_eq_false hform, if_neg (by decide)] at hfirst
      cases hfirst
      rw [if_neg (mt hiff.mp hform), List.map_nil]

theorem ids_of_lineage {lineage : String} {kinds : List String} {rs : List Relative}
    (h : relatives manifest subject lineage kinds = .ok rs) :
    rs.map Relative.id = listedUnder manifest lineage form kinds := by
  obtain ⟨entries, hentries, h⟩ := bind_eq_ok_iff.mp h
  obtain ⟨found, hfound, h⟩ := bind_eq_ok_iff.mp h
  cases h
  rw [listedUnder, hentries, ids_of_mapM_entries hfits hfound]
  rfl

theorem ids_of_fitting {kinds : List String} {rs : List Relative}
    (h : relatives manifest subject "child_map" kinds = .ok rs) :
    rs.map Relative.id = idsUnder manifest form kinds :=
  ids_of_lineage hfits h

end

/-- **What is found for a table**: what is listed under the ids that have its names. -/
theorem ids_of_relatives {source table : String}
    (h : relatives manifest (.sourceTable (.str source) (.str table)) "child_map" kinds = .ok rs) :
    rs.map Relative.id = idsUnder manifest (HasNames source table) kinds :=
  ids_of_fitting (fits_sourceTable source table) h

/-- Two selections of lists give the same elements just if the lists that only the larger one
selects are empty. -/
theorem flatMap_ite_eq_iff {α β : Type} {p q : α → Prop} [DecidablePred p] [DecidablePred q]
    {f : α → List β} (himp : ∀ a, q a → p a) : ∀ l : List α,
      ((l.flatMap fun a => if p a then f a else []) = l.flatMap fun a => if q a then f a else []) ↔
        ∀ a ∈ l, p a → ¬ q a → f a = [] := by
  have hle : ∀ l : List α, (l.flatMap fun a => if q a then f a else []).length ≤
      (l.flatMap fun a => if p a then f a else []).length := by
    intro l
    induction l with
    | nil => exact Nat.le_refl 0
    | cons a l ih =>
      rw [List.flatMap_cons, List.flatMap_cons, List.length_append, List.length_append]
      refine Nat.add_le_add ?_ ih
      by_cases hq : q a
      · exact Nat.le_of_eq (by rw [if_pos hq, if_pos (himp a hq)])
      · rw [if_neg hq]
        exact Nat.zero_le _
  intro l
  induction l with
  | nil => simp
  | cons a l ih =>
    rw [List.flatMap_cons, List.flatMap_cons, List.forall_mem_cons, ← ih]
    by_cases hq : q a
    · simp [hq, himp a hq]
    · by_cases hp : p a
      · rw [if_pos hp, if_neg hq, List.nil_append]
        constructor
        · intro h
          have hlen := congrArg List.length h
          rw [List.length_append] at hlen
          have hnil : f a = [] := List.eq_nil_of_length_eq_zero (by have := hle l; omega)
          rw [hnil, List.nil_append] at h
          exact ⟨fun _ _ => hnil, h⟩
        · rintro ⟨ha, h⟩
          rw [ha hp hq, List.nil_append, h]
      · simp [hq, hp]

/-! ### Tests -/

/-- Whatever is found was looked up as a node of a wanted kind. -/
theorem relative_of_mem {lineage : String} (h : relatives manifest subject lineage kinds = .ok rs)
    {r : Relative} (hr : r ∈ rs) : ∃ kind ∈ kinds, ∃ id, relative manifest kind id = .ok r := by
  obtain ⟨entries, -, h⟩ := bind_eq_ok_iff.mp h
  obtain ⟨found, hfound, h⟩ := bind_eq_ok_iff.mp h
  cases h
  obtain ⟨part, hpart, hr⟩ := List.mem_flatten.mp hr
  obtain ⟨e, -, he⟩ := mem_of_mapM hfound part hpart
  obtain ⟨key, -, he⟩ := bind_eq_ok_iff.mp he
  obtain ⟨fits, -, he⟩ := bind_eq_ok_iff.mp he
  split at he
  · obtain ⟨items, -, he⟩ := bind_eq_ok_iff.mp he
    obtain ⟨some?, hlisted, he⟩ := bind_eq_ok_iff.mp he
    cases he
    obtain ⟨x, hx, rfl⟩ := List.mem_filterMap.mp hr
    obtain ⟨item, -, hitem⟩ := mem_of_mapM hlisted _ hx
    unfold listed at hitem
    obtain ⟨id, -, hitem⟩ := bind_eq_ok_iff.mp hitem
    dsimp only at hitem
    split at hitem
    · rename_i hkind
      obtain ⟨found, hrel, hitem⟩ := bind_eq_ok_iff.mp hitem
      cases hitem
      exact ⟨_, List.contains_iff_mem.mp hkind, id, hrel⟩
    · cases hitem
  · cases he
    cases hr

theorem ids_of_testsOf {tests : List Test} (h : testsOf manifest subject = .ok tests) :
    ∃ rs, relatives manifest subject "child_map" ["test"] = .ok rs ∧
      tests.map (·.id) = rs.map Relative.id := by
  obtain ⟨rs, hrs, h⟩ := bind_eq_ok_iff.mp h
  cases h
  refine ⟨rs, hrs, ?_⟩
  have hall : ∀ r ∈ rs, ∃ t, r = .test t := by
    intro r hr
    obtain ⟨kind, hkind, id, hrel⟩ := relative_of_mem hrs hr
    rw [List.mem_singleton.mp hkind, relative, if_pos (by decide)] at hrel
    obtain ⟨t, -, hrel⟩ := bind_eq_ok_iff.mp hrel
    cases hrel
    exact ⟨t, rfl⟩
  clear hrs h
  induction rs with
  | nil => rfl
  | cons r rs ih =>
    obtain ⟨t, rfl⟩ := hall r List.mem_cons_self
    rw [List.map_cons, ← ih fun r hr => hall r (List.mem_cons_of_mem _ hr)]
    rfl

theorem findTest_of_testsOf {tests : List Test} (h : testsOf manifest subject = .ok tests)
    {t : Test} (ht : t ∈ tests) :
    findTest manifest t.id = .ok t := by
  obtain ⟨rs, hrs, h⟩ := bind_eq_ok_iff.mp h
  cases h
  obtain ⟨r, hr, hrt⟩ := List.mem_filterMap.mp ht
  obtain ⟨kind, hkind, id, hrel⟩ := relative_of_mem hrs hr
  have hid := id_of_relative hrel
  rw [List.mem_singleton.mp hkind, relative, if_pos (by decide)] at hrel
  obtain ⟨found, hfound, hrel⟩ := bind_eq_ok_iff.mp hrel
  cases hrel
  cases hrt
  rw [← hid] at hfound
  exact hfound

/-! ### Credit -/

/-- **When a table is credited with its own children only.**  Take what the lineage lists for a
source table.  It is listed under ids of the table just if everything under a mistaken id is listed
under an id of the table as well.  It is what is listed under ids of the table, and nothing more,
just if nothing is listed under a mistaken id; and the same is true of the tests that the checks
count. -/
theorem relatives_own_iff {manifest : Value} {source table : String} {kinds : List String}
    {rs : List Relative}
    (h : relatives manifest (.sourceTable (.str source) (.str table)) "child_map" kinds = .ok rs) :
    ((∀ r ∈ rs, r.id ∈ idsUnder manifest (IsTableId source table) kinds) ↔
      ∀ e ∈ childMap manifest, KeyOf (Mistaken source table) e.1 →
        ∀ id ∈ wantedIds kinds e.2, id ∈ idsUnder manifest (IsTableId source table) kinds) ∧
    (rs.map Relative.id = idsUnder manifest (IsTableId source table) kinds ↔
      ∀ e ∈ childMap manifest, KeyOf (Mistaken source table) e.1 → wantedIds kinds e.2 = []) ∧
    ∀ tests, testsOf manifest (.sourceTable (.str source) (.str table)) = .ok tests →
      (tests.map (·.id) = idsUnder manifest (IsTableId source table) ["test"] ↔
        ∀ e ∈ childMap manifest, KeyOf (Mistaken source table) e.1 →
          wantedIds ["test"] e.2 = []) := by
  have hexact : ∀ kinds, idsUnder manifest (HasNames source table) kinds =
      idsUnder manifest (IsTableId source table) kinds ↔
        ∀ e ∈ childMap manifest, KeyOf (Mistaken source table) e.1 → wantedIds kinds e.2 = [] := by
    intro kinds
    rw [idsUnder, idsUnder, flatMap_ite_eq_iff fun e => KeyOf.mono fun _ => IsTableId.hasNames]
    refine forall₂_congr fun e _ => ?_
    rw [keyOf_mistaken_iff, and_imp]
  refine ⟨?_, by rw [ids_of_relatives h, hexact], fun tests htests => ?_⟩
  · have hmem : (∀ r ∈ rs, r.id ∈ idsUnder manifest (IsTableId source table) kinds) ↔
        ∀ id ∈ idsUnder manifest (HasNames source table) kinds,
          id ∈ idsUnder manifest (IsTableId source table) kinds := by
      rw [← ids_of_relatives h, List.forall_mem_map]
    rw [hmem]
    constructor
    · intro hall e he hkey id hid
      exact hall id (mem_idsUnder.mpr ⟨e, he, (keyOf_mistaken_iff.mp hkey).1, hid⟩)
    · intro hall id hid
      obtain ⟨e, he, hkey, hid⟩ := mem_idsUnder.mp hid
      by_cases htable : KeyOf (IsTableId source table) e.1
      · exact mem_idsUnder.mpr ⟨e, he, htable, hid⟩
      · exact hall e he (keyOf_mistaken_iff.mpr ⟨hkey, htable⟩) id hid
  · obtain ⟨rs', hrs', hids⟩ := ids_of_testsOf htests
    rw [hids, ids_of_relatives hrs', hexact]

/-! ### Two tables with each other's names -/

/-- A manifest with two sources, each with a table named like the other source, where only the
second is tested. -/
def exchanged : Value :=
  .record [("nodes", .record [("test.p.unique",
    .record [("test_metadata", .record [("name", .str "unique")])])]),
    ("child_map", .record [("source.p.a.b", .seq []),
      ("source.p.b.a", .seq [.str "test.p.unique"])])]

/-- The table that is tested is credited with its test, and with nothing else. -/
theorem relatives_exchanged_ba : ∃ rs,
    relatives exchanged (.sourceTable (.str "b") (.str "a")) "child_map" ["test"] = .ok rs ∧
      rs.map Relative.id = ["test.p.unique"] ∧
      ∀ r ∈ rs, r.id ∈ idsUnder exchanged (IsTableId "b" "a") ["test"] := by
  refine ⟨_, rfl, rfl, (relatives_own_iff rfl).1.mpr ?_⟩
  decide +kernel

/-- The table that is not tested is credited with the test of the other one. -/
theorem relatives_exchanged_ab : ∃ rs,
    relatives exchanged (.sourceTable (.str "a") (.str "b")) "child_map" ["test"] = .ok rs ∧
      rs.map Relative.id = ["test.p.unique"] ∧
      idsUnder exchanged (IsTableId "a" "b") ["test"] = [] :=
  ⟨_, rfl, rfl, by decide +kernel⟩

end ProjectLint
