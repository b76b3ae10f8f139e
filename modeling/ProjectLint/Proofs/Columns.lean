import Mathlib.Logic.Function.Basic
import ProjectLint.Fixes.Wording
import ProjectLint.Proofs.Outcomes
import ProjectLint.Proofs.Yaml.ReadBack
import ProjectLint.Proofs.Yaml.Rewording

/-!
# Columns of a document

The column entries of a property file with the places where they stand (`columnsIn`), the document
in which all of them are as they should be (`WellFormed`), and what it is to put a description on
the columns of one name: **one rewording**, at the places of these columns and at all that share
them (`describe_eq`).  It is a rewording of the column entries alone just if what shares them is a
column entry too (`reword_entries_iff`).
-/

namespace ProjectLint.Wording

open Yaml

/-! ### Entries and their places -/

/-- The parts of a sequence or pair, which can be told by their places. -/
def parts : Value → List Value
  | .seq items => items
  | .pair first second => [first, second]
  | _ => []

def itemsUnder (key : String) (v : Value) : List (Place × Value) :=
  match Document.fieldIndex? v key with
  | some n => (((valueAt? v [n]).map parts).getD []).mapIdx fun i item => ([n, i], item)
  | none => []

/-- **The column entries of a document**, with their places. -/
def columnsIn (root : Value) : List (Place × Value) :=
  (itemsUnder "models" root).flatMap fun m => (itemsUnder "columns" m.2).map fun c =>
    (m.1 ++ c.1, c.2)

def nameOf (column : Value) : String :=
  match column.field "name" with
  | .ok (.scalar (.str s)) => s
  | _ => ""

def descriptionOf (column : Value) : Option String :=
  match column.field "description" with
  | .ok (.scalar (.str s)) => some s
  | _ => none

def IsColumn (column : Value) : Prop :=
  ∃ fields name, column = .map fields ∧ Entries.get? fields "name" = some (.str name) ∧
    ∀ d, Entries.get? fields "description" = some d → d.isPlain = true

def IsModel (model : Value) : Prop :=
  ∃ fields name, model = .map fields ∧ Entries.get? fields "name" = some name ∧ name.truthy = true

/-- **A document in order**: its model entries are models and their column entries are columns. -/
structure WellFormed (root : Value) : Prop where
  model : ∀ models, sectionItems root "models" = .ok models → ∀ m ∈ models, IsModel m
  column : ∀ models, sectionItems root "models" = .ok models → ∀ m ∈ models,
    ∀ columns, sectionItems m "columns" = .ok columns → ∀ c ∈ columns, IsColumn c

/-! ### Lists under a key -/

theorem valueAt?_parts : ∀ {v : Value} {i : Nat} {x : Value}, (parts v)[i]? = some x →
    valueAt? v [i] = some x := by
  intro v i x h
  cases v with
  | seq items =>
    have hitem : items[i]? = some x := h
    rw [valueAt?_seq hitem, valueAt?]
  | pair first second =>
    rw [valueAt?]
    rcases i with _ | _ | i
    · rw [if_pos rfl, valueAt?]
      exact h
    · rw [if_neg (by decide), if_pos rfl, valueAt?]
      exact h
    · cases h
  | map entries => simp [parts] at h
  | scalar s => simp [parts] at h
  | set members => simp [parts] at h
  | enclosing shape => simp [parts] at h

variable {v root : Value} {key : String} {c : Place × Value} {g : Place → Option String}

theorem valueAt?_of_mem_itemsUnder (h : c ∈ itemsUnder key v) : valueAt? v c.1 = some c.2 := by
  unfold itemsUnder at h
  split at h
  · rename_i n _
    obtain ⟨i, hi⟩ := List.mem_iff_getElem?.mp h
    rw [List.getElem?_mapIdx, Option.map_eq_some_iff] at hi
    obtain ⟨x, hx, rfl⟩ := hi
    cases hw : valueAt? v [n] with
    | none => simp [hw] at hx
    | some w =>
      rw [hw] at hx
      change valueAt? v ([n] ++ [i]) = some x
      rw [valueAt?_append, hw, Option.bind_some]
      exact valueAt?_parts hx
  · cases h

theorem valueAt?_of_mem_columnsIn (h : c ∈ columnsIn root) : valueAt? root c.1 = some c.2 := by
  obtain ⟨m, hm, hc⟩ := List.mem_flatMap.mp h
  obtain ⟨c', hc', rfl⟩ := List.mem_map.mp hc
  rw [valueAt?_append, valueAt?_of_mem_itemsUnder hm, Option.bind_some,
    valueAt?_of_mem_itemsUnder hc']

/-! ### Columns of a reworded document -/

theorem parts_reword (g : Place → Option String) (v : Value) :
    parts (rebuild g v) = (parts v).mapIdx fun i x => rebuild (fun q => g (i :: q)) x := by
  cases v with
  | seq items =>
    rw [reword_seq]
    refine List.ext_getElem? fun i => ?_
    rw [parts, parts, getElem?_rebuildItems, List.getElem?_mapIdx, Nat.zero_add]
  | pair first second => rw [rebuild]; rfl
  | map entries => rw [rebuild]; rfl
  | scalar s => rw [rebuild]; rfl
  | set members => rw [rebuild]; rfl
  | enclosing shape => rw [rebuild]; rfl

theorem itemsUnder_reword (g : Place → Option String) (hkey : key ≠ "description") (v : Value) :
    itemsUnder key (rebuild g v) = (itemsUnder key v).map fun c =>
      (c.1, rebuild (fun q => g (c.1 ++ q)) c.2) := by
  unfold itemsUnder
  rw [fieldIndex?_reword g hkey]
  cases hn : Document.fieldIndex? v key with
  | none => rfl
  | some n =>
    dsimp only
    rw [valueAt?_field_reword g hkey hn]
    cases valueAt? v [n] with
    | none => rfl
    | some w =>
      simp only [Option.map_some, Option.getD_some, parts_reword]
      refine List.ext_getElem? fun i => ?_
      simp [Function.comp_def]

/-- **A rewording keeps the columns in their places.** -/
theorem columnsIn_reword (g : Place → Option String) (root : Value) :
    columnsIn (rebuild g root) = (columnsIn root).map fun c =>
      (c.1, rebuild (fun q => g (c.1 ++ q)) c.2) := by
  unfold columnsIn
  rw [itemsUnder_reword g (by decide), List.flatMap_map, List.map_flatMap]
  congr 1
  funext m
  rw [itemsUnder_reword _ (by decide), List.map_map, List.map_map]
  congr 1
  funext c
  simp

/-! ### Lists that can be walked -/

/-- Under the key stands a list, or nothing that has an item. -/
structure Lists (key : String) (v : Value) : Prop where
  mapping : ∃ entries, v = .map entries
  items : ∀ n w, Document.fieldIndex? v key = some n → valueAt? v [n] = some w →
    w.items = .ok (parts w)

theorem fieldD_eq (entries : Entries) (key : String) (default : Value) :
    (Value.map entries).fieldD key default =
      .ok (((Document.fieldIndex? (.map entries) key).bind fun n =>
        valueAt? (.map entries) [n]).getD default) := by
  rw [← get?_eq_valueAt?]
  rfl

theorem Lists.sectionItems_eq (h : Lists key v) :
    sectionItems v key = .ok ((itemsUnder key v).map (·.2)) := by
  obtain ⟨entries, rfl⟩ := h.mapping
  rw [sectionItems, fieldD_eq, ok_bind, itemsUnder]
  cases hn : Document.fieldIndex? (.map entries) key with
  | none => rfl
  | some n =>
    dsimp only
    rw [Option.bind_some]
    cases hw : valueAt? (.map entries) [n] with
    | none => rfl
    | some w =>
      rw [Option.getD_some, h.items n w hn hw, Option.map_some, Option.getD_some]
      congr 1
      refine List.ext_getElem? fun i => ?_
      simp [Function.comp_def]

theorem items_eq_parts {xs : List Value} (h : v.items = .ok xs)
    (hmaps : ∀ x ∈ xs, ∃ fields, x = Value.map fields) :
    v.items = .ok (parts v) := by
  have hnone : ∀ {α : Type} (as : List α) (f : α → Scalar),
      (∀ x ∈ as.map fun a => Value.scalar (f a), ∃ fields, x = Value.map fields) → as = [] := by
    intro α as f hall
    cases as with
    | nil => rfl
    | cons a as =>
      obtain ⟨fields, hf⟩ := hall _ List.mem_cons_self
      cases hf
  cases v with
  | seq items => rfl
  | pair first second => rfl
  | map entries =>
    cases h
    rw [hnone entries (·.1) hmaps]
    rfl
  | set members =>
    cases h
    rw [hnone members id hmaps]
    rfl
  | scalar s =>
    cases s with
    | str text =>
      cases h
      rw [Value.items, hnone text.toList (fun c => .str (String.singleton c)) hmaps]
      rfl
    | bytes b =>
      cases h
      rw [Value.items, hnone b (fun n => .int n.toNat) hmaps]
      rfl
    | _ => cases h
  | enclosing shape => cases h

theorem lists_of_sectionItems {xs : List Value} (h : sectionItems v key = .ok xs)
    (hmaps : ∀ x ∈ xs, ∃ fields, x = Value.map fields) : Lists key v := by
  obtain ⟨w₀, hfield, hitems⟩ := bind_eq_ok_iff.mp h
  obtain ⟨entries, rfl⟩ := isMapping_of_fieldD hfield
  refine ⟨⟨entries, rfl⟩, fun n w hn hw => ?_⟩
  rw [fieldD_eq, hn, Option.bind_some, hw] at hfield
  cases hfield
  exact items_eq_parts hitems hmaps

/-! ### Documents in order -/

/-- What a document in order that can be walked is like. -/
structure Tidy (root : Value) : Prop where
  models : Lists "models" root
  columns : ∀ m ∈ itemsUnder "models" root, Lists "columns" m.2
  isColumn : ∀ c ∈ columnsIn root, IsColumn c.2

theorem IsModel.mapping {m : Value} (h : IsModel m) : ∃ fields, m = .map fields := by
  obtain ⟨fields, name, rfl, -⟩ := h
  exact ⟨fields, rfl⟩

theorem IsColumn.mapping {c : Value} (h : IsColumn c) : ∃ fields, c = .map fields := by
  obtain ⟨fields, name, rfl, -⟩ := h
  exact ⟨fields, rfl⟩

/-- A document whose model entries are mappings and whose column entries are columns; a model need
not have a name. -/
structure Described (root : Value) : Prop where
  model : ∀ models, sectionItems root "models" = .ok models →
    ∀ m ∈ models, ∃ fields, m = Value.map fields
  column : ∀ models, sectionItems root "models" = .ok models → ∀ m ∈ models,
    ∀ columns, sectionItems m "columns" = .ok columns → ∀ c ∈ columns, IsColumn c

theorem WellFormed.described (h : WellFormed root) : Described root :=
  ⟨fun models hmodels m hm => (h.model models hmodels m hm).mapping, h.column⟩

theorem Described.tidy (h : Described root) {models : List Value}
    (hmodels : sectionItems root "models" = .ok models)
    (hcolumns : ∀ m ∈ models, ∃ columns, sectionItems m "columns" = .ok columns) : Tidy root := by
  have hlists : Lists "models" root := lists_of_sectionItems hmodels (h.model models hmodels)
  have hmem : ∀ m ∈ itemsUnder "models" root, m.2 ∈ models := by
    intro m hm
    have heq := Except.ok.inj (hmodels.symm.trans hlists.sectionItems_eq)
    rw [heq]
    exact List.mem_map.mpr ⟨m, hm, rfl⟩
  have hinner : ∀ m ∈ itemsUnder "models" root, Lists "columns" m.2 := by
    intro m hm
    obtain ⟨columns, hc⟩ := hcolumns m.2 (hmem m hm)
    exact lists_of_sectionItems hc fun c hin =>
      (h.column models hmodels m.2 (hmem m hm) columns hc c hin).mapping
  refine ⟨hlists, hinner, fun c hc => ?_⟩
  obtain ⟨m, hm, hc⟩ := List.mem_flatMap.mp hc
  obtain ⟨c', hc', rfl⟩ := List.mem_map.mp hc
  exact h.column models hmodels m.2 (hmem m hm) _ (hinner m hm).sectionItems_eq c'.2
    (List.mem_map.mpr ⟨c', hc', rfl⟩)

/-! ### Rewording a document in order -/

def Grounded (g : Place → Option String) (v : Value) : Prop :=
  ∀ q d, g q = some d → valueAt? v q ≠ some (.map [])

theorem items_reword (hg : Grounded g v) (h : v.items = .ok (parts v)) :
    (rebuild g v).items = .ok (parts (rebuild g v)) := by
  cases v with
  | seq items => rw [rebuild]; rfl
  | pair first second => rw [rebuild]; rfl
  | map entries =>
    have hnil : entries = [] := List.map_eq_nil_iff.mp (Except.ok.inj h)
    subst hnil
    have hnone : g [] = none := by
      cases hd : g [] with
      | none => rfl
      | some d => exact absurd (by rw [valueAt?]) (hg [] d hd)
    rw [reword_map, hnone]
    rfl
  | scalar s => rw [rebuild]; exact h
  | set members => rw [rebuild]; exact h
  | enclosing shape => rw [rebuild]; exact h

theorem Grounded.below {w : Value} {p : Place} (hg : Grounded g v) (hw : valueAt? v p = some w) :
    Grounded (fun q => g (p ++ q)) w := by
  intro q d hd hnil
  refine hg (p ++ q) d hd ?_
  rw [valueAt?_append, hw, Option.bind_some, hnil]

theorem Lists.reword (hkey : key ≠ "description") (hg : Grounded g v) (h : Lists key v) :
    Lists key (rebuild g v) := by
  refine ⟨?_, fun n w hn hw => ?_⟩
  · obtain ⟨entries, rfl⟩ := h.mapping
    exact ⟨_, reword_map g entries⟩
  · rw [fieldIndex?_reword g hkey] at hn
    rw [valueAt?_field_reword g hkey hn, Option.map_eq_some_iff] at hw
    obtain ⟨w₀, hw₀, rfl⟩ := hw
    exact items_reword (hg.below hw₀) (h.items n w₀ hn hw₀)

theorem isPlain_reword (g : Place → Option String) (h : v.isPlain = true) : rebuild g v = v := by
  rcases Value.eq_of_isPlain h with rfl | ⟨s, rfl⟩
  · rw [Value.null, rebuild]
  · rw [Value.str, rebuild]

theorem IsColumn.reword (g : Place → Option String) {c : Value} (h : IsColumn c) :
    IsColumn (rebuild g c) := by
  obtain ⟨fields, name, rfl, hname, hdesc⟩ := h
  refine ⟨_, name, reword_map g fields, get?_reword g (by decide) hname, fun d hd => ?_⟩
  rw [get?_description_reword] at hd
  split at hd
  · obtain rfl := Option.some.inj hd
    rfl
  · obtain ⟨n, hn, hd⟩ := Option.bind_eq_some_iff.mp hd
    obtain ⟨d₀, hd₀, rfl⟩ := Option.map_eq_some_iff.mp hd
    have hplain : d₀.isPlain = true := hdesc d₀ (by rw [get?_eq_valueAt?, hn]; exact hd₀)
    rw [isPlain_reword _ hplain]
    exact hplain

theorem nameOf_eq {fields : Entries} {name : String}
    (h : Entries.get? fields "name" = some (.str name)) :
    nameOf (.map fields) = name := by
  simp [nameOf, Value.field, Value.fieldD, Value.field?, h]

def textOf : Option Value → Option String
  | some (.scalar (.str s)) => some s
  | _ => none

theorem eq_of_textOf {v : Option Value} {s : String} (h : textOf v = some s) :
    v = some (.str s) := by
  unfold textOf at h
  split at h
  · rw [Option.some.inj h]
  · cases h

instance : DecidablePred IsModel
  | .map fields =>
    decidable_of_iff ((Entries.get? fields "name").any Value.truthy = true) (by
      rw [Option.any_eq_true]
      constructor
      · rintro ⟨name, hname, htruthy⟩
        exact ⟨fields, name, rfl, hname, htruthy⟩
      · rintro ⟨_, name, h, hname, htruthy⟩
        cases h
        exact ⟨name, hname, htruthy⟩)
  | .scalar _ | .seq _ | .set _ | .pair _ _ | .enclosing _ => isFalse fun ⟨_, _, h, _⟩ => nomatch h

instance : DecidablePred IsColumn
  | .map fields =>
    decidable_of_iff ((textOf (Entries.get? fields "name")).isSome = true ∧
        (Entries.get? fields "description").all Value.isPlain = true) (by
      rw [Option.isSome_iff_exists, Option.all_eq_true]
      constructor
      · rintro ⟨⟨name, hname⟩, hplain⟩
        exact ⟨fields, name, rfl, eq_of_textOf hname, hplain⟩
      · rintro ⟨_, name, h, hname, hplain⟩
        cases h
        exact ⟨⟨name, by rw [hname]; rfl⟩, hplain⟩)
  | .scalar _ | .seq _ | .set _ | .pair _ _ | .enclosing _ => isFalse fun ⟨_, _, h, _⟩ => nomatch h

instance decidableForallOk {ε α : Type} {outcome : Except ε α} {P : α → Prop}
    [∀ a, Decidable (P a)] : Decidable (∀ a, outcome = .ok a → P a) :=
  match outcome with
  | .ok a => decidable_of_iff (P a) ⟨fun h _ hb => Except.ok.inj hb ▸ h, fun h => h a rfl⟩
  | .error _ => isTrue fun _ h => nomatch h

instance (root : Value) : Decidable (WellFormed root) :=
  decidable_of_iff ((∀ models, sectionItems root "models" = .ok models → ∀ m ∈ models, IsModel m) ∧
      ∀ models, sectionItems root "models" = .ok models → ∀ m ∈ models,
        ∀ columns, sectionItems m "columns" = .ok columns → ∀ c ∈ columns, IsColumn c)
    ⟨fun h => ⟨h.1, h.2⟩, fun h => ⟨h.model, h.column⟩⟩

theorem descriptionOf_eq (fields : Entries) :
    descriptionOf (.map fields) = textOf (Entries.get? fields "description") := by
  rw [descriptionOf, Value.field, Value.fieldD, Value.field?]
  cases Entries.get? fields "description" with
  | none => rfl
  | some v =>
    cases v with
    | scalar s => cases s <;> rfl
    | seq items => rfl
    | map entries => rfl
    | set members => rfl
    | pair first second => rfl
    | enclosing shape => rfl

theorem nameOf_reword (g : Place → Option String) {c : Value} (h : IsColumn c) :
    nameOf (rebuild g c) = nameOf c := by
  obtain ⟨fields, name, rfl, hname, -⟩ := h
  rw [reword_map, nameOf_eq hname, nameOf_eq (get?_reword g (by decide) hname)]

theorem descriptionOf_reword (g : Place → Option String) {c : Value} (h : IsColumn c) :
    descriptionOf (rebuild g c) = (g []).or (descriptionOf c) := by
  obtain ⟨fields, name, rfl, -, hdesc⟩ := h
  rw [reword_map, descriptionOf_eq, descriptionOf_eq, get?_description_reword]
  cases g [] with
  | some d => rfl
  | none =>
    rw [get?_eq_valueAt?] at hdesc ⊢
    cases hn : Document.fieldIndex? (.map fields) "description" with
    | none => rfl
    | some n =>
      rw [hn, Option.bind_some] at hdesc
      simp only [Option.bind_some]
      cases hd : valueAt? (.map fields) [n] with
      | none => rfl
      | some d => simp only [Option.map_some, isPlain_reword _ (hdesc d hd), Option.none_or]

theorem Tidy.reword (hg : Grounded g root) (h : Tidy root) : Tidy (rebuild g root) := by
  refine ⟨h.models.reword (by decide) hg, fun m hm => ?_, fun c hc => ?_⟩
  · rw [itemsUnder_reword g (by decide)] at hm
    obtain ⟨m₀, hm₀, rfl⟩ := List.mem_map.mp hm
    exact (h.columns m₀ hm₀).reword (by decide) (hg.below (valueAt?_of_mem_itemsUnder hm₀))
  · rw [columnsIn_reword] at hc
    obtain ⟨c₀, hc₀, rfl⟩ := List.mem_map.mp hc
    exact (h.isColumn c₀ hc₀).reword _

/-! ### The places of the columns of a name -/

theorem itemsUnder_eq_zipIdx (key : String) (v : Value) :
    itemsUnder key v = (((itemsUnder key v).map (·.2)).zipIdx).map fun x =>
      ((Document.fieldIndex? v key).toList ++ [x.2], x.1) := by
  unfold itemsUnder
  cases Document.fieldIndex? v key with
  | none => rfl
  | some n =>
    refine List.ext_getElem? fun i => ?_
    simp [Function.comp_def]

theorem columnsIn_eq (root : Value) (f : Place × Value → List Place) :
    (columnsIn root).flatMap f = (itemsUnder "models" root).flatMap fun m =>
      (itemsUnder "columns" m.2).flatMap fun c => f (m.1 ++ c.1, c.2) := by
  rw [columnsIn, List.flatMap_assoc]
  simp only [List.flatMap_map]

def placesNamed (root : Value) (name : String) : List Place :=
  (columnsIn root).flatMap fun c => if nameOf c.2 = name then [c.1] else []

theorem field_name {c : Value} (h : IsColumn c) : c.field "name" = .ok (.str (nameOf c)) := by
  obtain ⟨fields, name, rfl, hname, -⟩ := h
  rw [nameOf_eq hname]
  simp [Value.field, Value.fieldD, Value.field?, hname]

theorem sectionItems_bind {α : Type} (v : Value) (key : String) (f : List Value → Except Fault α) :
    (do
      let w ← v.fieldD key (.seq [])
      f (← w.items)) = sectionItems v key >>= f := by
  rw [sectionItems, bind_assoc]

/-- The columns of a name among the columns of one model. -/
theorem placesOf_model {m : Value} (above : Place) (name : String) (hlists : Lists "columns" m)
    (hcolumns : ∀ c ∈ itemsUnder "columns" m, IsColumn c.2) :
    (do
      let columns ← m.fieldD "columns" (.seq [])
      let inside := (Document.fieldIndex? m "columns").toList
      let inModel ← ((← columns.items).zipIdx).mapM fun (column, c) => do
        return if (Value.str name).same (← column.field "name") then [above ++ inside ++ [c]]
          else []
      return inModel.flatten : Except Fault (List Place)) =
      .ok ((itemsUnder "columns" m).flatMap fun c => if nameOf c.2 = name then [above ++ c.1]
        else []) := by
  refine (sectionItems_bind m "columns" _).trans ?_
  rw [hlists.sectionItems_eq, ok_bind]
  have hwalk : ((((itemsUnder "columns" m).map (·.2)).zipIdx).mapM fun (x : Value × Nat) => do
      return if (Value.str name).same (← x.1.field "name") then
        [above ++ (Document.fieldIndex? m "columns").toList ++ [x.2]] else [] :
          Except Fault (List (List Place))) =
      .ok ((((itemsUnder "columns" m).map (·.2)).zipIdx).map fun x =>
        if nameOf x.1 = name then [above ++ (Document.fieldIndex? m "columns").toList ++ [x.2]]
        else []) := by
    refine mapM_eq_ok_map fun x hx => ?_
    obtain ⟨c, hc, hcx⟩ := List.mem_map.mp (List.fst_mem_of_mem_zipIdx hx)
    have hcolumn : IsColumn x.1 := hcx ▸ hcolumns c hc
    rw [field_name hcolumn, ok_bind]
    by_cases hname : nameOf x.1 = name
    · rw [if_pos hname, if_pos (by simp [Value.same, Scalar.same, hname])]
      rfl
    · rw [if_neg hname, if_neg (by simp [Value.same, Scalar.same, Ne.symm hname])]
      rfl
  refine (congrArg (· >>= fun inModel : List (List Place) => pure inModel.flatten) hwalk).trans ?_
  rw [ok_bind]
  congr 1
  rw [← List.flatMap_def]
  conv_rhs => rw [itemsUnder_eq_zipIdx, List.flatMap_map]
  simp only [List.append_assoc]

variable {d : Document}

theorem placesOf_eq (h : Tidy d.root) (name : String) :
    placesOf d (.str name) = .ok (placesNamed d.root name) := by
  unfold placesOf
  refine (sectionItems_bind d.root "models" _).trans ?_
  rw [h.models.sectionItems_eq, ok_bind]
  rw [mapM_eq_ok_map (g := fun x => (itemsUnder "columns" x.1).flatMap fun c =>
    if nameOf c.2 = name then [(Document.fieldIndex? d.root "models").toList ++ [x.2] ++ c.1]
    else [])]
  · rw [ok_bind]
    refine congrArg Except.ok ?_
    rw [placesNamed, columnsIn_eq, ← List.flatMap_def]
    conv_rhs => rw [itemsUnder_eq_zipIdx, List.flatMap_map]
  · intro x hx
    obtain ⟨m, hm, hmx⟩ := List.mem_map.mp (List.fst_mem_of_mem_zipIdx hx)
    obtain ⟨model, i⟩ := x
    obtain rfl : m.2 = model := hmx
    refine placesOf_model _ name (h.columns m hm) fun c hc => ?_
    exact h.isColumn (m.1 ++ c.1, c.2) (List.mem_flatMap.mpr ⟨m, hm, List.mem_map.mpr ⟨c, hc, rfl⟩⟩)

/-! ### Describing the columns of a name -/

theorem forget_eq_self {places : List Place} (h : ∀ s ∈ d.shares, ∀ p ∈ places, ¬ p <+: s.1) :
    d.forget places = d := by
  have hall : d.shares.filter (fun s => !(places.any fun p => p.isPrefixOf s.1)) = d.shares := by
    refine List.filter_eq_self.mpr fun s hs => ?_
    rw [Bool.not_eq_true', List.any_eq_false]
    intro p hp hpre
    exact h s hs p hp (List.isPrefixOf_iff_prefix.mp hpre)
  rw [Document.forget, hall]

/-- **No share lies below the description of a column**, here or where the column is shared. -/
theorem not_prefix_of_mem_shares (hd : d.Coherent) (htidy : Tidy d.root) (hc : c ∈ columnsIn d.root)
    {n : Nat} (hn : Document.fieldIndex? (rebuild g c.2) "description" = some n) :
    ∀ s ∈ d.shares, ∀ p ∈ (d.aliases c.1).map (· ++ [n]), ¬ p <+: s.1 := by
  rintro s hs p hp ⟨rest, hrest⟩
  obtain ⟨q, hq, rfl⟩ := List.mem_map.mp hp
  obtain ⟨fields, name, hfields, -, hdesc⟩ := htidy.isColumn c hc
  obtain ⟨v, hv, hplain⟩ := hd.part s hs
  rw [← hrest, List.append_assoc, valueAt?_append, Option.bind_eq_some_iff] at hv
  obtain ⟨w, hw, hv⟩ := hv
  have hcolumn : valueAt? d.root c.1 = some (.map fields) := by
    rw [valueAt?_of_mem_columnsIn hc, hfields]
  rcases hd.value_of_mem_aliases hcolumn rfl hq hw with rfl | he
  · rw [valueAt?_append, Option.bind_eq_some_iff] at hv
    obtain ⟨u, hu, hv⟩ := hv
    have hu' : u.isPlain = true := by
      have hlt : n < fields.length := by
        by_contra hge
        rw [valueAt?, List.getElem?_eq_none (Nat.le_of_not_lt hge)] at hu
        cases hu
      refine hdesc u ?_
      rw [get?_eq_valueAt?, fieldIndex?_of_reword (hfields ▸ hn) hlt]
      exact hu
    cases rest with
    | nil =>
      rw [valueAt?] at hv
      rw [← Option.some.inj hv, hu'] at hplain
      cases hplain
    | cons i rest => rcases Value.eq_of_isPlain hu' with rfl | ⟨s, rfl⟩ <;> cases hv
  · obtain ⟨shape, rfl⟩ := Value.eq_of_isEnclosing he
    cases hv

theorem put_reword (hd : d.Coherent) (htidy : Tidy d.root) (hc : c ∈ columnsIn d.root)
    (g : Place → Option String) (text : String) :
    Document.put ⟨rebuild g d.root, d.shares⟩ c.1 "description" (.str text) =
      ⟨rebuild (fun q => (wordingAt (d.aliases c.1) text q).or (g q)) d.root, d.shares⟩ := by
  have hat : Document.at? ⟨rebuild g d.root, d.shares⟩ c.1 =
      some (rebuild (fun q => g (c.1 ++ q)) c.2) := by
    have hmem : (c.1, rebuild (fun q => g (c.1 ++ q)) c.2) ∈ columnsIn (rebuild g d.root) := by
      rw [columnsIn_reword]
      exact List.mem_map.mpr ⟨c, hc, rfl⟩
    exact valueAt?_of_mem_columnsIn hmem
  have haliases : Document.aliases ⟨rebuild g d.root, d.shares⟩ c.1 = d.aliases c.1 :=
    @Document.aliasesRev_congr ⟨rebuild g d.root, d.shares⟩ d rfl c.1.reverse
  have hchange : Document.change ⟨rebuild g d.root, d.shares⟩ c.1
      (Document.putField "description" (.str text)) =
      ⟨rebuild (fun q => (wordingAt (d.aliases c.1) text q).or (g q)) d.root, d.shares⟩ := by
    rw [Document.change, haliases, foldl_changeAt, reword_reword]
  rw [Document.put, hat, Option.bind_some]
  cases hn : Document.fieldIndex? (rebuild (fun q => g (c.1 ++ q)) c.2) "description" with
  | none => exact hchange
  | some n =>
    dsimp only
    have hforget : Document.forget ⟨rebuild g d.root, d.shares⟩ ((d.aliases c.1).map (· ++ [n])) =
        ⟨rebuild g d.root, d.shares⟩ := forget_eq_self (not_prefix_of_mem_shares hd htidy hc hn)
    rw [haliases, hforget]
    exact hchange

theorem foldl_put (hd : d.Coherent) (htidy : Tidy d.root) (text : String) : ∀ (places : List Place),
    (∀ p ∈ places, ∃ c ∈ columnsIn d.root, c.1 = p) → ∀ g : Place → Option String,
      places.foldl (fun e p => Document.put e p "description" (.str text)) ⟨rebuild g d.root,
        d.shares⟩ = ⟨rebuild (fun q => (wordingAt (places.flatMap d.aliases) text q).or
          (g q)) d.root, d.shares⟩ := by
  intro places
  induction places with
  | nil => intro _ g; rfl
  | cons p places ih =>
    intro hplaces g
    obtain ⟨c, hc, rfl⟩ := hplaces p List.mem_cons_self
    rw [List.foldl_cons, put_reword hd htidy hc, ih fun p hp =>
      hplaces p (List.mem_cons_of_mem _ hp)]
    congr 2
    funext q
    by_cases hhere : q ∈ d.aliases c.1
    · by_cases hlater : q ∈ places.flatMap d.aliases <;> simp [wordingAt, hhere, hlater]
    · by_cases hlater : q ∈ places.flatMap d.aliases <;> simp [wordingAt, hhere, hlater]

def spots (d : Document) (name : String) : List Place := (placesNamed d.root name).flatMap d.aliases

/-- **To describe the columns of a name is one rewording.** -/
theorem describe_eq (hd : d.Coherent) (htidy : Tidy d.root) (name text : String) :
    describe d (.str name) (.str text) = .ok ⟨rebuild (wordingAt (spots d name) text) d.root,
      d.shares⟩ := by
  have hplaces : ∀ p ∈ placesNamed d.root name, ∃ c ∈ columnsIn d.root, c.1 = p := by
    intro p hp
    obtain ⟨c, hc, hpc⟩ := List.mem_flatMap.mp hp
    split at hpc
    · exact ⟨c, hc, (List.mem_singleton.mp hpc).symm⟩
    · cases hpc
  have hfold := foldl_put hd htidy text _ hplaces fun _ => none
  rw [reword_none] at hfold
  rw [describe, placesOf_eq htidy, ok_bind]
  refine congrArg Except.ok (hfold.trans ?_)
  simp only [Option.or_none]
  rfl

/-! ### Choices by name -/

def columnSpots (d : Document) : List Place := (columnsIn d.root).flatMap fun c => d.aliases c.1

/-- What is chosen for the name of the mapping at a place, if the place is one of those given. -/
def chosenAt (places : List Place) (root : Value) (choice : String → Option String) (q : Place) :
    Option String :=
  if q ∈ places then
    match valueAt? root q with
    | some (.map fields) => choice (nameOf (.map fields))
    | _ => none
  else none

/-- **The rewording of a choice**: every column, with all that shares it, gets the description that
is chosen for its name, if one is. -/
def wording (d : Document) (choice : String → Option String) : Place → Option String :=
  chosenAt (columnSpots d) d.root choice

theorem mem_spots {name : String} {q : Place} :
    q ∈ spots d name ↔ ∃ c ∈ columnsIn d.root, nameOf c.2 = name ∧ q ∈ d.aliases c.1 := by
  constructor
  · intro h
    obtain ⟨p, hp, hq⟩ := List.mem_flatMap.mp h
    obtain ⟨c, hc, hpc⟩ := List.mem_flatMap.mp hp
    split at hpc
    · rename_i hname
      obtain rfl := List.mem_singleton.mp hpc
      exact ⟨c, hc, hname, hq⟩
    · cases hpc
  · rintro ⟨c, hc, hname, hq⟩
    refine List.mem_flatMap.mpr ⟨c.1, List.mem_flatMap.mpr ⟨c, hc, ?_⟩, hq⟩
    rw [if_pos hname]
    exact List.mem_singleton.mpr rfl

theorem wording_self (htidy : Tidy d.root) (choice : String → Option String)
    (hc : c ∈ columnsIn d.root) :
    wording d choice c.1 = choice (nameOf c.2) := by
  obtain ⟨fields, hfields⟩ := (htidy.isColumn c hc).mapping
  have hspot : c.1 ∈ columnSpots d := List.mem_flatMap.mpr ⟨c, hc, d.mem_aliases_self c.1⟩
  rw [wording, chosenAt, if_pos hspot, valueAt?_of_mem_columnsIn hc, hfields]

section

variable {d : Document} (hd : d.Coherent) (htidy : Tidy d.root)

include hd htidy

theorem eq_of_mem_aliases {c : Place × Value} (hc : c ∈ columnsIn d.root) {q : Place}
    (hq : q ∈ d.aliases c.1)
    {fields : Entries} (hw : valueAt? d.root q = some (.map fields)) : .map fields = c.2 := by
  obtain ⟨fields', hfields⟩ := (htidy.isColumn c hc).mapping
  have hcolumn : valueAt? d.root c.1 = some c.2 := valueAt?_of_mem_columnsIn hc
  rcases hd.value_of_mem_aliases hcolumn (by rw [hfields]; rfl) hq hw with heq | he
  · exact heq
  · cases he

theorem wording_of_mem_aliases (choice : String → Option String) {c : Place × Value}
    (hc : c ∈ columnsIn d.root) {q : Place} (hq : q ∈ d.aliases c.1) {fields : Entries}
    (hw : valueAt? d.root q = some (.map fields)) : wording d choice q = choice (nameOf c.2) := by
  have hspot : q ∈ columnSpots d := List.mem_flatMap.mpr ⟨c, hc, hq⟩
  rw [wording, chosenAt, if_pos hspot, hw, ← eq_of_mem_aliases hd htidy hc hq hw]

theorem mem_spots_iff {q : Place} {fields : Entries} (hw : valueAt? d.root q = some (.map fields))
    (name : String) :
    q ∈ spots d name ↔ q ∈ columnSpots d ∧ nameOf (.map fields) = name := by
  rw [mem_spots]
  constructor
  · rintro ⟨c, hc, hname, hq⟩
    refine ⟨List.mem_flatMap.mpr ⟨c, hc, hq⟩, ?_⟩
    rw [eq_of_mem_aliases hd htidy hc hq hw, hname]
  · rintro ⟨hq, hname⟩
    obtain ⟨c, hc, hq⟩ := List.mem_flatMap.mp hq
    refine ⟨c, hc, ?_, hq⟩
    rw [← eq_of_mem_aliases hd htidy hc hq hw, hname]

theorem grounded_wording (choice : String → Option String) :
    Grounded (wording d choice) d.root := by
  intro q text htext hnil
  unfold wording chosenAt at htext
  split at htext
  · rename_i hq
    obtain ⟨c, hc, hq⟩ := List.mem_flatMap.mp hq
    obtain ⟨fields, name, hfields, hname, -⟩ := htidy.isColumn c hc
    have heq := eq_of_mem_aliases hd htidy hc hq hnil
    rw [hfields, Value.map.injEq] at heq
    rw [← heq] at hname
    cases hname
  · cases htext

/-- **A further name is described**: the choice has one name more. -/
theorem reword_spots (choice : String → Option String) (name text : String) :
    rebuild (wordingAt (spots d name) text) (rebuild (wording d choice) d.root) =
      rebuild (wording d (Function.update choice name (some text))) d.root := by
  rw [reword_reword]
  refine reword_congr d.root _ _ fun q fields hw => .inl ?_
  have hiff := mem_spots_iff hd htidy hw name
  by_cases hq : q ∈ columnSpots d
  · simp only [wording, chosenAt, if_pos hq, hw]
    by_cases hname : nameOf (.map fields) = name
    · rw [wordingAt, if_pos (hiff.mpr ⟨hq, hname⟩), Function.update_apply, if_pos hname,
        Option.some_or]
    · rw [wordingAt, if_neg fun h => hname (hiff.mp h).2, Function.update_apply, if_neg hname,
        Option.none_or]
  · simp only [wording, chosenAt, if_neg hq]
    rw [wordingAt, if_neg fun h => hq (hiff.mp h).1, Option.none_or]

/-- **Where all columns of a name have the description already**, a choice for the name says nothing
new. -/
theorem reword_described {choice : String → Option String} {name text : String}
    (hnone : choice name = none)
    (hall : ∀ c ∈ columnsIn d.root, nameOf c.2 = name → descriptionOf c.2 = some text) :
    rebuild (wording d (Function.update choice name (some text))) d.root =
      rebuild (wording d choice) d.root := by
  refine reword_congr d.root _ _ fun q fields hw => ?_
  by_cases hq : q ∈ columnSpots d
  · simp only [wording, chosenAt, if_pos hq, hw]
    by_cases hname : nameOf (.map fields) = name
    · refine .inr ⟨by rw [hname, hnone], text, by rw [hname, Function.update_self], ?_⟩
      obtain ⟨c, hc, hq⟩ := List.mem_flatMap.mp hq
      have heq := eq_of_mem_aliases hd htidy hc hq hw
      have hdesc := hall c hc (by rw [← heq, hname])
      rw [← heq, descriptionOf_eq] at hdesc
      exact eq_of_textOf hdesc
    · exact .inl (Function.update_of_ne hname _ _)
  · exact .inl (by simp only [wording, chosenAt, if_neg hq])

end

/-! ### Columns that are shared -/

def columnPlaces (root : Value) : List Place := (columnsIn root).map (·.1)

def entryWording (root : Value) (choice : String → Option String) : Place → Option String :=
  chosenAt (columnPlaces root) root choice

/-- **Columns share with columns only**: wherever a column is shared that is to be described in
other words, there is a column entry. -/
def SharedByColumns (chosen : String → Option String) (d : Document) : Prop :=
  ∀ c ∈ columnsIn d.root, ∀ text, chosen (nameOf c.2) = some text → descriptionOf c.2 ≠ some text →
    ∀ q ∈ d.aliases c.1, ∀ fields, valueAt? d.root q = some (.map fields) → q ∈ columnPlaces d.root

theorem mem_columnSpots_of_mem_columnPlaces {q : Place} (h : q ∈ columnPlaces d.root) :
    q ∈ columnSpots d := by
  obtain ⟨c, hc, rfl⟩ := List.mem_map.mp h
  exact List.mem_flatMap.mpr ⟨c, hc, d.mem_aliases_self c.1⟩

theorem wording_eq_entryWording {q : Place} (h : q ∈ columnPlaces d.root)
    (choice : String → Option String) : wording d choice q = entryWording d.root choice q := by
  rw [wording, entryWording, chosenAt, chosenAt, if_pos h,
    if_pos (mem_columnSpots_of_mem_columnPlaces h)]

section

variable {d : Document} (hd : d.Coherent) (htidy : Tidy d.root) {chosen : String → Option String}

include hd htidy

theorem not_inDescription_wording {q : Place} {fields : Entries}
    (hq : valueAt? d.root q = some (.map fields)) :
    ¬ InDescription (wording d chosen) d.root q := by
  rintro ⟨p, n, rest, entries, rfl, hp, hentries, hn⟩
  have hspot : p ∈ columnSpots d := by
    by_contra hout
    exact hp (if_neg hout)
  obtain ⟨c, hc, hp⟩ := List.mem_flatMap.mp hspot
  obtain ⟨fields', name, hfields, -, hdesc⟩ := htidy.isColumn c hc
  rw [← eq_of_mem_aliases hd htidy hc hp hentries] at hfields
  cases hfields
  rw [valueAt?_append, hentries, Option.bind_some, ← List.singleton_append, valueAt?_append,
    Option.bind_eq_some_iff] at hq
  obtain ⟨u, hu, hq⟩ := hq
  have hplain : u.isPlain = true := hdesc u (by rw [get?_eq_valueAt?, hn]; exact hu)
  rcases Value.eq_of_isPlain hplain with rfl | ⟨s, rfl⟩ <;> cases rest <;> cases hq

theorem not_inDescription_entryWording {q : Place} {fields : Entries}
    (hq : valueAt? d.root q = some (.map fields)) :
    ¬ InDescription (entryWording d.root chosen) d.root q := by
  rintro ⟨p, n, rest, entries, hplace, hp, hentries⟩
  have hmem : p ∈ columnPlaces d.root := by
    by_contra hout
    exact hp (if_neg hout)
  rw [← wording_eq_entryWording hmem chosen] at hp
  exact not_inDescription_wording hd htidy hq ⟨p, n, rest, entries, hplace, hp, hentries⟩

/-- **Nothing but column entries is reworded** just if columns share with columns only. -/
theorem reword_entries_iff : rebuild (wording d chosen) d.root =
    rebuild (entryWording d.root chosen) d.root ↔ SharedByColumns chosen d := by
  constructor
  · intro heq c hc text hchosen hother q hq fields hfields
    by_contra hout
    have hcolumn : .map fields = c.2 := eq_of_mem_aliases hd htidy hc hq hfields
    have hword := wording_of_mem_aliases hd htidy chosen hc hq hfields
    have hnone : entryWording d.root chosen q = none := if_neg hout
    have hisColumn : IsColumn (.map fields) := hcolumn ▸ htidy.isColumn c hc
    -- the mapping has the new description after the one rewording, and its own after the other
    have hdesc := (valueAt?_reword (not_inDescription_wording hd htidy hfields) hfields).symm.trans
      (heq ▸ valueAt?_reword (not_inDescription_entryWording hd htidy hfields) hfields)
    replace hdesc := congrArg descriptionOf (Option.some.inj hdesc)
    rw [descriptionOf_reword _ hisColumn, descriptionOf_reword _ hisColumn, List.append_nil, hword,
      hchosen, hnone, Option.none_or, Option.some_or, hcolumn] at hdesc
    exact hother hdesc.symm
  · intro hshared
    refine reword_congr d.root _ _ fun q fields hq => ?_
    by_cases hplace : q ∈ columnPlaces d.root
    · exact .inl (wording_eq_entryWording hplace chosen)
    have hnone : entryWording d.root chosen q = none := if_neg hplace
    by_cases hspot : q ∈ columnSpots d
    · obtain ⟨c, hc, hmem⟩ := List.mem_flatMap.mp hspot
      have hcolumn : .map fields = c.2 := eq_of_mem_aliases hd htidy hc hmem hq
      rw [wording_of_mem_aliases hd htidy chosen hc hmem hq, hnone]
      cases hchosen : chosen (nameOf c.2) with
      | none => exact .inl rfl
      | some text =>
        refine .inr ⟨rfl, text, rfl, ?_⟩
        have hdesc : descriptionOf c.2 = some text := by
          by_contra hother
          exact hplace (hshared c hc text hchosen hother q hmem fields hq)
        rw [← hcolumn, descriptionOf_eq] at hdesc
        exact eq_of_textOf hdesc
    · exact .inl (by rw [hnone]; exact if_neg hspot)

end

/-! ### Drafts -/

/-- A document on the way: as it was but for the wording of a choice. -/
structure Draft (d : Document) (choice : String → Option String) (e : Document) : Prop where
  coherent : e.Coherent
  root : e.root = rebuild (wording d choice) d.root
  shares : SameShares e d

theorem Draft.start (hd : d.Coherent) : Draft d (fun _ => none) d := by
  refine ⟨hd, ?_, fun p q => Iff.rfl⟩
  have hoff : rebuild (wording d fun _ => none) d.root =
      rebuild (fun _ => (none : Option String)) d.root := by
    refine reword_congr d.root _ _ fun q fields hw => .inl ?_
    simp only [wording, chosenAt, hw, ite_self]
  rw [hoff, reword_none]

theorem Draft.mem_spots {e : Document} {choice : String → Option String} (htidy : Tidy d.root)
    (h : Draft d choice e) (name : String) (q : Place) : q ∈ spots e name ↔ q ∈ spots d name := by
  rw [Wording.mem_spots, Wording.mem_spots, h.root, columnsIn_reword]
  constructor
  · rintro ⟨c, hc, hname, hq⟩
    obtain ⟨c₀, hc₀, rfl⟩ := List.mem_map.mp hc
    exact ⟨c₀, hc₀, (nameOf_reword _ (htidy.isColumn c₀ hc₀)).symm.trans hname,
      (h.shares _ q).mp hq⟩
  · rintro ⟨c₀, hc₀, hname, hq⟩
    exact ⟨_, List.mem_map.mpr ⟨c₀, hc₀, rfl⟩,
      (nameOf_reword _ (htidy.isColumn c₀ hc₀)).trans hname, (h.shares _ q).mpr hq⟩

/-- **The columns of a name are described in a draft.** -/
theorem Draft.describe_eq {e : Document} {choice : String → Option String} (hd : d.Coherent)
    (htidy : Tidy d.root) (h : Draft d choice e) (name text : String) :
    describe e (.str name) (.str text) =
      .ok ⟨rebuild (wording d (Function.update choice name (some text))) d.root, e.shares⟩ := by
  have htidy' : Tidy e.root := by
    rw [h.root]
    exact htidy.reword (grounded_wording hd htidy choice)
  have hspots : wordingAt (spots e name) text = wordingAt (spots d name) text := by
    funext q
    simp only [wordingAt, h.mem_spots htidy name q]
  rw [Wording.describe_eq h.coherent htidy', hspots, h.root, reword_spots hd htidy]

end ProjectLint.Wording
