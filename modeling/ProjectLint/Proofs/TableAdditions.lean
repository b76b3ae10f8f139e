import ProjectLint.Fixes.Sources
import ProjectLint.Proofs.Outcomes
import ProjectLint.Proofs.Yaml.Rebuilding
import ProjectLint.Proofs.Yaml.Siblings

/-!
# Tables that are added to sources

Adding a table to a source makes one or two additions to the property file: an empty sequence of
tables, if the source has none, and the table behind its tables.  Each addition is made at all
places that share the part, wherever they are in the file, so it may reach other sources, their
tables, and anything else.

* `Added.many`: whatever the places, the sources stay in their order, keep their names and list what
  they listed, as long as no empty sequence comes in the place of tables.
* `Stage.change`: it never does, since sources that share have tables all or none of them, and stay
  so.
* `Stage.addToSources`: so a walk through the sources **lists the table once more in every source of
  the name** and takes nothing away.
-/

namespace ProjectLint.Sources

open Yaml (Document Place changeAt valueAt? OneEach)
open Scripts (SourceCall)

/-! ### What a property file lists -/

def under? (key : String) : Value → Option Value
  | .map entries => Entries.get? entries key
  | _ => none

variable {v root : Value} {key : String} {items : List Value}

variable {x : Value} {i : Nat} {p : Place}

theorem exists_of_under? (h : under? key v = some x) :
    ∃ es, v = .map es ∧ Entries.get? es key = some x := by
  cases v with
  | map es => exact ⟨es, rfl, h⟩
  | _ => cases h

def itemsUnder (key : String) (v : Value) : List Value :=
  match under? key v with
  | some (.seq items) => items
  | _ => []

/-- A source or a table with the name. -/
def goesBy (name : String) (v : Value) : Bool := (under? "name" v).any (·.same (.str name))

def sourceAt? (root : Value) (i : Nat) : Option Value := (itemsUnder "sources" root)[i]?

/-- How often a source lists a table of the name. -/
def timesListed (table : String) (source : Value) : Nat :=
  (itemsUnder "tables" source).countP (goesBy table)

/-- A source in order is a mapping, with a sequence of tables if it has any. -/
def orderlySource : Value → Bool
  | .map entries =>
    match Entries.get? entries "tables" with
    | none => true
    | some (.seq _) => true
    | some _ => false
  | _ => false

/-- A property file in order has a sequence of sources in order. -/
def orderly (root : Value) : Bool :=
  match under? "sources" root with
  | some (.seq items) => items.all orderlySource
  | _ => false

theorem orderlySource_iff : orderlySource v = true ↔ (∃ es, v = .map es) ∧
    (under? "tables" v = none ∨ ∃ items, under? "tables" v = some (.seq items)) := by
  cases v with
  | map es =>
    rw [orderlySource, under?]
    cases Entries.get? es "tables" with
    | none => simp
    | some x => cases x <;> simp
  | scalar s => simp [orderlySource]
  | seq items => simp [orderlySource]
  | set members => simp [orderlySource]
  | pair first second => simp [orderlySource]
  | enclosing shape => simp [orderlySource]

theorem orderly_iff : orderly root = true ↔ ∃ items, under? "sources" root = some (.seq items) ∧
    ∀ v ∈ items, orderlySource v = true := by
  rw [orderly]
  cases h : under? "sources" root with
  | none => simp
  | some v => cases v <;> simp

theorem orderlySource_of_sourceAt? (h : orderly root = true) (hx : sourceAt? root i = some x) :
    orderlySource x = true := by
  obtain ⟨items, hitems, hall⟩ := orderly_iff.mp h
  rw [sourceAt?, itemsUnder, hitems] at hx
  exact hall x (List.mem_of_getElem? hx)

theorem sourceAt?_eq (h : under? "sources" root = some (.seq items)) (i : Nat) :
    sourceAt? root i = items[i]? := by
  rw [sourceAt?, itemsUnder, h]

/-! ### Additions -/

/-- What is added to a property file: a table behind a sequence, or an empty sequence of tables to a
mapping. -/
inductive Addition where
  | table (name : String)
  | tables

namespace Addition

def apply : Addition → Value → Value
  | .table name => Document.pushItem (.record [("name", .str name)])
  | .tables => Document.putField "tables" (.seq [])

def toItems (a : Addition) (items : List Value) : Place → List Value
  | [] =>
    match a with
    | .table name => items ++ [.record [("name", .str name)]]
    | .tables => items
  | n :: rest => items.modify n fun item => changeAt a.apply item rest

theorem changeAt_seq (a : Addition) (items : List Value) (p : Place) :
    changeAt a.apply (.seq items) p = .seq (a.toItems items p) := by
  cases p with
  | nil => cases a <;> rfl
  | cons n rest => rfl

theorem changeAt_scalar (a : Addition) (s : Scalar) (p : Place) :
    changeAt a.apply (.scalar s) p = .scalar s := by
  cases p with
  | nil => cases a <;> rfl
  | cons n rest => rfl

theorem same_changeAt (a : Addition) (v : Value) (p : Place) (s : String) :
    (changeAt a.apply v p).same (.str s) = v.same (.str s) := by
  cases v with
  | scalar x => rw [changeAt_scalar]
  | seq items => rw [changeAt_seq]; rfl
  | map entries => cases p <;> cases a <;> rfl
  | set members => cases p <;> cases a <;> rfl
  | pair first second =>
    cases p with
    | nil => cases a <;> rfl
    | cons n rest =>
      rw [changeAt]
      split
      · rfl
      split <;> rfl
  | enclosing shape => cases p <;> cases a <;> rfl

end Addition

/-! ### Keys -/

def slot (key : String) : Value → Nat
  | .map entries => (entries.findIdx? fun e => e.1.same (.str key)).getD entries.length
  | _ => 0

theorem findIdx?_modify (key : Scalar) (g : Value → Value) : ∀ (es : Entries) (n : Nat),
    (es.modify n fun e => (e.1, g e.2)).findIdx? (fun e => e.1.same key) =
      es.findIdx? fun e => e.1.same key := by
  intro es
  induction es with
  | nil => intro n; simp
  | cons e es ih =>
    intro n
    cases n with
    | zero => simp [List.findIdx?_cons]
    | succ n => simp [List.findIdx?_cons, ih]

theorem under?_changeAt_cons (f : Value → Value) (key : String) (v : Value) (n : Nat)
    (rest : Place) :
    under? key (changeAt f v (n :: rest)) =
      if slot key v = n then (under? key v).map (changeAt f · rest) else under? key v := by
  cases v with
  | map es =>
    rw [changeAt, under?, under?, slot, Entries.get?, Entries.get?, Entries.find?_eq_findIdx?,
      Entries.find?_eq_findIdx?, findIdx?_modify (.str key) (changeAt f · rest)]
    cases es.findIdx? fun e => e.1.same (.str key) with
    | none => simp
    | some m =>
      simp only [Option.bind_some, Option.getD_some, List.getElem?_modify]
      by_cases h : m = n
      · cases es[m]? <;> simp [h]
      · cases es[m]? <;> simp [h, Ne.symm h]
  | pair first second =>
    rw [changeAt]
    split
    · simp [under?]
    split <;> simp [under?]
  | scalar s => simp [changeAt, under?]
  | seq items => simp [changeAt, under?]
  | set members => simp [changeAt, under?]
  | enclosing shape => simp [changeAt, under?]

theorem slot_changeAt_cons (f : Value → Value) (key : String) (v : Value) (n : Nat) (rest : Place) :
    slot key (changeAt f v (n :: rest)) = slot key v := by
  cases v with
  | map es =>
    rw [changeAt, slot, slot, findIdx?_modify (.str key) (changeAt f · rest), List.length_modify]
  | pair first second =>
    rw [changeAt]
    split
    · rfl
    split <;> rfl
  | scalar s => rfl
  | seq items => rfl
  | set members => rfl
  | enclosing shape => rfl

namespace Addition

theorem under?_apply (a : Addition) (hkey : key ≠ "tables") (v : Value) :
    under? key (a.apply v) = under? key v := by
  cases v with
  | map es =>
    cases a with
    | table name => rfl
    | tables => exact Entries.get?_put_of_ne (Ne.symm hkey) es _
  | scalar s => cases a <;> rfl
  | seq items => cases a <;> rfl
  | set members => cases a <;> rfl
  | pair first second => cases a <;> rfl
  | enclosing shape => cases a <;> rfl

theorem slot_apply_tables (a : Addition) (v : Value) :
    slot "tables" (a.apply v) = slot "tables" v := by
  cases v with
  | map es =>
    cases a with
    | table name => rfl
    | tables =>
      change ((Entries.put es "tables" (.seq [])).findIdx? _).getD _ = _
      rw [Entries.put, Entries.findIdx?_insert_self (by simp [Scalar.same])]
      rfl
  | scalar s => cases a <;> rfl
  | seq items => cases a <;> rfl
  | set members => cases a <;> rfl
  | pair first second => cases a <;> rfl
  | enclosing shape => cases a <;> rfl

theorem slot_apply (a : Addition) (hkey : key ≠ "tables") (h : under? key v = some x) :
    slot key (a.apply v) = slot key v := by
  obtain ⟨es, rfl, hget⟩ := exists_of_under? h
  cases a with
  | table name => rfl
  | tables =>
    rw [Entries.get?, Entries.find?_eq_findIdx?] at hget
    change ((Entries.put es "tables" (.seq [])).findIdx? _).getD _ = _
    rw [slot, Entries.put, Entries.findIdx?_insert (by simpa [Scalar.same] using Ne.symm hkey)]
    cases hidx : es.findIdx? fun e => e.1.same (.str key) with
    | none =>
      rw [hidx] at hget
      cases hget
    | some n => rfl

theorem goesBy_changeAt (a : Addition) (v : Value) (p : Place) (s : String) :
    goesBy s (changeAt a.apply v p) = goesBy s v := by
  rw [goesBy, goesBy]
  cases p with
  | nil => rw [changeAt, under?_apply a (by decide)]
  | cons n rest =>
    rw [under?_changeAt_cons]
    split
    · rw [Option.any_map]
      simp only [same_changeAt]
    · rfl

theorem countP_toItems (a : Addition) (items : List Value) (p : Place) (s : String) :
    items.countP (goesBy s) ≤ (a.toItems items p).countP (goesBy s) := by
  cases p with
  | nil =>
    cases a with
    | table name => simp [toItems]
    | tables => exact Nat.le_refl _
  | cons n rest =>
    rw [toItems]
    apply Nat.le_of_eq
    induction items generalizing n with
    | nil => simp
    | cons v items ih =>
      cases n with
      | zero => simp [List.countP_cons, goesBy_changeAt]
      | succ n => simp [List.countP_cons, ih n]

/-! ### What becomes of a source -/

theorem under?_changeAt_seq (a : Addition) (h : under? key v = some (.seq items)) (n : Nat)
    (rest : Place) :
    under? key (changeAt a.apply v (n :: rest)) =
      some (.seq (if slot key v = n then a.toItems items rest else items)) := by
  rw [under?_changeAt_cons, h]
  split
  · rw [Option.map_some, changeAt_seq]
  · rfl

theorem under?_changeAt_none (a : Addition) (h : under? key v = none) (n : Nat) (rest : Place) :
    under? key (changeAt a.apply v (n :: rest)) = none := by
  rw [under?_changeAt_cons, h]
  simp

theorem changeAt_map (a : Addition) (es : Entries) (p : Place) :
    ∃ es', changeAt a.apply (.map es) p = .map es' := by
  cases p with
  | nil => cases a <;> exact ⟨_, rfl⟩
  | cons n rest => exact ⟨_, rfl⟩

theorem orderlySource_changeAt (a : Addition) (h : orderlySource v = true) (p : Place) :
    orderlySource (changeAt a.apply v p) = true := by
  rw [orderlySource_iff] at h ⊢
  obtain ⟨⟨es, rfl⟩, htables⟩ := h
  refine ⟨a.changeAt_map es p, ?_⟩
  cases p with
  | nil =>
    cases a with
    | table name => exact htables
    | tables => exact .inr ⟨[], Entries.get?_put_self es "tables" (.seq [])⟩
  | cons n rest =>
    rcases htables with hnone | ⟨items, hitems⟩
    · exact .inl (a.under?_changeAt_none hnone n rest)
    · exact .inr ⟨_, a.under?_changeAt_seq hitems n rest⟩

theorem slot_tables_changeAt (a : Addition) (v : Value) (p : Place) :
    slot "tables" (changeAt a.apply v p) = slot "tables" v := by
  cases p with
  | nil => exact a.slot_apply_tables v
  | cons n rest => exact slot_changeAt_cons _ _ _ _ _

variable {a : Addition}

theorem isSome_under?_changeAt (h : ¬(a = .tables ∧ p = [])) :
    (under? "tables" (changeAt a.apply v p)).isSome = (under? "tables" v).isSome := by
  cases p with
  | nil =>
    cases a with
    | table name => cases v <;> rfl
    | tables => exact absurd ⟨rfl, rfl⟩ h
  | cons n rest =>
    rw [under?_changeAt_cons]
    split <;> simp

theorem timesListed_changeAt (h : orderlySource v = true) (hp : ¬(a = .tables ∧ p = []))
    (table : String) :
    timesListed table v ≤ timesListed table (changeAt a.apply v p) := by
  cases p with
  | nil =>
    cases a with
    | table name => cases v <;> exact Nat.le_refl _
    | tables => exact absurd ⟨rfl, rfl⟩ hp
  | cons n rest =>
    rcases (orderlySource_iff.mp h).2 with hnone | ⟨items, hitems⟩
    · simp [timesListed, itemsUnder, hnone]
    · rw [timesListed, timesListed, itemsUnder, itemsUnder, hitems, a.under?_changeAt_seq hitems]
      dsimp only
      split
      · exact a.countP_toItems items rest table
      · exact Nat.le_refl _

theorem timesListed_table (h : orderlySource v = true) (hsome : (under? "tables" v).isSome = true)
    (table : String) :
    timesListed table v < timesListed table (changeAt (Addition.table table).apply v
      [slot "tables" v]) := by
  rcases (orderlySource_iff.mp h).2 with hnone | ⟨items, hitems⟩
  · rw [hnone] at hsome
    cases hsome
  · have hname : goesBy table (.record [("name", .str table)]) = true := by
      simp [goesBy, under?, Value.record, Entries.get?, Entries.find?, Scalar.same, Value.same]
    rw [timesListed, timesListed, itemsUnder, itemsUnder, hitems, under?_changeAt_seq _ hitems,
      if_pos rfl]
    simp [toItems, hname]

theorem itemsUnder_tables_changeAt (h : orderlySource v = true) (hnil : itemsUnder "tables" v = [])
    (p : Place) :
    itemsUnder "tables" (changeAt Addition.tables.apply v p) = [] := by
  obtain ⟨⟨es, rfl⟩, htables⟩ := orderlySource_iff.mp h
  cases p with
  | nil =>
    have hput : under? "tables" (changeAt Addition.tables.apply (.map es) []) = some (.seq []) :=
      Entries.get?_put_self es "tables" (.seq [])
    rw [itemsUnder, hput]
  | cons n rest =>
    rcases htables with hnone | ⟨items, hitems⟩
    · rw [itemsUnder, Addition.tables.under?_changeAt_none hnone]
    · rw [itemsUnder, hitems] at hnil
      obtain rfl : items = [] := hnil
      rw [itemsUnder, Addition.tables.under?_changeAt_seq hitems]
      cases rest <;> simp [toItems]

/-! ### What becomes of a property file -/

theorem under?_sources_changeAt (a : Addition) (h : under? "sources" root = some (.seq items))
    (p : Place) :
    ∃ items', under? "sources" (changeAt a.apply root p) = some (.seq items') ∧
      ((∃ rest, p = slot "sources" root :: rest ∧ items' = a.toItems items rest) ∨
        items' = items ∧ ∀ rest, p ≠ slot "sources" root :: rest) := by
  cases p with
  | nil => exact ⟨items, (a.under?_apply (by decide) root).trans h, .inr ⟨rfl, fun rest => nofun⟩⟩
  | cons n rest =>
    refine ⟨_, a.under?_changeAt_seq h n rest, ?_⟩
    by_cases hn : slot "sources" root = n
    · rw [if_pos hn]
      exact .inl ⟨rest, by rw [hn], rfl⟩
    · rw [if_neg hn]
      exact .inr ⟨rfl, fun rest' heq => hn (List.cons.inj heq).1.symm⟩

theorem slot_sources_changeAt (a : Addition) (h : orderly root = true) (p : Place) :
    slot "sources" (changeAt a.apply root p) = slot "sources" root := by
  obtain ⟨items, hitems, -⟩ := orderly_iff.mp h
  cases p with
  | nil => exact a.slot_apply (by decide) hitems
  | cons n rest => exact slot_changeAt_cons _ _ _ _ _

theorem orderly_changeAt (a : Addition) (h : orderly root = true) (p : Place) :
    orderly (changeAt a.apply root p) = true := by
  obtain ⟨items, hitems, hall⟩ := orderly_iff.mp h
  obtain ⟨items', hitems', hcases⟩ := a.under?_sources_changeAt hitems p
  refine orderly_iff.mpr ⟨items', hitems', fun v hv => ?_⟩
  obtain ⟨rest, -, rfl⟩ | ⟨rfl, -⟩ := hcases
  · cases rest with
    | nil =>
      cases a with
      | table name =>
        rcases List.mem_append.mp hv with hv | hv
        · exact hall v hv
        · rw [List.mem_singleton.mp hv]
          rfl
      | tables => exact hall v hv
    | cons n rest =>
      obtain ⟨i, hi⟩ := List.mem_iff_getElem?.mp hv
      rw [toItems, List.getElem?_modify] at hi
      obtain ⟨x, hx, rfl⟩ := Option.map_eq_some_iff.mp hi
      have hx := hall x (List.mem_of_getElem? hx)
      split
      · exact a.orderlySource_changeAt hx rest
      · exact hx
  · exact hall v hv

theorem sourceAt?_changeAt (a : Addition) (h : orderly root = true) (p : Place)
    (hx : sourceAt? root i = some x) :
    ∃ y, sourceAt? (changeAt a.apply root p) i = some y ∧
      ((∃ rest, p = slot "sources" root :: i :: rest ∧ y = changeAt a.apply x rest) ∨
        y = x ∧ ∀ rest, p ≠ slot "sources" root :: i :: rest) := by
  obtain ⟨items, hitems, -⟩ := orderly_iff.mp h
  obtain ⟨items', hitems', hcases⟩ := a.under?_sources_changeAt hitems p
  rw [sourceAt?_eq hitems] at hx
  rw [sourceAt?_eq hitems']
  obtain ⟨rest, rfl, rfl⟩ | ⟨rfl, hp⟩ := hcases
  · cases rest with
    | nil =>
      refine ⟨x, ?_, .inr ⟨rfl, fun rest => by simp⟩⟩
      cases a with
      | table name => exact List.getElem?_append_left (List.getElem?_eq_some_iff.mp hx).1 ▸ hx
      | tables => exact hx
    | cons n rest =>
      rw [toItems, List.getElem?_modify, hx]
      by_cases hn : n = i
      · exact ⟨changeAt a.apply x rest, by simp [hn], .inl ⟨rest, by rw [hn], rfl⟩⟩
      · exact ⟨x, by simp [hn], .inr ⟨rfl, fun rest' => by simp [hn]⟩⟩
  · exact ⟨x, hx, .inr ⟨rfl, fun rest => hp _⟩⟩

theorem sourceAt?_changeAt_tables (h : orderly root = true) (p : Place) {y : Value}
    (hy : sourceAt? (changeAt Addition.tables.apply root p) i = some y) :
    ∃ x, sourceAt? root i = some x := by
  obtain ⟨items, hitems, -⟩ := orderly_iff.mp h
  obtain ⟨items', hitems', hcases⟩ := Addition.tables.under?_sources_changeAt hitems p
  rw [sourceAt?_eq hitems'] at hy
  rw [sourceAt?_eq hitems]
  obtain ⟨rest, rfl, rfl⟩ | ⟨rfl, hp⟩ := hcases
  · cases rest with
    | nil => exact ⟨y, hy⟩
    | cons n rest =>
      rw [toItems, List.getElem?_modify] at hy
      obtain ⟨x, hx, -⟩ := Option.map_eq_some_iff.mp hy
      exact ⟨x, hx⟩
  · exact ⟨y, hy⟩

end Addition

/-! ### Additions at many places -/

/-- A source with more tables than before, or with as many. -/
structure More (x y : Value) : Prop where
  names : ∀ s, goesBy s y = goesBy s x
  slot : slot "tables" y = slot "tables" x
  times : ∀ table, timesListed table x ≤ timesListed table y

theorem More.refl (x : Value) : More x x := ⟨fun _ => rfl, rfl, fun _ => Nat.le_refl _⟩

theorem More.trans {y z : Value} (h : More x y) (h' : More y z) : More x z :=
  ⟨fun s => (h'.names s).trans (h.names s), h'.slot.trans h.slot,
    fun table => Nat.le_trans (h.times table) (h'.times table)⟩

/-- **Additions at many places**, none of which puts an empty sequence in the place of tables.
Sources stay in their order and list what they listed; a table is listed once more where it was
added. -/
structure Added (a : Addition) (places : List Place) (root root' : Value) : Prop where
  orderly : orderly root' = true
  slot : slot "sources" root' = slot "sources" root
  sources : ∀ i x, sourceAt? root i = some x → ∃ y, sourceAt? root' i = some y ∧ More x y ∧
    ((under? "tables" y).isSome = true ↔
      (under? "tables" x).isSome = true ∨ a = .tables ∧ [Sources.slot "sources" root, i] ∈ places) ∧
    ∀ table, a = .table table → (under? "tables" x).isSome = true →
      [Sources.slot "sources" root, i, Sources.slot "tables" x] ∈ places →
        timesListed table x < timesListed table y

def Addition.Safe (a : Addition) (places : List Place) (root : Value) : Prop :=
  a = .tables → ∀ i x, [slot "sources" root, i] ∈ places → sourceAt? root i = some x →
    itemsUnder "tables" x = []

theorem Added.one (h : Sources.orderly root = true) (hsafe : a.Safe [p] root) :
    Added a [p] root (changeAt a.apply root p) := by
  refine ⟨a.orderly_changeAt h p, a.slot_sources_changeAt h p, fun i x hx => ?_⟩
  have hsource := orderlySource_of_sourceAt? h hx
  obtain ⟨y, hy, ⟨rest, rfl, rfl⟩ | ⟨rfl, hp⟩⟩ := a.sourceAt?_changeAt h p hx
  · refine ⟨_, hy, ⟨fun s => a.goesBy_changeAt x rest s, a.slot_tables_changeAt x rest,
      fun table => ?_⟩, ?_, ?_⟩
    · by_cases hput : a = .tables ∧ rest = []
      · obtain ⟨rfl, rfl⟩ := hput
        have hnil := hsafe rfl i x List.mem_cons_self hx
        rw [timesListed, hnil]
        exact Nat.zero_le _
      · exact Addition.timesListed_changeAt hsource hput table
    · by_cases hput : a = .tables ∧ rest = []
      · obtain ⟨rfl, rfl⟩ := hput
        obtain ⟨⟨es, rfl⟩, -⟩ := orderlySource_iff.mp hsource
        have hnew : under? "tables" (changeAt Addition.tables.apply (.map es) []) =
            some (.seq []) :=
          Entries.get?_put_self es "tables" (.seq [])
        simp [hnew]
      · rw [Addition.isSome_under?_changeAt hput]
        refine ⟨.inl, fun hor => hor.resolve_right ?_⟩
        rintro ⟨rfl, hmem⟩
        simp only [List.mem_singleton, List.cons.injEq, true_and] at hmem
        exact hput ⟨rfl, hmem.symm⟩
    · rintro table rfl hsome hmem
      simp only [List.mem_singleton, List.cons.injEq, true_and] at hmem
      rw [← hmem]
      exact Addition.timesListed_table hsource hsome table
  · refine ⟨y, hy, More.refl y, ⟨.inl, fun hor => hor.resolve_right ?_⟩, ?_⟩
    · rintro ⟨-, hmem⟩
      exact hp [] (List.mem_singleton.mp hmem).symm
    · rintro table - - hmem
      exact absurd (List.mem_singleton.mp hmem).symm (hp _)

theorem Added.many (a : Addition) : ∀ (places : List Place) {root : Value},
    Sources.orderly root = true →
    a.Safe places root →
      Added a places root (places.foldl (fun v p => changeAt a.apply v p) root) := by
  intro places
  induction places with
  | nil =>
    intro root h _
    exact ⟨h, rfl, fun i x hx => ⟨x, hx, More.refl x, by simp, by simp⟩⟩
  | cons p places ih =>
    intro root h hsafe
    have hone : Added a [p] root (changeAt a.apply root p) :=
      .one h fun ha i x hmem => hsafe ha i x (by simp [List.mem_singleton.mp hmem])
    -- an empty sequence takes nothing away where nothing is listed, so the other places are as safe
    -- as before
    have hsafe' : a.Safe places (changeAt a.apply root p) := by
      rintro rfl i y hmem hy
      rw [hone.slot] at hmem
      obtain ⟨x, hx⟩ := Addition.sourceAt?_changeAt_tables h p hy
      have hnil := hsafe rfl i x (List.mem_cons_of_mem p hmem) hx
      have hsource := orderlySource_of_sourceAt? h hx
      obtain ⟨y', hy', ⟨rest, -, rfl⟩ | ⟨rfl, -⟩⟩ := Addition.tables.sourceAt?_changeAt h p hx
      · rw [Option.some.inj (hy.symm.trans hy')]
        exact Addition.itemsUnder_tables_changeAt hsource hnil rest
      · rw [Option.some.inj (hy.symm.trans hy')]
        exact hnil
    have hrest := ih hone.orderly hsafe'
    refine ⟨hrest.orderly, hrest.slot.trans hone.slot, fun i x hx => ?_⟩
    obtain ⟨y, hy, hmore, hhas, htimes⟩ := hone.sources i x hx
    obtain ⟨z, hz, hmore', hhas', htimes'⟩ := hrest.sources i y hy
    rw [hone.slot] at hhas' htimes'
    refine ⟨z, hz, hmore.trans hmore', ?_, fun table ha hsome hmem => ?_⟩
    · rw [hhas', hhas, List.mem_singleton, List.mem_cons, or_assoc, ← and_or_left]
    · rcases List.mem_cons.mp hmem with hmem | hmem
      · exact Nat.lt_of_lt_of_le (htimes table ha hsome (by simp [hmem])) (hmore'.times table)
      · rw [← hmore.slot] at hmem
        exact Nat.lt_of_le_of_lt (hmore.times table) (htimes' table ha (hhas.mpr (.inl hsome)) hmem)

/-! ### Sources and their places -/

theorem fieldIndex?_eq_slot (h : under? key v = some x) :
    Document.fieldIndex? v key = some (slot key v) ∧ valueAt? v [slot key v] = some x := by
  obtain ⟨es, rfl, hget⟩ := exists_of_under? h
  rw [Yaml.get?_eq_valueAt?, Option.bind_eq_some_iff] at hget
  obtain ⟨n, hn, hx⟩ := hget
  have hslot : slot key (.map es) = n := by
    rw [Document.fieldIndex?] at hn
    rw [slot, hn, Option.getD_some]
  rw [hslot]
  exact ⟨hn, hx⟩

theorem fieldIndex?_eq_none {es : Entries} (h : under? key (.map es) = none) :
    Document.fieldIndex? (.map es) key = none ∧ slot key (.map es) = es.length := by
  rw [under?, Entries.get?, Entries.find?, Option.map_eq_none_iff, List.find?_eq_none] at h
  have hnone : (es.findIdx? fun e => e.1.same (.str key)) = none := by simpa using h
  rw [Document.fieldIndex?, slot, hnone]
  exact ⟨rfl, rfl⟩

theorem valueAt?_source (h : orderly root = true) (i : Nat) :
    valueAt? root [slot "sources" root, i] = sourceAt? root i := by
  obtain ⟨items, hitems, -⟩ := orderly_iff.mp h
  rw [sourceAt?_eq hitems]
  change valueAt? root ([slot "sources" root] ++ [i]) = _
  rw [Yaml.valueAt?_append, (fieldIndex?_eq_slot hitems).2, Option.bind_some, valueAt?]
  cases items[i]? with
  | none => rfl
  | some x => simp [valueAt?]

/-- **A stage of the walk through the sources** of a document: the sources are in order and where
they were, and those that share have tables all or none of them. -/
structure Stage (d e : Document) : Prop where
  shares : e.shares = d.shares
  orderly : orderly e.root = true
  slot : slot "sources" e.root = slot "sources" d.root
  stays : ∀ i x, sourceAt? d.root i = some x → ∃ y, sourceAt? e.root i = some y
  classes : ∀ i j v x y, [Sources.slot "sources" d.root, j] ∈ d.aliases
    [Sources.slot "sources" d.root, i] →
    sourceAt? d.root i = some v → sourceAt? e.root i = some x → sourceAt? e.root j = some y →
      ((under? "tables" x).isSome = true ↔ (under? "tables" y).isSome = true)

section Stages

variable {d e : Document} (hone : OneEach d.shares) (hcoherent : d.Coherent)
    (horderly : Sources.orderly d.root = true)

include hcoherent horderly

theorem Stage.start : Stage d d := by
  refine ⟨rfl, horderly, rfl, fun i x hx => ⟨x, hx⟩, fun i j v x y hj _ hx hy => ?_⟩
  obtain ⟨⟨es, rfl⟩, -⟩ := orderlySource_iff.mp (orderlySource_of_sourceAt? horderly hx)
  obtain ⟨⟨es', rfl⟩, -⟩ := orderlySource_iff.mp (orderlySource_of_sourceAt? horderly hy)
  rw [← valueAt?_source horderly] at hx hy
  rcases hcoherent.value_of_mem_aliases hx rfl hj hy with heq | henclosing
  · rw [heq]
  · cases henclosing

include hone

theorem sourceAt?_of_mem_aliases {i j : Nat} {x : Value} (hx : sourceAt? d.root i = some x)
    (hj : [slot "sources" d.root, j] ∈ d.aliases [slot "sources" d.root, i]) :
    ∃ y, sourceAt? d.root j = some y := by
  rcases (Document.mem_aliases_sibling_iff hone).mp hj with rfl | ⟨id, -, hmem⟩
  · exact ⟨x, hx⟩
  · obtain ⟨y, hy, -⟩ := hcoherent.part _ hmem
    exact ⟨y, (valueAt?_source horderly j).symm.trans hy⟩

/-- **A stage after one addition** at a source or at its tables. -/
theorem Stage.change (hstage : Stage d e) (a : Addition) (place : Place)
    (hplace : a = .tables → ∃ n v x, place = [Sources.slot "sources" d.root, n] ∧
      sourceAt? d.root n = some v ∧ sourceAt? e.root n = some x ∧ under? "tables" x = none) :
    Stage d (e.change place a.apply) ∧ Added a (d.aliases place) e.root
      (e.change place a.apply).root := by
  have haliases : e.aliases place = d.aliases place := by
    rw [Document.aliases, Document.aliases, Document.aliasesRev_congr hstage.shares]
  have hsafe : a.Safe (d.aliases place) e.root := by
    rintro rfl j y hmem hy
    obtain ⟨n, v, x, rfl, hv, hx, hnone⟩ := hplace rfl
    rw [hstage.slot] at hmem
    have hiff := hstage.classes n j v x y hmem hv hx hy
    rw [hnone] at hiff
    have hy : under? "tables" y = none := by simpa using hiff
    rw [itemsUnder, hy]
  have hadded : Added a (d.aliases place) e.root (e.change place a.apply).root := by
    rw [← haliases] at hsafe ⊢
    exact Added.many a _ hstage.orderly hsafe
  refine ⟨⟨hstage.shares, hadded.orderly, hadded.slot.trans hstage.slot, fun i v hv => ?_, ?_⟩,
    hadded⟩
  · obtain ⟨x, hx⟩ := hstage.stays i v hv
    obtain ⟨y, hy, -⟩ := hadded.sources i x hx
    exact ⟨y, hy⟩
  · intro i j v x' y' hj hv hx' hy'
    obtain ⟨w, hw⟩ := sourceAt?_of_mem_aliases hone hcoherent horderly hv hj
    obtain ⟨x, hx⟩ := hstage.stays i v hv
    obtain ⟨y, hy⟩ := hstage.stays j w hw
    obtain ⟨x'', hx'', -, hhasx, -⟩ := hadded.sources i x hx
    obtain ⟨y'', hy'', -, hhasy, -⟩ := hadded.sources j y hy
    obtain rfl := Option.some.inj (hx'.symm.trans hx'')
    obtain rfl := Option.some.inj (hy'.symm.trans hy'')
    -- either both sources are in the class that gets tables, or neither is
    rw [hhasx, hhasy, hstage.classes i j v x y hj hv hx hy, hstage.slot]
    refine or_congr_right (and_congr_right fun ha => ?_)
    obtain ⟨n, -, -, rfl, -⟩ := hplace ha
    exact Document.mem_aliases_sibling_congr hone hj n

/-- **One table is added to a source**, and to all that share its tables. -/
theorem Stage.addTable (hstage : Stage d e) {n : Nat} {v x : Value}
    (hv : sourceAt? d.root n = some v) (hx : sourceAt? e.root n = some x) (table : String) :
    ∃ e', Sources.addTable e [Sources.slot "sources" d.root, n] x table = .ok e' ∧ Stage d e' ∧
      ∀ i x, sourceAt? e.root i = some x → ∃ y, sourceAt? e'.root i = some y ∧ More x y ∧
        (i = n → timesListed table x < timesListed table y) := by
  have hsource := orderlySource_of_sourceAt? hstage.orderly hx
  obtain ⟨⟨es, rfl⟩, hnone | ⟨items, hitems⟩⟩ := orderlySource_iff.mp hsource
  · -- the source gets a sequence of tables first
    obtain ⟨hindex, hslot⟩ := fieldIndex?_eq_none hnone
    obtain ⟨hstage₁, hadded₁⟩ := hstage.change hone hcoherent horderly .tables
      [Sources.slot "sources" d.root, n] fun _ => ⟨n, v, _, rfl, hv, hx, hnone⟩
    obtain ⟨hstage₂, hadded₂⟩ := hstage₁.change hone hcoherent horderly (.table table)
      [Sources.slot "sources" d.root, n, es.length] nofun
    have hput : e.put [Sources.slot "sources" d.root, n] "tables" (.seq []) =
        e.change [Sources.slot "sources" d.root, n] Addition.tables.apply := by
      rw [Document.put, Document.at?, ← hstage.slot, valueAt?_source hstage.orderly, hx,
        Option.bind_some, hindex]
      rfl
    refine ⟨_, ?_, hstage₂, fun i x hxi => ?_⟩
    · rw [Sources.addTable, hindex]
      dsimp only
      rw [hput]
      rfl
    · obtain ⟨y, hy, hmore, hhas, -⟩ := hadded₁.sources i x hxi
      obtain ⟨z, hz, hmore', -, htimes⟩ := hadded₂.sources i y hy
      refine ⟨z, hz, hmore.trans hmore', ?_⟩
      rintro rfl
      obtain rfl := Option.some.inj (hx.symm.trans hxi)
      refine Nat.lt_of_le_of_lt (hmore.times table)
        (htimes table rfl (hhas.mpr (.inr ⟨rfl, ?_⟩)) ?_)
      · rw [hstage.slot]
        exact Document.mem_aliases_self d _
      · rw [hstage₁.slot, hmore.slot, hslot]
        exact Document.mem_aliases_self d _
  · obtain ⟨hindex, hat⟩ := fieldIndex?_eq_slot hitems
    obtain ⟨hstage₁, hadded₁⟩ := hstage.change hone hcoherent horderly (.table table)
      [Sources.slot "sources" d.root, n, Sources.slot "tables" (.map es)] nofun
    refine ⟨_, ?_, hstage₁, fun i x hxi => ?_⟩
    · have hthere : e.at? ([Sources.slot "sources" d.root, n] ++
          [Sources.slot "tables" (.map es)]) =
          some (.seq items) := by
        rw [Document.at?, Yaml.valueAt?_append, ← hstage.slot, valueAt?_source hstage.orderly, hx,
          Option.bind_some, hat]
      rw [Sources.addTable, hindex]
      dsimp only
      rw [hthere]
      rfl
    · obtain ⟨y, hy, hmore, -, htimes⟩ := hadded₁.sources i x hxi
      refine ⟨y, hy, hmore, ?_⟩
      rintro rfl
      obtain rfl := Option.some.inj (hx.symm.trans hxi)
      refine htimes table rfl (by rw [hitems]; rfl) ?_
      rw [hstage.slot]
      exact Document.mem_aliases_self d _

/-- One step of the walk through the sources. -/
theorem Stage.addToSource (hstage : Stage d e) {n : Nat} {v : Value}
    (hv : sourceAt? d.root n = some v) (call : SourceCall) (seen : Bool) :
    ∃ e' seen', Sources.addToSource [Sources.slot "sources" d.root] call (e, seen) n =
      .ok (e', seen') ∧ Stage d e' ∧ (∀ i x, sourceAt? e.root i = some x →
        ∃ y, sourceAt? e'.root i = some y ∧ More x y ∧
          (i = n → goesBy call.source x = true →
            timesListed call.table x < timesListed call.table y)) ∧
      ((∀ x, sourceAt? e.root n = some x → goesBy call.source x = false) → e' = e) := by
  obtain ⟨x, hx⟩ := hstage.stays n v hv
  obtain ⟨⟨es, rfl⟩, -⟩ := orderlySource_iff.mp (orderlySource_of_sourceAt? hstage.orderly hx)
  have hat : e.at? ([Sources.slot "sources" d.root] ++ [n]) = some (.map es) := by
    rw [Document.at?, ← hstage.slot]
    exact (valueAt?_source hstage.orderly n).trans hx
  have hname : ((Entries.get? es "name").getD .null).same (.str call.source) =
      goesBy call.source (.map es) := by
    rw [goesBy, under?]
    cases Entries.get? es "name" <;> rfl
  simp only [Sources.addToSource, hat, Option.getD_some, Value.field, Value.fieldD, Value.field?,
    ok_map, ok_bind, hname]
  cases hgoes : goesBy call.source (.map es) with
  | true =>
    obtain ⟨e', hadd, hstage', hsources⟩ := hstage.addTable hone hcoherent horderly hv hx call.table
    refine ⟨e', true, ?_, hstage', fun i x hxi => ?_, fun hno => ?_⟩
    · rw [if_pos rfl, List.cons_append, List.nil_append, hadd]
      rfl
    · obtain ⟨y, hy, hmore, htimes⟩ := hsources i x hxi
      exact ⟨y, hy, hmore, fun hi _ => htimes hi⟩
    · rw [hno _ hx] at hgoes
      cases hgoes
  | false =>
    refine ⟨e, seen, rfl, hstage, fun i x hxi => ⟨x, hxi, More.refl x, ?_⟩, fun _ => rfl⟩
    rintro rfl hgoes'
    rw [← Option.some.inj (hx.symm.trans hxi), hgoes] at hgoes'
    cases hgoes'

/-- **The walk through the sources**: each source of the name lists the table once more. -/
theorem Stage.addToSources (call : SourceCall) : ∀ (ns : List Nat) {e : Document} (seen : Bool),
    Stage d e →
    (∀ n ∈ ns, ∃ v, sourceAt? d.root n = some v) →
    ∃ e' seen', ns.foldlM (Sources.addToSource [Sources.slot "sources" d.root] call) (e, seen) =
      .ok (e', seen') ∧ Stage d e' ∧
      (∀ i x, sourceAt? e.root i = some x → ∃ y, sourceAt? e'.root i = some y ∧ More x y ∧
        (i ∈ ns → goesBy call.source x = true →
          timesListed call.table x < timesListed call.table y)) ∧
      ((∀ n ∈ ns, ∀ x, sourceAt? e.root n = some x → goesBy call.source x = false) → e' = e) := by
  intro ns
  induction ns with
  | nil =>
    intro e seen hstage _
    exact ⟨e, seen, rfl, hstage, fun i x hx => ⟨x, hx, More.refl x, by simp⟩, fun _ => rfl⟩
  | cons n ns ih =>
    intro e seen hstage hall
    obtain ⟨v, hv⟩ := hall n List.mem_cons_self
    obtain ⟨e₁, seen₁, hstep, hstage₁, hsources₁, hsame₁⟩ :=
      hstage.addToSource hone hcoherent horderly hv call seen
    obtain ⟨e', seen', hfold, hstage', hsources', hsame'⟩ :=
      ih seen₁ hstage₁ fun m hm => hall m (List.mem_cons_of_mem n hm)
    refine ⟨e', seen', by rw [List.foldlM_cons, hstep, ok_bind, hfold], hstage',
      fun i x hx => ?_, fun hno => ?_⟩
    · obtain ⟨y, hy, hmore, htimes⟩ := hsources₁ i x hx
      obtain ⟨z, hz, hmore', htimes'⟩ := hsources' i y hy
      refine ⟨z, hz, hmore.trans hmore', fun hi hgoes => ?_⟩
      rcases List.mem_cons.mp hi with hi | hi
      · exact Nat.lt_of_lt_of_le (htimes hi hgoes) (hmore'.times _)
      · exact Nat.lt_of_le_of_lt (hmore.times _) (htimes' hi ((hmore.names _).trans hgoes))
    · have hsame : e₁ = e := hsame₁ (hno n List.mem_cons_self)
      subst hsame
      exact hsame' fun m hm => hno m (List.mem_cons_of_mem n hm)

end Stages

end ProjectLint.Sources
