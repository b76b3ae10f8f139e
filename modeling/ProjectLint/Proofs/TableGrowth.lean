import ProjectLint.Proofs.TableAdditions
import ProjectLint.Proofs.Yaml.Growth

/-!
# Tables that come to be listed

Where the tables of a source are listed may be shared with other sources and with anything else in
the property file. So a table that is added to a source comes to **every place that shares its
site**: its sequence of tables or, if it has none, the source itself (`gains`).  A walk through the
sources makes the file grow by just that (`grows_addToDocument`).
-/

namespace ProjectLint.Sources

open Yaml (Document Place valueAt? OneEach Gain Grows rebuild)
open Scripts (SourceCall)

/-! ### Sites and gains -/

def hasTables (root : Value) (n : Nat) : Bool :=
  (sourceAt? root n).any fun x => (under? "tables" x).isSome

/-- The place of the tables of a source, or of the source itself if it has none. -/
def site (root : Value) (n : Nat) : Place :=
  [slot "sources" root, n] ++ if hasTables root n then
    [slot "tables" ((sourceAt? root n).getD .null)] else []

/-- A table that is added to the source with the number. -/
structure Extra where
  source : Nat
  table : String

def Extra.item (a : Extra) : Value := .record [("name", .str a.table)]

def reaching (root : Value) (reach : Nat → Place → Bool) (extras : List Extra) (listing : Bool)
    (p : Place) : List Value :=
  (extras.filter fun a => hasTables root a.source == listing && reach a.source p).map Extra.item

def asField : List Value → Option (String × List Value)
  | [] => none
  | tables => some ("tables", tables)

theorem asField_concat (tables : List Value) (x : Value) :
    asField (tables ++ [x]) = some ("tables", ((asField tables).map (·.2)).getD [] ++ [x]) := by
  cases tables <;> rfl

def gainsBy (root : Value) (reach : Nat → Place → Bool) (extras : List Extra) (p : Place) :
    Gain where
  items := reaching root reach extras true p
  field := asField (reaching root reach extras false p)

def sharesSite (d : Document) (n : Nat) (p : Place) : Bool := (d.aliases (site d.root n)).contains p

theorem sharesSite_iff {d : Document} {n : Nat} {p : Place} :
    sharesSite d n p = true ↔ p ∈ d.aliases (site d.root n) := List.contains_iff_mem

/-- A table reaches all places that share with the site of its source. -/
def gains (d : Document) (extras : List Extra) : Place → Gain :=
  gainsBy d.root (sharesSite d) extras

theorem reaching_concat (root : Value) (reach : Nat → Place → Bool) (extras : List Extra)
    (a : Extra) (listing : Bool) (p : Place) :
    reaching root reach (extras ++ [a]) listing p = reaching root reach extras listing p ++
      if hasTables root a.source == listing && reach a.source p then [a.item] else [] := by
  rw [reaching, List.filter_append, List.map_append, List.filter_cons, List.filter_nil]
  cases hasTables root a.source == listing && reach a.source p <;> rfl

theorem isSome_field_gainsBy {root : Value} {reach : Nat → Place → Bool} {extras : List Extra}
    {p : Place} :
    (gainsBy root reach extras p).field.isSome = true ↔
      ∃ a ∈ extras, hasTables root a.source = false ∧ reach a.source p = true := by
  have hiff : ∀ tables, (asField tables).isSome = true ↔ tables ≠ [] := by
    intro tables
    cases tables <;> simp [asField]
  rw [gainsBy, hiff, reaching, ne_eq, List.map_eq_nil_iff, List.filter_eq_nil_iff]
  simp

theorem key_of_gains (d : Document) (extras : List Extra) (p : Place) :
    (gains d extras p).field.all (·.1 = "tables") = true := by
  show (asField (reaching d.root (sharesSite d) extras false p)).all (·.1 = "tables") = true
  cases reaching d.root (sharesSite d) extras false p <;> rfl

theorem field_gains_ne {key : String} (hkey : "tables" ≠ key) (d : Document) (extras : List Extra)
    (p : Place) :
    (gains d extras p).field.all (·.1 ≠ key) = true := by
  have hall := key_of_gains d extras p
  cases hf : (gains d extras p).field with
  | none => rfl
  | some f =>
    rw [hf] at hall
    have hf : f.1 = "tables" := by simpa using hall
    simp [hf, hkey]

/-! ### Fields of a mapping that grows -/

theorem under?_eq_valueAt? (key : String) (v : Value) :
    under? key v = (Document.fieldIndex? v key).bind fun n => valueAt? v [n] := by
  cases v with
  | map es => exact Yaml.get?_eq_valueAt? es key
  | scalar s => rfl
  | seq items => rfl
  | set members => rfl
  | pair first second => rfl
  | enclosing shape => rfl

theorem under?_grow {key : String} {v x : Value} (g : Place → Gain) (h : under? key v = some x) :
    under? key (rebuild g v) = some (rebuild (fun q => g (slot key v :: q)) x) := by
  obtain ⟨hindex, hat⟩ := fieldIndex?_eq_slot h
  obtain ⟨es, rfl, -⟩ := exists_of_under? h
  rw [under?_eq_valueAt?, Yaml.fieldIndex?_grow g hindex, Option.bind_some,
    Yaml.valueAt?_grow g hat]
  rfl

theorem under?_grow_none {key : String} {es : Entries} {g : Place → Gain}
    (h : under? key (.map es) = none)
    (hfield : (g []).field.all (·.1 ≠ key) = true) : under? key (rebuild g (.map es)) = none := by
  obtain ⟨hindex, -⟩ := fieldIndex?_eq_none h
  rw [under?_eq_valueAt?, Yaml.fieldIndex?_grow_of_none hindex hfield]
  rfl

theorem goesBy_grow {g : Place → Gain} (hfield : (g []).field.all (·.1 ≠ "name") = true)
    (es : Entries) (s : String) :
    goesBy s (rebuild g (.map es)) = goesBy s (.map es) := by
  rw [goesBy, goesBy]
  cases hname : under? "name" (.map es) with
  | none => rw [under?_grow_none hname hfield]
  | some x => rw [under?_grow g hname, Option.any_some, Option.any_some, Yaml.same_grow]

theorem field_name_grow (g : Place → Gain) (es : Entries) (s : String) :
    ∃ v, (rebuild g (.map es)).field "name" = .ok v ∧
      v.same (.str s) = goesBy s (rebuild g (.map es)) := by
  rw [Yaml.grow_map, Value.field, Value.fieldD, Value.field?, ok_map]
  refine ⟨_, rfl, ?_⟩
  rw [goesBy, under?]
  cases Entries.get? _ "name" <;> rfl

section Walk

variable {d e : Document} {extras : List Extra} {n : Nat} (table : String)

theorem gains_concat_listing (h : hasTables d.root n = true) :
    gains d (extras ++ [⟨n, table⟩]) = fun p => if p ∈ d.aliases (site d.root n)
      then (gains d extras p).push (.record [("name", .str table)]) else gains d extras p := by
  funext p
  rw [gains, gainsBy, reaching_concat, reaching_concat, h]
  by_cases hp : p ∈ d.aliases (site d.root n)
  · simp [hp, sharesSite_iff.mpr hp, Gain.push, gains, gainsBy, Extra.item]
  · have hshares : sharesSite d n p = false :=
      Bool.eq_false_iff.mpr fun h => hp (sharesSite_iff.mp h)
    simp [hp, hshares, gains, gainsBy]

theorem items_gains_concat (h : hasTables d.root n = false) (p : Place) :
    (gains d (extras ++ [⟨n, table⟩]) p).items = (gains d extras p).items := by
  rw [gains, gainsBy, reaching_concat, h]
  simp [gains, gainsBy]

theorem field_gains_concat (h : hasTables d.root n = false) (p : Place) :
    (gains d (extras ++ [⟨n, table⟩]) p).field = if p ∈ d.aliases (site d.root n)
      then some ("tables", ((gains d extras p).field.map (·.2)).getD [] ++
        [.record [("name", .str table)]])
      else (gains d extras p).field := by
  show asField (reaching d.root (sharesSite d) (extras ++ [⟨n, table⟩]) false p) = _
  rw [reaching_concat, h]
  by_cases hp : p ∈ d.aliases (site d.root n)
  · rw [sharesSite_iff.mpr hp, if_pos hp]
    exact asField_concat _ _
  · have hshares : sharesSite d n p = false :=
      Bool.eq_false_iff.mpr fun h => hp (sharesSite_iff.mp h)
    rw [hshares, if_neg hp]
    exact congrArg asField (List.append_nil _)

/-! ### One table -/

variable (hone : OneEach d.shares) (hcoherent : d.Coherent) (huniform : d.Uniform)
  (horderly : orderly d.root = true) {x : Value} (hx : sourceAt? d.root n = some x)

include horderly in
theorem valueAt?_sources : ∃ items,
    valueAt? d.root [slot "sources" d.root] = some (.seq items) := by
  obtain ⟨items, hitems, -⟩ := orderly_iff.mp horderly
  exact ⟨items, (fieldIndex?_eq_slot hitems).2⟩

include horderly hx in
theorem site_of_tables {items : List Value} (hitems : under? "tables" x = some (.seq items)) :
    hasTables d.root n = true ∧ site d.root n = [slot "sources" d.root, n] ++ [slot "tables" x] ∧
      valueAt? d.root (site d.root n) = some (.seq items) := by
  have hhas : hasTables d.root n = true := by
    rw [hasTables, hx, Option.any_some, hitems]
    rfl
  have hsite : site d.root n = [slot "sources" d.root, n] ++ [slot "tables" x] := by
    rw [site, hhas, hx]
    rfl
  refine ⟨hhas, hsite, ?_⟩
  rw [hsite, Yaml.valueAt?_append, valueAt?_source horderly, hx, Option.bind_some]
  exact (fieldIndex?_eq_slot hitems).2

include horderly hx in
theorem site_of_none (hnone : under? "tables" x = none) :
    hasTables d.root n = false ∧ site d.root n = [slot "sources" d.root, n] ∧
      valueAt? d.root (site d.root n) = some x := by
  have hhas : hasTables d.root n = false := by
    rw [hasTables, hx, Option.any_some, hnone]
    rfl
  have hsite : site d.root n = [slot "sources" d.root, n] := by
    rw [site, hhas]
    rfl
  refine ⟨hhas, hsite, ?_⟩
  rw [hsite, valueAt?_source horderly, hx]

include hone hcoherent huniform horderly in
theorem isSome_field_congr (hno : hasTables d.root n = false) {q : Place}
    (hq : q ∈ d.aliases (site d.root n)) :
    (gains d extras q).field.isSome = (gains d extras (site d.root n)).field.isSome := by
  obtain ⟨items, hitems⟩ := valueAt?_sources horderly
  have hsite : ∀ {m}, hasTables d.root m = false →
      site d.root m = [slot "sources" d.root] ++ [m] := by
    intro m hm
    rw [site, hm]
    rfl
  rw [Bool.eq_iff_iff, gains, isSome_field_gainsBy, isSome_field_gainsBy]
  refine exists_congr fun a => and_congr_right fun _ => and_congr_right fun ha => ?_
  rw [sharesSite_iff, sharesSite_iff]
  rw [hsite hno] at hq ⊢
  rw [hsite ha]
  exact Document.mem_aliases_item_congr hone hcoherent huniform hitems rfl hq a.source

include hcoherent in
/-- The table comes behind the tables that the places have gained. -/
theorem grows_push_started {g : Place → Gain} {es : Entries}
    (hat : valueAt? d.root (site d.root n) = some (.map es))
    (hno : hasTables d.root n = false) (h : Grows d g e)
    (hitems : ∀ q, (g q).items = (gains d extras q).items)
    (hin : ∀ q ∈ d.aliases (site d.root n), valueAt? d.root q = some (.map es) →
      (g q).field = some ("tables", ((gains d extras q).field.map (·.2)).getD []))
    (hout : ∀ q, q ∉ d.aliases (site d.root n) → (g q).field = (gains d extras q).field) :
    Grows d (gains d (extras ++ [⟨n, table⟩]))
      (e.push (site d.root n ++ [es.length]) (.record [("name", .str table)])) := by
  have hpush := h.pushField hcoherent hat (fun q hq hq' => by rw [hin q hq hq']; rfl)
    (.record [("name", .str table)])
  refine hpush.congr (fun q items _ => ?_) fun q entries hq => ?_
  · rw [items_gains_concat table hno, ← hitems q]
    split <;> rfl
  · rw [field_gains_concat table hno]
    by_cases hmem : q ∈ d.aliases (site d.root n)
    · have hes : valueAt? d.root q = some (.map es) := by
        rcases hcoherent.value_or_shut hat rfl hmem with hes | hshut
        · exact hes
        · cases hshut.isEnclosing hq
      rw [if_pos hmem, if_pos hmem, Gain.pushField, hin q hmem hes]
      rfl
    · rw [if_neg hmem, if_neg hmem, hout q hmem]

include hcoherent horderly hx in
theorem grows_addTable_of_tables (h : Grows d (gains d extras) e) {items : List Value}
    (hitems : under? "tables" x = some (.seq items)) :
    ∃ e', addTable e [slot "sources" d.root, n]
        (rebuild (fun q => gains d extras ([slot "sources" d.root, n] ++ q)) x) table = .ok e' ∧
      Grows d (gains d (extras ++ [⟨n, table⟩])) e' := by
  obtain ⟨htables, hsite, hplace⟩ := site_of_tables horderly hx hitems
  obtain ⟨hindex, -⟩ := fieldIndex?_eq_slot hitems
  obtain ⟨es, rfl, -⟩ := exists_of_under? hitems
  refine ⟨e.push (site d.root n) (.record [("name", .str table)]), ?_, ?_⟩
  · have hthere := Yaml.valueAt?_grow (gains d extras) hplace
    rw [← h.root, hsite, Yaml.grow_seq] at hthere
    rw [addTable, Yaml.fieldIndex?_grow _ hindex]
    dsimp only
    rw [Document.at?, hthere, hsite]
  · rw [gains_concat_listing table htables]
    exact h.push hcoherent hplace _

include hone hcoherent huniform horderly hx in
theorem grows_addTable_of_none (h : Grows d (gains d extras) e) {es : Entries} (hes : x = .map es)
    (hnone : under? "tables" x = none) :
    ∃ e', addTable e [slot "sources" d.root, n]
        (rebuild (fun q => gains d extras ([slot "sources" d.root, n] ++ q)) x) table = .ok e' ∧
      Grows d (gains d (extras ++ [⟨n, table⟩])) e' := by
  subst hes
  obtain ⟨htables, hsite, hat⟩ := site_of_none horderly hx hnone
  obtain ⟨hindex, -⟩ := fieldIndex?_eq_none hnone
  have hclass := fun {q} => @isSome_field_congr d extras n hone hcoherent huniform horderly htables
    q
  have hpush := fun {g₁ e₁} => @grows_push_started d e₁ extras n table hcoherent g₁ es hat htables
  rw [hsite] at hat hclass hpush
  have htop : gains d extras ([slot "sources" d.root, n] ++ []) =
      gains d extras [slot "sources" d.root, n] := rfl
  cases hfield : (gains d extras [slot "sources" d.root, n]).field with
  | none =>
    -- the source and all that share with it get an empty sequence of tables first
    have hnew : ∀ q ∈ d.aliases [slot "sources" d.root, n], (gains d extras q).field = none := by
      intro q hq
      rw [← Option.not_isSome_iff_eq_none, hclass hq, hfield]
      decide
    have hput := h.put hcoherent hat hindex fun q hq _ => hnew q hq
    refine ⟨_, ?_, hpush hput (fun q => ?_) (fun q hq _ => ?_) fun q hq => ?_⟩
    · rw [addTable, Yaml.fieldIndex?_grow_of_none hindex (by rw [htop, hfield]; rfl)]
      dsimp only
      rw [Yaml.grow_map, Value.entries, htop, Gain.entries, hfield]
      dsimp only [ok_map, Except.toOption, Option.getD_some]
      rw [List.length_append, Yaml.length_rebuildEntries]
      rfl
    · split <;> rfl
    · rw [if_pos hq, hnew q hq]
      rfl
    · rw [if_neg hq]
  | some field =>
    have hkey : ∀ {q f}, (gains d extras q).field = some f → f.1 = "tables" := by
      intro q f hf
      have hall := key_of_gains d extras q
      rw [hf] at hall
      simpa using hall
    obtain ⟨key, tables⟩ := field
    obtain rfl := hkey hfield
    obtain ⟨hindex', hthere⟩ := Yaml.fieldIndex?_grow_of_field
      (g := fun q => gains d extras ([slot "sources" d.root, n] ++ q)) hindex hfield
    refine ⟨_, ?_, hpush h (fun q => rfl) (fun q hq _ => ?_) fun q _ => rfl⟩
    · have hat' : e.at? ([slot "sources" d.root, n] ++ [es.length]) = some (.seq tables) := by
        rw [Document.at?, h.root, Yaml.valueAt?_append, Yaml.valueAt?_grow _ hat, Option.bind_some,
          hthere]
      rw [addTable, hindex']
      dsimp only
      rw [hat']
    · obtain ⟨⟨key, items⟩, hf⟩ :=
        Option.isSome_iff_exists.mp ((hclass hq).trans (by rw [hfield]; rfl))
      obtain rfl := hkey hf
      rw [hf]
      rfl

include hone hcoherent huniform horderly hx in
/-- **A table that is added to a source comes to all places that share its site.** -/
theorem grows_addTable (h : Grows d (gains d extras) e) :
    ∃ e', addTable e [slot "sources" d.root, n]
        (rebuild (fun q => gains d extras ([slot "sources" d.root, n] ++ q)) x) table = .ok e' ∧
      Grows d (gains d (extras ++ [⟨n, table⟩])) e' := by
  obtain ⟨⟨es, hes⟩, hnone | ⟨items, hitems⟩⟩ :=
    orderlySource_iff.mp (orderlySource_of_sourceAt? horderly hx)
  · exact grows_addTable_of_none table hone hcoherent huniform horderly hx h hes hnone
  · exact grows_addTable_of_tables table hcoherent horderly hx h hitems

/-! ### The walk through the sources -/

include hone hcoherent huniform horderly hx in
/-- One step of the walk through the sources. -/
theorem grows_addToSource (h : Grows d (gains d extras) e) (call : SourceCall) (seen : Bool) :
    ∃ e' seen', addToSource [slot "sources" d.root] call (e, seen) n = .ok (e', seen') ∧
      Grows d (gains d (extras ++ if goesBy call.source x then [⟨n, call.table⟩] else [])) e' := by
  have hat : valueAt? d.root [slot "sources" d.root, n] = some x :=
    (valueAt?_source horderly n).trans hx
  have hthere : e.at? ([slot "sources" d.root] ++ [n]) =
      some (rebuild (fun q => gains d extras ([slot "sources" d.root, n] ++ q)) x) := by
    rw [Document.at?, h.root]
    exact Yaml.valueAt?_grow _ hat
  obtain ⟨e', hadd, hgrows⟩ := grows_addTable call.table hone hcoherent huniform horderly hx h
  obtain ⟨⟨es, rfl⟩, -⟩ := orderlySource_iff.mp (orderlySource_of_sourceAt? horderly hx)
  obtain ⟨v, hv, hsame⟩ := field_name_grow (fun q =>
    gains d extras ([slot "sources" d.root, n] ++ q)) es call.source
  have hfield := field_gains_ne (by decide : "tables" ≠ "name") d extras
    ([slot "sources" d.root, n] ++ [])
  rw [goesBy_grow hfield] at hsame
  simp only [addToSource, hthere, Option.getD_some, hv, ok_bind, hsame]
  cases goesBy call.source (.map es) with
  | true =>
    refine ⟨e', true, ?_, hgrows⟩
    rw [if_pos rfl, List.cons_append, List.nil_append, hadd]
    rfl
  | false => exact ⟨e, seen, rfl, by rw [if_neg (by decide), List.append_nil]; exact h⟩

def extrasOf (root : Value) (call : SourceCall) : List Extra :=
  (List.range (itemsUnder "sources" root).length).flatMap fun n =>
    if (sourceAt? root n).any (goesBy call.source) then [⟨n, call.table⟩] else []

include hone hcoherent huniform horderly in
/-- **What a walk through the sources adds.** -/
theorem grows_walk (call : SourceCall) : ∀ (ns : List Nat),
    (∀ n ∈ ns, ∃ x, sourceAt? d.root n = some x) →
    ∀ {extras : List Extra} {e : Document}, Grows d (gains d extras) e → ∀ seen : Bool,
    ∃ e' seen', ns.foldlM (addToSource [slot "sources" d.root] call) (e, seen) = .ok (e', seen') ∧
      Grows d (gains d (extras ++ ns.flatMap fun n =>
        if (sourceAt? d.root n).any (goesBy call.source) then [⟨n, call.table⟩] else [])) e' := by
  intro ns
  induction ns with
  | nil =>
    intro _ extras e h seen
    exact ⟨e, seen, rfl, by rw [List.flatMap_nil, List.append_nil]; exact h⟩
  | cons n ns ih =>
    intro hns extras e h seen
    obtain ⟨x, hx⟩ := hns n List.mem_cons_self
    obtain ⟨e₁, seen₁, hstep, h₁⟩ :=
      grows_addToSource hone hcoherent huniform horderly hx h call seen
    obtain ⟨e', seen', hrest, h'⟩ := ih (fun m hm => hns m (List.mem_cons_of_mem n hm)) h₁ seen₁
    refine ⟨e', seen', ?_, ?_⟩
    · rw [List.foldlM_cons, hstep]
      exact hrest
    · rw [List.flatMap_cons, ← List.append_assoc, hx]
      exact h'

include hcoherent horderly in
/-- The sources do not share with the tables of one of them. -/
theorem items_gains_sources : (gains d extras [slot "sources" d.root]).items = [] := by
  obtain ⟨sources, hsources⟩ := valueAt?_sources horderly
  show reaching d.root (sharesSite d) extras true [slot "sources" d.root] = []
  rw [reaching, List.map_eq_nil_iff, List.filter_eq_nil_iff]
  intro a _ hreach
  obtain ⟨hhas, hshares⟩ := (Bool.and_eq_true _ _).mp hreach
  have hhas : hasTables d.root a.source = true := beq_iff_eq.mp hhas
  obtain ⟨x, hx⟩ : ∃ x, sourceAt? d.root a.source = some x := by
    cases hx : sourceAt? d.root a.source with
    | none =>
      rw [hasTables, hx] at hhas
      cases hhas
    | some x => exact ⟨x, rfl⟩
  have hsome : (under? "tables" x).isSome = true := by
    rw [hasTables, hx] at hhas
    exact hhas
  obtain ⟨-, hnone | ⟨tables, hitems⟩⟩ :=
    orderlySource_iff.mp (orderlySource_of_sourceAt? horderly hx)
  · rw [hnone] at hsome
    cases hsome
  obtain ⟨-, hsite, htables⟩ := site_of_tables horderly hx hitems
  rcases hcoherent.value_or_shut htables rfl (sharesSite_iff.mp hshares) with heq | hshut
  · -- a sequence would be inside of itself
    obtain rfl := Value.seq.inj (Option.some.inj (hsources.symm.trans heq))
    have hbelow : site d.root a.source = [slot "sources" d.root] ++ a.source :: [slot "tables" x] :=
      hsite
    rw [hbelow, Yaml.valueAt?_append, hsources, Option.bind_some] at htables
    exact Nat.lt_irrefl _ (Yaml.sizeOf_lt_of_valueAt? htables)
  · cases hshut.isEnclosing hsources

include hone hcoherent huniform horderly in
theorem grows_addToDocument (h : Grows d (gains d extras) e) (call : SourceCall) :
    ∃ e' seen, addToDocument e call = .ok (e', seen) ∧
      Grows d (gains d (extras ++ extrasOf d.root call)) e' := by
  obtain ⟨items, hitems, -⟩ := orderly_iff.mp horderly
  have hsources := under?_grow (gains d extras) hitems
  rw [← h.root, Yaml.grow_seq, items_gains_sources hcoherent horderly, List.append_nil] at hsources
  have hwalk := grows_walk hone hcoherent huniform horderly call (List.range items.length)
    (fun n hn => by
      rw [sourceAt?_eq hitems]
      exact ⟨_, List.getElem?_eq_getElem (List.mem_range.mp hn)⟩) h false
  obtain ⟨e', seen, hfold, hgrows⟩ := hwalk
  refine ⟨e', seen, ?_, ?_⟩
  · have hindex : Document.fieldIndex? e.root "sources" = some (slot "sources" d.root) := by
      obtain ⟨es, hroot, -⟩ := exists_of_under? hitems
      have hindex := (fieldIndex?_eq_slot hitems).1
      rw [hroot] at hindex
      rw [h.root, hroot]
      exact Yaml.fieldIndex?_grow _ hindex
    have hsection : e.root.fieldD "sources" (.seq []) =
        .ok (.seq (Yaml.rebuildItems (fun q =>
          gains d extras (slot "sources" d.root :: q)) 0 items)) := by
      obtain ⟨es, hroot, hes⟩ := exists_of_under? hsources
      rw [hroot, Value.fieldD, Value.field?, hes, ok_map, Option.getD_some]
    rw [addToDocument, hsection, ok_bind, hindex]
    show (List.range (List.length _)).foldlM (addToSource [slot "sources" d.root] call)
        (e, false) = _
    rw [Yaml.length_rebuildItems]
    exact hfold
  · rw [extrasOf, itemsUnder, hitems]
    exact hgrows

end Walk

end ProjectLint.Sources
