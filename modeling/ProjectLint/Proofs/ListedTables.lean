import ProjectLint.Proofs.MissingSources
import ProjectLint.Proofs.TableGrowth

/-!
# Missing sources come to be listed

All missing sources that go by the name of a source are to be listed as its tables, behind those it
has and in their order, and nothing else is to change (`listed`).  The file is read, changed and
written once for every missing source. It comes out as it is to **just if no source that gets a
table shares the part it is added to** (`addMissing_lists_iff`): if two sources are one and the
same, both get their tables twice.
-/

namespace ProjectLint.Sources

open Yaml (Document Place valueAt? Gain Grows rebuild ReadsBack)
open Scripts (SourceCall)

/-! ### The file that is asked for -/

def tablesFor (calls : List SourceCall) (source : Value) : List Value :=
  (calls.filter fun call => goesBy call.source source).map fun call =>
    .record [("name", .str call.table)]

def withTables (tables : List Value) (source : Value) : Value :=
  if tables.isEmpty then source
  else Document.putField "tables" (.seq (itemsUnder "tables" source ++ tables)) source

/-- **The property file in which the missing sources are listed.** -/
def listed (calls : List SourceCall) (root : Value) : Value :=
  match under? "sources" root with
  | some (.seq items) =>
    Document.putField "sources" (.seq (items.map fun source =>
      withTables (tablesFor calls source) source)) root
  | _ => root

/-- A property file that sources may be added to: a mapping with sources in order, if it has any. -/
def Fit (root : Value) : Prop :=
  (∃ es, root = .map es) ∧ (under? "sources" root = none ∨ orderly root = true)

/-! ### What a source gains -/

/-- The tables that calls add, to whichever sources. -/
def extrasOfAll (root : Value) (calls : List SourceCall) : List Extra :=
  calls.flatMap (extrasOf root)

variable {root : Value} {n : Nat}

theorem mem_extrasOfAll {calls : List SourceCall} :
    (∃ a ∈ extrasOfAll root calls, a.source = n) ↔
      ∃ x, sourceAt? root n = some x ∧ ∃ call ∈ calls, goesBy call.source x = true := by
  constructor
  · rintro ⟨a, ha, rfl⟩
    obtain ⟨call, hcall, ha⟩ := List.mem_flatMap.mp ha
    obtain ⟨m, -, ha⟩ := List.mem_flatMap.mp ha
    split at ha
    · rename_i hgoes
      cases List.mem_singleton.mp ha
      cases hx : sourceAt? root m with
      | none => rw [hx] at hgoes; cases hgoes
      | some x =>
        rw [hx] at hgoes
        exact ⟨x, rfl, call, hcall, hgoes⟩
    · cases ha
  · rintro ⟨x, hx, call, hcall, hgoes⟩
    refine ⟨⟨n, call.table⟩, List.mem_flatMap.mpr ⟨call, hcall, List.mem_flatMap.mpr ⟨n, ?_, ?_⟩⟩,
      rfl⟩
    · exact List.mem_range.mpr (List.getElem?_eq_some_iff.mp hx).1
    · rw [hx, Option.any_some, if_pos hgoes]
      exact List.mem_singleton.mpr rfl

variable {x : Value} {extras : List Extra}

theorem filter_extrasOf (hx : sourceAt? root n = some x) (call : SourceCall) :
    (extrasOf root call).filter (·.source == n) = if goesBy call.source x then [⟨n, call.table⟩]
      else [] := by
  have hupTo : ∀ k, ((List.range k).flatMap fun m => if (sourceAt? root m).any (goesBy call.source)
      then [(⟨m, call.table⟩ : Extra)] else []).filter (·.source == n) =
        if n < k ∧ goesBy call.source x = true then [⟨n, call.table⟩] else [] := by
    intro k
    induction k with
    | zero => rfl
    | succ k ih =>
      rw [List.range_succ, List.flatMap_append, List.filter_append, ih, List.flatMap_singleton]
      by_cases hn : k = n
      · subst hn
        cases hgoes : goesBy call.source x <;> simp [hx, hgoes]
      · have hnone : (if (sourceAt? root k).any (goesBy call.source) then
            [(⟨k, call.table⟩ : Extra)] else []).filter
            (·.source == n) = [] := by
          split <;> simp [hn]
        have hlt : n < k + 1 ↔ n < k := by omega
        simp only [hnone, List.append_nil, hlt]
  have hlt : n < (itemsUnder "sources" root).length := (List.getElem?_eq_some_iff.mp hx).1
  rw [extrasOf, hupTo]
  simp [hlt]

theorem filter_extrasOfAll (hx : sourceAt? root n = some x) (calls : List SourceCall) :
    ((extrasOfAll root calls).filter (·.source == n)).map Extra.item = tablesFor calls x := by
  induction calls with
  | nil => rfl
  | cons call calls ih =>
    rw [extrasOfAll, List.flatMap_cons, List.filter_append, List.map_append, filter_extrasOf hx]
    rw [extrasOfAll] at ih
    rw [ih, tablesFor, tablesFor, List.filter_cons]
    cases goesBy call.source x <;> rfl

def ownGains (root : Value) (extras : List Extra) : Place → Gain :=
  gainsBy root (fun n p => p == site root n) extras

theorem reaching_nil {reach : Nat → Place → Bool} {listing : Bool} {p : Place}
    (h : ∀ a ∈ extras, hasTables root a.source = listing → reach a.source p = false) :
    reaching root reach extras listing p = [] := by
  rw [reaching, List.map_eq_nil_iff, List.filter_eq_nil_iff]
  intro a ha hreach
  obtain ⟨hhas, hreach⟩ := (Bool.and_eq_true _ _).mp hreach
  rw [h a ha (beq_iff_eq.mp hhas)] at hreach
  cases hreach

theorem ownGains_elsewhere {p : Place} (h : ∀ n, p ≠ site root n) :
    ownGains root extras p = {} := by
  have hno : ∀ listing, reaching root (fun n p => p == site root n) extras listing p = [] :=
    fun listing => reaching_nil fun a _ _ => beq_eq_false_iff_ne.mpr (h a.source)
  rw [ownGains, gainsBy, hno, hno]
  rfl

theorem site_eq_cons (root : Value) (n : Nat) :
    ∃ rest, site root n = slot "sources" root :: n :: rest := ⟨_, rfl⟩

theorem site_injective {m : Nat} (h : site root n = site root m) : n = m := by
  obtain ⟨r, hr⟩ := site_eq_cons root n
  obtain ⟨r', hr'⟩ := site_eq_cons root m
  rw [hr, hr', List.cons.injEq, List.cons.injEq] at h
  exact h.2.1

theorem reaching_site (hx : sourceAt? root n = some x) (calls : List SourceCall) (listing : Bool) :
    reaching root (fun n p => p == site root n) (extrasOfAll root calls) listing (site root n) =
      if hasTables root n = listing then tablesFor calls x else [] := by
  by_cases hhas : hasTables root n = listing
  · rw [if_pos hhas, ← filter_extrasOfAll hx, reaching]
    refine congrArg (List.map Extra.item) (List.filter_congr fun a _ => ?_)
    by_cases ha : a.source = n
    · simp [ha, hhas]
    · have hne : site root n ≠ site root a.source := fun h => ha (site_injective h).symm
      rw [beq_eq_false_iff_ne.mpr hne, beq_eq_false_iff_ne.mpr ha, Bool.and_false]
  · rw [if_neg hhas]
    refine reaching_nil fun a _ ha => beq_eq_false_iff_ne.mpr fun h => hhas ?_
    rw [site_injective h, ha]

theorem grow_new_tables {es : Entries} {g : Place → Gain} {tables : List Value}
    (hnone : under? "tables" (.map es) = none) (hown : g [] = ⟨[], asField tables⟩)
    (helse : ∀ q, q ≠ [] → g q = {}) :
    rebuild g (.map es) = withTables tables (.map es) := by
  have hbelow : Yaml.rebuildEntries g 0 es = es := by
    refine List.ext_getElem? fun i => ?_
    rw [Yaml.getElem?_rebuildEntries]
    cases es[i]? with
    | none => rfl
    | some e => simp [Yaml.grow_eq_self fun p => helse (_ :: p) (by simp)]
  rw [Yaml.grow_map, hbelow, hown, withTables, Gain.entries]
  cases tables with
  | nil => simp [asField]
  | cons table tables =>
    rw [List.isEmpty_cons, if_neg (by decide), Document.putField, itemsUnder, hnone,
      Yaml.put_eq_append (fieldIndex?_eq_none hnone).1]
    rfl

theorem grow_more_tables {es : Entries} {g : Place → Gain} {items tables : List Value}
    (hitems : under? "tables" (.map es) = some (.seq items))
    (hown : g [slot "tables" (.map es)] = ⟨tables, none⟩)
    (helse : ∀ q, q ≠ [slot "tables" (.map es)] → g q = {}) :
    rebuild g (.map es) = withTables tables (.map es) := by
  rw [withTables]
  cases tables with
  | nil =>
    refine Yaml.grow_eq_self (fun p => ?_) _
    by_cases hp : p = [slot "tables" (.map es)]
    · rw [hp, hown]
    · exact helse p hp
  | cons table tables =>
    have hbelow : Yaml.rebuildItems (fun q => g (slot "tables" (.map es) :: q)) 0 items =
        items := by
      refine List.ext_getElem? fun i => ?_
      rw [Yaml.getElem?_rebuildItems]
      cases items[i]? with
      | none => rfl
      | some item => simp [Yaml.grow_eq_self fun p => helse (_ :: _ :: p) (by simp)]
    obtain ⟨hindex, hat⟩ := fieldIndex?_eq_slot hitems
    have hfield := Yaml.grow_field hindex hat fun p hp => helse p (by rintro rfl; exact hp rfl)
    rw [hfield, Yaml.grow_seq, hbelow, hown, List.isEmpty_cons, if_neg (by decide), itemsUnder,
      hitems]

section Own

variable {d : Document} (horderly : orderly d.root = true) (calls : List SourceCall)

include horderly in
theorem grow_source {n : Nat} {x : Value} (hx : sourceAt? d.root n = some x) :
    rebuild (fun q => ownGains d.root (extrasOfAll d.root calls) (slot "sources" d.root :: n :: q))
      x = withTables (tablesFor calls x) x := by
  have helse : ∀ q, slot "sources" d.root :: n :: q ≠ site d.root n →
      ownGains d.root (extrasOfAll d.root calls) (slot "sources" d.root :: n :: q) = {} := by
    intro q hq
    refine ownGains_elsewhere fun m hm => hq ?_
    obtain rfl : n = m := by
      obtain ⟨rest, hrest⟩ := site_eq_cons d.root m
      rw [hrest, List.cons.injEq, List.cons.injEq] at hm
      exact hm.2.1
    exact hm
  have hgain := reaching_site hx calls
  obtain ⟨⟨es, rfl⟩, hnone | ⟨items, hitems⟩⟩ :=
    orderlySource_iff.mp (orderlySource_of_sourceAt? horderly hx)
  · obtain ⟨hhas, hsite, -⟩ := site_of_none horderly hx hnone
    refine grow_new_tables hnone ?_ fun q hq => helse q (by rw [hsite]; simpa using hq)
    rw [← hsite, ownGains, gainsBy, hgain, hgain, hhas, if_neg (by decide), if_pos rfl]
  · obtain ⟨hhas, hsite, -⟩ := site_of_tables horderly hx hitems
    refine grow_more_tables hitems ?_ fun q hq => helse q (by rw [hsite]; simpa using hq)
    have hplace : slot "sources" d.root :: n :: [slot "tables" (.map es)] = site d.root n :=
      hsite.symm
    rw [hplace, ownGains, gainsBy, hgain, hgain, hhas, if_pos rfl, if_neg (by decide)]
    rfl

include horderly in
/-- **The file that is asked for has grown at the sites of its sources alone.** -/
theorem listed_eq_grow : listed calls d.root =
    rebuild (ownGains d.root (extrasOfAll d.root calls)) d.root := by
  obtain ⟨items, hitems, -⟩ := orderly_iff.mp horderly
  have helse : ∀ p, (∀ n rest, p ≠ slot "sources" d.root :: n :: rest) →
      ownGains d.root (extrasOfAll d.root calls) p = {} := by
    refine fun p hp => ownGains_elsewhere fun n hn => ?_
    obtain ⟨rest, hrest⟩ := site_eq_cons d.root n
    exact hp n rest (hn.trans hrest)
  have hsources : rebuild (fun q => ownGains d.root (extrasOfAll d.root calls)
      (slot "sources" d.root :: q)) (.seq items) =
      .seq (items.map fun source => withTables (tablesFor calls source) source) := by
    rw [Yaml.grow_seq, helse [slot "sources" d.root] (by simp), List.append_nil, Value.seq.injEq]
    refine List.ext_getElem? fun i => ?_
    rw [Yaml.getElem?_rebuildItems, List.getElem?_map, Nat.zero_add]
    cases hi : items[i]? with
    | none => rfl
    | some x =>
      rw [Option.map_some, Option.map_some,
        grow_source horderly calls ((sourceAt?_eq hitems i).trans hi)]
  obtain ⟨es, hroot, -⟩ := exists_of_under? hitems
  rw [listed, hitems]
  dsimp only
  rw [← hsources]
  rw [hroot] at hitems helse ⊢
  obtain ⟨hindex, hat⟩ := fieldIndex?_eq_slot hitems
  refine (Yaml.grow_field hindex hat fun p hp => helse p fun n rest h => hp ?_).symm
  rw [h]
  rfl

end Own

/-! ### Sources that share nothing -/

/-- If what reaches a place by one rule is all that reaches it by a wider one, then every single
table that reaches it by the wider rule does so by the narrow one. -/
theorem reach_of_reaching_eq {narrow wide : Nat → Place → Bool} {extras : List Extra}
    {listing : Bool} {p : Place} (hwide : ∀ n, narrow n p = true → wide n p = true)
    (heq : reaching root wide extras listing p = reaching root narrow extras listing p) {a : Extra}
    (ha : a ∈ extras) (hhas : hasTables root a.source = listing) (hreach : wide a.source p = true) :
    narrow a.source p = true := by
  have hfilter :
      (extras.filter fun a => hasTables root a.source == listing && wide a.source p).filter
        (fun a => narrow a.source p) =
      extras.filter fun a => hasTables root a.source == listing && narrow a.source p := by
    rw [List.filter_filter]
    refine List.filter_congr fun b _ => ?_
    cases hn : narrow b.source p with
    | true => rw [hwide _ hn, Bool.true_and]
    | false => rw [Bool.false_and, Bool.and_false]
  have hlength := congrArg List.length heq
  rw [reaching, reaching, List.length_map, List.length_map, ← hfilter] at hlength
  exact List.length_filter_eq_length_iff.mp hlength.symm a
    (List.mem_filter.mpr ⟨ha, by rw [hhas, hreach]; simp⟩)

theorem asField_injective {tables tables' : List Value} (h : asField tables = asField tables') :
    tables = tables' := by
  cases tables <;> cases tables' <;> cases h <;> rfl

section Shared

variable {d : Document} {extras : List Extra} (hcoherent : d.Coherent)
    (horderly : orderly d.root = true)

theorem grow_gains_of_alone (h : ∀ a ∈ extras, d.Alone (site d.root a.source)) :
    rebuild (gains d extras) d.root = rebuild (ownGains d.root extras) d.root := by
  have hreach : ∀ a ∈ extras, ∀ {p v}, valueAt? d.root p = some v → v.isEnclosing = false →
      sharesSite d a.source p = (p == site d.root a.source) := by
    intro a ha p v hv hopen
    rw [Bool.eq_iff_iff, sharesSite_iff, beq_iff_eq]
    refine ⟨fun hp => h a ha p hp v hv hopen, ?_⟩
    rintro rfl
    exact d.mem_aliases_self _
  have hreaching : ∀ {p v}, valueAt? d.root p = some v → v.isEnclosing = false → ∀ listing,
      reaching d.root (sharesSite d) extras listing p =
        reaching d.root (fun n p => p == site d.root n) extras listing p := by
    intro p v hv hopen listing
    refine congrArg (List.map Extra.item) (List.filter_congr fun a ha => ?_)
    rw [hreach a ha hv hopen]
  refine Yaml.grow_congr _ _ _ (fun p items hp => hreaching hp rfl true) fun p es hp => ?_
  exact congrArg asField (hreaching hp rfl false)

include hcoherent horderly in
/-- **What comes to other places shows in the file.** -/
theorem alone_of_grow_eq
    (heq : rebuild (gains d extras) d.root = rebuild (ownGains d.root extras) d.root) {a : Extra}
    (ha : a ∈ extras) {x : Value} (hx : sourceAt? d.root a.source = some x) :
    d.Alone (site d.root a.source) := by
  intro q hq v hv hopen
  have hwide : ∀ n, (q == site d.root n) = true → sharesSite d n q = true := by
    intro n hn
    rw [beq_iff_eq.mp hn]
    exact sharesSite_iff.mpr (d.mem_aliases_self _)
  have hsame : ∀ {u}, valueAt? d.root (site d.root a.source) = some u → u.isEnclosing = false →
      valueAt? d.root q = some u := by
    intro u hu huopen
    rcases hcoherent.value_or_shut hu huopen hq with h | hshut
    · exact h
    · rw [hshut.isEnclosing hv] at hopen
      cases hopen
  have hnarrow := fun {listing} =>
    @reach_of_reaching_eq d.root (fun n p => p == site d.root n)
      (sharesSite d) extras listing q hwide
  refine beq_iff_eq.mp (?_ : (q == site d.root a.source) = true)
  obtain ⟨⟨es, rfl⟩, hnone | ⟨items, hitems⟩⟩ :=
    orderlySource_iff.mp (orderlySource_of_sourceAt? horderly hx)
  · obtain ⟨hhas, -, hat⟩ := site_of_none horderly hx hnone
    exact hnarrow (asField_injective (Yaml.field_of_grow_eq heq (hsame hat rfl))) ha hhas
      (sharesSite_iff.mpr hq)
  · obtain ⟨hhas, -, hat⟩ := site_of_tables horderly hx hitems
    exact hnarrow (Yaml.items_of_grow_eq heq (hsame hat rfl)) ha hhas (sharesSite_iff.mpr hq)

include hcoherent in
/-- **The file comes out as it is to just if the sites are alone.** -/
theorem grow_gains_eq_listed_iff (hfit : Fit d.root) (calls : List SourceCall) :
    rebuild (gains d (extrasOfAll d.root calls)) d.root = listed calls d.root ↔
      ∀ i x, sourceAt? d.root i = some x → (∃ call ∈ calls, goesBy call.source x = true) →
        d.Alone (site d.root i) := by
  obtain ⟨-, hnone | horderly⟩ := hfit
  · have hno : ∀ i, sourceAt? d.root i = none := by
      intro i
      rw [sourceAt?, itemsUnder, hnone]
      rfl
    have hextras : extrasOfAll d.root calls = [] := by
      refine List.eq_nil_iff_forall_not_mem.mpr fun a ha => ?_
      obtain ⟨x, hx, -⟩ := mem_extrasOfAll.mp ⟨a, ha, rfl⟩
      rw [hno] at hx
      cases hx
    rw [hextras, listed, hnone]
    refine ⟨fun _ i x hx => ?_, fun _ => Yaml.grow_eq_self (fun _ => rfl) _⟩
    rw [hno] at hx
    cases hx
  rw [listed_eq_grow horderly]
  constructor
  · intro heq i x hx hcall
    obtain ⟨a, ha, rfl⟩ := mem_extrasOfAll.mpr ⟨x, hx, hcall⟩
    exact alone_of_grow_eq hcoherent horderly heq ha hx
  · intro halone
    refine grow_gains_of_alone fun a ha => ?_
    obtain ⟨x, hx, hcall⟩ := mem_extrasOfAll.mp ⟨a, ha, rfl⟩
    exact halone _ x hx hcall

end Shared

/-! ### One file -/

section Run

variable {d : Document}

theorem grows_addToDocument_of_fit {text : String} (hread : Document.read text = .ok d)
    (hfit : Fit d.root) {e : Document} (h : Grows d (gains d extras) e) (call : SourceCall) :
    ∃ e' seen, addToDocument e call = .ok (e', seen) ∧
      Grows d (gains d (extras ++ extrasOf d.root call)) e' := by
  obtain ⟨⟨es, hes⟩, hnone | horderly⟩ := hfit
  · have hextras : extrasOf d.root call = [] := by
      rw [extrasOf, itemsUnder, hnone]
      rfl
    refine ⟨e, false, ?_, by rw [hextras, List.append_nil]; exact h⟩
    have hroot := h.root
    rw [hes] at hroot hnone
    have habsent := under?_grow_none hnone (field_gains_ne (by decide) d extras [])
    rw [Yaml.grow_map] at hroot habsent
    rw [addToDocument, hroot, Value.fieldD, Value.field?,
      show Entries.get? _ "sources" = none from habsent]
    rfl
  · exact grows_addToDocument (Yaml.oneEach_of_read hread) (Yaml.coherent_of_read hread)
      (Yaml.uniform_of_read hread)
      horderly h call

variable {path : String} {place : List String}

/-- **All missing sources are added one after another**, and the file grows by all that they add. -/
theorem grows_addAll {text : String} (hd : Document.read text = .ok d) (hfit : Fit d.root) :
    ∀ (calls : List SourceCall) {extras : List Extra} {t : Tree} {e : Document} {old : ByteArray},
      t.follow (Path.ofString path).text = .file place old →
        t.readDocument (Path.ofString path).text = .ok e →
      Grows d (gains d extras) e → (∀ e', Written e calls e' → ReadsBack e') →
      ∃ d', ((addAll path calls).run t).outcome = .ok () ∧
        ((addAll path calls).run t).tree.readDocument (Path.ofString path).text = .ok d' ∧
        Grows d (gains d (extras ++ extrasOfAll d.root calls)) d' ∧
        ∀ q, (∀ c, t.follow q ≠ .file place c) →
          ((addAll path calls).run t).tree.readText q = t.readText q := by
  intro calls
  induction calls with
  | nil =>
    intro extras t e old _ hread h _
    exact ⟨e, rfl, hread, by rw [extrasOfAll, List.flatMap_nil, List.append_nil]; exact h,
      fun q _ => rfl⟩
  | cons call calls ih =>
    intro extras t e old hfollow hread h hback
    obtain ⟨e₁, seen, hadd, h₁⟩ := grows_addToDocument_of_fit hd hfit h call
    obtain ⟨e₂, he₂, hroot, hshares⟩ := hback e₁ (.now hadd)
    obtain ⟨htree, hok, hfollow₂, hread₂⟩ := addAll_cons_run hread hadd hfollow he₂ calls
    obtain ⟨d', hok', hread', h', helse⟩ := ih hfollow₂ hread₂ (h₁.reread he₂ hroot hshares)
      fun e' he' => hback e' (.later hadd he₂ he')
    refine ⟨d', hok.trans hok', by rw [htree]; exact hread', ?_, fun q hq => ?_⟩
    · rw [extrasOfAll, List.flatMap_cons, ← List.append_assoc]
      exact h'
    · obtain ⟨hsame, hq'⟩ :=
        Tree.readText_putNode_elsewhere (Tree.node?_of_follow hfollow) e₁.write.toUTF8 hq
      rw [htree, helse q hq', hsame]

end Run

/-- **The missing sources come to be listed just if what they are added to is not shared.**  For
each of them the file is read, the table is added to every source of the name and the file is
written; it ends with status 1.  In the file as it is then, each table stands at all places that
share the site of its source: the sequence of its tables or, if it has none, the source itself.  So
the file is the one that is asked for if and only if no site of a source that goes by a missing name
is found at another place.  No other file is changed. -/
theorem addMissing_lists_iff {t : Tree} {path : String} {calls : List SourceCall} {d : Document}
    (hcalls : calls ≠ []) (hread : t.readDocument (Path.ofString path).text = .ok d)
    (hfit : Fit d.root) (hback : ∀ e, Written d calls e → ReadsBack e) :
    ∃ d', ((addMissing path calls).run t).outcome = .ok 1 ∧
      ((addMissing path calls).run t).tree.readDocument (Path.ofString path).text = .ok d' ∧
      d'.root = rebuild (gains d (extrasOfAll d.root calls)) d.root ∧
      (d'.root = listed calls d.root ↔ ∀ i x, sourceAt? d.root i = some x →
        (∃ call ∈ calls, goesBy call.source x = true) → d.Alone (site d.root i)) ∧
      ∀ q, (∀ place c c', t.follow (Path.ofString path).text = .file place c →
          t.follow q ≠ .file place c') →
        ((addMissing path calls).run t).tree.readText q = t.readText q := by
  obtain ⟨text, htext, hd⟩ := bind_eq_ok_iff.mp hread
  obtain ⟨place, old, hfollow⟩ := Tree.follow_of_readText htext
  have hstart : Grows d (gains d []) d := .start (Yaml.nodup_of_read hd)
  obtain ⟨d', hok, hread', hgrows, helse⟩ := grows_addAll hd hfit calls hfollow hread hstart hback
  rw [List.nil_append] at hgrows
  have hrun : ((addMissing path calls).run t).outcome = .ok 1 ∧
      ((addMissing path calls).run t).tree = ((addAll path calls).run t).tree := by
    rw [addMissing, Edit.run_bind_ok hok, List.isEmpty_eq_false_iff.mpr hcalls]
    exact ⟨rfl, rfl⟩
  refine ⟨d', hrun.1, by rw [hrun.2]; exact hread', hgrows.root, ?_, fun q hq => ?_⟩
  · rw [hgrows.root]
    exact grow_gains_eq_listed_iff (Yaml.coherent_of_read hd) hfit calls
  · rw [hrun.2]
    exact helse q fun c => hq place old c hfollow

def twoSources : Tree := ⟨[(["schema.yml"],
  .file "version: 2\nsources:\n- name: s\n- name: r\n  tables:\n  - name: a\n".toUTF8)]⟩

def threeCalls : List SourceCall := [⟨"r", "b"⟩, ⟨"q", "u"⟩, ⟨"s", "t"⟩]

def bothListing (first : Option (List String)) (second : List String) : Document :=
  let tables (names : List String) : Value := .seq (names.map fun n => .record [("name", .str n)])
  .plain (.record [("version", .int 2), ("sources", .seq [
    .map ((.str "name", .str "s") :: (first.map fun names => (.str "tables", tables names)).toList),
    .record [("name", .str "r"), ("tables", tables second)]])])

theorem readsBack_of_written_bothListing {e : Document}
    (h : Written (bothListing none ["a"]) threeCalls e) :
    ReadsBack e := by
  have hyields : Yaml.yields (Document.read
      (Text.unifyNewlines (bothListing none ["a", "b"]).write))
      (bothListing none ["a", "b"]) = true := by decide +kernel
  have hyields' : Yaml.yields (Document.read
      (Text.unifyNewlines (bothListing (some ["t"]) ["a", "b"]).write))
      (bothListing (some ["t"]) ["a", "b"]) = true := by decide +kernel
  cases h with
  | now added => cases added; exact Yaml.readsBack_of_yields hyields
  | later added reread rest =>
    cases added
    cases (Yaml.eq_of_yields hyields).symm.trans reread
    cases rest with
    | now added => cases added; exact Yaml.readsBack_of_yields hyields
    | later added reread rest =>
      cases added
      cases (Yaml.eq_of_yields hyields).symm.trans reread
      cases rest with
      | now added => cases added; exact Yaml.readsBack_of_yields hyields'
      | later added reread rest => cases rest

/-- Of three tables two come to the sources of their names. -/
theorem addMissing_twoSources :
    ∃ d', ((addMissing "schema.yml" threeCalls).run twoSources).outcome = .ok 1 ∧
    ((addMissing "schema.yml" threeCalls).run twoSources).tree.readDocument
      (Path.ofString "schema.yml").text = .ok d' ∧
    d'.root = listed threeCalls (bothListing none ["a"]).root ∧
    listed threeCalls (bothListing none ["a"]).root =
      (bothListing (some ["t"]) ["a", "b"]).root := by
  have hread : twoSources.readDocument (Path.ofString "schema.yml").text =
      .ok (bothListing none ["a"]) :=
    Yaml.eq_of_yields (by decide +kernel)
  have hcalls : threeCalls ≠ [] := by simp [threeCalls]
  obtain ⟨d', hok, hread', -, hiff, -⟩ :=
    addMissing_lists_iff hcalls hread ⟨⟨_, rfl⟩, .inr (by decide)⟩
    fun e => readsBack_of_written_bothListing
  exact ⟨d', hok, hread', hiff.mpr fun i x _ _ => Document.alone_of_shares_nil rfl _, rfl⟩

def sameSources : Tree := ⟨[(["schema.yml"], .file "sources:\n- &a\n  name: s\n- *a\n".toUTF8)]⟩

def twice (source : Value) (shares : List (Place × Nat)) : Document :=
  ⟨.record [("sources", .seq [source, source])], shares⟩

/-- They get the one table that is missing twice. -/
theorem addMissing_sameSources :
    let d := twice (.record [("name", .str "s")]) [([0, 0], 3), ([0, 1], 3)]
    let table := Value.record [("name", .str "t")]
    let d' := twice (.record [("name", .str "s"), ("tables", .seq [table, table])])
      [([0, 0], 3), ([0, 0, 1], 7), ([0, 0, 1, 0], 8), ([0, 0, 1, 1], 11),
        ([0, 1], 3), ([0, 1, 1], 7), ([0, 1, 1, 0], 8), ([0, 1, 1, 1], 11)]
    sameSources.readDocument "schema.yml" = .ok d ∧
    ((addMissing "schema.yml" [⟨"s", "t"⟩]).run sameSources).tree.readDocument "schema.yml" =
      .ok d' ∧
    d'.root ≠ listed [⟨"s", "t"⟩] d.root := by
  refine ⟨Yaml.eq_of_yields (by decide +kernel), Yaml.eq_of_yields (by decide +kernel), fun h => ?_⟩
  have htimes := congrArg (fun root => (sourceAt? root 0).map (timesListed "t")) h
  exact absurd htimes (by decide)

end ProjectLint.Sources
