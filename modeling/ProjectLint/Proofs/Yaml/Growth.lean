import Mathlib.Logic.Function.Basic
import ProjectLint.Proofs.Yaml.Classes
import ProjectLint.Proofs.Yaml.ReadBack
import ProjectLint.Proofs.Yaml.Rebuilding

/-!
# Growth

A value grows if it is rebuilt with items behind those that sequences have, and with fields that
hold a sequence behind the entries of mappings.  What each part gains is told by its place.  A
change at the places of a class that adds to what stands there is a growth (`foldl_changeAt_grow`),
so a series of such changes is **one growth**; and two growths of a value are the same just if every
part gains the same (`grow_congr`, `items_of_grow_eq`, `field_of_grow_eq`).
-/

namespace ProjectLint.Yaml

/-- A part is smaller than the whole. -/
theorem sizeOf_lt_of_valueAt? : ∀ {rest : Place} {v w : Value} {n : Nat},
    valueAt? v (n :: rest) = some w → sizeOf w < sizeOf v := by
  have hpart : ∀ {v w : Value} {n : Nat}, valueAt? v [n] = some w → sizeOf w < sizeOf v := by
    intro v w n h
    cases v with
    | seq items =>
      rw [valueAt?, Option.bind_eq_some_iff] at h
      obtain ⟨item, hitem, h⟩ := h
      cases h
      have hlt := List.sizeOf_lt_of_mem (List.mem_of_getElem? hitem)
      simp only [Value.seq.sizeOf_spec]
      omega
    | map entries =>
      rw [valueAt?, Option.bind_eq_some_iff] at h
      obtain ⟨e, he, h⟩ := h
      cases h
      exact Value.sizeOf_lt_map (List.mem_of_getElem? he)
    | pair first second =>
      rw [valueAt?] at h
      simp only [Value.pair.sizeOf_spec]
      split at h
      · cases h
        omega
      split at h
      · cases h
        omega
      · cases h
    | scalar s => cases h
    | set members => cases h
    | enclosing shape => cases h
  intro rest
  induction rest with
  | nil => exact hpart
  | cons m rest ih =>
    intro v w n h
    have happend : n :: m :: rest = [n] ++ (m :: rest) := rfl
    rw [happend, valueAt?_append, Option.bind_eq_some_iff] at h
    obtain ⟨u, hu, hw⟩ := h
    exact Nat.lt_trans (ih hw) (hpart hu)

/-! ### Growths -/

/-- What a part gains: items, if it is a sequence, or a field with a sequence, if it is a
mapping. -/
structure Gain where
  items : List Value := []
  field : Option (String × List Value) := none

namespace Gain

def push (gain : Gain) (item : Value) : Gain := { gain with items := gain.items ++ [item] }

def start (gain : Gain) (key : String) : Gain := { gain with field := some (key, []) }

def pushField (gain : Gain) (item : Value) : Gain :=
  { gain with field := gain.field.map fun f => (f.1, f.2 ++ [item]) }

def entries (gain : Gain) : Entries := gain.field.toList.map fun f => (.str f.1, .seq f.2)

end Gain

/-- To let a value grow is to rebuild it with what its parts gain behind what they have. -/
instance grows : Rebuilds Gain where
  items gain items := items ++ gain.items
  entries gain entries := entries ++ gain.entries

variable {p : Place} {v w : Value} {f : Value → Value} {entries : Entries} {key : String}
    {items : List Value}

theorem grow_seq (g : Place → Gain) (items : List Value) :
    rebuild g (.seq items) = .seq (rebuildItems g 0 items ++ (g []).items) := by
  rw [rebuild]
  rfl

theorem grow_map (g : Place → Gain) (entries : Entries) :
    rebuild g (.map entries) = .map (rebuildEntries g 0 entries ++ (g []).entries) := by
  rw [rebuild]
  rfl

theorem grow_congr (v : Value) (g h : Place → Gain)
    (hitems : ∀ p items, valueAt? v p = some (.seq items) → (g p).items = (h p).items)
    (hfield : ∀ p entries, valueAt? v p = some (.map entries) → (g p).field = (h p).field) :
    rebuild g v = rebuild h v := by
  refine rebuild_congr v g h (fun p items hp xs => ?_) fun p entries hp => ?_
  · exact congrArg (xs ++ ·) (hitems p items hp)
  · have hgain : (g p).entries = (h p).entries := by
      rw [Gain.entries, Gain.entries, hfield p entries hp]
    exact congrArg (rebuildEntries (fun q => h (p ++ q)) 0 entries ++ ·) hgain

theorem grow_nothing (v : Value) : rebuild (fun _ => ({} : Gain)) v = v :=
  rebuild_eq_self (fun _ xs => List.append_nil xs) fun _ es => List.append_nil es

variable {g : Place → Gain}

theorem grow_eq_self (h : ∀ p, g p = {}) (v : Value) : rebuild g v = v := by
  rw [show g = fun _ => {} from funext h, grow_nothing]

theorem Gain.adds (gain : Gain) : Adds gain :=
  ⟨⟨gain.items, fun _ => rfl⟩, ⟨gain.entries, fun _ => rfl⟩⟩

theorem valueAt?_grow (g : Place → Gain) (h : valueAt? v p = some w) :
    valueAt? (rebuild g v) p = some (rebuild (fun q => g (p ++ q)) w) :=
  valueAt?_rebuild_of_adds (fun q => (g q).adds) h

/-! ### What parts gain can be read off -/

theorem items_of_grow_eq {h : Place → Gain} (heq : rebuild g v = rebuild h v)
    (hp : valueAt? v p = some (.seq items)) :
    (g p).items = (h p).items := by
  have hg := valueAt?_grow g hp
  have hh := valueAt?_grow h hp
  rw [heq, hh, grow_seq, grow_seq, Option.some.injEq, Value.seq.injEq, List.append_nil] at hg
  exact (List.append_inj_right hg (by rw [length_rebuildItems, length_rebuildItems])).symm

theorem field_of_grow_eq {h : Place → Gain} (heq : rebuild g v = rebuild h v)
    (hp : valueAt? v p = some (.map entries)) :
    (g p).field = (h p).field := by
  have hg := valueAt?_grow g hp
  have hh := valueAt?_grow h hp
  rw [heq, hh, grow_map, grow_map, Option.some.injEq, Value.map.injEq, List.append_nil] at hg
  have hentries := List.append_inj_right hg (by rw [length_rebuildEntries, length_rebuildEntries])
  rw [Gain.entries, Gain.entries] at hentries
  cases hx : (g p).field with
  | none =>
    cases hy : (h p).field with
    | none => rfl
    | some y =>
      rw [hx, hy] at hentries
      cases hentries
  | some x =>
    cases hy : (h p).field with
    | none =>
      rw [hx, hy] at hentries
      cases hentries
    | some y =>
      rw [hx, hy] at hentries
      obtain ⟨key, items⟩ := x
      obtain ⟨key', items'⟩ := y
      cases hentries
      rfl

/-! ### Changes that add -/

theorem modify_length {α : Type} (f : α → α) (a : α) (before : List α) :
    (before ++ [a]).modify before.length f = before ++ [f a] := by
  induction before with
  | nil => rfl
  | cons b before ih => simp [ih]

theorem changeAt_grow_of_shut (hf : ∀ shape, f (.enclosing shape) = .enclosing shape) (h : Shut v p)
    (g : Place → Gain) :
    changeAt f (rebuild g v) p = rebuild g v := by
  obtain ⟨above, below, w, rfl, hw, he⟩ := h
  obtain ⟨shape, rfl⟩ := Value.eq_of_isEnclosing he
  rw [changeAt_append]
  refine changeAt_eq_self fun u hu => ?_
  rw [valueAt?_grow g hw, rebuild] at hu
  cases hu
  cases below with
  | nil => exact hf shape
  | cons n rest => rfl

/-- **A change that adds to what stands at the places of a class.** -/
theorem foldl_changeAt_grow (change : Gain → Gain) (fits : Gain → Prop) {u : Value}
    (hshut : ∀ shape, f (.enclosing shape) = .enclosing shape)
    (hf : ∀ g : Place → Gain, fits (g []) →
      f (rebuild g u) = rebuild (Function.update g [] (change (g []))) u) :
    ∀ (places : List Place) (g : Place → Gain), places.Nodup →
      (∀ p ∈ places, valueAt? v p = some u ∧ fits (g p) ∨ Shut v p) →
      places.foldl (fun v p => changeAt f v p) (rebuild g v) =
        rebuild (fun p => if p ∈ places then change (g p) else g p) v := by
  intro places
  induction places with
  | nil => intro g _ _; simp
  | cons p places ih =>
    intro g hnodup hplaces
    obtain ⟨hp, hnodup⟩ := List.nodup_cons.mp hnodup
    have hrest : ∀ q ∈ places, valueAt? v q = some u ∧ fits (g q) ∨ Shut v q :=
      fun q hq => hplaces q (List.mem_cons_of_mem p hq)
    rw [List.foldl_cons]
    rcases hplaces p List.mem_cons_self with ⟨hu, hfits⟩ | hp'
    · rw [changeAt_rebuild (a := change (g p)) (fun q => (g q).adds) hu
        (by rw [hf _ (by rwa [List.append_nil]), List.append_nil])]
      rw [ih _ hnodup]
      · congr 1
        funext q
        by_cases hq : q = p
        · subst hq
          rw [if_neg hp, if_pos List.mem_cons_self, Function.update_self]
        · simp [hq]
      · intro q hq
        have hne : q ≠ p := fun h => hp (h ▸ hq)
        rw [Function.update_of_ne hne]
        exact hrest q hq
    · -- what is said of such a place does not count
      have hne : ∀ {q w}, valueAt? v q = some w → w.isEnclosing = false → q ≠ p := by
        rintro q w hq hopen rfl
        rw [hp'.isEnclosing hq] at hopen
        cases hopen
      rw [changeAt_grow_of_shut hshut hp', ih _ hnodup hrest]
      refine grow_congr v _ _ (fun q items hq => ?_) fun q entries hq => ?_
      · simp [hne hq rfl]
      · simp [hne hq rfl]

/-! ### Fields of a mapping that grows -/

theorem put_eq_append (h : Document.fieldIndex? (.map entries) key = none) (x : Value) :
    Entries.put entries key x = entries ++ [(.str key, x)] := by
  rw [Document.fieldIndex?, List.findIdx?_eq_none_iff] at h
  refine Entries.insert_of_not_contains x (List.any_eq_false.mpr fun e he => ?_)
  rw [h e he]
  decide

theorem put_eq_modify (x : Value) : ∀ {entries : Entries} {n : Nat},
    Document.fieldIndex? (.map entries) key = some n →
      Entries.put entries key x = entries.modify n fun e => (e.1, x) := by
  intro entries
  rw [Entries.put]
  induction entries with
  | nil => intro n h; cases h
  | cons e entries ih =>
    intro n h
    rw [Document.fieldIndex?, List.findIdx?_cons] at h
    rw [Entries.insert]
    cases hkey : e.1.same (.str key) with
    | true =>
      rw [hkey] at h
      cases h
      rfl
    | false =>
      rw [hkey] at h
      obtain ⟨m, hm, rfl⟩ := Option.map_eq_some_iff.mp h
      rw [if_neg (by decide), ih hm]
      rfl

theorem grow_field {n : Nat} {x : Value} (hindex : Document.fieldIndex? (.map entries) key = some n)
    (hx : valueAt? (.map entries) [n] = some x) (helse : ∀ p, p.head? ≠ some n → g p = {}) :
    rebuild g (.map entries) =
      Document.putField key (rebuild (fun q => g (n :: q)) x) (.map entries) := by
  rw [grow_map, helse [] (by simp), Document.putField, put_eq_modify _ hindex]
  refine congrArg Value.map ?_
  rw [Gain.entries, Option.toList_none, List.map_nil, List.append_nil]
  refine List.ext_getElem? fun i => ?_
  rw [getElem?_rebuildEntries, List.getElem?_modify, Nat.zero_add]
  cases hi : entries[i]? with
  | none => rfl
  | some e =>
    by_cases h : n = i
    · subst h
      rw [valueAt?, hi] at hx
      cases hx
      simp
    · simp [grow_eq_self fun q => helse (i :: q) (by simpa using Ne.symm h), h]

theorem fieldIndex?_grow {n : Nat} (g : Place → Gain)
    (h : Document.fieldIndex? (.map entries) key = some n) :
    Document.fieldIndex? (rebuild g (.map entries)) key = some n := by
  rw [grow_map, fieldIndex?_eq_map_fst, List.map_append, map_fst_rebuildEntries,
    List.findIdx?_append]
  rw [fieldIndex?_eq_map_fst] at h
  rw [h]
  rfl

theorem fieldIndex?_grow_of_none (h : Document.fieldIndex? (.map entries) key = none)
    (hfield : (g []).field.all (·.1 ≠ key) = true) :
    Document.fieldIndex? (rebuild g (.map entries)) key = none := by
  rw [grow_map, fieldIndex?_eq_map_fst, List.map_append, map_fst_rebuildEntries,
    List.findIdx?_append]
  rw [fieldIndex?_eq_map_fst] at h
  rw [h, Gain.entries]
  cases hg : (g []).field with
  | none => rfl
  | some f =>
    rw [hg] at hfield
    simpa [Scalar.same] using hfield

theorem fieldIndex?_grow_of_field (h : Document.fieldIndex? (.map entries) key = none)
    (hfield : (g []).field = some (key, items)) :
    Document.fieldIndex? (rebuild g (.map entries)) key = some entries.length ∧
      valueAt? (rebuild g (.map entries)) [entries.length] = some (.seq items) := by
  constructor
  · rw [grow_map, fieldIndex?_eq_map_fst, List.map_append, map_fst_rebuildEntries,
      List.findIdx?_append]
    rw [fieldIndex?_eq_map_fst] at h
    rw [h, Gain.entries, hfield]
    simp [Scalar.same]
  · have hlength := length_rebuildEntries g entries 0
    rw [grow_map, valueAt?, List.getElem?_append_right (by omega), hlength, Nat.sub_self,
      Gain.entries, hfield]
    rfl

theorem same_grow (g : Place → Gain) (v : Value) (s : String) :
    (rebuild g v).same (.str s) = v.same (.str s) := by
  cases v with
  | seq items => rw [rebuild]; rfl
  | map entries => rw [rebuild]; rfl
  | pair first second => rw [rebuild]; rfl
  | scalar x => rw [rebuild]
  | set members => rw [rebuild]
  | enclosing shape => rw [rebuild]

/-! ### Documents that grow -/

/-- **A document with what its parts gain**, in which the same places share. -/
structure Grows (d : Document) (g : Place → Gain) (e : Document) : Prop where
  root : e.root = rebuild g d.root
  shares : SameShares e d
  nodup : ∀ p, (e.aliases p).Nodup

namespace Grows

variable {d e : Document}

theorem start (h : (d.shares.map (·.1)).Nodup) : Grows d (fun _ => {}) d :=
  ⟨(grow_nothing d.root).symm, fun _ _ => Iff.rfl, Document.nodup_aliases h⟩

theorem reread (h : Grows d g e) {text : String} {e' : Document}
    (hread : Document.read text = .ok e')
    (hroot : e'.root = e.root) (hshares : SameShares e' e) : Grows d g e' :=
  ⟨hroot.trans h.root, fun p q => (hshares p q).trans (h.shares p q),
    Document.nodup_aliases (nodup_of_read hread)⟩

theorem of_root (h : Grows d g e) {g' : Place → Gain} {e' : Document}
    (hshares : e'.shares = e.shares) (hroot : e'.root = rebuild g' d.root) : Grows d g' e' := by
  have haliases : ∀ q, e'.aliases q = e.aliases q :=
    fun q => Document.aliasesRev_congr hshares q.reverse
  refine ⟨hroot, fun q r => ?_, fun q => ?_⟩
  · rw [haliases]
    exact h.shares q r
  · rw [haliases]
    exact h.nodup q

theorem congr (h : Grows d g e) {g' : Place → Gain}
    (hitems : ∀ p items, valueAt? d.root p = some (.seq items) → (g p).items = (g' p).items)
    (hfield : ∀ p entries, valueAt? d.root p = some (.map entries) → (g p).field = (g' p).field) :
    Grows d g' e :=
  ⟨h.root.trans (grow_congr d.root g g' hitems hfield), h.shares, h.nodup⟩

theorem foldl_changeAt (h : Grows d g e) (hd : d.Coherent) (f : Value → Value) (new : Gain → Gain)
    (fits : Gain → Prop)
    {u : Value} (hu : valueAt? d.root p = some u) (hopen : u.isEnclosing = false)
    (hshut : ∀ shape, f (.enclosing shape) = .enclosing shape)
    (hf : ∀ g : Place → Gain, fits (g []) →
      f (rebuild g u) = rebuild (Function.update g [] (new (g []))) u)
    (hfits : ∀ q ∈ d.aliases p, valueAt? d.root q = some u → fits (g q))
    {places : List Place} (hnodup : places.Nodup) (hclass : ∀ q, q ∈ places ↔ q ∈ d.aliases p) :
    places.foldl (fun v q => changeAt f v q) e.root =
      rebuild (fun q => if q ∈ d.aliases p then new (g q) else g q) d.root := by
  rw [h.root, foldl_changeAt_grow new fits hshut hf _ _ hnodup]
  · simp only [hclass]
  · intro q hq
    have hq := (hclass q).mp hq
    rcases hd.value_or_shut hu hopen hq with hq' | hq'
    · exact .inl ⟨hq', hfits q hq hq'⟩
    · exact .inr hq'

theorem push (h : Grows d g e) (hd : d.Coherent) (hp : valueAt? d.root p = some (.seq items))
    (item : Value) :
    Grows d (fun q => if q ∈ d.aliases p then (g q).push item else g q) (e.push p item) := by
  have hf : ∀ g : Place → Gain, True →
      Document.pushItem item (rebuild g (.seq items)) =
        rebuild (Function.update g [] ((g []).push item)) (.seq items) := by
    intro g _
    rw [grow_seq, grow_seq, rebuildItems_update, Function.update_self, Document.pushItem,
      List.append_assoc]
    rfl
  exact h.of_root rfl (h.foldl_changeAt hd _ (·.push item) (fun _ => True) hp rfl (fun _ => rfl) hf
    (fun _ _ _ => trivial) (h.nodup p) (h.shares p))

/-- An empty sequence under a key that a mapping does not have. -/
theorem put (h : Grows d g e) (hd : d.Coherent) {p : Place} {entries : Entries} {key : String}
    (hp : valueAt? d.root p = some (.map entries))
    (hkey : Document.fieldIndex? (.map entries) key = none)
    (hfield : ∀ q ∈ d.aliases p, valueAt? d.root q = some (.map entries) → (g q).field = none) :
    Grows d (fun q => if q ∈ d.aliases p then (g q).start key else g q)
      (e.put p key (.seq [])) := by
  have hf : ∀ g : Place → Gain, (g []).field = none →
      Document.putField key (.seq []) (rebuild g (.map entries)) =
      rebuild (Function.update g [] ((g []).start key)) (.map entries) := by
    intro g hnone
    have hnokey : Document.fieldIndex? (.map (rebuildEntries g 0 entries)) key = none := by
      rw [fieldIndex?_eq_map_fst, map_fst_rebuildEntries, ← fieldIndex?_eq_map_fst]
      exact hkey
    rw [grow_map, grow_map, rebuildEntries_update, Function.update_self, Document.putField,
      Gain.entries, hnone]
    show Value.map (Entries.put (rebuildEntries g 0 entries ++ []) key (.seq [])) = _
    rw [List.append_nil, put_eq_append hnokey]
    rfl
  have hself : (g p).field = none := hfield p (d.mem_aliases_self p) hp
  have hat : (e.at? p).bind (fun v => Document.fieldIndex? v key) = none := by
    rw [Document.at?, h.root, valueAt?_grow g hp, Option.bind_some]
    refine fieldIndex?_grow_of_none hkey ?_
    rw [List.append_nil, hself]
    rfl
  have hput : e.put p key (.seq []) = e.change p (Document.putField key (.seq [])) := by
    rw [Document.put, hat]
  rw [hput]
  exact h.of_root rfl (h.foldl_changeAt hd _ (·.start key) (fun gain => gain.field = none) hp rfl
    (fun _ => rfl) hf hfield (h.nodup p) (h.shares p))

/-- An item behind those of a field that a mapping has gained. -/
theorem pushField (h : Grows d g e) (hd : d.Coherent) (hp : valueAt? d.root p = some (.map entries))
    (hfield : ∀ q ∈ d.aliases p, valueAt? d.root q = some (.map entries) →
      (g q).field.isSome = true) (item : Value) :
    Grows d (fun q => if q ∈ d.aliases p then (g q).pushField item else g q)
      (e.push (p ++ [entries.length]) item) := by
  have habsent : valueAt? d.root (p ++ [entries.length]) = none := by
    rw [valueAt?_append, hp, Option.bind_some, valueAt?, List.getElem?_eq_none (Nat.le_refl _)]
    rfl
  have hmem : ∀ q, q ∈ e.aliases (p ++ [entries.length]) ↔
      ∃ r ∈ d.aliases p, r ++ [entries.length] = q := by
    intro q
    rw [h.shares, Document.aliases_of_absent hd habsent, List.mem_map]
  -- the places of the class, without their last index
  obtain ⟨places, hplaces⟩ : ∃ places : List Place, e.aliases (p ++ [entries.length]) =
      places.map (· ++ [entries.length]) := by
    refine ⟨(e.aliases (p ++ [entries.length])).map List.dropLast, ?_⟩
    rw [List.map_map, List.map_congr_left (g := id), List.map_id]
    intro q hq
    obtain ⟨r, -, rfl⟩ := (hmem q).mp hq
    simp
  have hclass : ∀ q, q ∈ places ↔ q ∈ d.aliases p := by
    intro q
    have hiff := hmem (q ++ [entries.length])
    rw [hplaces] at hiff
    simpa using hiff
  have hnodup : places.Nodup := by
    have hnodup := h.nodup (p ++ [entries.length])
    rw [hplaces] at hnodup
    exact hnodup.of_map
  have hf : ∀ g : Place → Gain, (g []).field.isSome = true →
      changeAt (Document.pushItem item) (rebuild g (.map entries)) [entries.length] =
        rebuild (Function.update g [] ((g []).pushField item)) (.map entries) := by
    intro g hsome
    obtain ⟨⟨key, items⟩, hgain⟩ := Option.isSome_iff_exists.mp hsome
    rw [grow_map, grow_map, rebuildEntries_update, Function.update_self, Gain.entries, Gain.entries,
      Gain.pushField, hgain, changeAt]
    show Value.map ((rebuildEntries g 0 entries ++ [_]).modify entries.length _) = _
    rw [← length_rebuildEntries g entries 0, modify_length]
    rfl
  refine h.of_root rfl ?_
  show (e.aliases (p ++ [entries.length])).foldl
      (fun v q => changeAt (Document.pushItem item) v q) e.root = _
  rw [hplaces, List.foldl_map]
  simp only [changeAt_append]
  exact h.foldl_changeAt hd _ (·.pushField item) (·.field.isSome = true) hp rfl
    (fun _ => rfl) hf hfield hnodup hclass

end Grows

end ProjectLint.Yaml
