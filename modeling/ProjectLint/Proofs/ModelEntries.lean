import ProjectLint.Fixes.Properties
import ProjectLint.Proofs.Files
import ProjectLint.Proofs.TableGrowth

/-!
# Entries of models

The entry of a model is appended to the models of a property file (`withEntries`), or a new file
starts with it (`newRoot`).  If the models of the file are shared with another part of it then that
part grows too, so **the file is the one that is asked for just if its models are alone**
(`grow_entries_eq_iff`).  Models that are missing or empty are replaced by a new sequence, which is
shared with nothing.
-/

namespace ProjectLint.PropertyFiles

open Yaml (Document Place valueAt? changeAt Gain Grows rebuild grow_nothing grow_field
    rebuildItems_update items_of_grow_eq
  ReadsBack SameShares)
open Sources (under? itemsUnder slot)

/-! ### Documents with more entries -/

def modelsPlace (root : Value) : Place := [slot "models" root]

def withEntries (entries : List Value) (root : Value) : Value :=
  Document.putField "models" (.seq (itemsUnder "models" root ++ entries)) root

def newRoot (entries : List Value) : Value :=
  .record [("version", .int 2), ("models", .seq entries)]

theorem putField_putField (key : String) (x y root : Value) :
    Document.putField key y (Document.putField key x root) = Document.putField key y root := by
  cases root with
  | map es => exact congrArg Value.map (Entries.insert_insert (by simp [Scalar.same]) x y es)
  | scalar s => rfl
  | seq items => rfl
  | set members => rfl
  | pair first second => rfl
  | enclosing shape => rfl

theorem under?_putField (key : String) (x : Value) (es : Entries) :
    under? key (Document.putField key x (.map es)) = some x := Entries.get?_put_self es key x

theorem slot_map (key : String) (es : Entries) :
    slot key (.map es) = (Document.fieldIndex? (.map es) key).getD es.length := rfl

theorem slot_putField (key : String) (x : Value) (es : Entries) :
    slot key (Document.putField key x (.map es)) = slot key (.map es) := by
  cases h : Document.fieldIndex? (.map es) key with
  | none =>
    rw [slot_map key es, h, Document.putField, Yaml.put_eq_append h, slot, List.findIdx?_append]
    rw [Document.fieldIndex?] at h
    rw [h]
    simp [Scalar.same]
  | some n =>
    rw [Document.putField, Yaml.put_eq_modify x h, slot, slot,
      Sources.findIdx?_modify (.str key) (fun _ => x), List.length_modify]

theorem itemsUnder_withEntries (es : Entries) (entries : List Value) :
    itemsUnder "models" (withEntries entries (.map es)) =
      itemsUnder "models" (.map es) ++ entries := by
  rw [withEntries, itemsUnder, under?_putField]

theorem withEntries_withEntries (es : Entries) (entries more : List Value) :
    withEntries more (withEntries entries (.map es)) = withEntries (entries ++ more) (.map es) := by
  rw [withEntries, itemsUnder_withEntries, withEntries, putField_putField, List.append_assoc,
    withEntries]

theorem withEntries_newRoot (entries more : List Value) :
    withEntries more (newRoot entries) = newRoot (entries ++ more) := rfl

/-! ### What is appended -/

variable {d b : Document} {content : ByteArray} {items entries : List Value} {es : Entries}
    {key : String}

theorem root_put_models (hroot : d.root = .map es) :
    (d.put [] "models" (.seq [])).root = Document.putField "models" (.seq []) (.map es) := by
  rw [Document.put, hroot.symm]
  cases (d.at? []).bind fun v => Document.fieldIndex? v "models" <;> rfl

variable {entry : Value}

/-- The entry comes behind the models, which must be a sequence. -/
theorem eq_push_of_models {d' : Document} {x : Value} (hunder : under? "models" d.root = some x)
    (h : (match Document.fieldIndex? d.root "models" with
      | none => .ok d
      | some n =>
        match d.at? [n] with
        | some (.seq _) => .ok (d.push [n] entry)
        | _ => .error .noSuchField) = (.ok d' : Except Fault Document)) :
    (∃ items, x = .seq items) ∧ d' = d.push (modelsPlace d.root) entry := by
  obtain ⟨hindex, hat⟩ := Sources.fieldIndex?_eq_slot hunder
  rw [hindex] at h
  dsimp only at h
  rw [Document.at?, hat] at h
  split at h
  · rename_i items heq
    cases h
    exact ⟨⟨items, Option.some.inj heq⟩, rfl⟩
  · cases h

theorem under?_of_fieldD {v x default : Value} (h : v.fieldD key default = .ok x) :
    (∃ es, v = .map es) ∧ (under? key v).getD default = x := by
  obtain ⟨found, hfound, rfl⟩ := map_eq_ok_iff.mp h
  obtain ⟨es, rfl, rfl⟩ := eq_map_of_field? hfound
  exact ⟨⟨es, rfl⟩, rfl⟩

theorem itemsUnder_of_not_truthy {v : Value} (h : ((under? key v).getD .null).truthy = false) :
    itemsUnder key v = [] := by
  rw [itemsUnder]
  split
  · rename_i items hunder
    rw [hunder] at h
    simpa [Value.truthy] using h
  · rfl

/-- **What appending does**: an entry comes behind models that are there, and missing or empty
models are made new. -/
theorem append_cases {d' : Document} (h : append d entry = .ok d') :
    (∃ items, items ≠ [] ∧ under? "models" d.root = some (.seq items) ∧
      d' = d.push (modelsPlace d.root) entry) ∨
    (itemsUnder "models" d.root = [] ∧ (∃ es, d.root = .map es) ∧
      d' = (d.put [] "models" (.seq [])).push (modelsPlace d.root) entry) := by
  obtain ⟨models, hmodels, h⟩ := bind_eq_ok_iff.mp h
  obtain ⟨⟨es, hroot⟩, rfl⟩ := under?_of_fieldD hmodels
  cases htruthy : ((under? "models" d.root).getD .null).truthy with
  | true =>
    rw [htruthy, if_pos rfl] at h
    cases hunder : under? "models" d.root with
    | none => rw [hunder] at htruthy; cases htruthy
    | some x =>
      obtain ⟨⟨items, rfl⟩, hd'⟩ := eq_push_of_models hunder h
      refine .inl ⟨items, ?_, rfl, hd'⟩
      rintro rfl
      rw [hunder] at htruthy
      cases htruthy
  | false =>
    rw [htruthy, if_neg (by decide)] at h
    have hnew : under? "models" (d.put [] "models" (.seq [])).root = some (.seq []) := by
      rw [root_put_models hroot]
      exact under?_putField "models" _ es
    obtain ⟨-, hd'⟩ := eq_push_of_models hnew h
    refine .inr ⟨itemsUnder_of_not_truthy htruthy, ⟨es, hroot⟩, ?_⟩
    rw [hd', modelsPlace, root_put_models hroot, slot_putField, modelsPlace, hroot]

theorem shareAt?_put_models (hcoherent : d.Coherent) (hroot : d.root = .map es) :
    (d.put [] "models" (.seq [])).shareAt? (modelsPlace d.root) = none := by
  cases hindex : Document.fieldIndex? d.root "models" with
  | none =>
    -- nothing was there that could have been shared
    have hshares : (d.put [] "models" (.seq [])).shares = d.shares := by
      rw [Document.put, Document.at?, valueAt?, Option.bind_some, hindex]
      rfl
    have habsent : valueAt? d.root (modelsPlace d.root) = none := by
      rw [hroot] at hindex
      rw [hroot, modelsPlace, slot_map, hindex, valueAt?]
      simp
    rw [Document.shareAt?, hshares]
    cases hshare : d.shareAt? (modelsPlace d.root) with
    | none => exact hshare
    | some id =>
      obtain ⟨w, hw, -⟩ := hcoherent.part _ (Document.mem_shares_of_shareAt? hshare)
      rw [habsent] at hw
      cases hw
  | some n =>
    -- what was there is forgotten
    have hplace : modelsPlace d.root = [n] := by
      rw [hroot] at hindex
      rw [hroot, modelsPlace, slot_map, hindex]
      rfl
    have hshares : (d.put [] "models" (.seq [])).shares = (d.forget [[n]]).shares := by
      rw [Document.put, Document.at?, valueAt?, Option.bind_some, hindex]
      rfl
    rw [Document.shareAt?, hshares, hplace, Option.map_eq_none_iff, List.find?_eq_none]
    intro s hs heq
    have hprefix := (List.mem_filter.mp hs).2
    rw [eq_of_beq heq] at hprefix
    simp at hprefix

theorem aliases_put_models (hcoherent : d.Coherent) (hroot : d.root = .map es) :
    (d.put [] "models" (.seq [])).aliases (modelsPlace d.root) = [modelsPlace d.root] := by
  show Document.aliasesRev _ [slot "models" d.root] = _
  rw [Document.aliasesRev, show [slot "models" d.root].reverse = modelsPlace d.root from rfl,
    shareAt?_put_models hcoherent hroot]
  rfl

theorem changeAt_putField (f : Value → Value) (key : String) (x : Value) (es : Entries) :
    changeAt f (Document.putField key x (.map es)) [slot key (.map es)] =
      Document.putField key (f x) (.map es) := by
  cases hindex : Document.fieldIndex? (.map es) key with
  | none =>
    rw [slot_map, hindex, Document.putField, Document.putField, Yaml.put_eq_append hindex,
      Yaml.put_eq_append hindex, Option.getD_none, changeAt, Yaml.modify_length]
    rfl
  | some n =>
    rw [slot_map, hindex, Document.putField, Document.putField, Yaml.put_eq_modify _ hindex,
      Yaml.put_eq_modify _ hindex, Option.getD_some, changeAt]
    refine congrArg Value.map (List.ext_getElem? fun i => ?_)
    rw [List.getElem?_modify, List.getElem?_modify, List.getElem?_modify]
    by_cases hi : n = i
    · cases es[i]? <;> simp [hi, changeAt]
    · simp [hi]

/-- **Models that were missing or empty** hold the entry, and share with nothing. -/
theorem append_blank (hcoherent : d.Coherent) (hroot : d.root = .map es)
    (hblank : itemsUnder "models" d.root = []) (entry : Value) :
    ((d.put [] "models" (.seq [])).push (modelsPlace d.root) entry).root = withEntries
      [entry] d.root ∧ ((d.put [] "models" (.seq [])).push (modelsPlace d.root) entry).aliases
        (modelsPlace d.root) = [modelsPlace d.root] := by
  have haliases := aliases_put_models hcoherent hroot
  constructor
  · rw [Document.push, Document.change, haliases, List.foldl_cons, List.foldl_nil]
    dsimp only
    rw [root_put_models hroot, modelsPlace, hroot, changeAt_putField, withEntries, ← hroot, hblank]
    rfl
  · exact (Document.aliasesRev_congr rfl _).trans haliases

/-! ### Growth by entries -/

def entryGains (d : Document) (entries : List Value) (p : Place) : Gain :=
  if p ∈ d.aliases (modelsPlace d.root) then ⟨entries, none⟩ else {}

theorem entryGains_nil (d : Document) : entryGains d [] = fun _ => {} := by
  funext p
  rw [entryGains]
  split <;> rfl

theorem entryGains_concat (d : Document) (entries : List Value) (entry : Value) :
    entryGains d (entries ++ [entry]) = fun p => if p ∈ d.aliases (modelsPlace d.root)
      then (entryGains d entries p).push entry else entryGains d entries p := by
  funext p
  rw [entryGains]
  split
  · rename_i hp
    rw [entryGains, if_pos hp]
    rfl
  · rename_i hp
    rw [entryGains, if_neg hp]

theorem models_grow_ne_nil {c : Document} {g : Place → Gain}
    (hitems : under? "models" b.root = some (.seq items))
    (hne : items ≠ []) (h : Grows b g c) : itemsUnder "models" c.root ≠ [] := by
  have hunder := Sources.under?_grow g hitems
  rw [← h.root, Yaml.grow_seq] at hunder
  rw [itemsUnder, hunder]
  intro hnil
  have hlength := congrArg List.length hnil
  rw [List.length_append, Yaml.length_rebuildItems, List.length_nil] at hlength
  exact hne (List.length_eq_zero_iff.mp (by omega))

/-- An entry comes behind those that the models have gained. -/
theorem grows_append {c c' : Document} (hcoherent : b.Coherent)
    (hitems : under? "models" b.root = some (.seq items))
    (hne : items ≠ []) (h : Grows b (entryGains b entries) c) (happend : append c entry = .ok c') :
    Grows b (entryGains b (entries ++ [entry])) c' := by
  obtain ⟨hindex, hat⟩ := Sources.fieldIndex?_eq_slot hitems
  have hunder := Sources.under?_grow (entryGains b entries) hitems
  rw [← h.root, Yaml.grow_seq] at hunder
  have hslot : modelsPlace c.root = modelsPlace b.root := by
    obtain ⟨es, hes, -⟩ := Sources.exists_of_under? hitems
    obtain ⟨hindex', -⟩ := Sources.fieldIndex?_eq_slot hunder
    rw [h.root, hes, Yaml.fieldIndex?_grow _ (hes ▸ hindex), Option.some.injEq] at hindex'
    rw [modelsPlace, modelsPlace, h.root, hes]
    exact congrArg (fun n => [n]) hindex'.symm
  rcases append_cases happend with ⟨-, -, -, rfl⟩ | ⟨hblank, -⟩
  · rw [hslot, entryGains_concat]
    exact h.push hcoherent hat entry
  · exact absurd hblank (models_grow_ne_nil hitems hne h)

theorem withEntries_eq_grow {root : Value} (hitems : under? "models" root = some (.seq items))
    (entries : List Value) :
    withEntries entries root = rebuild (fun p => if p = modelsPlace root then Gain.mk entries none
      else {}) root := by
  obtain ⟨hindex, hat⟩ := Sources.fieldIndex?_eq_slot hitems
  have hseq : rebuild (fun q => if slot "models" root :: q = modelsPlace root then
      Gain.mk entries none else {}) (.seq items) = .seq (items ++ entries) := by
    have hown : (fun q => if slot "models" root :: q = modelsPlace root then
        (⟨entries, none⟩ : Gain) else {}) = Function.update (fun _ => {}) [] ⟨entries, none⟩ := by
      funext q
      cases q with
      | nil => rw [Function.update_self]; exact if_pos rfl
      | cons n q => simp [modelsPlace, Function.update]
    have hitems := grow_nothing (.seq items)
    rw [Yaml.grow_seq, Value.seq.injEq, List.append_nil] at hitems
    rw [hown, Yaml.grow_seq, rebuildItems_update, hitems, Function.update_self]
  obtain ⟨es, rfl, -⟩ := Sources.exists_of_under? hitems
  rw [grow_field hindex hat fun p hp => if_neg (by rintro rfl; exact hp rfl), hseq, withEntries,
    itemsUnder, hitems]

theorem grow_entries_of_alone (hitems : under? "models" d.root = some (.seq items))
    (halone : d.Alone (modelsPlace d.root)) (entries : List Value) :
    rebuild (entryGains d entries) d.root = withEntries entries d.root := by
  rw [withEntries_eq_grow hitems]
  refine Yaml.grow_congr _ _ _ (fun p items hp => ?_) fun p es hp => ?_
  · have hiff : p ∈ d.aliases (modelsPlace d.root) ↔ p = modelsPlace d.root :=
      ⟨fun hmem => halone p hmem _ hp rfl, fun h => h ▸ d.mem_aliases_self _⟩
    simp only [entryGains, hiff]
  · rw [entryGains]
    split <;> split <;> rfl

/-- **Entries behind the models are all that a document gains just if its models are alone.** -/
theorem grow_entries_eq_iff (hcoherent : d.Coherent)
    (hitems : under? "models" d.root = some (.seq items)) (hne : entries ≠ []) :
    rebuild (entryGains d entries) d.root = withEntries entries d.root ↔
      d.Alone (modelsPlace d.root) := by
  refine ⟨fun heq q hq v hv hopen => ?_, fun halone => grow_entries_of_alone hitems halone entries⟩
  rw [withEntries_eq_grow hitems] at heq
  rcases hcoherent.value_or_shut (Sources.fieldIndex?_eq_slot hitems).2 rfl hq with hsame | hshut
  · have hgain := items_of_grow_eq heq hsame
    rw [entryGains, if_pos hq] at hgain
    by_contra hother
    rw [if_neg hother] at hgain
    exact hne hgain
  · rw [hshut.isEnclosing hv] at hopen
    cases hopen

/-! ### One file -/

def documentOf (content : ByteArray) : Except Fault Document :=
  match Text.decode content with
  | .ok text => Document.read (Text.unifyNewlines text)
  | .error cause => .error (.badEncoding cause)

theorem documentOf_write {e : Document} (h : Document.read (Text.unifyNewlines d.write) = .ok e) :
    documentOf d.write.toUTF8 = .ok e := by
  rw [documentOf, Text.decode_toUTF8]
  exact h

theorem coherent_of_documentOf (h : documentOf content = .ok d) :
    d.Coherent ∧ (d.shares.map (·.1)).Nodup := by
  rw [documentOf] at h
  split at h
  · exact ⟨Yaml.coherent_of_read h, Yaml.nodup_of_read h⟩
  · cases h

/-- An entry that is written to a file, at the end of it or to a new one. -/
structure Writing where
  entry : Value
  anew : Bool

/-- **What a writing does to a file**: the entry is appended to the document that is there, or a new
document with the entry takes the place of whatever is there. -/
inductive Rewrites (w : Writing) : Option ByteArray → ByteArray → Prop
  | appended {content : ByteArray} {d d' : Document} (anew : w.anew = false)
      (read : documentOf content = .ok d)
      (append : append d w.entry = .ok d') (back : ReadsBack d') :
        Rewrites w (some content) d'.write.toUTF8
  | fresh {old : Option ByteArray} (anew : w.anew = true) (back : ReadsBack (fresh w.entry)) :
      Rewrites w old (fresh w.entry).write.toUTF8

namespace Rewrites

variable {w : Writing} {old : Option ByteArray} {new : ByteArray}

theorem of_appended (h : Rewrites w old new) (hw : w.anew = false) :
    ∃ content d d', old = some content ∧ documentOf content = .ok d ∧ append d w.entry = .ok d' ∧
      ReadsBack d' ∧ new = d'.write.toUTF8 := by
  cases h with
  | appended anew read append back => exact ⟨_, _, _, rfl, read, append, back, rfl⟩
  | fresh anew back =>
    rw [hw] at anew
    cases anew

theorem of_anew (h : Rewrites w old new) (hw : w.anew = true) :
    ReadsBack (PropertyFiles.fresh w.entry) ∧ new = (PropertyFiles.fresh w.entry).write.toUTF8 := by
  cases h with
  | appended anew read append back =>
    rw [hw] at anew
    cases anew
  | fresh anew back => exact ⟨back, rfl⟩

theorem unique {new' : ByteArray} (h : Rewrites w old new) (h' : Rewrites w old new') :
    new' = new := by
  cases hw : w.anew with
  | true => rw [(h.of_anew hw).2, (h'.of_anew hw).2]
  | false =>
    obtain ⟨content, d, d', rfl, read, append, -, rfl⟩ := h.of_appended hw
    obtain ⟨_, _, _, hcontent, read', append', -, rfl⟩ := h'.of_appended hw
    cases hcontent
    cases read.symm.trans read'
    cases append.symm.trans append'
    rfl

end Rewrites

/-- The file is a base document with models, which have gained entries since. -/
structure Based (b : Document) (entries : List Value) (content : ByteArray) : Prop where
  coherent : b.Coherent
  listing : ∃ items, items ≠ [] ∧ under? "models" b.root = some (.seq items)
  grown : ∃ d, documentOf content = .ok d ∧ Grows b (entryGains b entries) d

namespace Based

theorem start (hread : documentOf content = .ok b)
    (hmodels : ∃ items, items ≠ [] ∧ under? "models" b.root = some (.seq items)) :
    Based b [] content := by
  obtain ⟨hcoherent, hnodup⟩ := coherent_of_documentOf hread
  exact ⟨hcoherent, hmodels, b, hread, by rw [entryGains_nil]; exact .start hnodup⟩

variable {w : Writing}

variable {new : ByteArray}

theorem append (h : Based b entries content) (hw : w.anew = false)
    (hrewrites : Rewrites w (some content) new) :
    Based b (entries ++ [w.entry]) new := by
  obtain ⟨items, hne, hitems⟩ := h.listing
  obtain ⟨d, hread, hgrows⟩ := h.grown
  obtain ⟨_, _, d', hcontent, read, append, ⟨e, he, hroot, hshares⟩, rfl⟩ :=
    hrewrites.of_appended hw
  cases hcontent
  cases hread.symm.trans read
  exact ⟨h.coherent, ⟨items, hne, hitems⟩, e, documentOf_write he,
    (grows_append h.coherent hitems hne hgrows append).reread he hroot hshares⟩

/-- Missing or empty models make room for new ones, which are alone. -/
theorem of_blank (hread : documentOf content = .ok d) (hw : w.anew = false)
    (hblank : itemsUnder "models" d.root = []) (hrewrites : Rewrites w (some content) new) :
    (∃ es, d.root = .map es) ∧
      ∃ b, Based b [] new ∧ b.root = withEntries [w.entry] d.root ∧
        b.Alone (modelsPlace b.root) := by
  obtain ⟨_, _, d', hcontent, read, append, ⟨e, he, hback, hshares⟩, rfl⟩ :=
    hrewrites.of_appended hw
  cases hcontent
  cases hread.symm.trans read
  rcases append_cases append with ⟨items, hne, hitems, -⟩ | ⟨-, ⟨es, hroot⟩, rfl⟩
  · rw [itemsUnder, hitems] at hblank
    exact absurd hblank hne
  · obtain ⟨hwith, haliases⟩ := append_blank (coherent_of_documentOf hread).1 hroot hblank w.entry
    rw [hwith] at hback
    have hitems : under? "models" e.root = some (.seq [w.entry]) := by
      rw [hback, withEntries, hblank, hroot]
      exact under?_putField "models" _ es
    have hplace : modelsPlace e.root = modelsPlace d.root := by
      rw [modelsPlace, hback, withEntries, hroot, slot_putField, modelsPlace]
    refine ⟨⟨es, hroot⟩, e, start (documentOf_write he) ⟨_, by simp, hitems⟩, hback,
      fun q hq _ _ _ => ?_⟩
    rw [hplace] at hq ⊢
    have hq := (hshares _ _).mp hq
    rw [haliases] at hq
    exact List.mem_singleton.mp hq

theorem of_fresh {old : Option ByteArray} (hw : w.anew = true) (hrewrites : Rewrites w old new) :
    ∃ b, Based b [] new ∧ b.root = newRoot [w.entry] ∧ b.Alone (modelsPlace b.root) := by
  obtain ⟨⟨e, he, hback, hshares⟩, rfl⟩ := hrewrites.of_anew hw
  have hroot : e.root = newRoot [w.entry] := hback
  refine ⟨e, start (documentOf_write he) ⟨[w.entry], by simp, by rw [hroot]; rfl⟩, hroot,
    fun q hq _ _ _ => ?_⟩
  have hq := (hshares _ _).mp hq
  rw [Document.aliases_of_shares_nil rfl] at hq
  exact List.mem_singleton.mp hq

theorem root_of_alone (h : Based b entries content) (halone : b.Alone (modelsPlace b.root)) :
    ∃ d, documentOf content = .ok d ∧ d.root = withEntries entries b.root := by
  obtain ⟨items, -, hitems⟩ := h.listing
  obtain ⟨d, hread, hgrows⟩ := h.grown
  exact ⟨d, hread, hgrows.root.trans (grow_entries_of_alone hitems halone entries)⟩

theorem models_ne_nil (h : Based b entries content) (hread : documentOf content = .ok d) :
    itemsUnder "models" d.root ≠ [] := by
  obtain ⟨items, hne, hitems⟩ := h.listing
  obtain ⟨d', hread', hgrows⟩ := h.grown
  cases hread.symm.trans hread'
  exact models_grow_ne_nil hitems hne hgrows

end Based

end ProjectLint.PropertyFiles
