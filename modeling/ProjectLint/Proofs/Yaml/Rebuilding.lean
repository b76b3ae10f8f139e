import Mathlib.Data.List.Basic
import Mathlib.Logic.Function.Basic
import ProjectLint.Proofs.Entries
import ProjectLint.Yaml.Document

/-!
# Rebuilding

A value is rebuilt from the inside to the outside: first the parts of a sequence or mapping, then
the sequence or mapping itself, in the way that is told by its place (`rebuild`).  What can be told
of a place is a type of its own (`Rebuilds`): a description that a mapping gets, or what a part
gains.

What counts is what is done at each sequence and mapping (`rebuild_congr`).  A part that keeps its
number stands rebuilt where it stood (`valueAt?_rebuild`), and where things are only added, a change
at one place is a way to rebuild the value (`changeAt_rebuild`).
-/

namespace ProjectLint

/-! ### Induction on values -/

theorem Value.sizeOf_lt_map {entries : List (Scalar × Value)} {e : Scalar × Value}
    (h : e ∈ entries) : sizeOf e.2 < sizeOf (Value.map entries) := by
  have hmem := List.sizeOf_lt_of_mem h
  have hsnd : sizeOf e.2 < sizeOf e := by
    cases e
    simp only [Prod.mk.sizeOf_spec]
    omega
  simp only [Value.map.sizeOf_spec]
  omega

theorem Value.induct {P : Value → Prop} (seq : ∀ items, (∀ v ∈ items, P v) → P (.seq items))
    (map : ∀ entries, (∀ e ∈ entries, P e.2) → P (.map entries))
    (pair : ∀ first second, P first → P second → P (.pair first second))
    (scalar : ∀ s, P (.scalar s)) (set : ∀ members, P (.set members))
    (enclosing : ∀ shape, P (.enclosing shape)) : ∀ v, P v
  | .seq items => seq items fun v _ => Value.induct seq map pair scalar set enclosing v
  | .map entries => map entries fun e _ => Value.induct seq map pair scalar set enclosing e.2
  | .pair first second =>
    pair first second (Value.induct seq map pair scalar set enclosing first)
      (Value.induct seq map pair scalar set enclosing second)
  | .scalar s => scalar s
  | .set members => set members
  | .enclosing shape => enclosing shape
termination_by v => sizeOf v
decreasing_by
  · simp only [Value.seq.sizeOf_spec]
    have := List.sizeOf_lt_of_mem ‹v ∈ items›
    omega
  · exact Value.sizeOf_lt_map ‹e ∈ entries›
  · simp only [Value.pair.sizeOf_spec]
    omega
  · simp only [Value.pair.sizeOf_spec]
    omega

namespace Yaml

/-! ### Parts and changes -/

attribute [local simp] valueAt? changeAt

instance decidableMemPlaces (q : Place) (places : List Place) : Decidable (q ∈ places) :=
  inferInstance

section

variable {v first second : Value} {n : Nat}

theorem valueAt?_seq {items : List Value} (h : items[n]? = some v) (place : Place) :
    valueAt? (.seq items) (n :: place) = valueAt? v place := by
  rw [valueAt?, h]
  rfl

theorem valueAt?_map {entries : List (Scalar × Value)} {e : Scalar × Value}
    (h : entries[n]? = some e) (place : Place) :
    valueAt? (.map entries) (n :: place) = valueAt? e.2 place := by
  rw [valueAt?, h]
  rfl

theorem valueAt?_first (place : Place) :
    valueAt? (.pair first second) (0 :: place) = valueAt? first place := by
  rw [valueAt?, if_pos rfl]

theorem valueAt?_second (place : Place) :
    valueAt? (.pair first second) (1 :: place) = valueAt? second place := by
  rw [valueAt?, if_neg (by decide), if_pos rfl]

theorem pair_cases {place : Place} {w : Value}
    (h : valueAt? (.pair first second) (n :: place) = some w) :
    n = 0 ∧ valueAt? first place = some w ∨ n = 1 ∧ valueAt? second place = some w := by
  rw [valueAt?] at h
  split at h
  · rename_i hn
    exact .inl ⟨hn, h⟩
  split at h
  · rename_i hn
    exact .inr ⟨hn, h⟩
  · cases h

end

section

variable {v : Value} {key : String} {n : Nat}

theorem valueAt?_field (h : Document.fieldIndex? v key = some n) :
    ∃ entries e, v = .map entries ∧ entries[n]? = some e ∧ e.1 = .str key := by
  cases v with
  | map entries =>
    rw [Document.fieldIndex?, List.findIdx?_eq_some_iff_getElem] at h
    obtain ⟨hn, hkey, -⟩ := h
    exact ⟨entries, entries[n], rfl, List.getElem?_eq_getElem hn, (Scalar.same_str_iff _ _).mp hkey⟩
  | seq items => cases h
  | pair first second => cases h
  | scalar s => cases h
  | set members => cases h
  | enclosing shape => cases h

theorem get?_eq_valueAt? (entries : Entries) (key : String) : Entries.get? entries key =
    (Document.fieldIndex? (.map entries) key).bind fun n => valueAt? (.map entries) [n] := by
  have hat : ∀ n, valueAt? (.map entries) [n] = entries[n]?.map (·.2) := by
    intro n
    rw [valueAt?]
    cases entries[n]? with
    | none => rfl
    | some e => exact (by rw [valueAt?] : valueAt? e.2 [] = some e.2)
  simp only [hat]
  exact Entries.find?_eq_findIdx? (.str key) entries

theorem fieldIndex?_eq_map_fst (entries : Entries) (key : String) :
    Document.fieldIndex? (.map entries) key = (entries.map (·.1)).findIdx? (·.same (.str key)) := by
  rw [List.findIdx?_map]
  rfl

end

theorem changeAt_append (f : Value → Value) (q : Place) : ∀ (p : Place) (v : Value),
    changeAt f v (p ++ q) = changeAt (fun w => changeAt f w q) v p := by
  intro p
  induction p with
  | nil => intro v; rfl
  | cons n p ih =>
    intro v
    cases v with
    | seq items => simp only [List.cons_append, changeAt, ih]
    | map entries => simp only [List.cons_append, changeAt, ih]
    | pair first second => simp only [List.cons_append, changeAt, ih]
    | scalar s => rfl
    | set members => rfl
    | enclosing shape => rfl

/-- What is not changed where it stands is not changed. -/
theorem changeAt_eq_self {f : Value → Value} : ∀ {p : Place} {v : Value},
    (∀ w, valueAt? v p = some w → f w = w) → changeAt f v p = v := by
  intro p
  induction p with
  | nil => intro v h; exact h v rfl
  | cons n p ih =>
    intro v h
    cases v with
    | seq items =>
      rw [changeAt, Value.seq.injEq]
      refine List.ext_getElem? fun i => ?_
      rw [List.getElem?_modify]
      cases hi : items[i]? with
      | none => rfl
      | some item =>
        by_cases hn : n = i
        · subst hn
          simp [ih fun w hw => h w (by rw [valueAt?_seq hi, hw])]
        · simp [hn]
    | map entries =>
      rw [changeAt, Value.map.injEq]
      refine List.ext_getElem? fun i => ?_
      rw [List.getElem?_modify]
      cases hi : entries[i]? with
      | none => rfl
      | some e =>
        by_cases hn : n = i
        · subst hn
          simp [ih fun w hw => h w (by rw [valueAt?_map hi, hw])]
        · simp [hn]
    | pair first second =>
      rw [changeAt]
      split
      · rename_i hn
        rw [ih fun w hw => h w (by rw [hn, valueAt?_first, hw])]
      split
      · rename_i hn
        rw [ih fun w hw => h w (by rw [hn, valueAt?_second, hw])]
      · rfl
    | scalar s => rfl
    | set members => rfl
    | enclosing shape => rfl

/-! ### Rebuilding -/

/-- What is told of a place: what is done there to the items of a sequence, and to the entries of a
mapping. -/
class Rebuilds (α : Type) where
  items : α → List Value → List Value
  entries : α → Entries → Entries

variable {α : Type} [Rebuilds α] {g h : Place → α} {v w : Value} {p : Place}

mutual

/-- The value, rebuilt as is told of the places of its parts. -/
def rebuild (g : Place → α) : Value → Value
  | .seq items => .seq (Rebuilds.items (g []) (rebuildItems g 0 items))
  | .map entries => .map (Rebuilds.entries (g []) (rebuildEntries g 0 entries))
  | .pair first second =>
    .pair (rebuild (fun q => g (0 :: q)) first) (rebuild (fun q => g (1 :: q)) second)
  | .scalar s => .scalar s
  | .set members => .set members
  | .enclosing shape => .enclosing shape

def rebuildItems (g : Place → α) : Nat → List Value → List Value
  | _, [] => []
  | n, v :: rest => rebuild (fun q => g (n :: q)) v :: rebuildItems g (n + 1) rest

def rebuildEntries (g : Place → α) : Nat → List (Scalar × Value) → List (Scalar × Value)
  | _, [] => []
  | n, (k, v) :: rest => (k, rebuild (fun q => g (n :: q)) v) :: rebuildEntries g (n + 1) rest

end

attribute [local simp] rebuild rebuildItems rebuildEntries

theorem getElem?_rebuildItems (g : Place → α) : ∀ (items : List Value) (n i : Nat),
    (rebuildItems g n items)[i]? = items[i]?.map (rebuild fun q => g ((n + i) :: q)) := by
  intro items
  induction items with
  | nil => intro n i; simp
  | cons v items ih =>
    intro n i
    cases i with
    | zero => simp
    | succ i =>
      rw [rebuildItems, List.getElem?_cons_succ, List.getElem?_cons_succ, ih, Nat.add_right_comm]
      rfl

theorem length_rebuildItems (g : Place → α) : ∀ (items : List Value) (n : Nat),
    (rebuildItems g n items).length = items.length := by
  intro items
  induction items with
  | nil => intro n; rfl
  | cons v items ih => intro n; rw [rebuildItems, List.length_cons, List.length_cons, ih]

theorem getElem?_rebuildEntries (g : Place → α) :
    ∀ (entries : List (Scalar × Value)) (n i : Nat), (rebuildEntries g n entries)[i]? =
      entries[i]?.map fun e => (e.1, rebuild (fun q => g ((n + i) :: q)) e.2) := by
  intro entries
  induction entries with
  | nil => intro n i; simp
  | cons e entries ih =>
    intro n i
    cases i with
    | zero => simp
    | succ i =>
      rw [rebuildEntries, List.getElem?_cons_succ, List.getElem?_cons_succ, ih, Nat.add_right_comm]
      rfl

theorem map_fst_rebuildEntries (g : Place → α) : ∀ (entries : List (Scalar × Value)) (n : Nat),
    (rebuildEntries g n entries).map (·.1) = entries.map (·.1) := by
  intro entries
  induction entries with
  | nil => intro n; rfl
  | cons e entries ih => intro n; rw [rebuildEntries, List.map_cons, List.map_cons, ih]

theorem length_rebuildEntries (g : Place → α) (entries : List (Scalar × Value)) (n : Nat) :
    (rebuildEntries g n entries).length = entries.length := by
  simpa using congrArg List.length (map_fst_rebuildEntries g entries n)

theorem fieldIndex?_rebuildEntries (g : Place → α) (entries : Entries) (key : String) :
    Document.fieldIndex? (.map (rebuildEntries g 0 entries)) key =
      Document.fieldIndex? (.map entries) key := by
  rw [fieldIndex?_eq_map_fst, map_fst_rebuildEntries, ← fieldIndex?_eq_map_fst]

theorem get?_rebuildEntries (g : Place → α) (entries : Entries) (key : String) :
    Entries.get? (rebuildEntries g 0 entries) key =
      (Document.fieldIndex? (.map entries) key).bind fun n =>
        (valueAt? (.map entries) [n]).map (rebuild fun q => g (n :: q)) := by
  rw [get?_eq_valueAt?, fieldIndex?_rebuildEntries]
  refine Option.bind_congr fun n _ => ?_
  rw [valueAt?, valueAt?, getElem?_rebuildEntries, Nat.zero_add]
  cases entries[n]? with
  | none => rfl
  | some e =>
    simp only [Option.map_some, Option.bind_some]
    rw [valueAt?, valueAt?]
    rfl

theorem rebuildItems_congr (heq : ∀ n q, g (n :: q) = h (n :: q)) (items : List Value) (n : Nat) :
    rebuildItems g n items = rebuildItems h n items := by
  refine List.ext_getElem? fun i => ?_
  rw [getElem?_rebuildItems, getElem?_rebuildItems]
  simp only [heq]

theorem rebuildEntries_congr (heq : ∀ n q, g (n :: q) = h (n :: q)) (entries : Entries) (n : Nat) :
    rebuildEntries g n entries = rebuildEntries h n entries := by
  refine List.ext_getElem? fun i => ?_
  rw [getElem?_rebuildEntries, getElem?_rebuildEntries]
  simp only [heq]

theorem rebuildItems_update (g : Place → α) (a : α) (items : List Value) :
    rebuildItems (Function.update g [] a) 0 items = rebuildItems g 0 items :=
  rebuildItems_congr (fun _ _ => Function.update_of_ne (List.cons_ne_nil _ _) _ _) items 0

theorem rebuildEntries_update (g : Place → α) (a : α) (entries : Entries) :
    rebuildEntries (Function.update g [] a) 0 entries = rebuildEntries g 0 entries :=
  rebuildEntries_congr (fun _ _ => Function.update_of_ne (List.cons_ne_nil _ _) _ _) entries 0

/-- **What counts is what is done at the sequences and mappings of the value.** -/
theorem rebuild_congr : ∀ (v : Value) (g h : Place → α),
    (∀ p items, valueAt? v p = some (.seq items) →
      ∀ xs, Rebuilds.items (g p) xs = Rebuilds.items (h p) xs) →
    (∀ p entries, valueAt? v p = some (.map entries) →
      Rebuilds.entries (g p) (rebuildEntries (fun q => h (p ++ q)) 0 entries) =
        Rebuilds.entries (h p) (rebuildEntries (fun q => h (p ++ q)) 0 entries)) →
    rebuild g v = rebuild h v := by
  intro v
  induction v using Value.induct with
  | seq items ih =>
    intro g h hitems hentries
    have hparts : rebuildItems g 0 items = rebuildItems h 0 items := by
      refine List.ext_getElem? fun i => ?_
      rw [getElem?_rebuildItems, getElem?_rebuildItems, Nat.zero_add]
      cases hi : items[i]? with
      | none => rfl
      | some v =>
        have hitem := ih v (List.mem_of_getElem? hi) (fun q => g (i :: q)) (fun q => h (i :: q))
          (fun p items hp => hitems (i :: p) items (by rw [valueAt?_seq hi, hp]))
          (fun p entries hp => hentries (i :: p) entries (by rw [valueAt?_seq hi, hp]))
        rw [Option.map_some, Option.map_some, hitem]
    rw [rebuild, rebuild, hparts, hitems [] items rfl]
  | map entries ih =>
    intro g h hitems hentries
    have hparts : rebuildEntries g 0 entries = rebuildEntries h 0 entries := by
      refine List.ext_getElem? fun i => ?_
      rw [getElem?_rebuildEntries, getElem?_rebuildEntries, Nat.zero_add]
      cases hi : entries[i]? with
      | none => rfl
      | some e =>
        have hentry := ih e (List.mem_of_getElem? hi) (fun q => g (i :: q)) (fun q => h (i :: q))
          (fun p items hp => hitems (i :: p) items (by rw [valueAt?_map hi, hp]))
          (fun p entries hp => hentries (i :: p) entries (by rw [valueAt?_map hi, hp]))
        rw [Option.map_some, Option.map_some, hentry]
    rw [rebuild, rebuild, hparts]
    exact congrArg Value.map (hentries [] entries rfl)
  | pair first second ih₁ ih₂ =>
    intro g h hitems hentries
    rw [rebuild, rebuild]
    congr 1
    · exact ih₁ _ _ (fun p items hp => hitems (0 :: p) items (by rw [valueAt?_first, hp]))
        fun p entries hp => hentries (0 :: p) entries (by rw [valueAt?_first, hp])
    · exact ih₂ _ _ (fun p items hp => hitems (1 :: p) items (by rw [valueAt?_second, hp]))
        fun p entries hp => hentries (1 :: p) entries (by rw [valueAt?_second, hp])
  | scalar s => intro g h _ _; rw [rebuild, rebuild]
  | set members => intro g h _ _; rw [rebuild, rebuild]
  | enclosing shape => intro g h _ _; rw [rebuild, rebuild]

theorem rebuild_eq_self {v : Value} : ∀ {g : Place → α}, (∀ p xs, Rebuilds.items (g p) xs = xs) →
    (∀ p es, Rebuilds.entries (g p) es = es) → rebuild g v = v := by
  induction v using Value.induct with
  | seq items ih =>
    intro g hitems hentries
    rw [rebuild, hitems, Value.seq.injEq]
    refine List.ext_getElem? fun i => ?_
    rw [getElem?_rebuildItems]
    cases hi : items[i]? with
    | none => rfl
    | some v =>
      rw [Option.map_some, ih v (List.mem_of_getElem? hi) (fun _ => hitems _) fun _ => hentries _]
  | map entries ih =>
    intro g hitems hentries
    rw [rebuild, hentries, Value.map.injEq]
    refine List.ext_getElem? fun i => ?_
    rw [getElem?_rebuildEntries]
    cases hi : entries[i]? with
    | none => rfl
    | some e =>
      rw [Option.map_some, ih e (List.mem_of_getElem? hi) (fun _ => hitems _) fun _ => hentries _]
  | pair first second ih₁ ih₂ =>
    intro g hitems hentries
    rw [rebuild, ih₁ (fun _ => hitems _) fun _ => hentries _,
      ih₂ (fun _ => hitems _) fun _ => hentries _]
  | scalar s => intro g _ _; rw [rebuild]
  | set members => intro g _ _; rw [rebuild]
  | enclosing shape => intro g _ _; rw [rebuild]

/-! ### Parts of a rebuilt value -/

/-- A part keeps its number when the sequence or mapping at a place is rebuilt. -/
structure KeepsPart (g : Place → α) (v : Value) (p : Place) (n : Nat) : Prop where
  item : ∀ items, valueAt? v p = some (.seq items) → ∀ xs : List Value,
    xs.length = items.length → n < xs.length → (Rebuilds.items (g p) xs)[n]? = xs[n]?
  entry : ∀ entries, valueAt? v p = some (.map entries) → ∀ es : Entries,
    es.map (·.1) = entries.map (·.1) → n < es.length → (Rebuilds.entries (g p) es)[n]? = es[n]?

/-- **A part stands rebuilt where it stood**, if all parts on the way to it keep their numbers. -/
theorem valueAt?_rebuild : ∀ (place : Place) (v : Value) (g : Place → α) {w : Value},
    (∀ p n rest, place = p ++ n :: rest → KeepsPart g v p n) → valueAt? v place = some w →
      valueAt? (rebuild g v) place = some (rebuild (fun q => g (place ++ q)) w) := by
  intro place
  induction place with
  | nil =>
    intro v g w _ h
    obtain rfl := Option.some.inj h
    rfl
  | cons n place ih =>
    intro v g w hkeeps h
    obtain ⟨hitem, hentry⟩ := hkeeps [] n place rfl
    -- one step down, to the part that the place leads through
    have hbelow : ∀ u, (∀ q, valueAt? v (n :: q) = valueAt? u q) →
        valueAt? (rebuild (fun q => g (n :: q)) u) place =
          some (rebuild (fun q => g (n :: place ++ q)) w) := by
      intro u hu
      refine ih u _ (fun p m rest hp => ?_) ((hu place).symm.trans h)
      obtain ⟨hitem, hentry⟩ := hkeeps (n :: p) m rest (by rw [hp]; rfl)
      exact ⟨fun items hp => hitem items ((hu p).trans hp),
        fun entries hp => hentry entries ((hu p).trans hp)⟩
    cases v with
    | seq items =>
      cases hn : items[n]? with
      | none =>
        rw [valueAt?, hn] at h
        cases h
      | some u =>
        have hlt : n < (rebuildItems g 0 items).length := by
          rw [length_rebuildItems]
          exact (List.getElem?_eq_some_iff.mp hn).1
        have hn' : (Rebuilds.items (g []) (rebuildItems g 0 items))[n]? =
            some (rebuild (fun q => g (n :: q)) u) := by
          rw [hitem items rfl _ (length_rebuildItems g items 0) hlt, getElem?_rebuildItems, hn,
            Nat.zero_add]
          rfl
        rw [rebuild, valueAt?_seq hn']
        exact hbelow u (valueAt?_seq hn)
    | map entries =>
      cases hn : entries[n]? with
      | none =>
        rw [valueAt?, hn] at h
        cases h
      | some e =>
        have hlt : n < (rebuildEntries g 0 entries).length := by
          rw [length_rebuildEntries]
          exact (List.getElem?_eq_some_iff.mp hn).1
        have hn' : (Rebuilds.entries (g []) (rebuildEntries g 0 entries))[n]? =
            some (e.1, rebuild (fun q => g (n :: q)) e.2) := by
          rw [hentry entries rfl _ (map_fst_rebuildEntries g entries 0) hlt,
            getElem?_rebuildEntries, hn, Nat.zero_add]
          rfl
        rw [rebuild, valueAt?_map hn']
        exact hbelow e.2 (valueAt?_map hn)
    | pair first second =>
      rw [rebuild]
      rcases pair_cases h with ⟨rfl, -⟩ | ⟨rfl, -⟩
      · rw [valueAt?_first]
        exact hbelow first valueAt?_first
      · rw [valueAt?_second]
        exact hbelow second valueAt?_second
    | scalar s => cases h
    | set members => cases h
    | enclosing shape => cases h

/-! ### Places where things are added -/

/-- At most something is added, behind what is there. -/
structure Adds (a : α) : Prop where
  items : ∃ more, ∀ xs, Rebuilds.items a xs = xs ++ more
  entries : ∃ more, ∀ es, Rebuilds.entries a es = es ++ more

theorem valueAt?_rebuild_of_adds (hadds : ∀ p, Adds (g p)) (h : valueAt? v p = some w) :
    valueAt? (rebuild g v) p = some (rebuild (fun q => g (p ++ q)) w) := by
  refine valueAt?_rebuild p v g (fun q n _ _ => ⟨fun _ _ xs _ hlt => ?_, fun _ _ es _ hlt => ?_⟩) h
  · obtain ⟨more, hmore⟩ := (hadds q).items
    rw [hmore, List.getElem?_append_left hlt]
  · obtain ⟨more, hmore⟩ := (hadds q).entries
    rw [hmore, List.getElem?_append_left hlt]

theorem modify_append_of_lt {β : Type} (f : β → β) (after : List β) : ∀ {before : List β} {n : Nat},
    n < before.length → (before ++ after).modify n f = before.modify n f ++ after := by
  intro before
  induction before with
  | nil => intro n hn; cases hn
  | cons a before ih =>
    intro n hn
    cases n with
    | zero => simp
    | succ n => simp [ih (Nat.lt_of_succ_lt_succ hn)]

omit [Rebuilds α] in
theorem update_below_self (g : Place → α) (n : Nat) (p : Place) (a : α) :
    (fun q => Function.update g (n :: p) a (n :: q)) =
      Function.update (fun q => g (n :: q)) p a := by
  funext q
  by_cases hq : q = p
  · subst hq
    rw [Function.update_self, Function.update_self]
  · rw [Function.update_of_ne hq, Function.update_of_ne fun h => hq (List.cons.inj h).2]

omit [Rebuilds α] in
theorem update_below_of_ne (g : Place → α) {n i : Nat} (p : Place) (a : α) (hi : i ≠ n) :
    (fun q => Function.update g (n :: p) a (i :: q)) = fun q => g (i :: q) := by
  funext q
  exact Function.update_of_ne (fun h => hi (List.cons.inj h).1) _ _

/-- **A change at one place** of a value to which things are only added. -/
theorem changeAt_rebuild {f : Value → Value} {a : α} : ∀ {p : Place} {v w : Value} {g : Place → α},
    (∀ q, Adds (g q)) → valueAt? v p = some w →
    f (rebuild (fun q => g (p ++ q)) w) =
      rebuild (Function.update (fun q => g (p ++ q)) [] a) w →
      changeAt f (rebuild g v) p = rebuild (Function.update g p a) v := by
  intro p
  induction p with
  | nil =>
    intro v w g _ hw hf
    cases hw
    exact hf
  | cons n p ih =>
    intro v w g hadds hw hf
    have hother := fun {i} (hi : i ≠ n) => update_below_of_ne g p a hi
    have hsame := update_below_self g n p a
    have htop : Function.update g (n :: p) a [] = g [] := Function.update_of_ne (by simp) _ _
    cases v with
    | seq items =>
      rw [valueAt?, Option.bind_eq_some_iff] at hw
      obtain ⟨item, hitem, hw⟩ := hw
      have hlt : n < (rebuildItems g 0 items).length := by
        rw [length_rebuildItems]
        exact (List.getElem?_eq_some_iff.mp hitem).1
      obtain ⟨more, hmore⟩ := (hadds []).items
      rw [rebuild, changeAt, rebuild, htop, hmore, hmore, Value.seq.injEq,
        modify_append_of_lt _ _ hlt]
      congr 1
      refine List.ext_getElem? fun i => ?_
      rw [List.getElem?_modify, getElem?_rebuildItems, getElem?_rebuildItems, Nat.zero_add]
      by_cases hi : i = n
      · subst hi
        rw [hsame, hitem, Option.map_some, Option.map_some, ← ih (fun q => hadds (i :: q)) hw hf]
        simp
      · rw [hother hi]
        simp [Ne.symm hi]
    | map entries =>
      rw [valueAt?, Option.bind_eq_some_iff] at hw
      obtain ⟨e, he, hw⟩ := hw
      have hlt : n < (rebuildEntries g 0 entries).length := by
        rw [length_rebuildEntries]
        exact (List.getElem?_eq_some_iff.mp he).1
      obtain ⟨more, hmore⟩ := (hadds []).entries
      rw [rebuild, changeAt, rebuild, htop, hmore, hmore, Value.map.injEq,
        modify_append_of_lt _ _ hlt]
      congr 1
      refine List.ext_getElem? fun i => ?_
      rw [List.getElem?_modify, getElem?_rebuildEntries, getElem?_rebuildEntries, Nat.zero_add]
      by_cases hi : i = n
      · subst hi
        rw [hsame, he, Option.map_some, Option.map_some, ← ih (fun q => hadds (i :: q)) hw hf]
        simp
      · rw [hother hi]
        simp [Ne.symm hi]
    | pair first second =>
      rw [rebuild, changeAt, rebuild]
      rcases pair_cases hw with ⟨rfl, hw⟩ | ⟨rfl, hw⟩
      · rw [if_pos rfl, hsame, hother (i := 1) (by decide), ih (fun q => hadds (0 :: q)) hw hf]
      · rw [if_neg (by decide), if_pos rfl, hsame, hother (i := 0) (by decide),
          ih (fun q => hadds (1 :: q)) hw hf]
    | scalar s => cases hw
    | set members => cases hw
    | enclosing shape => cases hw

end Yaml

end ProjectLint
