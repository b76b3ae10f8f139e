import Mathlib.Data.List.Basic
import ProjectLint.Proofs.Outcomes
import ProjectLint.Yaml.Node

/-!
# The numbers of nodes

Every node that is read gets a number of its own, and an alias stands for the very node that its
anchor named.  So two nodes with one number that occur anywhere in a document are **one and the same
node**, unless one of them only says that it stands inside of itself (`Unique`).

While a text is read, the nodes known so far are kept in a registry: it holds everything that occurs
in a known node, the nodes that anchors name among them, and no number twice (`Registry`).  Every
part of the grammar extends the registry by nodes with fresh numbers (`Keeps`); the number of a
collection is taken before its content is read and used up behind it (`keeps_collection`).
-/

namespace ProjectLint.Yaml

namespace YamlNode

def id : YamlNode → Nat
  | .scalar id _ _ => id
  | .seq id _ _ => id
  | .map id _ _ => id
  | .enclosing id _ _ => id

def isEnclosing : YamlNode → Bool
  | .enclosing _ _ _ => true
  | _ => false

/-- A node occurs in another: it is that node, or occurs in an item, a key or a value of it. -/
inductive Occurs : YamlNode → YamlNode → Prop
  | self (n : YamlNode) : Occurs n n
  | item {a n : YamlNode} {id : Nat} {tag : Tag} {items : List YamlNode} (hn : n ∈ items)
      (ha : Occurs a n) :
      Occurs a (.seq id tag items)
  | key {a k v : YamlNode} {id : Nat} {tag : Tag} {entries : List (YamlNode × YamlNode)}
      (he : (k, v) ∈ entries)
      (ha : Occurs a k) : Occurs a (.map id tag entries)
  | value {a k v : YamlNode} {id : Nat} {tag : Tag} {entries : List (YamlNode × YamlNode)}
      (he : (k, v) ∈ entries)
      (ha : Occurs a v) : Occurs a (.map id tag entries)

theorem Occurs.trans {a b c : YamlNode} (hab : Occurs a b) (hbc : Occurs b c) : Occurs a c := by
  induction hbc with
  | self => exact hab
  | item hn _ ih => exact .item hn ih
  | key he _ ih => exact .key he ih
  | value he _ ih => exact .value he ih

def Unique (known : YamlNode → Prop) : Prop :=
  ∀ a b, known a → known b → a.id = b.id → a = b ∨ a.isEnclosing = true ∨ b.isEnclosing = true

end YamlNode

open YamlNode

/-! ### The registry -/

/-- The nodes known when a text is read so far. -/
structure Registry (known : YamlNode → Prop) (s : Parse) : Prop where
  closed : ∀ a b, Occurs a b → known b → known a
  unique : Unique known
  below : ∀ a, known a → a.isEnclosing = false → a.id < s.nextId
  named : ∀ e ∈ s.anchors ++ s.openAnchors, known e.2

/-- More nodes are known, and the new ones have numbers from `n` on. -/
structure Extends (known known' : YamlNode → Prop) (n n' : Nat) : Prop where
  mono : ∀ a, known a → known' a
  le : n ≤ n'
  fresh : ∀ a, known' a → a.isEnclosing = false → known a ∨ n ≤ a.id

theorem Extends.refl (known : YamlNode → Prop) (n : Nat) : Extends known known n n :=
  ⟨fun _ h => h, Nat.le_refl n, fun _ h _ => .inl h⟩

theorem Extends.trans {known₁ known₂ known₃ : YamlNode → Prop} {n₁ n₂ n₃ : Nat}
    (h : Extends known₁ known₂ n₁ n₂)
    (h' : Extends known₂ known₃ n₂ n₃) : Extends known₁ known₃ n₁ n₃ where
  mono := fun a ha => h'.mono a (h.mono a ha)
  le := Nat.le_trans h.le h'.le
  fresh := fun a ha hne => by
    rcases h'.fresh a ha hne with ha | ha
    · exact h.fresh a ha hne
    · exact .inr (Nat.le_trans h.le ha)

variable {known : YamlNode → Prop} {s : Parse}

theorem Registry.of_eq {s' : Parse} (h : Registry known s) (ha : s'.anchors = s.anchors)
    (ho : s'.openAnchors = s.openAnchors) (hn : s'.nextId = s.nextId) : Registry known s' :=
  ⟨h.closed, h.unique, by rw [hn]; exact h.below, by rw [ha, ho]; exact h.named⟩

variable {α β : Type} {n : YamlNode} {m : Parsing α} {f : α → Parsing β}
    {P : (YamlNode → Prop) → α → Prop} {Q : (YamlNode → Prop) → β → Prop}

/-- A node with an unused number, all of whose parts are known, can be added. -/
theorem Registry.add (h : Registry known s) (hparts : ∀ a, Occurs a n → a = n ∨ known a)
    (hlt : n.id < s.nextId) (hunused : ∀ a, known a → a.isEnclosing = false → a.id ≠ n.id) :
    Registry (fun a => known a ∨ a = n) s where
  closed := by
    rintro a b hab (hb | rfl)
    · exact .inl (h.closed a b hab hb)
    · rcases hparts a hab with ha | ha
      · exact .inr ha
      · exact .inl ha
  unique := by
    rintro a b (ha | rfl) (hb | rfl) hid
    · exact h.unique a b ha hb hid
    · cases hea : a.isEnclosing with
      | true => exact .inr (.inl rfl)
      | false => exact absurd hid (hunused a ha hea)
    · cases heb : b.isEnclosing with
      | true => exact .inr (.inr rfl)
      | false => exact absurd hid.symm (hunused b hb heb)
    · exact .inl rfl
  below := by
    rintro a (ha | rfl) hea
    · exact h.below a ha hea
    · exact hlt
  named := fun e he => .inl (h.named e he)

/-- From a registry the computation leads to one that extends it, and `P` holds of its result. -/
def Keeps {α : Type} (known : YamlNode → Prop) (s : Parse) (m : Parsing α)
    (P : (YamlNode → Prop) → α → Prop) : Prop :=
  ∀ a s', m.run s = .ok (a, s') →
    ∃ known', Registry known' s' ∧ Extends known known' s.nextId s'.nextId ∧ P known' a

theorem run_bind_eq_ok_iff {s' : Parse} {b : β} :
    (m >>= f).run s = .ok (b, s') ↔ ∃ a s₁, m.run s = .ok (a, s₁) ∧ (f a).run s₁ = .ok (b, s') := by
  rw [StateT.run_bind]
  cases h : m.run s with
  | error e =>
    constructor
    · intro hrun; cases hrun
    · rintro ⟨a, s₁, hm, -⟩; cases hm
  | ok r =>
    constructor
    · intro hrun; exact ⟨r.1, r.2, rfl, hrun⟩
    · rintro ⟨a, s₁, hm, hf⟩
      cases hm
      exact hf

theorem Keeps.bind (h : Keeps known s m P)
    (hf : ∀ known' s' a, Registry known' s' → Extends known known' s.nextId s'.nextId → P known' a →
      Keeps known' s' (f a) Q) : Keeps known s (m >>= f) Q := by
  intro b s' hrun
  obtain ⟨a, s₁, hm, hfa⟩ := run_bind_eq_ok_iff.mp hrun
  obtain ⟨known₁, hreg₁, hext₁, hP⟩ := h a s₁ hm
  obtain ⟨known₂, hreg₂, hext₂, hQ⟩ := hf known₁ s₁ a hreg₁ hext₁ hP b s' hfa
  exact ⟨known₂, hreg₂, hext₁.trans hext₂, hQ⟩

theorem Keeps.pure (h : Registry known s) {a : α} (ha : P known a) : Keeps known s (pure a) P := by
  intro b s' hrun
  cases hrun
  exact ⟨known, h, Extends.refl _ _, ha⟩

theorem Keeps.throw {f : Fault} : Keeps known s (throw f : Parsing α) P := by
  intro a s' hrun
  cases hrun

/-! ### Computations that know nothing new -/

def Still {α : Type} (m : Parsing α) : Prop :=
  ∀ s a s', m.run s = .ok (a, s') →
    s'.anchors = s.anchors ∧ s'.openAnchors = s.openAnchors ∧ s'.nextId = s.nextId

theorem Still.bind (h : Still m) (hf : ∀ a, Still (f a)) : Still (m >>= f) := by
  intro s b s' hrun
  obtain ⟨a, s₁, hm, hfa⟩ := run_bind_eq_ok_iff.mp hrun
  obtain ⟨h1, h2, h3⟩ := h s a s₁ hm
  obtain ⟨h4, h5, h6⟩ := hf a s₁ b s' hfa
  exact ⟨h4.trans h1, h5.trans h2, h6.trans h3⟩

theorem still_pure (a : α) : Still (pure a : Parsing α) := by
  intro s b s' hrun
  cases hrun
  exact ⟨rfl, rfl, rfl⟩

theorem still_throw (f : Fault) : Still (throw f : Parsing α) := by
  intro s b s' hrun
  cases hrun

theorem still_get : Still (get : Parsing Parse) := by
  intro s b s' hrun
  cases hrun
  exact ⟨rfl, rfl, rfl⟩

namespace Parsing

theorem still_peek : Still peek := by
  refine still_get.bind fun s => ?_
  split
  · exact still_pure _
  · exact still_throw _

theorem still_advance : Still advance := by
  intro s b s' hrun
  cases hrun
  exact ⟨rfl, rfl, rfl⟩

theorem still_properties : Still properties := by
  refine still_peek.bind fun t => ?_
  split
  · refine still_advance.bind fun _ => still_peek.bind fun t => ?_
    split
    · exact still_advance.bind fun _ => still_pure _
    · exact still_pure _
  · refine still_advance.bind fun _ => still_peek.bind fun t => ?_
    split
    · exact still_advance.bind fun _ => still_pure _
    · exact still_pure _
  · exact still_pure _

theorem still_expandTag (tag : Option (Option String × String)) : Still (expandTag tag) := by
  unfold expandTag
  split
  · exact still_pure _
  · exact still_pure _
  · refine still_get.bind fun s => ?_
    split
    · exact still_pure _
    · exact still_throw _

theorem still_checkAnchor (anchor : Option String) : Still (checkAnchor anchor) := by
  unfold checkAnchor
  split
  · exact still_pure _
  · refine still_get.bind fun s => ?_
    split
    · exact still_throw _
    · exact still_pure _

end Parsing

theorem Still.keeps_bind (hm : Still m) (h : Registry known s)
    (hf : ∀ s' a, Registry known s' → Keeps known s' (f a) Q) :
    Keeps known s (m >>= f) Q := by
  intro b s' hrun
  obtain ⟨a, s₁, hma, hfa⟩ := run_bind_eq_ok_iff.mp hrun
  obtain ⟨ha, ho, hn⟩ := hm s a s₁ hma
  have hkeeps := hf s₁ a (h.of_eq ha ho hn) b s' hfa
  rwa [hn] at hkeeps

/-! ### Computations that make nodes -/

namespace Parsing

def KnownItems (known : YamlNode → Prop) (items : List YamlNode) : Prop := ∀ n ∈ items, known n

def KnownEntries (known : YamlNode → Prop) (entries : List (YamlNode × YamlNode)) : Prop :=
  ∀ e ∈ entries, known e.1 ∧ known e.2

variable {id : Nat} {tag : Tag} {items : List YamlNode} {entries : List (YamlNode × YamlNode)}

theorem KnownItems.mono {known' : YamlNode → Prop} (h : KnownItems known items)
    (hmono : ∀ a, known a → known' a) :
    KnownItems known' items := fun n hn => hmono n (h n hn)

theorem KnownItems.cons (hn : known n) (h : KnownItems known items) :
    KnownItems known (n :: items) := by
  exact List.forall_mem_cons.mpr ⟨hn, h⟩

theorem KnownItems.reverse (h : KnownItems known items) :
    KnownItems known items.reverse := fun n hn => h n (List.mem_reverse.mp hn)

theorem KnownEntries.mono {known' : YamlNode → Prop} (h : KnownEntries known entries)
    (hmono : ∀ a, known a → known' a) :
    KnownEntries known' entries :=
  fun e he => ⟨hmono _ (h e he).1, hmono _ (h e he).2⟩

theorem KnownEntries.cons {k v : YamlNode} (hk : known k) (hv : known v)
    (h : KnownEntries known entries) :
    KnownEntries known ((k, v) :: entries) := by
  exact List.forall_mem_cons.mpr ⟨⟨hk, hv⟩, h⟩

theorem KnownEntries.reverse (h : KnownEntries known entries) :
    KnownEntries known entries.reverse := fun e he => h e (List.mem_reverse.mp he)

theorem keeps_freshId (h : Registry known s) {f : Nat → Parsing β}
    (hf : ∀ b s', (f s.nextId).run { s with nextId := s.nextId + 1 } = .ok (b, s') →
      Registry known { s with nextId := s.nextId + 1 } →
      ∃ known', Registry known' s' ∧ Extends known known' s.nextId s'.nextId ∧ Q known' b) :
    Keeps known s (freshId >>= f) Q := by
  intro b s' hrun
  obtain ⟨a, s₁, hid, hfa⟩ := run_bind_eq_ok_iff.mp hrun
  cases hid
  exact hf b s' hfa ⟨h.closed, h.unique, fun a ha hea => Nat.lt_succ_of_lt (h.below a ha hea),
    h.named⟩

/-- A node with the number that was taken last, all of whose parts are known, becomes known. -/
theorem Registry.addFresh {s₀ : Parse} (h₀ : Registry known s₀) {known' : YamlNode → Prop}
    (h : Registry known' s)
    (hext : Extends known known' (s₀.nextId + 1) s.nextId) (hid : n.id = s₀.nextId)
    (hparts : ∀ a, Occurs a n → a = n ∨ known' a) :
    Registry (fun a => known' a ∨ a = n) s ∧
    Extends known (fun a => known' a ∨ a = n) s₀.nextId s.nextId := by
  have hle := hext.le
  refine ⟨h.add hparts (by omega) ?_, ⟨fun a ha => .inl (hext.mono a ha), by omega, ?_⟩⟩
  · intro a ha hea he
    rcases hext.fresh a ha hea with hold | hnew
    · have := h₀.below a hold hea
      omega
    · omega
  · rintro a (ha | rfl) hea
    · rcases hext.fresh a ha hea with hold | hnew
      · exact .inl hold
      · exact .inr (by omega)
    · exact .inr (by omega)

theorem Registry.bind {s' : Parse} (h : Registry known s) {anchor : Option String} (hn : known n)
    (hrun : (bindAnchor anchor n).run s = .ok ((), s')) :
    Registry known s' ∧ s'.nextId = s.nextId := by
  cases anchor with
  | none =>
    cases hrun
    exact ⟨h, rfl⟩
  | some name =>
    cases hrun
    refine ⟨⟨h.closed, h.unique, h.below, ?_⟩, rfl⟩
    intro e he
    rcases List.mem_append.mp he with he | he
    · rcases List.mem_cons.mp he with rfl | he
      · exact hn
      · exact h.named e (List.mem_append_left _ he)
    · exact h.named e (List.mem_append_right _ (List.mem_of_mem_filter he))

theorem not_occurs_scalar {a : YamlNode} {text : String} (h : Occurs a (.scalar id tag text)) :
    a = .scalar id tag text := by
  cases h
  rfl

theorem keeps_emptyScalar (h : Registry known s) :
    Keeps known s emptyScalar fun known' n => known' n := by
  refine keeps_freshId h fun b s' hrun hreg => ?_
  cases hrun
  obtain ⟨hadd, hext⟩ := Registry.addFresh h hreg (Extends.refl _ _)
    (n := .scalar s.nextId .null "") rfl fun a ha => .inl (not_occurs_scalar ha)
  exact ⟨_, hadd, hext, .inr rfl⟩

/-- A scalar, perhaps with an anchor. -/
theorem keeps_scalar (h : Registry known s) (anchor : Option String) (tag : Tag) (text : String) :
    Keeps known s (do
      let result := YamlNode.scalar (← freshId) tag text
      bindAnchor anchor result
      return result) fun known' n => known' n := by
  refine keeps_freshId h fun b s' hrun hreg => ?_
  obtain ⟨hadd, hext⟩ := Registry.addFresh h hreg (Extends.refl _ _)
    (n := .scalar s.nextId tag text) rfl fun a ha => .inl (not_occurs_scalar ha)
  obtain ⟨_, s₁, hbind, hpure⟩ := run_bind_eq_ok_iff.mp hrun
  obtain ⟨hbound, hnext⟩ := Registry.bind hadd (.inr rfl) hbind
  cases hpure
  exact ⟨_, hbound, hnext ▸ hext, .inr rfl⟩

theorem keeps_resolveAlias (h : Registry known s) (name : String) :
    Keeps known s (resolveAlias name) fun known' n => known' n := by
  intro n s' hrun
  obtain ⟨s₁, s₂, hget, hrest⟩ := run_bind_eq_ok_iff.mp hrun
  cases hget
  split at hrest
  · rename_i node hfind
    cases hrest
    exact ⟨known, h, Extends.refl _ _, h.named _ (List.mem_of_find?_eq_some hfind)⟩
  · cases hrest

theorem not_occurs_enclosing {a : YamlNode} {shape : Shape}
    (h : Occurs a (.enclosing id tag shape)) :
    a = .enclosing id tag shape := by
  cases h
  rfl

/-- A collection is begun: an alias in its content may already name it. -/
theorem openCollection_known {s' : Parse} (h : Registry known s) {anchor : Option String}
    {shape : Shape} (hrun : (openCollection anchor tag shape).run s = .ok (id, s')) :
    id = s.nextId ∧ ∃ known', Registry known' s' ∧
      Extends known known' (s.nextId + 1) s'.nextId := by
  obtain ⟨_, s₁, hcheck, hrun⟩ := run_bind_eq_ok_iff.mp hrun
  obtain ⟨ha, ho, hn⟩ := still_checkAnchor anchor s _ s₁ hcheck
  obtain ⟨_, s₂, hfresh, hrun⟩ := run_bind_eq_ok_iff.mp hrun
  cases hfresh
  have hreg : Registry known { s₁ with nextId := s₁.nextId + 1 } :=
    ⟨h.closed, h.unique, fun a ha hea => by have := h.below a ha hea; simp only [hn]; omega,
      by simp only [ha, ho]; exact h.named⟩
  have hext : Extends known known (s.nextId + 1) (s₁.nextId + 1) := hn ▸ Extends.refl _ _
  cases anchor with
  | none =>
    cases hrun
    exact ⟨hn, known, hreg, hext⟩
  | some name =>
    cases hrun
    refine ⟨hn, fun a => known a ∨ a = .enclosing s₁.nextId tag shape, ⟨?_, ?_, ?_, ?_⟩,
      ⟨fun a ha => .inl ha, hext.le, ?_⟩⟩
    · rintro a b hab (hb | rfl)
      · exact .inl (h.closed a b hab hb)
      · exact .inr (not_occurs_enclosing hab)
    · rintro a b (ha | rfl) (hb | rfl) hab
      · exact h.unique a b ha hb hab
      · exact .inr (.inr rfl)
      · exact .inr (.inl rfl)
      · exact .inl rfl
    · rintro a (ha | rfl) hea
      · exact hreg.below a ha hea
      · cases hea
    · intro e he
      rcases List.mem_append.mp he with he | he
      · exact .inl (hreg.named e (List.mem_append_left _ he))
      · rcases List.mem_cons.mp he with rfl | he
        · exact .inr rfl
        · exact .inl (hreg.named e (List.mem_append_right _ he))
    · rintro a (ha | rfl) hea
      · exact .inl ha
      · cases hea

section Collection

variable (h : Registry known s) (anchor : Option String) (tag : Tag) (shape : Shape)
    {content : Parsing α}
  {make : Nat → α → YamlNode} {inside : (YamlNode → Prop) → α → Prop}
    (hid : ∀ id a, (make id a).id = id)
  (hparts : ∀ {known' : YamlNode → Prop} {id : Nat} {a : α}, (∀ x y, Occurs x y → known' y →
    known' x) → inside known' a → ∀ x, Occurs x (make id a) → x = make id a ∨ known' x)
  (hcontent : ∀ known' s', Registry known' s' → Keeps known' s' content inside)

include h hid hparts hcontent

/-- **A collection**: its number is taken first, then its content is read, and then it can be
named. -/
theorem keeps_collection :
    Keeps known s (do
      let id ← openCollection anchor tag shape
      let a ← content
      bindAnchor anchor (make id a)
      return make id a) fun known' n => known' n := by
  intro n s' hrun
  obtain ⟨id, s₁, hopen, hrun⟩ := run_bind_eq_ok_iff.mp hrun
  obtain ⟨a, s₂, hread, hrun⟩ := run_bind_eq_ok_iff.mp hrun
  obtain ⟨_, s₃, hbind, hpure⟩ := run_bind_eq_ok_iff.mp hrun
  cases hpure
  obtain ⟨rfl, known₁, hreg₁, hext₁⟩ := openCollection_known h hopen
  obtain ⟨known₂, hreg₂, hext₂, hinside⟩ := hcontent known₁ s₁ hreg₁ a s₂ hread
  obtain ⟨hadd, hext⟩ := Registry.addFresh h hreg₂ (hext₁.trans hext₂) (hid s.nextId a)
    (hparts hreg₂.closed hinside)
  obtain ⟨hbound, hnext⟩ := Registry.bind hadd (.inr rfl) hbind
  exact ⟨_, hbound, hnext ▸ hext, .inr rfl⟩

theorem keeps_collection_behind :
    Keeps known s (do
      let id ← openCollection anchor tag shape
      advance
      let a ← content
      bindAnchor anchor (make id a)
      return make id a) fun known' n => known' n := by
  have hread := @keeps_collection known s α h anchor tag shape (advance >>= fun _ =>
    content) make inside hid hparts
    fun known' s' h' => still_advance.keeps_bind h' fun s _ h => hcontent known' s h
  simpa only [bind_assoc] using hread

end Collection

theorem parts_seq (hclosed : ∀ x y, Occurs x y → known y → known x) (h : KnownItems known items) :
    ∀ x, Occurs x (.seq id tag items) → x = .seq id tag items ∨ known x := by
  intro x hx
  cases hx with
  | self => exact .inl rfl
  | item hn ha => exact .inr (hclosed _ _ ha (h _ hn))

theorem parts_map (hclosed : ∀ x y, Occurs x y → known y → known x)
    (h : KnownEntries known entries) :
    ∀ x, Occurs x (.map id tag entries) → x = .map id tag entries ∨ known x := by
  intro x hx
  cases hx with
  | self => exact .inl rfl
  | key he ha => exact .inr (hclosed _ _ ha (h _ he).1)
  | value he ha => exact .inr (hclosed _ _ ha (h _ he).2)

theorem keeps_emptyNode (h : Registry known s) (anchor tag : Option String) :
    Keeps known s (emptyNode anchor tag) fun known' n => known' n := by
  unfold emptyNode
  split
  · exact Keeps.throw
  · exact (still_checkAnchor anchor).keeps_bind h fun s' _ h' => keeps_scalar h' anchor _ ""

/-! ### The grammar -/

/-- What every part of the grammar does with a given amount of fuel. -/
structure GrammarKeeps (fuel : Nat) : Prop where
  node : ∀ known s block indentless, Registry known s →
    Keeps known s (node fuel block indentless) fun known' n => known' n
  blockItems : ∀ known s acc, Registry known s → KnownItems known acc →
    Keeps known s (blockItems fuel acc) KnownItems
  indentlessItems : ∀ known s acc, Registry known s → KnownItems known acc →
    Keeps known s (indentlessItems fuel acc) KnownItems
  blockEntries : ∀ known s acc, Registry known s → KnownEntries known acc →
    Keeps known s (blockEntries fuel acc) KnownEntries
  flowItems : ∀ known s first acc, Registry known s → KnownItems known acc →
    Keeps known s (flowItems fuel first acc) KnownItems
  flowEntries : ∀ known s first acc, Registry known s → KnownEntries known acc →
    Keeps known s (flowEntries fuel first acc) KnownEntries

theorem grammarKeeps_zero : GrammarKeeps 0 where
  node := fun _ _ _ _ _ => by unfold Parsing.node; exact Keeps.throw
  blockItems := fun _ _ _ _ _ => by unfold Parsing.blockItems; exact Keeps.throw
  indentlessItems := fun _ _ _ _ _ => by unfold Parsing.indentlessItems; exact Keeps.throw
  blockEntries := fun _ _ _ _ _ => by unfold Parsing.blockEntries; exact Keeps.throw
  flowItems := fun _ _ _ _ _ _ => by unfold Parsing.flowItems; exact Keeps.throw
  flowEntries := fun _ _ _ _ _ _ => by unfold Parsing.flowEntries; exact Keeps.throw

/-- **What is read behind a node**: it keeps the registry whenever the node is registered. -/
def Follows {β : Type} (known : YamlNode → Prop) (f : YamlNode → Parsing β)
    (P : (YamlNode → Prop) → β → Prop) : Prop :=
  ∀ known' s' n, Registry known' s' → (∀ a, known a → known' a) → known' n → Keeps known' s' (f n) P

theorem Follows.emptyScalar_bind {f : YamlNode → Parsing β} {P : (YamlNode → Prop) → β → Prop}
    (hf : Follows known f P) (h : Registry known s) : Keeps known s (emptyScalar >>= f) P :=
  (keeps_emptyScalar h).bind fun known' s' n h' hext hn => hf known' s' n h' hext.mono hn

theorem Follows.node_bind {f : YamlNode → Parsing β} {P : (YamlNode → Prop) → β → Prop}
    (hf : Follows known f P)
    {fuel : Nat} (ih : GrammarKeeps fuel) (h : Registry known s) (block indentless : Bool) :
    Keeps known s (Parsing.node fuel block indentless >>= f) P :=
  (ih.node known s block indentless h).bind fun known' s' n h' hext hn =>
    hf known' s' n h' hext.mono hn

/-- The key and the value of a mapping that stands as an item without braces. -/
def flowPair (fuel : Nat) : Parsing (YamlNode × YamlNode) := do
  let key ←
    match ← peek with
    | .value | .flowEntry | .flowSequenceEnd => emptyScalar
    | _ => Parsing.node fuel false false
  let value ←
    match ← peek with
    | .value => do
      advance
      match ← peek with
      | .flowEntry | .flowSequenceEnd => emptyScalar
      | _ => Parsing.node fuel false false
    | _ => emptyScalar
  return (key, value)

theorem flowPair_bind (fuel : Nat) (f : YamlNode × YamlNode → Parsing β) :
    flowPair fuel >>= f = (do
      let key ←
        match ← peek with
        | .value | .flowEntry | .flowSequenceEnd => emptyScalar
        | _ => Parsing.node fuel false false
      let value ←
        match ← peek with
        | .value => do
          advance
          match ← peek with
          | .flowEntry | .flowSequenceEnd => emptyScalar
          | _ => Parsing.node fuel false false
        | _ => emptyScalar
      f (key, value)) := by
  unfold flowPair
  rw [bind_assoc]
  refine bind_congr fun t => ?_
  extract_lets behindKey behindKey'
  have hbehindKey : ∀ key, behindKey key >>= f = behindKey' key := by
    intro key
    simp only [behindKey, behindKey', bind_assoc]
    refine bind_congr fun t => ?_
    split
    · simp only [bind_assoc]
      refine bind_congr fun _ => bind_congr fun t => ?_
      split <;> simp only [bind_assoc, pure_bind]
    · simp only [bind_assoc, pure_bind]
  split <;> simp only [bind_assoc, hbehindKey]

section

variable {fuel : Nat} (ih : GrammarKeeps fuel) {known : YamlNode → Prop} {s : Parse}
    (h : Registry known s)

include ih h

theorem keeps_node (block indentless : Bool) :
    Keeps known s (Parsing.node (fuel + 1) block indentless) fun known' n => known' n := by
  unfold Parsing.node
  refine still_peek.keeps_bind h fun s t h => ?_
  split
  · exact still_advance.keeps_bind h fun s _ h => keeps_resolveAlias h _
  · refine still_properties.keeps_bind h fun s p h => ?_
    refine (still_expandTag p.2).keeps_bind h fun s tag h => ?_
    refine still_peek.keeps_bind h fun s t h => ?_
    split
    · split
      · exact keeps_collection h p.1 _ .seq (fun _ _ => rfl) parts_seq
          fun known' s' h' => ih.indentlessItems known' s' [] h' (fun _ hn => nomatch hn)
      · exact keeps_emptyNode h _ _
    · refine still_advance.keeps_bind h fun s _ h => ?_
      exact (still_checkAnchor _).keeps_bind h fun s _ h => keeps_scalar h _ _ _
    · exact keeps_collection_behind h p.1 _ .seq (fun _ _ => rfl) parts_seq
        fun known' s' h' => ih.flowItems known' s' true [] h' (fun _ hn => nomatch hn)
    · exact keeps_collection_behind h p.1 _ .map (fun _ _ => rfl) parts_map
        fun known' s' h' => ih.flowEntries known' s' true [] h' (fun _ hn => nomatch hn)
    · split
      · exact keeps_collection_behind h p.1 _ .seq (fun _ _ => rfl) parts_seq
          fun known' s' h' => ih.blockItems known' s' [] h' (fun _ hn => nomatch hn)
      · exact keeps_emptyNode h _ _
    · split
      · exact keeps_collection_behind h p.1 _ .map (fun _ _ => rfl) parts_map
          fun known' s' h' => ih.blockEntries known' s' [] h' (fun _ hn => nomatch hn)
      · exact keeps_emptyNode h _ _
    · exact keeps_emptyNode h _ _

theorem keeps_blockItems {acc : List YamlNode} (hacc : KnownItems known acc) :
    Keeps known s (Parsing.blockItems (fuel + 1) acc) KnownItems := by
  unfold Parsing.blockItems
  refine still_peek.keeps_bind h fun s t h => ?_
  split
  · refine still_advance.keeps_bind h fun s _ h => still_peek.keeps_bind h fun s t h => ?_
    have hnext : Follows known (fun n => Parsing.blockItems fuel (n :: acc)) KnownItems :=
      fun known' s' n h' hmono hn => ih.blockItems known' s' _ h' (.cons hn (hacc.mono hmono))
    split
    · exact hnext.emptyScalar_bind h
    · exact hnext.emptyScalar_bind h
    · exact hnext.node_bind ih h true false
  · exact still_advance.keeps_bind h fun s _ h => Keeps.pure h hacc.reverse
  · exact Keeps.throw

theorem keeps_indentlessItems {acc : List YamlNode} (hacc : KnownItems known acc) :
    Keeps known s (Parsing.indentlessItems (fuel + 1) acc) KnownItems := by
  unfold Parsing.indentlessItems
  refine still_peek.keeps_bind h fun s t h => ?_
  split
  · refine still_advance.keeps_bind h fun s _ h => still_peek.keeps_bind h fun s t h => ?_
    have hnext : Follows known (fun n => Parsing.indentlessItems fuel (n :: acc)) KnownItems :=
      fun known' s' n h' hmono hn => ih.indentlessItems known' s' _ h' (.cons hn (hacc.mono hmono))
    split
    · exact hnext.emptyScalar_bind h
    · exact hnext.emptyScalar_bind h
    · exact hnext.emptyScalar_bind h
    · exact hnext.emptyScalar_bind h
    · exact hnext.node_bind ih h true false
  · exact Keeps.pure h hacc.reverse

theorem keeps_blockEntries {acc : List (YamlNode × YamlNode)} (hacc : KnownEntries known acc) :
    Keeps known s (Parsing.blockEntries (fuel + 1) acc) KnownEntries := by
  unfold Parsing.blockEntries
  refine still_peek.keeps_bind h fun s t h => ?_
  split
  · refine still_advance.keeps_bind h fun s _ h => still_peek.keeps_bind h fun s t h => ?_
    extract_lets behindKey
    have hbehindKey : Follows known behindKey KnownEntries := by
      intro known s key h hmono hkey
      refine still_peek.keeps_bind h fun s t h => ?_
      extract_lets behindValue
      have hbehindValue : Follows known behindValue KnownEntries :=
        fun known' s' value h' hmono' hvalue =>
        ih.blockEntries known' s' _ h' (.cons (hmono' _ hkey) hvalue
          ((hacc.mono hmono).mono hmono'))
      split
      · refine still_advance.keeps_bind h fun s _ h => still_peek.keeps_bind h fun s t h => ?_
        split
        · exact hbehindValue.emptyScalar_bind h
        · exact hbehindValue.emptyScalar_bind h
        · exact hbehindValue.emptyScalar_bind h
        · exact hbehindValue.node_bind ih h true true
      · exact hbehindValue.emptyScalar_bind h
    split
    · exact hbehindKey.emptyScalar_bind h
    · exact hbehindKey.emptyScalar_bind h
    · exact hbehindKey.emptyScalar_bind h
    · exact hbehindKey.node_bind ih h true true
  · exact Keeps.throw
  · exact still_advance.keeps_bind h fun s _ h => Keeps.pure h hacc.reverse
  · exact Keeps.throw

theorem keeps_flowEntries (first : Bool) {acc : List (YamlNode × YamlNode)}
    (hacc : KnownEntries known acc) :
    Keeps known s (Parsing.flowEntries (fuel + 1) first acc) KnownEntries := by
  unfold Parsing.flowEntries
  refine still_peek.keeps_bind h fun s t h => ?_
  split
  · exact still_advance.keeps_bind h fun s _ h => Keeps.pure h hacc.reverse
  · split
    · exact Keeps.throw
    · extract_lets behindKey behindComma
      have hbehindKey : Follows known behindKey KnownEntries := by
        intro known s key h hmono hkey
        refine still_peek.keeps_bind h fun s t h => ?_
        extract_lets behindValue
        have hbehindValue : Follows known behindValue KnownEntries :=
          fun known' s' value h' hmono' hvalue =>
          ih.flowEntries known' s' false _ h'
            (.cons (hmono' _ hkey) hvalue ((hacc.mono hmono).mono hmono'))
        split
        · refine still_advance.keeps_bind h fun s _ h => still_peek.keeps_bind h fun s t h => ?_
          split
          · exact hbehindValue.emptyScalar_bind h
          · exact hbehindValue.emptyScalar_bind h
          · exact hbehindValue.node_bind ih h false false
        · exact hbehindValue.emptyScalar_bind h
      have hbehindComma : ∀ s', Registry known s' →
          Keeps known s' (behindComma ()) KnownEntries := by
        intro s h
        refine still_peek.keeps_bind h fun s t h => ?_
        split
        · refine still_advance.keeps_bind h fun s _ h => still_peek.keeps_bind h fun s t h => ?_
          split
          · exact hbehindKey.emptyScalar_bind h
          · exact hbehindKey.emptyScalar_bind h
          · exact hbehindKey.emptyScalar_bind h
          · exact hbehindKey.node_bind ih h false false
        · exact still_advance.keeps_bind h fun s _ h => Keeps.pure h hacc.reverse
        · -- a key alone has an empty value
          have halone : Follows known (fun key => do
              Parsing.flowEntries fuel false ((key, ← emptyScalar) :: acc)) KnownEntries := by
            intro known₁ s₁ key h₁ hmono₁ hkey
            have hnext : Follows known₁
                (fun value => Parsing.flowEntries fuel false ((key, value) :: acc))
                KnownEntries := fun known' s' value h' hmono' hvalue =>
              ih.flowEntries known' s' false _ h'
                (.cons (hmono' _ hkey) hvalue ((hacc.mono hmono₁).mono hmono'))
            exact hnext.emptyScalar_bind h₁
          exact halone.node_bind ih h false false
      split
      · exact still_advance.keeps_bind h fun s _ h => hbehindComma s h
      · exact hbehindComma s h

theorem keeps_flowPair :
    Keeps known s (flowPair fuel) fun known' p => known' p.1 ∧ known' p.2 := by
  unfold flowPair
  refine still_peek.keeps_bind h fun s t h => ?_
  extract_lets behindKey
  have hbehindKey : Follows known behindKey fun known' p => known' p.1 ∧ known' p.2 := by
    intro known s key h hmono hkey
    refine still_peek.keeps_bind h fun s t h => ?_
    extract_lets behindValue
    have hbehindValue : Follows known behindValue fun known' p => known' p.1 ∧ known' p.2 :=
      fun known' s' value h' hmono' hvalue => Keeps.pure h' ⟨hmono' _ hkey, hvalue⟩
    split
    · refine still_advance.keeps_bind h fun s _ h => still_peek.keeps_bind h fun s t h => ?_
      split
      · exact hbehindValue.emptyScalar_bind h
      · exact hbehindValue.emptyScalar_bind h
      · exact hbehindValue.node_bind ih h false false
    · exact hbehindValue.emptyScalar_bind h
  split
  · exact hbehindKey.emptyScalar_bind h
  · exact hbehindKey.emptyScalar_bind h
  · exact hbehindKey.emptyScalar_bind h
  · exact hbehindKey.node_bind ih h false false

theorem keeps_flowItems (first : Bool) {acc : List YamlNode} (hacc : KnownItems known acc) :
    Keeps known s (Parsing.flowItems (fuel + 1) first acc) KnownItems := by
  unfold Parsing.flowItems
  refine still_peek.keeps_bind h fun s t h => ?_
  split
  · exact still_advance.keeps_bind h fun s _ h => Keeps.pure h hacc.reverse
  · split
    · exact Keeps.throw
    · extract_lets behindComma
      have hbehindComma : ∀ s', Registry known s' → Keeps known s' (behindComma ()) KnownItems := by
        intro s h
        refine still_peek.keeps_bind h fun s t h => ?_
        split
        · refine keeps_freshId h fun b s' hrun hreg => ?_
          have hpair : (advance >>= fun _ => flowPair fuel >>= fun p =>
              Parsing.flowItems fuel false (.map s.nextId .map [p] :: acc)).run
                { s with nextId := s.nextId + 1 } = .ok (b, s') := by
            simp only [flowPair_bind]
            exact hrun
          obtain ⟨_, s₁, hadvance, hpair⟩ := run_bind_eq_ok_iff.mp hpair
          cases hadvance
          obtain ⟨p, s₂, hread, hrest⟩ := run_bind_eq_ok_iff.mp hpair
          have hreg₀ : Registry known { s with ahead := s.ahead.drop 1, nextId := s.nextId + 1 } :=
            hreg.of_eq rfl rfl rfl
          obtain ⟨known₁, hreg₁, hext₁, hp⟩ := keeps_flowPair ih hreg₀ p s₂ hread
          obtain ⟨hadd, hext⟩ := Registry.addFresh h hreg₁ hext₁ (n := .map s.nextId .map [p]) rfl
            (parts_map hreg₁.closed fun e he => by rw [List.mem_singleton.mp he]; exact hp)
          obtain ⟨known₂, hreg₂, hext₂, hitems⟩ := ih.flowItems _ s₂ false _ hadd
            (.cons (.inr rfl) (hacc.mono hext.mono)) b s' hrest
          exact ⟨known₂, hreg₂, hext.trans hext₂, hitems⟩
        · exact still_advance.keeps_bind h fun s _ h => Keeps.pure h hacc.reverse
        · have hnext : Follows known (fun n => Parsing.flowItems fuel false
              (n :: acc)) KnownItems :=
            fun known' s' n h' hmono hn => ih.flowItems known' s' false _ h'
              (.cons hn (hacc.mono hmono))
          exact hnext.node_bind ih h false false
      split
      · exact still_advance.keeps_bind h fun s _ h => hbehindComma s h
      · exact hbehindComma s h

end

/-- **Every part of the grammar keeps the registry.** -/
theorem grammarKeeps : ∀ fuel, GrammarKeeps fuel := by
  intro fuel
  induction fuel with
  | zero => exact grammarKeeps_zero
  | succ fuel ih =>
    exact
      { node := fun _ _ block indentless h => keeps_node ih h block indentless
        blockItems := fun _ _ _ h hacc => keeps_blockItems ih h hacc
        indentlessItems := fun _ _ _ h hacc => keeps_indentlessItems ih h hacc
        blockEntries := fun _ _ _ h hacc => keeps_blockEntries ih h hacc
        flowItems := fun _ _ first _ h hacc => keeps_flowItems ih h first hacc
        flowEntries := fun _ _ first _ h hacc => keeps_flowEntries ih h first hacc }

/-! ### Whole documents -/

theorem still_directives : ∀ (fuel : Nat) (versioned : Bool) (handles : List (String × String)),
    Still (directives fuel versioned handles) := by
  intro fuel
  induction fuel with
  | zero => intro versioned handles; exact still_pure _
  | succ fuel ih =>
    intro versioned handles
    refine still_peek.bind fun t => ?_
    split
    · refine still_advance.bind fun _ => ?_
      split
      · split
        · exact still_throw _
        · exact ih _ _
      · split
        · exact still_throw _
        · exact ih _ _
      · exact ih _ _
    · exact still_pure _

theorem still_skipDocumentEnds : ∀ fuel, Still (skipDocumentEnds fuel) := by
  intro fuel
  induction fuel with
  | zero => exact still_pure _
  | succ fuel ih =>
    refine still_peek.bind fun t => ?_
    split
    · exact still_advance.bind fun _ => ih
    · exact still_pure _

theorem still_explicitStart (fuel : Nat) : Still (explicitStart fuel) := by
  refine (still_skipDocumentEnds fuel).bind fun _ => still_peek.bind fun t => ?_
  split
  · exact still_pure _
  · refine (still_directives fuel false []).bind fun given => ?_
    refine Still.bind (fun s _ s' hrun => by cases hrun; exact ⟨rfl, rfl, rfl⟩) fun _ =>
      still_peek.bind fun t => ?_
    split
    · exact still_advance.bind fun _ => still_pure _
    · exact still_throw _

def KnownRoot (known : YamlNode → Prop) (root : Option YamlNode) : Prop :=
  ∀ n, root = some n → known n

theorem keeps_single (h : Registry known s) (fuel : Nat) :
    Keeps known s (single fuel) KnownRoot := by
  unfold single
  refine still_advance.keeps_bind h fun s _ h => still_peek.keeps_bind h fun s t h => ?_
  extract_lets behindRoot
  have hbehindRoot : ∀ known' s' root, Registry known' s' → KnownRoot known' root →
      Keeps known' s' (behindRoot root) KnownRoot := by
    intro known s root h hroot
    have hend : ∀ s, Registry known s →
        Keeps known s
          (do if ← explicitStart fuel then badReference else return root) KnownRoot := by
      intro s h
      refine (still_explicitStart fuel).keeps_bind h fun s further h => ?_
      split
      · exact Keeps.throw
      · exact Keeps.pure h hroot
    refine still_peek.keeps_bind h fun s t h => ?_
    extract_lets behindEnd
    split
    · exact still_advance.keeps_bind h fun s _ h => hend s h
    · exact hend s h
  have hempty : ∀ s, Registry known s →
      Keeps known s (some <$> emptyScalar >>= behindRoot) KnownRoot := by
    intro s h
    rw [map_eq_pure_bind, bind_assoc]
    refine (keeps_emptyScalar h).bind fun known' s' n h' _ hn => ?_
    rw [pure_bind]
    exact hbehindRoot known' s' _ h' fun m hm => by cases hm; exact hn
  have hnode : ∀ s, Registry known s → Keeps known s (some <$> node fuel true false >>=
      behindRoot) KnownRoot := by
    intro s h
    rw [map_eq_pure_bind, bind_assoc]
    refine ((grammarKeeps fuel).node known s true false h).bind fun known' s' n h' _ hn => ?_
    rw [pure_bind]
    exact hbehindRoot known' s' _ h' fun m hm => by cases hm; exact hn
  split
  case h_1 | h_2 | h_3 =>
    refine (still_explicitStart fuel).keeps_bind h fun s started h => ?_
    split
    · refine still_peek.keeps_bind h fun s t h => ?_
      split
      · exact hempty s h
      · exact hempty s h
      · exact hempty s h
      · exact hempty s h
      · exact hnode s h
    · exact Keeps.pure h fun n hn => by cases hn
  case h_4 => exact hnode s h

end Parsing

/-- **Nodes with one number are one node**, wherever they occur in a document that was read. -/
theorem unique_of_nodeOf {text : String} (h : nodeOf text = .ok (some n)) :
    Unique fun a => Occurs a n := by
  have hstart : Registry (fun _ => False) ⟨(tokensOf text).1, (tokensOf text).2,
      Parsing.defaultHandles, [], [], 0⟩ :=
    ⟨fun _ _ _ hf => hf, fun _ _ hf => hf.elim, fun _ hf => hf.elim, fun e he => nomatch he⟩
  have hkeeps := Parsing.keeps_single hstart (2 * (tokensOf text).1.length + 4)
  have hrun : Prod.fst <$> (Parsing.single (2 * (tokensOf text).1.length + 4)).run
      ⟨(tokensOf text).1, (tokensOf text).2, Parsing.defaultHandles, [], [], 0⟩ = .ok (some n) := h
  obtain ⟨⟨root, s'⟩, hsingle, hroot⟩ := map_eq_ok_iff.mp hrun
  obtain ⟨known, hreg, -, hknown⟩ := hkeeps root s' hsingle
  have hn : known n := hknown n hroot
  exact fun a b ha hb => hreg.unique a b (hreg.closed a n ha hn) (hreg.closed b n hb hn)

end ProjectLint.Yaml
