import Mathlib.Data.List.ReduceOption
import ProjectLint.Edit
import ProjectLint.Value.Access

/-!
# Taking computations apart

A computation that succeeds did so in every step.  The lemmas here say this for plain outcomes, for
walks through a list and for feeds; the other proofs take a run apart with them and do not unfold
the monads.
-/

namespace ProjectLint

/-! ### Outcomes -/

variable {α β ε : Type} {f : α → Except ε β} {x : Except ε α} {b : β} {l : List α}

@[simp] theorem ok_bind (a : α) (f : α → Except ε β) : (Except.ok a >>= f) = f a := rfl

@[simp] theorem error_bind (e : ε) (f : α → Except ε β) : (Except.error e >>= f) = .error e := rfl

@[simp] theorem ok_map (a : α) (f : α → β) : (Except.ok a : Except ε α).map f = .ok (f a) := rfl

theorem bind_eq_ok_iff : (x >>= f) = .ok b ↔ ∃ a, x = .ok a ∧ f a = .ok b := by
  cases x with
  | error e => simp
  | ok a => simp

theorem map_eq_ok_iff {f : α → β} : x.map f = .ok b ↔ ∃ a, x = .ok a ∧ f a = b := by
  cases x with
  | error e => simp [Except.map]
  | ok a => simp

theorem eq_ok_of_toOption {a : α} (h : x.toOption = some a) : x = .ok a := by
  cases x with
  | error e => cases h
  | ok b => rw [Option.some.inj h]

theorem exists_error_iff : (∃ e, x = .error e) ↔ ¬ ∃ a, x = .ok a := by
  cases x with
  | error e => simp
  | ok a => simp

/-! ### Fields -/

/-- What stands under a key, where nothing counts as null. -/
def valueUnder (v : Value) (key : String) : Value := (v.field key).toOption.getD .null

theorem valueUnder_eq {v x : Value} {key : String} (h : v.field key = .ok x) :
    valueUnder v key = x := by
  rw [valueUnder, h]
  rfl

def IsMapping (v : Value) : Prop := ∃ fields, v = .map fields

theorem IsMapping.field_eq {v : Value} (h : IsMapping v) (key : String) :
    v.field key = .ok (valueUnder v key) := by
  obtain ⟨fields, rfl⟩ := h
  rfl

theorem eq_map_of_field? {v : Value} {key : String} {found : Option Value}
    (h : v.field? key = .ok found) :
    ∃ es, v = .map es ∧ Entries.get? es key = found := by
  cases v with
  | map es => cases h; exact ⟨es, rfl, rfl⟩
  | _ => cases h

theorem isMapping_of_fieldD {v x default : Value} {key : String}
    (h : v.fieldD key default = .ok x) : IsMapping v := by
  obtain ⟨found, hfound, -⟩ := map_eq_ok_iff.mp h
  obtain ⟨es, rfl, -⟩ := eq_map_of_field? hfound
  exact ⟨es, rfl⟩

theorem eq_map_of_entries {v : Value} {es : Entries} (h : v.entries = .ok es) : v = .map es := by
  cases v with
  | map entries => rw [Except.ok.inj h]
  | _ => cases h

/-! ### Walks through a list -/

/-- A walk succeeds if its first step and the walk through the rest do. -/
theorem mapM_cons_eq_ok_iff {a : α} {bs : List β} :
    (a :: l).mapM f = .ok bs ↔ ∃ b rest, f a = .ok b ∧ l.mapM f = .ok rest ∧ bs = b :: rest := by
  rw [List.mapM_cons, bind_eq_ok_iff]
  constructor
  · rintro ⟨b, hb, h⟩
    obtain ⟨rest, hrest, h⟩ := bind_eq_ok_iff.mp h
    exact ⟨b, rest, hb, hrest, (Except.ok.inj h).symm⟩
  · rintro ⟨b, rest, hb, hrest, rfl⟩
    exact ⟨b, hb, bind_eq_ok_iff.mpr ⟨rest, hrest, rfl⟩⟩

theorem mapM_eq_ok_map {g : α → β} : ∀ {l : List α}, (∀ a ∈ l, f a = .ok (g a)) →
    l.mapM f = .ok (l.map g) := by
  intro l
  induction l with
  | nil => intro _; rfl
  | cons a l ih =>
    intro h
    rw [List.mapM_cons, h a List.mem_cons_self, ih fun b hb => h b (List.mem_cons_of_mem a hb)]
    rfl

theorem exists_mapM_eq_ok : ∀ {l : List α}, (∀ a ∈ l, ∃ b, f a = .ok b) →
    ∃ bs, l.mapM f = .ok bs := by
  intro l
  induction l with
  | nil => exact fun _ => ⟨[], rfl⟩
  | cons a l ih =>
    intro h
    obtain ⟨⟨b, hb⟩, hrest⟩ := List.forall_mem_cons.mp h
    obtain ⟨bs, hbs⟩ := ih hrest
    exact ⟨b :: bs, mapM_cons_eq_ok_iff.mpr ⟨b, bs, hb, hbs, rfl⟩⟩

/-- Every step of a walk succeeds. -/
theorem ok_of_mapM : ∀ {l : List α} {bs : List β}, l.mapM f = .ok bs →
    ∀ a ∈ l, ∃ b ∈ bs, f a = .ok b := by
  intro l
  induction l with
  | nil => intro bs _ a ha; cases ha
  | cons a l ih =>
    intro bs h a' ha'
    obtain ⟨b₀, bs₀, hb₀, hbs₀, rfl⟩ := mapM_cons_eq_ok_iff.mp h
    rcases List.mem_cons.mp ha' with rfl | ha'
    · exact ⟨b₀, List.mem_cons_self, hb₀⟩
    · obtain ⟨b, hb, hfb⟩ := ih hbs₀ a' ha'
      exact ⟨b, List.mem_cons_of_mem b₀ hb, hfb⟩

theorem mapM_returns_iff : (∃ bs, l.mapM f = .ok bs) ↔ ∀ a ∈ l, ∃ b, f a = .ok b := by
  constructor
  · rintro ⟨bs, hbs⟩ a ha
    obtain ⟨b, -, hb⟩ := ok_of_mapM hbs a ha
    exact ⟨b, hb⟩
  · exact exists_mapM_eq_ok

theorem eq_map_of_mapM {g : α → β} {bs : List β} (h : l.mapM f = .ok bs)
    (hstep : ∀ a ∈ l, ∀ b, f a = .ok b → b = g a) :
    bs = l.map g := by
  refine Except.ok.inj (h.symm.trans (mapM_eq_ok_map fun a ha => ?_))
  obtain ⟨b, -, hb⟩ := ok_of_mapM h a ha
  rw [hb, hstep a ha b hb]

/-- Every result of a walk is the result of one of the steps. -/
theorem mem_of_mapM : ∀ {l : List α} {bs : List β}, l.mapM f = .ok bs →
    ∀ b ∈ bs, ∃ a ∈ l, f a = .ok b := by
  intro l
  induction l with
  | nil =>
    intro bs h b hb
    cases h
    cases hb
  | cons a l ih =>
    intro bs h b hb
    obtain ⟨b₀, bs₀, hb₀, hbs₀, rfl⟩ := mapM_cons_eq_ok_iff.mp h
    rcases List.mem_cons.mp hb with rfl | hb
    · exact ⟨a, List.mem_cons_self, hb₀⟩
    · obtain ⟨a', ha', hfa'⟩ := ih hbs₀ b hb
      exact ⟨a', List.mem_cons_of_mem a ha', hfa'⟩

theorem exists_mapM_of_forall {P : β → Prop} (h : ∀ a ∈ l, ∃ b, f a = .ok b ∧ P b) :
    ∃ bs, l.mapM f = .ok bs ∧ ∀ b ∈ bs, P b := by
  obtain ⟨bs, hbs⟩ := exists_mapM_eq_ok fun a ha => (h a ha).imp fun _ hb => hb.1
  refine ⟨bs, hbs, fun b hb => ?_⟩
  obtain ⟨a, ha, hfa⟩ := mem_of_mapM hbs b hb
  obtain ⟨b', hfa', hP⟩ := h a ha
  rwa [Except.ok.inj (hfa.symm.trans hfa')]

theorem mem_mapM_iff {bs : List β} (h : l.mapM f = .ok bs) : b ∈ bs ↔ ∃ a ∈ l, f a = .ok b := by
  refine ⟨mem_of_mapM h b, ?_⟩
  rintro ⟨a, ha, hfa⟩
  obtain ⟨b', hb', hfa'⟩ := ok_of_mapM h a ha
  rwa [Except.ok.inj (hfa.symm.trans hfa')]

theorem mem_of_filterMapM {f : α → Except ε (Option β)} : ∀ {l : List α} {bs : List β},
    l.filterMapM f = .ok bs → ∀ b ∈ bs, ∃ a ∈ l, f a = .ok (some b) := by
  intro l
  induction l with
  | nil =>
    intro bs h b hb
    cases h
    cases hb
  | cons a l ih =>
    intro bs h b hb
    rw [List.filterMapM_cons] at h
    obtain ⟨b₀, hb₀, h⟩ := bind_eq_ok_iff.mp h
    cases b₀ with
    | none =>
      obtain ⟨a', ha', hfa'⟩ := ih h b hb
      exact ⟨a', List.mem_cons_of_mem a ha', hfa'⟩
    | some b₀ =>
      obtain ⟨bs₀, hbs₀, h⟩ := bind_eq_ok_iff.mp h
      cases h
      rcases List.mem_cons.mp hb with rfl | hb
      · exact ⟨a, List.mem_cons_self, hb₀⟩
      · obtain ⟨a', ha', hfa'⟩ := ih hbs₀ b hb
        exact ⟨a', List.mem_cons_of_mem a ha', hfa'⟩

/-! ### Feeds -/

namespace Feed

theorem toExcept_ofExcept (x : Except Fault (Feed α)) : (ofExcept x).toExcept = x >>= toExcept := by
  cases x <;> rfl

theorem toExcept_append (a b : Feed α) :
    (a ++ b).toExcept = a.toExcept >>= fun xs => b.toExcept.map (xs ++ ·) := by
  change (append a b).toExcept = _
  cases ha : a.stop with
  | some f => simp [append, toExcept, ha]
  | none =>
    cases hb : b.stop with
    | some f => simp [append, toExcept, ha, hb, Except.map]
    | none => simp [append, toExcept, ha, hb]

/-- The feeds of all elements give what each of them gives. -/
theorem toExcept_flatMap (f : α → Feed β) : ∀ l : List α,
    (flatMap f l).toExcept = (l.mapM fun a => (f a).toExcept).map List.flatten := by
  intro l
  induction l with
  | nil => rfl
  | cons a l ih =>
    rw [flatMap, toExcept_append, ih, List.mapM_cons]
    cases (f a).toExcept with
    | error e => rfl
    | ok xs => cases l.mapM fun a => (f a).toExcept <;> rfl

theorem toExcept_filterMapE (f : α → Except Fault (Option β)) : ∀ l : List α,
    (filterMapE f l).toExcept = (l.mapM f).map List.reduceOption := by
  intro l
  induction l with
  | nil => rfl
  | cons a l ih =>
    rw [filterMapE, List.mapM_cons]
    cases f a with
    | error e => rfl
    | ok x =>
      cases x with
      | none =>
        dsimp only
        rw [ih]
        cases l.mapM f <;> rfl
      | some b =>
        dsimp only
        rw [toExcept_append, ih]
        cases l.mapM f <;> rfl

variable {a : Feed α}

/-- A supply that does not break off is worked through to its end. -/
theorem toExcept_bind {f : α → Feed β} {xs : List α} (h : a.toExcept = .ok xs) :
    (a.bind f).toExcept = (flatMap f xs).toExcept := by
  cases ha : a.stop with
  | some fault => simp [toExcept, ha] at h
  | none =>
    obtain rfl : a.items = xs := by simpa [toExcept, ha] using h
    rw [bind, toExcept_append, ha]
    cases (flatMap f a.items).toExcept with
    | error fault => rfl
    | ok ys => simp [toExcept]

theorem toExcept_bind_eq_ok {f : α → Feed β} {ys : List β} (h : (a.bind f).toExcept = .ok ys) :
    ∃ xs, a.toExcept = .ok xs ∧ (flatMap f xs).toExcept = .ok ys := by
  rw [bind, toExcept_append] at h
  obtain ⟨zs, hzs, h⟩ := bind_eq_ok_iff.mp h
  obtain ⟨nothing, hstop, rfl⟩ := map_eq_ok_iff.mp h
  cases ha : a.stop with
  | some f => simp [toExcept, ha] at hstop
  | none =>
    obtain rfl : nothing = [] := by simpa [toExcept, ha] using hstop.symm
    rw [List.append_nil]
    exact ⟨a.items, by simp [toExcept, ha], hzs⟩

/-- **What a feed has supplied when it breaks off**: what the test makes of the elements before the
first fault. -/
theorem mem_items_filterMapE {f : α → Except Fault (Option β)} : ∀ {l : List α},
    b ∈ (filterMapE f l).items ↔ ∃ before a after, l = before ++ a :: after ∧ f a = .ok (some b) ∧
      ∀ x ∈ before, ∃ y, f x = .ok y := by
  intro l
  induction l with
  | nil => simp [filterMapE, empty]
  | cons a l ih =>
    simp only [List.cons_eq_append_iff]
    cases hfa : f a with
    | error fault =>
      simp only [filterMapE, hfa]
      constructor
      · intro h
        cases h
      · rintro ⟨before, a', after, ⟨rfl, h⟩ | ⟨rest, rfl, -⟩, ha', hbefore⟩
        · cases h
          rw [hfa] at ha'
          cases ha'
        · obtain ⟨y, hy⟩ := hbefore a List.mem_cons_self
          rw [hfa] at hy
          cases hy
    | ok y =>
      have hmem : b ∈ (filterMapE f (a :: l)).items ↔ y = some b ∨ b ∈ (filterMapE f l).items := by
        cases y with
        | none => simp [filterMapE, hfa]
        | some c =>
          simp only [filterMapE, hfa, Option.some.injEq]
          rw [eq_comm]
          exact List.mem_cons
      rw [hmem, ih]
      constructor
      · rintro (rfl | ⟨before, a', after, rfl, ha', hbefore⟩)
        · exact ⟨[], a, l, .inl ⟨rfl, rfl⟩, hfa, by simp⟩
        · refine ⟨a :: before, a', after, .inr ⟨before, rfl, rfl⟩, ha', fun x hx => ?_⟩
          rcases List.mem_cons.mp hx with rfl | hx
          · exact ⟨y, hfa⟩
          · exact hbefore x hx
      · rintro ⟨before, a', after, ⟨rfl, h⟩ | ⟨rest, rfl, rfl⟩, ha', hbefore⟩
        · cases h
          rw [hfa] at ha'
          exact .inl (Except.ok.inj ha')
        · exact .inr ⟨rest, a', after, rfl, ha', fun x hx => hbefore x (List.mem_cons_of_mem _ hx)⟩

/-- What is collected from the items of a feed, one by one. -/
theorem mem_of_toExcept_bind {γ : Type} {p : α → Except Fault β} {g : α → β → List γ} {ys : List γ}
    (h : (a.bind fun x => Feed.ofExcept do return Feed.ofList (g x (← p x))).toExcept = .ok ys) :
    ∃ xs, a.toExcept = .ok xs ∧ ∀ y, y ∈ ys ↔ ∃ x ∈ xs, ∃ v, p x = .ok v ∧ y ∈ g x v := by
  obtain ⟨xs, hxs, h⟩ := toExcept_bind_eq_ok h
  rw [toExcept_flatMap, map_eq_ok_iff] at h
  obtain ⟨yss, hyss, rfl⟩ := h
  have hone : ∀ x, (Feed.ofExcept do return Feed.ofList (g x (← p x))).toExcept = (p x).map
      (g x) := by
    intro x
    rw [toExcept_ofExcept]
    cases p x <;> rfl
  simp only [hone] at hyss
  refine ⟨xs, hxs, fun y => ?_⟩
  rw [List.mem_flatten]
  constructor
  · rintro ⟨l, hl, hy⟩
    obtain ⟨x, hx, heq⟩ := mem_of_mapM hyss l hl
    obtain ⟨v, hv, rfl⟩ := map_eq_ok_iff.mp heq
    exact ⟨x, hx, v, hv, hy⟩
  · rintro ⟨x, hx, v, hv, hy⟩
    obtain ⟨l, hl, heq⟩ := ok_of_mapM hyss x hx
    rw [hv, ok_map] at heq
    exact ⟨l, hl, Except.ok.inj heq ▸ hy⟩

end Feed

/-! ### Edits -/

namespace Edit

/-- An edit on a given tree. -/
def run {α : Type} (e : Edit α) (t : Tree) : Edited α := e t

@[simp] theorem run_pure (a : α) (t : Tree) : (Pure.pure a : Edit α).run t = ⟨[], t, .ok a⟩ := rfl

@[simp] theorem run_say (line : String) (t : Tree) : (say line).run t = ⟨[line], t, .ok ()⟩ := rfl

@[simp] theorem run_ofExcept (x : Except Fault α) (t : Tree) : (ofExcept x).run t = ⟨[], t, x⟩ :=
  rfl

@[simp] theorem run_ask (f : Tree → Except Fault α) (t : Tree) : (ask f).run t = ⟨[], t, f t⟩ := rfl

variable {t : Tree}

theorem run_change_ok {f : Tree → Except Fault Tree} {t' : Tree} (h : f t = .ok t') :
    (change f).run t = ⟨[], t', .ok ()⟩ := by
  simp only [run, Edit.change, h]

theorem eq_ok_of_change {f : Tree → Except Fault Tree} (h : ((change f).run t).outcome = .ok ()) :
    f t = .ok ((change f).run t).tree := by
  cases hf : f t with
  | ok t' => rw [run_change_ok hf]
  | error fault =>
    rw [run, change, hf] at h
    cases h

theorem forEach_cons (work : α → Edit Unit) (x : α) (rest : List α) :
    forEach work (x :: rest) = work x >>= fun _ => forEach work rest := rfl

theorem run_foldl_cons {σ : Type} (step : σ → α → Edit σ) (s : σ) (x : α) (rest : List α) :
    foldl step s (x :: rest) = step s x >>= fun s' => foldl step s' rest := rfl

theorem ofExcept_ok_bind (a : α) (f : α → Edit β) : (ofExcept (.ok a) >>= f) = f a := rfl

theorem run_bind_ok {e : Edit α} {f : α → Edit β} {a : α} (h : (e.run t).outcome = .ok a) :
    (e >>= f).run t = ⟨(e.run t).lines ++ ((f a).run (e.run t).tree).lines,
      ((f a).run (e.run t).tree).tree, ((f a).run (e.run t).tree).outcome⟩ := by
  change Edit.bind e f t = _
  rw [run] at h
  simp only [Edit.bind, h]
  rfl

theorem run_bind_error {e : Edit α} {f : α → Edit β} {fault : Fault}
    (h : (e.run t).outcome = .error fault) :
    (e >>= f).run t = ⟨(e.run t).lines, (e.run t).tree, .error fault⟩ := by
  change Edit.bind e f t = _
  rw [run] at h
  simp only [Edit.bind, h]
  rfl

theorem run_forEach_say : ∀ (lines : List String) (t : Tree),
    (forEach say lines).run t = ⟨lines, t, .ok ()⟩ := by
  intro lines
  induction lines with
  | nil => intro t; rfl
  | cons line lines ih =>
    intro t
    rw [forEach_cons, run_bind_ok (a := ()) rfl, run_say, ih]
    rfl

theorem outcome_bind (e : Edit α) (f : α → Edit β) (t : Tree) :
    ((e >>= f).run t).outcome = (e.run t).outcome >>= fun a =>
      ((f a).run (e.run t).tree).outcome := by
  cases h : (e.run t).outcome with
  | ok a => rw [run_bind_ok h, ok_bind]
  | error fault => rw [run_bind_error h, error_bind]

theorem tree_bind (e : Edit α) (f : α → Edit β) (t : Tree) :
    ((e >>= f).run t).tree =
      match (e.run t).outcome with
      | .ok a => ((f a).run (e.run t).tree).tree
      | .error _ => (e.run t).tree := by
  cases h : (e.run t).outcome with
  | ok a => rw [run_bind_ok h]
  | error fault => rw [run_bind_error h]

/-- The work on a list goes on where that on its first part ended, unless there was a fault. -/
theorem tree_foldl_append {σ : Type} (step : σ → α → Edit σ) (ys : List α) :
    ∀ (xs : List α) (s : σ) (t : Tree), ((foldl step s (xs ++ ys)).run t).tree =
      match ((foldl step s xs).run t).outcome with
      | .ok s' => ((foldl step s' ys).run ((foldl step s xs).run t).tree).tree
      | .error _ => ((foldl step s xs).run t).tree := by
  intro xs
  induction xs with
  | nil => intro s t; rfl
  | cons x xs ih =>
    intro s t
    rw [List.cons_append, run_foldl_cons, run_foldl_cons, tree_bind, tree_bind, outcome_bind]
    cases ((step s x).run t).outcome with
    | error f => rfl
    | ok s' => exact ih s' _

theorem forEach_map (work : β → Edit Unit) (g : α → β) (l : List α) :
    forEach work (l.map g) = forEach (fun a => work (g a)) l := by
  induction l with
  | nil => rfl
  | cons a l ih => rw [List.map_cons, forEach_cons, forEach_cons, ih]

/-- One list of works after the other. -/
theorem outcome_forEach_append (work : α → Edit Unit) (b : List α) : ∀ (a : List α) (t : Tree),
    ((forEach work (a ++ b)).run t).outcome =
      ((forEach work a).run t).outcome >>= fun _ =>
        ((forEach work b).run ((forEach work a).run t).tree).outcome := by
  intro a
  induction a with
  | nil => intro t; rfl
  | cons x a ih =>
    intro t
    rw [List.cons_append, forEach_cons, forEach_cons, outcome_bind, outcome_bind, tree_bind]
    cases hx : ((work x).run t).outcome with
    | error fault => rfl
    | ok u => simp only [ok_bind, ih]

theorem tree_forEach_append (work : α → Edit Unit) (b : List α) : ∀ {a : List α} {t : Tree},
    ((forEach work a).run t).outcome = .ok () →
      ((forEach work (a ++ b)).run t).tree = ((forEach work b).run
        ((forEach work a).run t).tree).tree := by
  intro a
  induction a with
  | nil => intro t _; rfl
  | cons x a ih =>
    intro t h
    rw [forEach_cons, outcome_bind] at h
    obtain ⟨_, hx, ha⟩ := bind_eq_ok_iff.mp h
    rw [List.cons_append, forEach_cons, forEach_cons, run_bind_ok hx, run_bind_ok hx]
    exact ih ha

theorem run_forEach_singleton (work : α → Edit Unit) (x : α) (t : Tree) :
    ((forEach work [x]).run t).outcome = ((work x).run t).outcome ∧
      ((forEach work [x]).run t).tree = ((work x).run t).tree := by
  rw [forEach_cons, outcome_bind, tree_bind]
  cases ((work x).run t).outcome <;> exact ⟨rfl, rfl⟩

theorem run_forEach_concat {work : α → Edit Unit} {xs : List α} {x : α}
    (h : ((forEach work (xs ++ [x])).run t).outcome = .ok ()) :
    ((forEach work xs).run t).outcome = .ok () ∧
      ((work x).run ((forEach work xs).run t).tree).outcome = .ok () ∧
      ((forEach work (xs ++ [x])).run t).tree = ((work x).run
        ((forEach work xs).run t).tree).tree := by
  rw [outcome_forEach_append] at h
  obtain ⟨_, hxs, hx⟩ := bind_eq_ok_iff.mp h
  obtain ⟨houtcome, htree⟩ := run_forEach_singleton work x ((forEach work xs).run t).tree
  exact ⟨hxs, houtcome.symm.trans hx, (tree_forEach_append work [x] hxs).trans htree⟩

end Edit

end ProjectLint
