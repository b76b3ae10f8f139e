import Mathlib.Data.List.Nodup
import ProjectLint.Proofs.Files
import ProjectLint.Proofs.TableChain
import ProjectLint.Proofs.TableWords

/-!
# Which occurrences of a table are replaced

A script is rewritten table by table, and of each table two occurrences are replaced: the first two
that a search from left to right finds.  A word that is found uses up the edges on both sides, so
that the word behind it is not looked at (`found`).  Words of different tables do not get into each
other's way: `getElem?_put` says what one substitution does to each word, and `getElem?_putAll_iff`
what all of them do, by induction on the substitutions.

So a table that occurs three times, or twice with a single blank between, is left standing
somewhere, and `replaceIn_replaces_all_iff` says that this is the only way in which an occurrence
can be missed.
-/

namespace ProjectLint.TableNames

/-! ### One substitution -/

theorem wordsBefore_put (s : Substitution) (n : Nat) (ps : List (Char × Cell)) :
    wordsBefore (put s n ps) = wordsBefore ps := by
  fun_induction put s n ps with
  | case1 ps => rfl
  | case2 n => rfl
  | case3 n a b x rest ih =>
    change (a, s.table.toList) :: (b, x.before) :: wordsBefore (put s n rest) = _
    rw [ih]
    rfl
  | case4 n a w b x rest _ ih =>
    change (a, w) :: wordsBefore (put s (n + 1) ((b, x) :: rest)) = _
    rw [ih]
    rfl
  | case5 n p rest _ ih =>
    change (p.1, p.2.before) :: wordsBefore (put s (n + 1) rest) = _
    rw [ih]
    rfl

variable {s : Substitution} {ps : List (Char × Cell)} {table : String} {tables : List String}
    {p : Char × Cell} {es : List (Char × List Char)} {a : Char}

theorem mem_put {n : Nat} (h : p ∈ put s n ps) : p ∈ ps ∨ p.2 = .call s ∧
    (p.1, .word s.table.toList) ∈ ps := by
  fun_induction put s n ps with
  | case1 ps => exact .inl h
  | case2 n => exact .inl h
  | case3 n a b x rest ih =>
    rcases List.mem_cons.mp h with rfl | h
    · exact .inr ⟨rfl, List.mem_cons_self⟩
    rcases List.mem_cons.mp h with rfl | h
    · exact .inl (by simp)
    rcases ih h with h | ⟨h, hw⟩
    · exact .inl (by simp [h])
    · exact .inr ⟨h, by simp [hw]⟩
  | case4 n a w b x rest _ ih =>
    rcases List.mem_cons.mp h with rfl | h
    · exact .inl List.mem_cons_self
    rcases ih h with h | ⟨h, hw⟩
    · exact .inl (List.mem_cons_of_mem _ h)
    · exact .inr ⟨h, List.mem_cons_of_mem _ hw⟩
  | case5 n q rest _ ih =>
    rcases List.mem_cons.mp h with rfl | h
    · exact .inl List.mem_cons_self
    rcases ih h with h | ⟨h, hw⟩
    · exact .inl (List.mem_cons_of_mem _ h)
    · exact .inr ⟨h, List.mem_cons_of_mem _ hw⟩

theorem Laid.put {s : Substitution} (hs : Callable s) (n : Nat) {ps : List (Char × Cell)}
    (hl : Laid ps) :
    Laid (put s n ps) where
  edge := fun p hp => by
    rcases mem_put hp with h | ⟨-, h⟩
    · exact hl.edge p h
    · exact hl.edge (p.1, .word s.table.toList) h
  word := fun p hp => by
    rcases mem_put hp with h | ⟨h, hw⟩
    · exact hl.word p h
    · rw [h]
      exact hl.word _ hw
  call := fun p hp s' hs' => by
    rcases mem_put hp with h | ⟨h, -⟩
    · exact hl.call p h s' hs'
    · rw [h] at hs'
      cases hs'
      exact hs

theorem substitute_eq_swap (hs : Callable s) (script : String) :
    substitute script s = .ok (String.ofList
      (swap s.table.toList s.call.toList 2 script.toList)) := by
  obtain ⟨more, hmore, hno⟩ := hs.begins
  exact replace_eq_swap 2 script (isNameChar_or_dot hs.named) hmore hno

theorem substitute_eq {w : List Char} (hw : ∀ c ∈ w, isEdge c = false) (hs : Callable s)
    (hl : Laid ps) (hexact : Exact s.table.toList (join (wordsBefore ps))) :
    substitute (String.ofList (w ++ after ps)) s =
      .ok (String.ofList (w ++ after (put s 2 ps))) := by
  rw [substitute_eq_swap hs, String.toList_ofList, (silent_of_not_isEdge hw).swap_append,
    swap_eq_put hs 2 ps hl hexact]

/-! ### The words that are found -/

/-- The places of the words that a search finds, counted from `k` on: the word is the name and has
an edge behind it, and the word before it was not found. -/
def found (name : List Char) : Nat → List (Char × List Char) → List Nat
  | k, (_, w) :: e :: rest =>
    if w = name then k :: found name (k + 2) rest else found name (k + 1) (e :: rest)
  | _, _ => []

variable {manifest : Value} {name script : List Char} {s' : Substitution} {t : String}

theorem exists_of_mem_found {j k : Nat} (h : j ∈ found name k es) :
    ∃ i a, j = k + i ∧ es[i]? = some (a, name) := by
  fun_induction found name k es with
  | case1 k a e rest ih =>
    rcases List.mem_cons.mp h with rfl | h
    · exact ⟨0, a, rfl, rfl⟩
    · obtain ⟨i, b, rfl, hi⟩ := ih h
      exact ⟨i + 2, b, by omega, hi⟩
  | case2 k a w e rest _ ih =>
    obtain ⟨i, b, rfl, hi⟩ := ih h
    exact ⟨i + 1, b, by omega, hi⟩
  | case3 => cases h

theorem le_of_mem_take_found {j k n : Nat} (h : j ∈ (found name k es).take n) : k ≤ j := by
  obtain ⟨i, -, rfl, -⟩ := exists_of_mem_found (List.mem_of_mem_take h)
  omega

def Unnamed (table : String) (ps : List (Char × Cell)) : Prop :=
  ∀ p ∈ ps, ∀ s, p.2 = .call s → s.table ≠ table

theorem Unnamed.tail (h : Unnamed table (p :: ps)) : Unnamed table ps :=
  fun q hq => h q (List.mem_cons_of_mem _ hq)

theorem Unnamed.put {s : Substitution} {table : String} (hne : s.table ≠ table) (n : Nat)
    {ps : List (Char × Cell)} (h : Unnamed table ps) : Unnamed table (put s n ps) := by
  intro p hp s' hs'
  rcases mem_put hp with hmem | ⟨hcall, -⟩
  · exact h p hmem s' hs'
  · rw [hcall] at hs'
    cases hs'
    exact hne

theorem getElem?_cons_of_found {qs : List (Char × Cell)} {f : Char × Cell → Char × Cell} {k n : Nat}
    (h : ∀ j, qs[j]? = if k + 1 + j ∈ (found name (k + 1) es).take n then ps[j]?.map f else ps[j]?)
    (j : Nat) :
    (p :: qs)[j]? = if k + j ∈ (found name (k + 1) es).take n then (p :: ps)[j]?.map f
      else (p :: ps)[j]? := by
  cases j with
  | zero =>
    rw [if_neg fun hmem => absurd (le_of_mem_take_found hmem) (by omega)]
    rfl
  | succ j =>
    rw [List.getElem?_cons_succ, List.getElem?_cons_succ, h j,
      show k + 1 + j = k + (j + 1) by omega]

/-- **What a substitution does to each word**: the first `n` that are found become calls, all others
stay. -/
theorem getElem?_put (s : Substitution) (n : Nat) (ps : List (Char × Cell)) (k j : Nat)
    (h : Unnamed s.table ps) :
    (put s n ps)[j]? =
      if k + j ∈ (found s.table.toList k (wordsBefore ps)).take n then
        ps[j]?.map fun p => (p.1, .call s)
      else ps[j]? := by
  fun_induction put s n ps generalizing k j with
  | case1 ps => simp
  | case2 n => simp
  | case3 n a b x rest ih =>
    have hfound : found s.table.toList k
        (wordsBefore ((a, .word s.table.toList) :: (b, x) :: rest)) =
        k :: found s.table.toList (k + 2) (wordsBefore rest) := by
      simp [wordsBefore, found, Cell.before]
    have hfar : ∀ i, i < k + 2 → i ∉ (found s.table.toList (k + 2) (wordsBefore rest)).take n := by
      intro i hi hmem
      have := le_of_mem_take_found hmem
      omega
    rw [hfound, List.take_succ_cons]
    rcases j with _ | _ | j
    · simp
    · simp [hfar]
    · have hindex : k + (j + 1 + 1) = k + 2 + j := by omega
      have hne : ¬ k + 2 + j = k := by omega
      rw [List.getElem?_cons_succ, List.getElem?_cons_succ, List.getElem?_cons_succ,
        List.getElem?_cons_succ, ih (k + 2) j h.tail.tail, hindex]
      simp [hne]
  | case4 n a w b x rest hne ih =>
    have hfound : found s.table.toList k (wordsBefore ((a, .word w) :: (b, x) :: rest)) =
        found s.table.toList (k + 1) (wordsBefore ((b, x) :: rest)) := by
      simp [wordsBefore, found, Cell.before, hne]
    rw [hfound]
    exact getElem?_cons_of_found (fun j => ih (k + 1) j h.tail) j
  | case5 n p rest hlast ih =>
    have hfound : found s.table.toList k (wordsBefore (p :: rest)) =
        found s.table.toList (k + 1) (wordsBefore rest) := by
      cases rest with
      | nil => rfl
      | cons q rest =>
        obtain ⟨a, x⟩ := p
        cases x with
        | word w => exact absurd rfl (hlast a w q.1 q.2 rest rfl)
        | call s' =>
          have hne : ¬ s'.table.toList = s.table.toList :=
            fun he => h _ List.mem_cons_self s' rfl (String.toList_inj.mp he)
          change found s.table.toList k ((a, s'.table.toList) :: wordsBefore (q :: rest)) = _
          rw [wordsBefore, List.map_cons, found, if_neg hne]
    rw [hfound]
    exact getElem?_cons_of_found (fun j => ih (k + 1) j h.tail) j

theorem getElem?_put_eq_call_iff {n j : Nat} (h : Unnamed s.table ps) :
    (∃ a, (put s n ps)[j]? = some (a, .call s)) ↔
      j ∈ (found s.table.toList 0 (wordsBefore ps)).take n := by
  rw [getElem?_put s n ps 0 j h, Nat.zero_add]
  by_cases hmem : j ∈ (found s.table.toList 0 (wordsBefore ps)).take n
  · obtain ⟨i, a, rfl, hi⟩ := exists_of_mem_found (List.mem_of_mem_take hmem)
    rw [Nat.zero_add] at hmem ⊢
    rw [if_pos hmem]
    rw [wordsBefore, List.getElem?_map] at hi
    cases hp : ps[i]? with
    | none => rw [hp] at hi; cases hi
    | some p => exact ⟨fun _ => hmem, fun _ => ⟨p.1, rfl⟩⟩
  · rw [if_neg hmem]
    constructor
    · rintro ⟨a, ha⟩
      exact absurd rfl (h _ (List.mem_of_getElem? ha) s rfl)
    · exact fun hin => absurd hin hmem

theorem getElem?_put_eq_other_iff (hne : s.table ≠ s'.table) {n j : Nat} (h : Unnamed s.table ps) :
    (put s n ps)[j]? = some (a, .call s') ↔ ps[j]? = some (a, .call s') := by
  rw [getElem?_put s n ps 0 j h, Nat.zero_add]
  by_cases hmem : j ∈ (found s.table.toList 0 (wordsBefore ps)).take n
  · obtain ⟨i, b, rfl, hi⟩ := exists_of_mem_found (List.mem_of_mem_take hmem)
    rw [Nat.zero_add] at hmem ⊢
    rw [if_pos hmem]
    rw [wordsBefore, List.getElem?_map] at hi
    constructor
    · intro hmap
      obtain ⟨p, -, hp⟩ := Option.map_eq_some_iff.mp hmap
      cases hp
      exact absurd rfl hne
    · intro hcall
      rw [hcall] at hi
      simp only [Option.map_some, Option.some.injEq, Prod.mk.injEq, Cell.before] at hi
      exact absurd (String.toList_inj.mp hi.2).symm hne
  · rw [if_neg hmem]

/-! ### All substitutions -/

def putAll (subs : List Substitution) (ps : List (Char × Cell)) : List (Char × Cell) :=
  subs.foldl (fun ps s => put s 2 ps) ps

theorem wordsBefore_putAll : ∀ (subs : List Substitution) (ps : List (Char × Cell)),
    wordsBefore (putAll subs ps) = wordsBefore ps := by
  intro subs
  induction subs with
  | nil => intro ps; rfl
  | cons s subs ih => intro ps; exact (ih _).trans (wordsBefore_put s 2 ps)

/-- **The script after all substitutions is the text of the cells.** -/
theorem foldlM_substitute {w : List Char} (hw : ∀ c ∈ w, isEdge c = false) :
    ∀ {subs : List Substitution} {ps : List (Char × Cell)}, Laid ps →
      (∀ s ∈ subs, Callable s ∧ Exact s.table.toList (join (wordsBefore ps))) →
      subs.foldlM substitute (String.ofList (w ++ after ps)) =
        .ok (String.ofList (w ++ after (putAll subs ps))) := by
  intro subs
  induction subs with
  | nil => intro ps _ _; rfl
  | cons s subs ih =>
    intro ps hl hsubs
    obtain ⟨hs, hexact⟩ := hsubs s List.mem_cons_self
    rw [List.foldlM_cons, substitute_eq hw hs hl hexact, ok_bind]
    refine ih (hl.put hs 2) fun s' hs' => ?_
    rw [wordsBefore_put]
    exact hsubs s' (List.mem_cons_of_mem _ hs')

theorem mem_putAll : ∀ {subs : List Substitution} {ps : List (Char × Cell)}, p ∈ putAll subs ps →
    p ∈ ps ∨ ∃ s ∈ subs, p.2 = .call s := by
  intro subs
  induction subs with
  | nil => intro ps h; exact .inl h
  | cons s subs ih =>
    intro ps h
    rcases ih h with h | ⟨s', hs', h⟩
    · rcases mem_put h with h | ⟨h, -⟩
      · exact .inl h
      · exact .inr ⟨s, List.mem_cons_self, h⟩
    · exact .inr ⟨s', List.mem_cons_of_mem _ hs', h⟩

theorem unnamed_put {subs : List Substitution} (hs : s.table ∉ subs.map (·.table))
    (h : ∀ s' ∈ subs, Unnamed s'.table ps) : ∀ s' ∈ subs, Unnamed s'.table (put s 2 ps) := by
  intro s' hs'
  refine Unnamed.put (fun he => hs ?_) 2 (h s' hs')
  rw [he]
  exact List.mem_map_of_mem hs'

theorem getElem?_putAll_eq_other_iff {j : Nat} : ∀ {subs : List Substitution},
    (subs.map (·.table)).Nodup → s'.table ∉ subs.map (·.table) → ∀ {ps : List (Char × Cell)},
      (∀ s ∈ subs, Unnamed s.table ps) → ((putAll subs ps)[j]? = some (a, .call s') ↔
        ps[j]? = some (a, .call s')) := by
  intro subs
  induction subs with
  | nil => intro _ _ ps _; exact Iff.rfl
  | cons s subs ih =>
    intro hnodup hs' ps hun
    rw [List.map_cons, List.nodup_cons] at hnodup
    rw [List.map_cons, List.mem_cons, not_or] at hs'
    have hlater := unnamed_put hnodup.1 fun s₁ hs₁ => hun s₁ (List.mem_cons_of_mem _ hs₁)
    exact (ih hnodup.2 hs'.2 hlater).trans (getElem?_put_eq_other_iff (Ne.symm hs'.1)
      (hun s List.mem_cons_self))

/-- **Which words are calls in the end**: those that are among the first two that are found of their
table. -/
theorem getElem?_putAll_iff {j : Nat} : ∀ {subs : List Substitution},
    (subs.map (·.table)).Nodup → ∀ {ps : List (Char × Cell)}, (∀ s ∈ subs, Unnamed s.table ps) →
      s ∈ subs → ((∃ a, (putAll subs ps)[j]? = some (a, .call s)) ↔
        j ∈ (found s.table.toList 0 (wordsBefore ps)).take 2) := by
  intro subs
  induction subs with
  | nil => intro _ ps _ hs; cases hs
  | cons s₁ subs ih =>
    intro hnodup ps hun hs
    rw [List.map_cons, List.nodup_cons] at hnodup
    have hlater := unnamed_put hnodup.1 fun s₂ hs₂ => hun s₂ (List.mem_cons_of_mem _ hs₂)
    rcases List.mem_cons.mp hs with rfl | hs
    · rw [← getElem?_put_eq_call_iff (hun s List.mem_cons_self)]
      exact exists_congr fun a => getElem?_putAll_eq_other_iff hnodup.2 hnodup.1 hlater
    · rw [← wordsBefore_put s₁ 2 ps]
      exact ih hnodup.2 hlater hs

/-! ### Texts tell which words are calls -/

theorem call_append_ne_table_append (hs : Callable s) (hs' : Callable s') (u v : List Char) :
    s.call.toList ++ u ≠ s'.table.toList ++ v := by
  obtain ⟨more, hmore, -⟩ := hs.begins
  have hn := hs'.named
  cases htable : s'.table.toList with
  | nil => rw [htable] at hn; cases hn
  | cons c name =>
    rw [htable] at hn
    rw [hmore]
    intro h
    have hc := isNameChar_head hn
    rw [← (List.cons.inj h).1] at hc
    exact absurd hc (by decide)

/-- **The rewritten text tells which words are calls.** -/
theorem eq_of_after_eq {subs : List Substitution} (hnodup : (subs.map (·.table)).Nodup)
    (hcall : ∀ s ∈ subs, Callable s) : ∀ {ps qs : List (Char × Cell)},
      (∀ p ∈ ps, ∀ s, p.2 = .call s → s ∈ subs) → (∀ q ∈ qs, ∀ s, q.2 = .call s → s ∈ subs) →
        wordsBefore ps = wordsBefore qs → after ps = after qs → ps = qs := by
  intro ps
  induction ps with
  | nil =>
    intro qs _ _ hwords _
    cases qs with
    | nil => rfl
    | cons q qs => cases hwords
  | cons p ps ih =>
    intro qs hps hqs hwords hafter
    cases qs with
    | nil => cases hwords
    | cons q qs =>
      obtain ⟨a, x⟩ := p
      obtain ⟨b, y⟩ := q
      obtain ⟨hhead, hwords⟩ := List.cons.inj hwords
      obtain ⟨hab, hxy⟩ := Prod.mk.inj hhead
      have htext : x.after ++ after ps = y.after ++ after qs := (List.cons.inj hafter).2
      have hrest : after ps = after qs → ps = qs :=
        ih (fun p hp => hps p (List.mem_cons_of_mem _ hp))
          (fun q hq => hqs q (List.mem_cons_of_mem _ hq)) hwords
      have hx := hps _ List.mem_cons_self
      have hy := hqs _ List.mem_cons_self
      change a = b at hab
      subst hab
      cases x with
      | word w =>
        cases y with
        | word w' =>
          obtain rfl : w = w' := hxy
          rw [hrest (List.append_cancel_left htext)]
        | call s' =>
          obtain rfl : w = s'.table.toList := hxy
          have hs' := hcall s' (hy s' rfl)
          exact absurd htext.symm (call_append_ne_table_append hs' hs' _ _)
      | call s =>
        have hs := hcall s (hx s rfl)
        cases y with
        | word w' =>
          obtain rfl : s.table.toList = w' := hxy
          exact absurd htext (call_append_ne_table_append hs hs _ _)
        | call s' =>
          obtain rfl : s = s' := List.inj_on_of_nodup_map hnodup (hx s rfl) (hy s' rfl)
            (String.toList_inj.mp hxy)
          rw [hrest (List.append_cancel_left htext)]

/-! ### Places in the script -/

/-- The name stands in the script behind `u`, between blanks. -/
def StandsBehind (u name script : List Char) : Prop :=
  ∃ a b v, script = u ++ a :: (name ++ b :: v) ∧ Text.isBlank a = true ∧ Text.isBlank b = true

/-- **The text is the script with calls in place of words, and wherever a table stands between
blanks its call has taken its place.** -/
def AllReplaced (subs : List Substitution) (script text : List Char) : Prop :=
  ∃ ps : List (Char × Cell), wordsBefore ps = (cut script).2 ∧ text = (cut script).1 ++ after ps ∧
    (∀ p ∈ ps, ∀ s, p.2 = .call s → s ∈ subs) ∧
    ∀ s ∈ subs, ∀ u, StandsBehind u s.table.toList script →
      ∃ ps₁ a ps₂, ps = ps₁ ++ (a, .call s) :: ps₂ ∧ (cut script).1 ++ join (wordsBefore ps₁) = u

/-- The word behind `u` is one of the first two that a search for the name finds in the script. -/
def AmongFirstTwo (u name script : List Char) : Prop :=
  u.countP isEdge ∈ (found name 0 (cut script).2).take 2

theorem cut_append_edge (ha : isEdge a = true) (rest : List Char) : ∀ u : List Char,
    cut (u ++ a :: rest) = ((cut u).1, (cut u).2 ++ (a, (cut rest).1) :: (cut rest).2) := by
  intro u
  induction u with
  | nil =>
    change cut (a :: rest) = ([], (a, (cut rest).1) :: (cut rest).2)
    rw [cut, if_pos ha]
  | cons c u ih =>
    rw [List.cons_append, cut, cut, ih]
    split <;> rfl

theorem length_cut (u : List Char) : (cut u).2.length = u.countP isEdge := by
  induction u with
  | nil => rfl
  | cons c u ih =>
    rw [cut, List.countP_cons]
    split
    · rw [List.length_cons, ih]
    · rw [ih, Nat.add_zero]

theorem countP_join (h : ∀ e ∈ es, isEdge e.1 = true ∧ ∀ c ∈ e.2, isEdge c = false) :
    (join es).countP isEdge = es.length := by
  induction es with
  | nil => rfl
  | cons e es ih =>
    obtain ⟨he, hw⟩ := h e List.mem_cons_self
    have hzero : e.2.countP isEdge = 0 := List.countP_eq_zero.mpr fun c hc => by simp [hw c hc]
    change (e.1 :: (e.2 ++ join es)).countP isEdge = _
    rw [List.countP_cons, List.countP_append, hzero, ih fun e he => h e (List.mem_cons_of_mem _ he),
      if_pos he, List.length_cons, Nat.zero_add]

/-- The cell behind `u` is the one with as many cells before it as `u` has edges. -/
theorem exists_split_iff_getElem? {u : List Char} (hu : StandsBehind u name script)
    (hps : wordsBefore ps = (cut script).2) {x : Cell} :
    (∃ ps₁ a ps₂, ps = ps₁ ++ (a, x) :: ps₂ ∧ (cut script).1 ++ join (wordsBefore ps₁) = u) ↔
      ∃ a, ps[u.countP isEdge]? = some (a, x) := by
  obtain ⟨a, b, v, hscript, ha, -⟩ := hu
  have hedge : isEdge a = true := by rw [isEdge, ha, Bool.or_true]
  have hcut : cut script = _ := hscript ▸ cut_append_edge hedge (name ++ b :: v) u
  constructor
  · rintro ⟨ps₁, c, ps₂, rfl, hu⟩
    have hcount : u.countP isEdge = ps₁.length := by
      have hmem : ∀ e ∈ wordsBefore ps₁, isEdge e.1 = true ∧ ∀ c ∈ e.2, isEdge c = false := by
        intro e he
        refine isEdge_of_mem_cut script e ?_
        rw [← hps, wordsBefore, List.map_append]
        exact List.mem_append_left _ he
      have hzero : (cut script).1.countP isEdge = 0 :=
        List.countP_eq_zero.mpr fun c hc => by simp [not_isEdge_cut script c hc]
      rw [← hu, List.countP_append, hzero, countP_join hmem, Nat.zero_add, wordsBefore,
        List.length_map]
    exact ⟨c, by rw [hcount]; simp⟩
  · rintro ⟨c, hc⟩
    obtain ⟨hlt, hget⟩ := List.getElem?_eq_some_iff.mp hc
    refine ⟨ps.take (u.countP isEdge), c, ps.drop (u.countP isEdge + 1), ?_, ?_⟩
    · rw [← hget, ← List.drop_eq_getElem_cons hlt, List.take_append_drop]
    · have htake : wordsBefore (ps.take (u.countP isEdge)) = (cut u).2 := by
        rw [wordsBefore, List.map_take, ← wordsBefore, hps, hcut, ← length_cut u]
        exact List.take_left
      rw [htake, hcut, join_cut]

/-! ### The calls of a chain -/

theorem mem_of_mem_splitList {d c : Char} : ∀ {cs part : List Char}, part ∈ Text.splitList d cs →
    c ∈ part →
    c ∈ cs := by
  intro cs
  induction cs with
  | nil =>
    intro part hpart hc
    rw [Text.splitList, List.mem_singleton] at hpart
    rw [hpart] at hc
    cases hc
  | cons e cs ih =>
    intro part hpart hc
    rw [Text.splitList] at hpart
    split at hpart
    · rcases List.mem_cons.mp hpart with rfl | hpart
      · cases hc
      · exact List.mem_cons_of_mem _ (ih hpart hc)
    · split at hpart
      · rw [List.mem_singleton.mp hpart, List.mem_singleton] at hc
        rw [hc]
        exact List.mem_cons_self
      · rename_i piece pieces hsplit
        rcases List.mem_cons.mp hpart with rfl | hpart
        · rcases List.mem_cons.mp hc with rfl | hc
          · exact List.mem_cons_self
          · exact List.mem_cons_of_mem _ (ih (by rw [hsplit]; exact List.mem_cons_self) hc)
        · exact List.mem_cons_of_mem _ (ih (by rw [hsplit]; exact List.mem_cons_of_mem _ hpart) hc)

theorem not_isEdge_of_mem_idParts {part : String} (h : isNamed table.toList = true)
    (hpart : part ∈ idParts table) :
    ∀ c ∈ part.toList, isEdge c = false := by
  obtain ⟨cs, hcs, rfl⟩ := List.mem_map.mp hpart
  intro c hc
  rw [String.toList_ofList] at hc
  exact not_isEdge_of_mem h c (mem_of_mem_splitList hcs hc)

theorem not_isEdge_lastName (h : isNamed table.toList = true) : ∀ c ∈ (lastName table).toList,
    isEdge c = false := by
  rw [lastName, lastPart]
  cases hlast : (idParts table).getLast? with
  | none => simp
  | some part => exact not_isEdge_of_mem_idParts h (List.mem_of_getLast? hlast)

theorem callable_refCall {name : String} (h : isNamed table.toList = true)
    (hname : ∀ c ∈ name.toList, isEdge c = false) :
    Callable ⟨table, refCall name⟩ where
  named := h
  begins := by
    refine ⟨_, toList_refCall name, ?_⟩
    have hno : '\\' ∉ name.toList := fun hc => absurd (hname _ hc) (by decide)
    simp [hno]
  silent := fun _ hn => silent_refCall hn hname
  returnless := by
    have hno : '\r' ∉ name.toList := fun hc => absurd (hname _ hc) (by decide)
    simp [toList_refCall, hno]

theorem callable_sourceCallText {source name : String} (h : isNamed table.toList = true)
    (hsource : ∀ c ∈ source.toList, isEdge c = false)
    (hname : ∀ c ∈ name.toList, isEdge c = false) :
    Callable ⟨table, sourceCallText source name⟩ where
  named := h
  begins := by
    refine ⟨_, toList_sourceCallText source name, ?_⟩
    have hno : ∀ x : String, (∀ c ∈ x.toList, isEdge c = false) → '\\' ∉ x.toList :=
      fun x hx hc => absurd (hx _ hc) (by decide)
    simp [hno source hsource, hno name hname]
  silent := fun _ hn => silent_sourceCallText hn hsource hname
  returnless := by
    have hno : ∀ x : String, (∀ c ∈ x.toList, isEdge c = false) → '\r' ∉ x.toList :=
      fun x hx hc => absurd (hx _ hc) (by decide)
    simp [toList_sourceCallText, hno source hsource, hno name hname]

/-- The calls that are put in place of tables: of a model or of a source, whose names have no
edges. -/
inductive IsCall : String → Prop
  | ref {name : String} (hname : ∀ c ∈ name.toList, isEdge c = false) : IsCall (refCall name)
  | source {source name : String} (hsource : ∀ c ∈ source.toList, isEdge c = false)
      (hname : ∀ c ∈ name.toList, isEdge c = false) : IsCall (sourceCallText source name)

theorem IsCall.callable {call : String} (hcall : IsCall call) (h : isNamed table.toList = true) :
    Callable ⟨table, call⟩ := by
  cases hcall with
  | ref hname => exact callable_refCall h hname
  | source hsource hname => exact callable_sourceCallText h hsource hname

/-- The names of the manifest's sources have neither blanks nor backslashes. -/
def PlainSources (manifest : Value) : Prop :=
  ∀ srcs, sectionNodes manifest "sources" = .ok srcs →
    ∀ e ∈ srcs, ∀ field ∈ ["source_name", "name"], ∀ v,
    e.2.field field = .ok v → ∀ c ∈ v.text.toList, isEdge c = false

theorem mem_append_items {f g : Feed Substitution} (h : s ∈ (f ++ g).items) :
    s ∈ f.items ∨ s ∈ g.items := by
  change s ∈ (Feed.append f g).items at h
  rw [Feed.append] at h
  split at h
  · exact .inl h
  · exact List.mem_append.mp h

theorem exists_of_mem_refsFrom : ∀ {nodes : Entries} {names : List (String × String)}
    {left : List String}, s ∈ (refsFrom names left nodes).found.items →
      ∃ name, s.call = refCall name ∧ (name, s.table) ∈ names := by
  intro nodes
  induction nodes with
  | nil => intro names left h; cases h
  | cons e nodes ih =>
    intro names left h
    obtain ⟨id, node⟩ := e
    rw [refsFrom] at h
    split at h
    · cases h
    split at h
    · exact ih h
    · rename_i name table hfind
      split at h
      · obtain ⟨n, hn, hmem⟩ := ih h
        exact ⟨n, hn, List.mem_of_mem_filter hmem⟩
      · rcases mem_append_items h with h | h
        · rw [List.mem_singleton.mp h]
          exact ⟨name, rfl, List.mem_of_find?_eq_some hfind⟩
        · obtain ⟨n, hn, hmem⟩ := ih h
          exact ⟨n, hn, List.mem_of_mem_filter hmem⟩

theorem exists_of_mem_sourcesFrom : ∀ {srcs : Entries} {left : List String},
    s ∈ (sourcesFrom tables left srcs).found.items → s.table ∈ tables ∧ ∃ e ∈ srcs, ∃ source name,
      e.2.field "source_name" = .ok source ∧ e.2.field "name" = .ok name ∧
        s.call = sourceCallText source.text name.text := by
  intro srcs
  induction srcs with
  | nil => intro left h; cases h
  | cons e srcs ih =>
    have hrest : ∀ {left}, s ∈ (sourcesFrom tables left srcs).found.items → s.table ∈ tables ∧
        ∃ e' ∈ e :: srcs, ∃ source name, e'.2.field "source_name" = .ok source ∧
          e'.2.field "name" = .ok name ∧ s.call = sourceCallText source.text name.text := by
      intro left h
      obtain ⟨htable, e', he', hcall⟩ := ih h
      exact ⟨htable, e', List.mem_cons_of_mem _ he', hcall⟩
    intro left h
    obtain ⟨id, node⟩ := e
    rw [sourcesFrom] at h
    split at h
    · cases h
    split at h
    · exact hrest h
    · rename_i table hcov
      split at h
      · exact hrest h
      split at h
      · cases h
      split at h
      · rename_i source name hsource hname
        rcases mem_append_items h with h | h
        · rw [List.mem_singleton.mp h]
          exact ⟨(mem_of_coveredBy hcov).1, _, List.mem_cons_self, source, name, hsource, hname,
            rfl⟩
        · exact hrest h
      · cases h

theorem exists_of_unknown (h : (unknown t).2 = some s) :
    ∃ source name, source ∈ idParts t ∧ name ∈ idParts t ∧ s = ⟨t, sourceCallText source name⟩ := by
  rw [unknown] at h
  split at h
  · rename_i name source more hparts
    cases h
    have hmem : ∀ part ∈ [name, source], part ∈ idParts t := by
      intro part hpart
      rw [← List.mem_reverse, hparts]
      simp only [List.mem_cons, List.not_mem_nil, or_false] at hpart
      rcases hpart with rfl | rfl <;> simp
    exact ⟨source, name, hmem _ (by simp), hmem _ (by simp), rfl⟩
  · cases h

theorem mem_of_mem_left_refs (hl : tables.Nodup) (h : t ∈ (refs manifest tables).left) :
    t ∈ tables := by
  cases hnodes : sectionNodes manifest "nodes" with
  | error f => rwa [refs, hnodes] at h
  | ok nodes =>
    rw [(refsDone_refs hl hnodes).left_eq] at h
    exact List.mem_of_mem_filter h

theorem nodup_left_refs (hl : tables.Nodup) : (refs manifest tables).left.Nodup := by
  cases hnodes : sectionNodes manifest "nodes" with
  | error f => rwa [refs, hnodes]
  | ok nodes =>
    rw [(refsDone_refs hl hnodes).left_eq]
    exact hl.filter _

theorem mem_of_mem_left_sources (hl : tables.Nodup) (h : t ∈ (sources manifest tables).left) :
    t ∈ tables := by
  cases hsources : sectionNodes manifest "sources" with
  | error f =>
    rw [sources, hsources] at h
    split at h <;> exact h
  | ok srcs =>
    rw [(sourcesDone_sources hl hsources).2.2.2.2] at h
    exact List.mem_of_mem_filter h

/-- **Every substitution of a chain is for one of its tables, and puts in a call.** -/
theorem isCall_of_mem_chain {manifest : Value} {tables : List String} (hl : tables.Nodup)
    (hnamed : ∀ t ∈ tables, isNamed t.toList = true) (hplain : PlainSources manifest)
    {s : Substitution}
    (hs : s ∈ (chain manifest tables).items) : s.table ∈ tables ∧ IsCall s.call := by
  rw [chain] at hs
  rcases mem_append_items hs with hs | hs
  · rw [refs] at hs
    split at hs
    · cases hs
    · obtain ⟨name, hcall, hmem⟩ := exists_of_mem_refsFrom hs
      obtain ⟨hname, htable⟩ := lastName_of_mem_byLastPart hmem
      have hedge := not_isEdge_lastName (hnamed _ htable)
      rw [hname] at hedge
      rw [hcall]
      exact ⟨htable, .ref hedge⟩
  rcases mem_append_items hs with hs | hs
  · rw [sources] at hs
    split at hs
    · cases hs
    split at hs
    · cases hs
    · rename_i srcs hsrcs
      obtain ⟨hmem, e, he, source, name, hsource, hname, hcall⟩ := exists_of_mem_sourcesFrom hs
      rw [hcall]
      refine ⟨mem_of_mem_left_refs hl hmem, .source ?_ ?_⟩
      · exact hplain srcs hsrcs e he "source_name" (by simp) source hsource
      · exact hplain srcs hsrcs e he "name" (by simp) name hname
  · obtain ⟨t, ht, hu⟩ := List.mem_filterMap.mp hs
    obtain ⟨source, name, hsource, hname, rfl⟩ := exists_of_unknown hu
    have htable := mem_of_mem_left_refs hl (mem_of_mem_left_sources (nodup_left_refs hl) ht)
    exact ⟨htable, .source (not_isEdge_of_mem_idParts (hnamed _ htable) hsource)
      (not_isEdge_of_mem_idParts (hnamed _ htable) hname)⟩

theorem callable_of_mem_chain {manifest : Value} {tables : List String} (hl : tables.Nodup)
    (hnamed : ∀ t ∈ tables, isNamed t.toList = true) (hplain : PlainSources manifest)
    {s : Substitution}
    (hs : s ∈ (chain manifest tables).items) : s.table ∈ tables ∧ Callable s := by
  obtain ⟨htable, hcall⟩ := isCall_of_mem_chain hl hnamed hplain hs
  exact ⟨htable, hcall.callable (hnamed _ htable)⟩

theorem nodup_tablesOf_chain_of_stop (hl : tables.Nodup)
    (hs : (chain manifest tables).stop = none) :
    (tablesOf (chain manifest tables)).Nodup := by
  obtain ⟨hs1, hs2⟩ := stop_append_eq_none_iff.mp hs
  cases hnodes : sectionNodes manifest "nodes" with
  | error f =>
    rw [refs, hnodes] at hs1
    cases hs1
  | ok nodes =>
    cases hsources : sectionNodes manifest "sources" with
    | ok srcs => exact nodup_tablesOf_chain hl hnodes hsources
    | error f =>
      -- the sources are not even looked at, since no table is left
      have hempty : (refs manifest tables).left = [] := by
        obtain ⟨hs2, -⟩ := stop_append_eq_none_iff.mp hs2
        rw [sources, hsources] at hs2
        split at hs2
        · rename_i hempty
          exact List.isEmpty_iff.mp hempty
        · cases hs2
      have hfound : sources manifest [] = ⟨.empty, []⟩ := rfl
      rw [chain, hempty, hfound, (tablesOf_append_of_stop_none hs1).1, List.nodup_append]
      refine ⟨(refsDone_refs hl hnodes).nodup, List.nodup_nil, ?_⟩
      intro a _ b hb
      cases hb

/-! ### The rewritten script -/

def cellsOf (script : List Char) : List (Char × Cell) :=
  (cut script).2.map fun e => (e.1, .word e.2)

theorem wordsBefore_cellsOf (script : List Char) :
    wordsBefore (cellsOf script) = (cut script).2 := by
  rw [wordsBefore, cellsOf, List.map_map]
  exact List.map_id _

theorem after_cellsOf (script : List Char) : (cut script).1 ++ after (cellsOf script) = script := by
  have hafter : after (cellsOf script) = join (cut script).2 := by
    rw [after, cellsOf, List.flatMap_map]
    rfl
  rw [hafter, join_cut]

theorem ne_call_of_mem_cellsOf (hp : p ∈ cellsOf script) (s : Substitution) : p.2 ≠ .call s := by
  obtain ⟨e, -, rfl⟩ := List.mem_map.mp hp
  exact Cell.noConfusion

theorem laid_cellsOf (script : List Char) : Laid (cellsOf script) where
  edge := fun p hp => by
    obtain ⟨e, he, rfl⟩ := List.mem_map.mp hp
    exact (isEdge_of_mem_cut script e he).1
  word := fun p hp => by
    obtain ⟨e, he, rfl⟩ := List.mem_map.mp hp
    exact (isEdge_of_mem_cut script e he).2
  call := fun p hp s hs => absurd hs (ne_call_of_mem_cellsOf hp s)

theorem mem_of_mem_cut {e : Char × List Char} (he : e ∈ (cut script).2) {c : Char}
    (hc : c ∈ e.1 :: e.2) :
    c ∈ script := by
  have hjoin : c ∈ join (cut script).2 := List.mem_flatMap.mpr ⟨e, he, hc⟩
  rw [← join_cut script]
  exact List.mem_append_right _ hjoin

section

variable {subs : List Substitution} {script : List Char} (hcall : ∀ s ∈ subs, Callable s)

include hcall

theorem foldlM_substitute_script (hexact : ∀ s ∈ subs, Exact s.table.toList script) :
    subs.foldlM substitute (String.ofList script) =
      .ok (String.ofList ((cut script).1 ++ after (putAll subs (cellsOf script)))) := by
  have hrun := @foldlM_substitute _ (not_isEdge_cut script) subs _ (laid_cellsOf script) fun s hs =>
    ⟨hcall s hs, by
      rw [wordsBefore_cellsOf]
      refine @Exact.of_append _ (cut script).1 _ ?_
      rw [join_cut]
      exact hexact s hs⟩
  rwa [after_cellsOf] at hrun

theorem not_mem_after_putAll (hno : '\r' ∉ script) :
    '\r' ∉ (cut script).1 ++ after (putAll subs (cellsOf script)) := by
  intro hmem
  rcases List.mem_append.mp hmem with hmem | hmem
  · refine hno ?_
    rw [← join_cut script]
    exact List.mem_append_left _ hmem
  · obtain ⟨p, hp, hc⟩ := List.mem_flatMap.mp hmem
    have hword : (p.1, p.2.before) ∈ (cut script).2 := by
      rw [← wordsBefore_cellsOf, ← wordsBefore_putAll subs]
      exact List.mem_map_of_mem hp
    rcases List.mem_cons.mp hc with hc | hc
    · exact hno (mem_of_mem_cut hword (by rw [hc]; exact List.mem_cons_self))
    · cases hx : p.2 with
      | word w =>
        rw [hx] at hword hc
        exact hno (mem_of_mem_cut hword (List.mem_cons_of_mem _ hc))
      | call s =>
        rw [hx] at hc
        rcases mem_putAll hp with hp | ⟨s', hs', hx'⟩
        · exact ne_call_of_mem_cellsOf hp s hx
        · rw [hx] at hx'
          cases hx'
          exact (hcall s hs').returnless hc

/-- **When every occurrence between blanks is replaced.** -/
theorem allReplaced_iff (hnodup : (subs.map (·.table)).Nodup) :
    AllReplaced subs script ((cut script).1 ++ after (putAll subs (cellsOf script))) ↔
      ∀ s ∈ subs, ∀ u, StandsBehind u s.table.toList script →
        AmongFirstTwo u s.table.toList script := by
  have hwords : wordsBefore (putAll subs (cellsOf script)) = (cut script).2 := by
    rw [wordsBefore_putAll, wordsBefore_cellsOf]
  have hsubs : ∀ p ∈ putAll subs (cellsOf script), ∀ s, p.2 = .call s → s ∈ subs := by
    intro p hp s hs
    rcases mem_putAll hp with hp | ⟨s', hs', hx⟩
    · exact absurd hs (ne_call_of_mem_cellsOf hp s)
    · rw [hx] at hs
      cases hs
      exact hs'
  have hun : ∀ s ∈ subs, Unnamed s.table (cellsOf script) :=
    fun s _ p hp s' hs' => absurd hs' (ne_call_of_mem_cellsOf hp s')
  have hiff : ∀ s ∈ subs, ∀ u, StandsBehind u s.table.toList script →
      ((∃ ps₁ a ps₂, putAll subs (cellsOf script) = ps₁ ++ (a, .call s) :: ps₂ ∧
        (cut script).1 ++ join (wordsBefore ps₁) = u) ↔ AmongFirstTwo u s.table.toList script) := by
    intro s hs u hu
    rw [exists_split_iff_getElem? hu hwords, getElem?_putAll_iff hnodup hun hs, wordsBefore_cellsOf]
    rfl
  constructor
  · rintro ⟨ps, hps, htext, hmem, hall⟩ s hs u hu
    -- the text determines the cells, so they are those of the run
    have heq : ps = putAll subs (cellsOf script) :=
      eq_of_after_eq hnodup hcall hmem hsubs (hps.trans hwords.symm)
        (List.append_cancel_left htext.symm)
    rw [← hiff s hs u hu, ← heq]
    exact hall s hs u hu
  · intro hall
    exact ⟨_, hwords, rfl, hsubs, fun s hs u hu => (hiff s hs u hu).mpr (hall s hs u hu)⟩

end

/-! ### The file -/

/-- **What a run on one file does**, given the text that its substitutions make: the text is written
in its place. -/
theorem run_replaceIn_eq {scans : Scripts.TableScans} {path script text : String} {t : Tree}
    {place : List String} {old : ByteArray} (status : Status)
    (hfollow : t.follow (Path.ofString path).text = .file place old)
    (hread : t.readText (Path.ofString path).text = .ok script)
    (hcode : (scans.get path).status ≠ 0)
    (htext : substituteAll (chain manifest (scans.get path).tables) script = .ok text) :
    (replaceIn manifest scans status path).run t =
      ⟨((substituted manifest (scans.get path).tables script).run t).lines,
        t.putNode place (.file text.toUTF8), .ok (scans.get path).status⟩ := by
  have hzero : ((scans.get path).status == 0) = false := by simpa using hcode
  have houtcome : ((substituted manifest (scans.get path).tables script).run t).outcome =
      .ok text := by
    rw [outcome_substituted, htext]
  have hwrite : (Edit.change fun t => t.writeText (Path.ofString path).text text).run t =
      ⟨[], t.putNode place (.file text.toUTF8), .ok ()⟩ := by
    rw [Edit.run, Edit.change, Tree.writeText_of_follow text hfollow]
  rw [replaceIn, Edit.run_bind_ok (by rw [Edit.run_ask, hread])]
  simp only [Edit.run_ask, hzero, Bool.false_eq_true, if_false]
  rw [Edit.run_bind_ok houtcome, tree_substituted, Edit.run_bind_ok (by rw [hwrite]), hwrite]
  simp

theorem run_replaceIn {scans : Scripts.TableScans} {path script text : String} {t : Tree}
    (status : Status) (hread : t.readText (Path.ofString path).text = .ok script)
    (hcode : (scans.get path).status ≠ 0)
    (htext : substituteAll (chain manifest (scans.get path).tables) script = .ok text)
    (hno : '\r' ∉ text.toList) :
    ((replaceIn manifest scans status path).run t).outcome = .ok (scans.get path).status ∧
      ((replaceIn manifest scans status path).run t).tree.readText
        (Path.ofString path).text = .ok text := by
  obtain ⟨place, old, hfollow⟩ := Tree.follow_of_readText hread
  rw [run_replaceIn_eq status hfollow hread hcode htext]
  exact ⟨rfl, Tree.readText_writeText hfollow hno⟩

section

variable {manifest : Value} {scans : Scripts.TableScans} {path script : String} {t : Tree}
  (hread : t.readText (Path.ofString path).text = .ok script) (hcode : (scans.get path).status ≠ 0)
  (hl : (scans.get path).tables.Nodup) (hnamed : ∀ table ∈ (scans.get path).tables,
    isNamed table.toList = true)
  (hplain : PlainSources manifest) (hexact : ∀ table ∈ (scans.get path).tables,
    Exact table.toList script.toList)
  (hstop : (chain manifest (scans.get path).tables).stop = none)

include hread hcode hl hnamed hplain hexact hstop

/-- **The text of the file after a run.** -/
theorem readText_replaceIn (status : Status) :
    ((replaceIn manifest scans status path).run t).outcome = .ok (scans.get path).status ∧
      ((replaceIn manifest scans status path).run t).tree.readText (Path.ofString path).text =
        .ok (String.ofList ((cut script.toList).1 ++
          after (putAll (chain manifest (scans.get path).tables).items
            (cellsOf script.toList)))) := by
  have hcall := fun s hs => @callable_of_mem_chain manifest _ hl hnamed hplain s hs
  have hfold := foldlM_substitute_script (fun s hs => (hcall s hs).2)
    fun s hs => hexact s.table (hcall s hs).1
  refine run_replaceIn status hread hcode ?_ ?_
  · rw [String.ofList_toList] at hfold
    rw [substituteAll, hfold, hstop]
    rfl
  · rw [String.toList_ofList]
    exact not_mem_after_putAll (fun s hs => (hcall s hs).2) (Tree.not_mem_of_readText hread)

/-- **When every occurrence of every table is replaced.**  A run on a file whose tables are names
with single dots succeeds, and afterwards each table that has a call is replaced by it wherever it
stood between blanks, if and only if each such place is one of the first two that a search for the
table finds. -/
theorem replaceIn_replaces_all_iff (status : Status) :
    ∃ text, ((replaceIn manifest scans status path).run t).outcome = .ok (scans.get path).status ∧
      ((replaceIn manifest scans status path).run t).tree.readText
        (Path.ofString path).text = .ok text ∧
      (AllReplaced (chain manifest (scans.get path).tables).items script.toList text.toList ↔
        ∀ s ∈ (chain manifest (scans.get path).tables).items, ∀ u,
          StandsBehind u s.table.toList script.toList →
            AmongFirstTwo u s.table.toList script.toList) := by
  obtain ⟨houtcome, htext⟩ := readText_replaceIn hread hcode hl hnamed hplain hexact hstop status
  refine ⟨_, houtcome, htext, ?_⟩
  rw [String.toList_ofList]
  exact allReplaced_iff (fun s hs => (callable_of_mem_chain hl hnamed hplain hs).2)
    (nodup_tablesOf_chain_of_stop hl hstop)

end

/-! ### Two scripts -/

def oneScript (text : String) : Tree := ⟨[(["m.sql"], .file text.toUTF8)]⟩

theorem readText_oneScript {text : String} (h : '\r' ∉ text.toList) :
    (oneScript text).readText "m.sql" = .ok text :=
  @Tree.readText_of_follow _ _ ["m.sql"] _ rfl h

theorem plainSources_usersAndRaw : PlainSources usersAndRaw := by
  intro srcs hsrcs e he field hfield v hv
  cases hsrcs
  rw [List.mem_singleton.mp he] at hv
  simp only [List.mem_cons, List.not_mem_nil, or_false] at hfield
  rcases hfield with rfl | rfl
  · cases hv
    exact not_isEdge_of_all (by decide)
  · cases hv
    exact not_isEdge_of_all (by decide)

theorem amongFirstTwo_of_places {name script : List Char}
    (h : ∀ n < script.length, name <+: script.drop (n + 1) →
      (script.take n).countP isEdge ∈ (found name 0 (cut script).2).take 2)
    {u : List Char} (hu : StandsBehind u name script) : AmongFirstTwo u name script := by
  obtain ⟨a, b, v, rfl, -, -⟩ := hu
  have hrest : (u ++ a :: (name ++ b :: v)).drop (u.length + 1) = name ++ b :: v := by
    rw [← List.drop_drop, List.drop_left]
    rfl
  have hplace := h u.length (by simp) (by rw [hrest]; exact List.prefix_append name (b :: v))
  rwa [List.take_left] at hplace

/-- A script with a model that occurs twice and a source table. -/
theorem replaceIn_twoUsers :
    let script := "from users join raw.t on a join users "
    let scans : Scripts.TableScans := [("m.sql", ⟨1, ["users", "raw.t"]⟩)]
    let subs := (chain usersAndRaw ["users", "raw.t"]).items
    isExact "users".toList script.toList = true ∧ isExact "raw.t".toList script.toList = true ∧
    (chain usersAndRaw ["users", "raw.t"]).stop = none ∧
    ∃ text, ((replaceIn usersAndRaw scans 0 "m.sql").run (oneScript script)).outcome = .ok 1 ∧
      ((replaceIn usersAndRaw scans 0 "m.sql").run (oneScript script)).tree.readText "m.sql" =
        .ok text ∧
      AllReplaced subs script.toList text.toList := by
  intro script scans subs
  have husers : isExact "users".toList script.toList = true := by decide +kernel
  have hraw : isExact "raw.t".toList script.toList = true := by decide +kernel
  have hstop : (chain usersAndRaw ["users", "raw.t"]).stop = none := rfl
  have hnamed : ∀ table ∈ ["users", "raw.t"], isNamed table.toList = true := by decide
  have hexact : ∀ table ∈ ["users", "raw.t"], Exact table.toList script.toList := by
    intro table htable
    rcases List.mem_cons.mp htable with rfl | htable
    · exact exact_of_isExact husers
    · rw [List.mem_singleton.mp htable]
      exact exact_of_isExact hraw
  obtain ⟨text, houtcome, htext, hall⟩ :=
    @replaceIn_replaces_all_iff usersAndRaw scans "m.sql" script (oneScript script)
      (readText_oneScript (by decide +kernel)) (by decide) (by decide) hnamed
      plainSources_usersAndRaw hexact hstop 0
  refine ⟨husers, hraw, hstop, text, houtcome, htext, hall.mpr fun s hs u hu => ?_⟩
  have htables : ∀ s ∈ subs, s.table = "users" ∨ s.table = "raw.t" := by decide
  rcases htables s hs with hs | hs <;> rw [hs] at hu ⊢
  · exact amongFirstTwo_of_places (by decide +kernel) hu
  · exact amongFirstTwo_of_places (by decide +kernel) hu

/-- Of three occurrences of a table the last one stays. -/
theorem replaceIn_threeUsers :
    let script := "from users join users join users "
    let scans : Scripts.TableScans := [("m.sql", ⟨1, ["users"]⟩)]
    let text :=
      "from \x7b\x7b ref('users') \x7d\x7d join \x7b\x7b ref('users') \x7d\x7d join users "
    let subs := (chain usersAndRaw ["users"]).items
    ((replaceIn usersAndRaw scans 0 "m.sql").run (oneScript script)).tree.readText "m.sql" =
      .ok text ∧ ¬ AllReplaced subs script.toList text.toList := by
  intro script scans text subs
  have hnamed : ∀ table ∈ ["users"], isNamed table.toList = true := by
    intro table htable
    rw [List.mem_singleton.mp htable]
    decide
  have hexact : ∀ table ∈ ["users"], Exact table.toList script.toList := by
    intro table htable
    rw [List.mem_singleton.mp htable]
    exact exact_of_isExact (by decide +kernel)
  have hnodup : ["users"].Nodup := by decide
  have hrun := (@readText_replaceIn usersAndRaw scans "m.sql" script (oneScript script)
    (readText_oneScript (by decide +kernel))
      (by decide) hnodup hnamed plainSources_usersAndRaw hexact rfl 0).2
  have htext : (cut script.toList).1 ++ after (putAll subs (cellsOf script.toList)) =
      text.toList := by decide +kernel
  have hmem : ⟨"users", refCall "users"⟩ ∈ (chain usersAndRaw ["users"]).items := by
    have hitems : (chain usersAndRaw ["users"]).items = [⟨"users", refCall "users"⟩] := rfl
    rw [hitems]
    exact List.mem_cons_self
  refine ⟨hrun.trans (congrArg Except.ok ?_), ?_⟩
  · exact (congrArg String.ofList htext).trans String.ofList_toList
  rw [← htext, allReplaced_iff (fun s hs =>
    (callable_of_mem_chain hnodup hnamed plainSources_usersAndRaw hs).2)
    (nodup_tablesOf_chain_of_stop hnodup rfl)]
  intro hall
  have hstands : StandsBehind "from users join users join".toList "users".toList script.toList :=
    ⟨' ', ' ', [], by decide +kernel, by decide, by decide⟩
  have hfirst := hall _ hmem _ hstands
  exact absurd hfirst (by unfold AmongFirstTwo; decide +kernel)

end ProjectLint.TableNames
