import ProjectLint.Proofs.TableCalls

/-!
# Where a rewritten script differs

A run should change a script only where a table of the script stands between blanks.  `Rewritten`
sets a text beside another one that has texts put in, edge by edge, and keeps a list of the places
(`Match`).

Every substitution keeps to this: what it replaces are the matches of its pattern, and these lie in
what is left of the script, never in a call that was put in before (`Rewritten.exists_swap`).  So
the text after a run is the script with calls in place of the matches (`Rewritten.exists_swapAll`).
And the two texts leave no choice which places these are, as long as no place has an edge inside
(`Rewritten.unique`): a place of a dotted name that takes a blank for the dot is longer than the
word it begins with, and then what follows can never be laid side by side again
(`Rewritten.not_shifted`).

`replace_framed_iff` draws the conclusion.  A pattern takes any character for a dot and a backslash
for a blank, and line ends are unified, so a run does keep to the tables of the script just if it
comes upon none of these.
-/

namespace ProjectLint.TableNames

/-! ### Matches -/

/-- A place where a name was found: the text that was taken for the name, and its edges. -/
structure Match where
  left : Char
  word : List Char
  right : Char
deriving DecidableEq

def hits (name : List Char) : Nat → List Char → List Match
  | 0, _ => []
  | n + 1, text =>
    match firstHit name text with
    | none => []
    | some (before, a, b, rest) =>
      ⟨a, (text.drop (before.length + 1)).take name.length, b⟩ :: hits name n rest

def replaced : List Substitution → List Char → List Match
  | [], _ => []
  | s :: subs, text =>
    hits s.table.toList 2 text ++ replaced subs (swap s.table.toList s.call.toList 2 text)

def swapAll (subs : List Substitution) (text : List Char) : List Char :=
  subs.foldl (fun text s => swap s.table.toList s.call.toList 2 text) text

theorem hits_nil (name : List Char) (n : Nat) : hits name n [] = [] := by
  cases n <;> rfl

variable {c : Char} {name : List Char} {m : Match}

theorem hits_cons_of_none {rest : List Char} (n : Nat) (h : hitAt name (c :: rest) = none) :
    hits name n (c :: rest) = hits name n rest := by
  cases n with
  | zero => rfl
  | succ n =>
    rw [hits, hits, firstHit, h]
    cases firstHit name rest with
    | none => rfl
    | some found => rfl

theorem hits_cons_of_some {rest v : List Char} {a b : Char} (n : Nat)
    (h : hitAt name (a :: rest) = some (a, b, v)) :
    hits name (n + 1) (a :: rest) = ⟨a, rest.take name.length, b⟩ :: hits name n v := by
  rw [hits, firstHit, h]
  rfl

theorem Silent.hits_append {x : List Char} (n : Nat) (text : List Char) (h : Silent name x) :
    hits name n (x ++ text) = hits name n text := by
  induction x with
  | nil => rfl
  | cons c x ih =>
    rw [List.cons_append, hits_cons_of_none n (h.hitAt_eq_none text), ih h.tail]

theorem exists_of_hitAt {text v : List Char} {a b : Char}
    (h : hitAt name (c :: text) = some (a, b, v)) :
    c = a ∧ isEdge a = true ∧ isEdge b = true ∧ ∃ w, text = w ++ b :: v ∧
      text.take name.length = w ∧ spells name w = some [] := by
  obtain ⟨rest, hrest, ha, hs, hb⟩ := hitAt_eq_some_iff.mp h
  obtain ⟨rfl, rfl⟩ := List.cons.inj hrest
  obtain ⟨w, rfl, hw⟩ := exists_of_spells_eq_some hs
  have hlength : w.length = name.length := (@spells_append [] _ _ hw).2
  exact ⟨rfl, ha, hb, w, rfl, by rw [← hlength, List.take_left], hw⟩

theorem swap_cons (name call : List Char) (n : Nat) (c : Char) (text : List Char) :
    ∃ rest, swap name call n (c :: text) = c :: rest := by
  cases hit : hitAt name (c :: text) with
  | none => exact ⟨_, swap_cons_of_none call n hit⟩
  | some found =>
    obtain ⟨a, b, v⟩ := found
    cases n with
    | zero => exact ⟨text, rfl⟩
    | succ n =>
      obtain ⟨rfl, -⟩ := exists_of_hitAt hit
      exact ⟨_, swap_cons_of_some call n hit⟩

def Spelled (w : List Char) : Prop := ∃ name, isNamed name = true ∧ spells name w = some []

theorem spelled_of_isNamed (h : isNamed name = true) : Spelled name := by
  have hs := spells_self name []
  rw [List.append_nil] at hs
  exact ⟨name, h, hs⟩

theorem Spelled.head {w : List Char} (h : Spelled w) : ∃ c rest, w = c :: rest ∧
    isNameChar c = true := by
  obtain ⟨name, hn, hs⟩ := h
  cases name with
  | nil => cases hn
  | cons c name =>
    obtain ⟨d, w, rfl, hf, -⟩ := spells_cons_eq_some_iff.mp hs
    have hc := isNameChar_head hn
    exact ⟨d, w, rfl, eq_of_fits hc hf ▸ hc⟩

theorem spells_of_mem_hits : ∀ {n : Nat} {text : List Char}, m ∈ hits name n text →
    spells name m.word = some [] := by
  intro n
  induction n with
  | zero => intro text h; cases h
  | succ n ihn =>
    intro text
    induction text with
    | nil =>
      intro h
      rw [hits_nil] at h
      cases h
    | cons c text ih =>
      intro h
      cases hit : hitAt name (c :: text) with
      | none =>
        rw [hits_cons_of_none _ hit] at h
        exact ih h
      | some found =>
        obtain ⟨a, b, v⟩ := found
        obtain ⟨rfl, -, -, w, -, htake, hs⟩ := exists_of_hitAt hit
        rw [hits_cons_of_some _ hit] at h
        rcases List.mem_cons.mp h with rfl | h
        · rwa [htake]
        · exact ihn h

theorem spelled_of_mem_replaced : ∀ {subs : List Substitution} {text : List Char},
    (∀ s ∈ subs, isNamed s.table.toList = true) → m ∈ replaced subs text → Spelled m.word := by
  intro subs
  induction subs with
  | nil => intro text _ h; cases h
  | cons s subs ih =>
    intro text hnamed h
    rcases List.mem_append.mp h with h | h
    · exact ⟨_, hnamed s List.mem_cons_self, spells_of_mem_hits h⟩
    · exact ih (fun s' hs' => hnamed s' (List.mem_cons_of_mem _ hs')) h

/-! ### Calls as texts -/

def Tight : List Char → Prop
  | [] => True
  | c :: rest => (isEdge c = true → ∃ d more, rest = d :: more ∧ d ≠ '\x7b') ∧ Tight rest

theorem Tight.append {z rest : List Char} (hz : ∀ c ∈ z, isEdge c = false) (h : Tight rest) :
    Tight (z ++ rest) := by
  induction z with
  | nil => exact h
  | cons c z ih =>
    refine ⟨fun hc => ?_, ih fun d hd => hz d (List.mem_cons_of_mem _ hd)⟩
    rw [hz c List.mem_cons_self] at hc
    cases hc

theorem Tight.blank {d : Char} {rest : List Char} (hd : d ≠ '\x7b') (h : Tight (d :: rest)) :
    Tight (c :: d :: rest) :=
  ⟨fun _ => ⟨d, rest, rfl, hd⟩, h⟩

theorem tight_of_all {z : List Char} (hz : z.all (fun c => !isEdge c) = true) : Tight z := by
  have h : Tight (z ++ []) := .append (not_isEdge_of_all hz) trivial
  rwa [List.append_nil] at h

namespace IsCall

variable {x y : String}

theorem begins (h : IsCall x) : ∃ more, x.toList = '\x7b' :: '\x7b' :: more := by
  cases h with
  | ref hname => exact ⟨_, toList_refCall _⟩
  | source hsource hname => exact ⟨_, toList_sourceCallText _ _⟩

theorem silent (h : IsCall x) (hn : isNamed name = true) : Silent name x.toList := by
  cases h with
  | ref hname => exact silent_refCall hn hname
  | source hsource hname => exact silent_sourceCallText hn hsource hname

theorem tight (h : IsCall x) : Tight x.toList := by
  have hend : Tight (['\x27', ')'] ++ ' ' :: '\x7d' :: ['\x7d']) :=
    .append (not_isEdge_of_all rfl) (.blank (by decide) (tight_of_all rfl))
  cases h with
  | ref hname =>
    rw [toList_refCall]
    refine .append (not_isEdge_of_all rfl) (.blank (by decide) ?_)
    exact .append (z := ['r', 'e', 'f', '(', '\x27']) (not_isEdge_of_all rfl) (.append hname hend)
  | source hsource hname =>
    rw [toList_sourceCallText]
    refine .append (not_isEdge_of_all rfl) (.blank (by decide) ?_)
    refine .append (z := ['s', 'o', 'u', 'r', 'c', 'e', '(', '\x27']) (not_isEdge_of_all rfl)
      (.append hsource ?_)
    refine .append (not_isEdge_of_all rfl) (.blank (by decide) ?_)
    exact .append (z := ['\x27']) (not_isEdge_of_all rfl) (.append hname hend)

/-- **The text behind an edge tells where a call ends.** -/
theorem eq_of_append (hx : IsCall x) (hy : IsCall y) {b b' : Char} {u v : List Char}
    (h : x.toList ++ b :: u = y.toList ++ b' :: v) : x = y := by
  have hword : ∀ {z z' : String} {p q : Char} {t t' : List Char},
      (∀ c ∈ z.toList, isEdge c = false) →
      (∀ c ∈ z'.toList, isEdge c = false) → isEdge p = false → isEdge q = false →
        z.toList ++ p :: q :: ' ' :: t = z'.toList ++ p :: q :: ' ' :: t' → z = z' := by
    intro z z' p q t t' hz hz' hp hq heq
    have hends : ∀ z : String, (∀ c ∈ z.toList, isEdge c = false) → ∀ c ∈ z.toList ++ [p, q],
        isEdge c = false := by
      intro z hz c hc
      simp only [List.mem_append, List.mem_cons, List.not_mem_nil, or_false] at hc
      rcases hc with hc | rfl | rfl
      · exact hz c hc
      · exact hp
      · exact hq
    have happend : ∀ (z : String) (t : List Char),
        z.toList ++ p :: q :: ' ' :: t = (z.toList ++ [p, q]) ++ ' ' :: t := by
      intro z t
      simp
    rw [happend, happend] at heq
    exact String.toList_inj.mp (List.append_cancel_right
      (eq_of_append_edge (hends z hz) (hends z' hz') rfl rfl heq))
  cases hx with
  | ref hname =>
    rw [toList_refCall] at h
    cases hy with
    | ref hname' =>
      rw [toList_refCall] at h
      simp only [List.cons_append, List.nil_append, List.append_assoc, List.cons.injEq, true_and]
        at h
      rw [hword hname hname' rfl rfl h]
    | source _ _ =>
      rw [toList_sourceCallText] at h
      simp at h
  | source hsource hname =>
    rw [toList_sourceCallText] at h
    cases hy with
    | ref _ =>
      rw [toList_refCall] at h
      simp at h
    | source hsource' hname' =>
      rw [toList_sourceCallText] at h
      simp only [List.cons_append, List.nil_append, List.append_assoc, List.cons.injEq, true_and]
        at h
      obtain rfl := hword hsource hsource' rfl rfl h
      simp only [List.append_cancel_left_eq, List.cons.injEq, true_and] at h
      rw [hword hname hname' rfl rfl h]

end IsCall

/-! ### Texts side by side -/

/-- The second text is the first one with texts put in at some places, which are listed: between two
edges, which stay, a word goes and another text comes. -/
inductive Rewritten (puts : String → Prop) : List Match → List Char → List Char → Prop
  | nil : Rewritten puts [] [] []
  | keep {ms : List Match} {u v : List Char} (c : Char) (h : Rewritten puts ms u v) :
      Rewritten puts ms (c :: u) (c :: v)
  | put {ms : List Match} {a b : Char} {w u v : List Char} {x : String} (ha : isEdge a = true)
      (hb : isEdge b = true)
      (hx : puts x) (h : Rewritten puts ms (b :: u) (b :: v)) :
      Rewritten puts (⟨a, w, b⟩ :: ms) (a :: (w ++ b :: u)) (a :: (x.toList ++ b :: v))

namespace Rewritten

variable {puts : String → Prop} {ms ms' : List Match} {u v : List Char}

theorem refl : ∀ text : List Char, Rewritten puts [] text text
  | [] => .nil
  | c :: text => .keep c (refl text)

theorem cases_cons (h : Rewritten puts ms u (c :: v)) :
    (∃ u', u = c :: u' ∧ Rewritten puts ms u' v) ∨
      ∃ w b u' v' x ms', isEdge c = true ∧ isEdge b = true ∧ puts x ∧ u = c :: (w ++ b :: u') ∧
        v = x.toList ++ b :: v' ∧ ms = ⟨c, w, b⟩ :: ms' ∧
        Rewritten puts ms' (b :: u') (b :: v') := by
  generalize hv : c :: v = text at h
  cases h with
  | nil => cases hv
  | keep d h =>
    cases hv
    exact .inl ⟨_, rfl, h⟩
  | put ha hb hx h =>
    cases hv
    exact .inr ⟨_, _, _, _, _, _, ha, hb, hx, rfl, rfl, rfl, h⟩

theorem eq_nil (h : Rewritten puts ms u []) : u = [] ∧ ms = [] := by
  cases h with
  | nil => exact ⟨rfl, rfl⟩

theorem head (h : Rewritten puts ms u (c :: v)) : ∃ u', u = c :: u' := by
  rcases h.cases_cons with ⟨u', rfl, -⟩ | ⟨w, b, u', _, _, _, _, _, _, rfl, _⟩
  · exact ⟨u', rfl⟩
  · exact ⟨_, rfl⟩

theorem keep_of_not_isEdge (hc : isEdge c = false) (h : Rewritten puts ms u (c :: v)) :
    ∃ u', u = c :: u' ∧ Rewritten puts ms u' v := by
  rcases h.cases_cons with hkeep | ⟨_, _, _, _, _, _, ha, _⟩
  · exact hkeep
  · rw [hc] at ha
    cases ha

theorem eq_of_nil (h : Rewritten puts [] u v) : u = v := by
  generalize hms : ([] : List Match) = none at h
  induction h with
  | nil => rfl
  | keep c h ih => rw [ih hms]
  | put ha hb hx h ih => cases hms

theorem exists_split (h : Rewritten puts ms u v) (hm : m ∈ ms) :
    ∃ before rest, u = before ++ m.left :: (m.word ++ m.right :: rest) := by
  induction h with
  | nil => cases hm
  | keep c h ih =>
    obtain ⟨before, rest, rfl⟩ := ih hm
    exact ⟨c :: before, rest, rfl⟩
  | @put ms a b w u v x ha hb hx h ih =>
    rcases List.mem_cons.mp hm with rfl | hm
    · exact ⟨[], u, rfl⟩
    · obtain ⟨before, rest, hu⟩ := ih hm
      exact ⟨a :: (w ++ before), rest, by rw [hu]; simp⟩

theorem exists_before (h : Rewritten puts (m :: ms) u v) :
    ∃ before rest rest', u = before ++ m.left :: (m.word ++ m.right :: rest) ∧
      v = before ++ m.left :: rest' := by
  generalize hms : m :: ms = all at h
  induction h with
  | nil => cases hms
  | keep c h ih =>
    obtain ⟨before, rest, rest', rfl, rfl⟩ := ih hms
    exact ⟨c :: before, rest, rest', rfl, rfl⟩
  | put ha hb hx h ih =>
    cases hms
    exact ⟨[], _, _, rfl, rfl⟩

theorem mem_of_isEdge (hc : isEdge c = true) (h : Rewritten puts ms u v)
    (hword : ∀ m ∈ ms, ∀ d ∈ m.word, isEdge d = false) (hu : c ∈ u) : c ∈ v := by
  induction h with
  | nil => cases hu
  | keep d h ih =>
    rcases List.mem_cons.mp hu with rfl | hu
    · exact List.mem_cons_self
    · exact List.mem_cons_of_mem _ (ih hword hu)
  | put ha hb hx h ih =>
    rcases List.mem_cons.mp hu with rfl | hu
    · exact List.mem_cons_self
    refine List.mem_cons_of_mem _ (List.mem_append_right _ ?_)
    rcases List.mem_append.mp hu with hu | hu
    · rw [hword _ List.mem_cons_self c hu] at hc
      cases hc
    · exact ih (fun m hm => hword m (List.mem_cons_of_mem _ hm)) hu

theorem mem_or (h : Rewritten puts ms u v) (hv : c ∈ v) : c ∈ u ∨ ∃ x, puts x ∧ c ∈ x.toList := by
  induction h with
  | nil => cases hv
  | keep d h ih =>
    rcases List.mem_cons.mp hv with rfl | hv
    · exact .inl List.mem_cons_self
    · exact (ih hv).imp_left (List.mem_cons_of_mem _)
  | put ha hb hx h ih =>
    rcases List.mem_cons.mp hv with rfl | hv
    · exact .inl List.mem_cons_self
    rcases List.mem_append.mp hv with hv | hv
    · exact .inr ⟨_, hx, hv⟩
    · exact (ih hv).imp_left fun hu => List.mem_cons_of_mem _ (List.mem_append_right _ hu)

/-! ### A substitution -/

section

variable (hcalls : ∀ x, puts x → IsCall x)

include hcalls

theorem keep_of_ne {c d : Char} (hd : d ≠ '\x7b') (h : Rewritten puts ms u (c :: d :: v)) :
    ∃ u', u = c :: u' ∧ Rewritten puts ms u' (d :: v) := by
  rcases h.cases_cons with hkeep | ⟨_, _, _, _, x, _, _, _, hx, _, hv, _⟩
  · exact hkeep
  · obtain ⟨more, hmore⟩ := (hcalls x hx).begins
    rw [hmore] at hv
    exact absurd (List.cons.inj hv).1 hd

/-- A name that is found in the second text is found in what is left of the first one. -/
theorem exists_of_spells {b : Char} {rest name : List Char} (hn : isNamed name = true) :
    ∀ {u w : List Char}, spells name w = some [] → Rewritten puts ms u (w ++ b :: rest) →
      ∃ u', u = w ++ b :: u' ∧ Rewritten puts ms (b :: u') (b :: rest) := by
  -- a character of a name is no edge, and no name has a brace behind the character that stands for
  -- a dot
  have hfirst : ∀ {c d : Char} {v u : List Char}, isNameChar c = true → fits c d = true →
      Rewritten puts ms u (d :: v) → ∃ u', u = d :: u' ∧ Rewritten puts ms u' v := by
    intro c d v u hc hf h
    rw [← eq_of_fits hc hf] at h ⊢
    exact h.keep_of_not_isEdge (not_isEdge_of_isNameChar hc)
  fun_induction isNamed name with
  | case1 => cases hn
  | case2 c =>
    intro u w hs h
    obtain ⟨d, w, rfl, hf, hs⟩ := spells_cons_eq_some_iff.mp hs
    cases hs
    obtain ⟨u', rfl, hrest⟩ := hfirst hn hf h
    obtain ⟨u'', rfl⟩ := hrest.head
    exact ⟨u'', rfl, hrest⟩
  | case3 c name ih =>
    rw [Bool.and_eq_true] at hn
    intro u w hs h
    obtain ⟨d, w, rfl, hf, hs⟩ := spells_cons_eq_some_iff.mp hs
    obtain ⟨e, w, rfl, -, hs⟩ := spells_cons_eq_some_iff.mp hs
    obtain ⟨u', rfl, hrest⟩ := hfirst hn.1 hf h
    obtain ⟨f, w, rfl, hname⟩ := Spelled.head ⟨name, hn.2, hs⟩
    have hne : f ≠ '\x7b' := by
      rintro rfl
      exact absurd hname (by decide)
    obtain ⟨u'', rfl, hbehind⟩ := keep_of_ne hcalls hne hrest
    obtain ⟨u', rfl, hend⟩ := ih hn.2 hs hbehind
    exact ⟨u', rfl, hend⟩
  | case4 c name _ _ ih =>
    rw [Bool.and_eq_true] at hn
    intro u w hs h
    obtain ⟨d, w, rfl, hf, hs⟩ := spells_cons_eq_some_iff.mp hs
    obtain ⟨u', rfl, hrest⟩ := hfirst hn.1 hf h
    obtain ⟨u'', rfl, hend⟩ := ih hn.2 hs hrest
    exact ⟨u'', rfl, hend⟩

variable {s : Substitution} (hs : isNamed s.table.toList = true) (hput : puts s.call)

include hs hput

/-- **A substitution replaces its matches**, whatever was put in before. -/
theorem exists_swap (n : Nat) (h : Rewritten puts ms u v) :
    ∃ ms', Rewritten puts ms' u (swap s.table.toList s.call.toList n v) ∧
      ∀ m, m ∈ ms' ↔ m ∈ ms ∨ m ∈ hits s.table.toList n v := by
  induction hk : v.length using Nat.strongRecOn generalizing v ms u n with
  | _ k ih =>
    -- behind the edge that ends a match the search goes on, also if a call was put in there
    have hbehind : ∀ {n : Nat} {b : Char} {ms : List Match} {u v : List Char}, v.length < k →
        Rewritten puts ms (b :: u) (b :: v) →
          ∃ ms', Rewritten puts ms' (b :: u) (b :: swap s.table.toList s.call.toList n v) ∧
            ∀ m, m ∈ ms' ↔ m ∈ ms ∨ m ∈ hits s.table.toList n v := by
      intro n b ms u v hlt hedge
      rcases hedge.cases_cons with ⟨u', hu, h⟩ | ⟨w, b', u', v', x, ms₀, hb, hb', hx, hu, rfl, rfl,
          h⟩
      · obtain rfl := (List.cons.inj hu).2
        obtain ⟨ms', h', hms'⟩ := ih _ hlt n h rfl
        exact ⟨ms', .keep b h', hms'⟩
      · obtain rfl := (List.cons.inj hu).2
        rw [List.length_append] at hlt
        obtain ⟨ms', h', hms'⟩ := ih _ (by omega) n h rfl
        have hsilent := (hcalls x hx).silent hs
        obtain ⟨rest, hrest⟩ := swap_cons s.table.toList s.call.toList n b' v'
        rw [hrest] at h'
        refine ⟨⟨b, w, b'⟩ :: ms', ?_, fun m => ?_⟩
        · rw [hsilent.swap_append, hrest]
          exact .put hb hb' hx h'
        · rw [hsilent.hits_append, List.mem_cons, List.mem_cons, hms', or_assoc]
    cases h with
    | nil => exact ⟨[], by rw [swap_nil]; exact .nil, fun m => by rw [hits_nil]; simp⟩
    | @keep _ u v c h =>
      rw [List.length_cons] at hk
      cases hit : hitAt s.table.toList (c :: v) with
      | none =>
        obtain ⟨ms', h', hms'⟩ := ih _ (by omega) n h rfl
        rw [swap_cons_of_none _ _ hit, hits_cons_of_none _ hit]
        exact ⟨ms', .keep c h', hms'⟩
      | some found =>
        obtain ⟨a, b, rest⟩ := found
        obtain ⟨rfl, ha, hb, w, rfl, htake, hw⟩ := exists_of_hitAt hit
        cases n with
        | zero => exact ⟨ms, .keep c h, fun m => by simp [hits]⟩
        | succ n =>
          obtain ⟨u', rfl, hedge⟩ := exists_of_spells hcalls hs hw h
          obtain ⟨ms', h', hms'⟩ := @hbehind n b ms u' rest (by simp at hk; omega) hedge
          rw [swap_cons_of_some _ _ hit, hits_cons_of_some _ hit, htake]
          refine ⟨⟨c, w, b⟩ :: ms', .put ha hb hput h', fun m => ?_⟩
          rw [List.mem_cons, List.mem_cons, hms', or_left_comm]
    | @put ms a b w u v x ha hb hx h =>
      obtain ⟨more, hmore⟩ := (hcalls x hx).begins
      have hit : hitAt s.table.toList (a :: (x.toList ++ b :: v)) = none := by
        rw [hmore]
        exact hitAt_eq_none_of_fits hs (by decide)
      have hsilent := (hcalls x hx).silent hs
      obtain ⟨ms', h', hms'⟩ := ih _ (by simp at hk ⊢; omega) n h rfl
      obtain ⟨rest, hrest⟩ := swap_cons s.table.toList s.call.toList n b v
      rw [hrest] at h'
      rw [swap_cons_of_none _ _ hit, hits_cons_of_none _ hit, hsilent.swap_append,
        hsilent.hits_append, hrest]
      refine ⟨⟨a, w, b⟩ :: ms', .put ha hb hx h', fun m => ?_⟩
      rw [List.mem_cons, List.mem_cons, hms', or_assoc]

omit hs hput

/-- **Substitutions that follow one another replace their matches.** -/
theorem exists_swapAll : ∀ {subs : List Substitution}, (∀ s ∈ subs, isNamed s.table.toList = true ∧
    puts s.call) →
    ∀ {ms : List Match} {v : List Char}, Rewritten puts ms u v →
      ∃ ms', Rewritten puts ms' u (swapAll subs v) ∧ ∀ m, m ∈ ms' ↔ m ∈ ms ∨
        m ∈ replaced subs v := by
  intro subs
  induction subs with
  | nil => intro _ ms v h; exact ⟨ms, h, fun m => by simp [replaced]⟩
  | cons s subs ih =>
    intro hsubs ms v h
    obtain ⟨hs, hput⟩ := hsubs s List.mem_cons_self
    obtain ⟨ms₁, h₁, hms₁⟩ := exists_swap hcalls hs hput 2 h
    obtain ⟨ms₂, h₂, hms₂⟩ := ih (fun s' hs' => hsubs s' (List.mem_cons_of_mem _ hs')) h₁
    refine ⟨ms₂, h₂, fun m => ?_⟩
    rw [hms₂, hms₁, replaced, List.mem_append, or_assoc]

/-! ### The places are determined -/

theorem exists_of_tight : ∀ {x : List Char}, Tight x →
    ∀ {u : List Char}, Rewritten puts ms u (x ++ v) →
    ∃ u', u = x ++ u' ∧ Rewritten puts ms u' v := by
  intro x
  induction x with
  | nil => intro _ u h; exact ⟨u, rfl, h⟩
  | cons c x ih =>
    intro ht u h
    have hkeep : ∃ u', u = c :: u' ∧ Rewritten puts ms u' (x ++ v) := by
      cases hc : isEdge c with
      | false => exact h.keep_of_not_isEdge hc
      | true =>
        obtain ⟨d, more, rfl, hd⟩ := ht.1 hc
        exact keep_of_ne hcalls hd h
    obtain ⟨u', rfl, hrest⟩ := hkeep
    obtain ⟨u'', rfl, hend⟩ := ih ht.2 hrest
    exact ⟨u'', rfl, hend⟩

omit hcalls in
theorem exists_behind_word {w d p q : List Char} {a b : Char} (hw : ∀ c ∈ w, isEdge c = false)
    (ha : isEdge a = true) (h : d ++ a :: p = w ++ b :: q) : ∃ m, b :: q = m ++ a :: p := by
  rcases List.append_eq_append_iff.mp h with ⟨m, rfl, hm⟩ | ⟨m, rfl, hm⟩
  · cases m with
    | nil => exact ⟨[], hm.symm⟩
    | cons c m =>
      obtain ⟨rfl, -⟩ := List.cons.inj hm
      rw [hw a (by simp)] at ha
      cases ha
  · exact ⟨m, hm⟩

theorem exists_behind_call {x : String} (hx : puts x) {w d p q : List Char} {a b : Char}
    (hw : Spelled w)
    (ha : isEdge a = true) (hb : isEdge b = true) (h : d ++ a :: (w ++ b :: p) = x.toList ++ q) :
    ∃ m, q = m ++ a :: (w ++ b :: p) := by
  obtain ⟨name, hn, hs⟩ := hw
  have hit : hitAt name (a :: (w ++ b :: p)) = some (a, b, p) :=
    hitAt_eq_some_iff.mpr ⟨_, rfl, ha, (spells_append hs).1, hb⟩
  rcases List.append_eq_append_iff.mp h with ⟨m, hxm, hm⟩ | ⟨m, rfl, hm⟩
  · cases m with
    | nil => exact ⟨[], hm.symm⟩
    | cons c m =>
      rw [hm, (hcalls x hx).silent hn d (c :: m) q hxm (List.cons_ne_nil _ _)] at hit
      cases hit
  · exact ⟨m, hm⟩

/-- **A text does not stand beside itself with something before it.**  What is longer stays longer:
a word with no edge inside lies before the edge where the shorter text begins, and a word that a
name was found in does not begin in a call. -/
theorem not_shifted {p d : List Char} (hd : d ≠ []) (hp : Rewritten puts ms p v)
    (hspelled : ∀ m ∈ ms, Spelled m.word)
    (hq : Rewritten puts ms' (d ++ p) v) (hplain : ∀ m ∈ ms', ∀ c ∈ m.word, isEdge c = false) :
    False := by
  induction hk : v.length using Nat.strongRecOn generalizing v ms ms' p d with
  | _ k ih =>
    have hnext : ∀ {ms ms' : List Match} {p d q v : List Char}, q = d ++ p → d ≠ [] → v.length < k →
        Rewritten puts ms p v → (∀ m ∈ ms, Spelled m.word) → Rewritten puts ms' q v →
          (∀ m ∈ ms', ∀ c ∈ m.word, isEdge c = false) → False := by
      rintro ms ms' p d q v rfl hd hlt hp hspelled hq hplain
      exact ih _ hlt hd hp hspelled hq hplain rfl
    have hcons : ∀ (m w : List Char) (a : Char), m ++ a :: w ≠ [] := fun m w a => by simp
    cases v with
    | nil =>
      obtain ⟨hnil, -⟩ := hq.eq_nil
      exact hd (List.append_eq_nil_iff.mp hnil).1
    | cons a v =>
      obtain ⟨e, d, rfl⟩ := List.exists_cons_of_ne_nil hd
      rw [List.length_cons] at hk
      rcases hp.cases_cons with ⟨p, rfl, hp'⟩ | ⟨w, b, p, v, x, ms₁, ha, hb, hx, rfl, rfl, rfl, hp'⟩
      · rcases hq.cases_cons with ⟨q, hqeq, hq'⟩ | ⟨w', b', q, v, x', ms₂, ha', hb', hx', hqeq, rfl,
            rfl, hq'⟩
        · -- both go one character on
          have hqd : q = (d ++ [a]) ++ p := by
            rw [← (List.cons.inj hqeq).2]
            simp
          exact hnext hqd (hcons _ _ _) (by omega) hp' hspelled hq' hplain
        · -- the longer text has a word where the shorter one has the call itself
          obtain ⟨p, rfl, hp''⟩ := exists_of_tight hcalls (hcalls x' hx').tight hp'
          obtain ⟨m, hm⟩ := exists_behind_word (hplain _ List.mem_cons_self) ha'
            (List.cons.inj hqeq).2
          rw [← List.cons_append, ← List.append_assoc] at hm
          exact hnext hm (hcons _ _ _) (by simp at hk ⊢; omega) hp'' hspelled hq'
            fun m hm => hplain m (List.mem_cons_of_mem _ hm)
      · have hrest : ∀ m ∈ ms₁, Spelled m.word := fun m hm => hspelled m (List.mem_cons_of_mem _ hm)
        rcases hq.cases_cons with ⟨q, hqeq, hq'⟩ | ⟨w', b', q, v', x', ms₂, ha', hb', hx', hqeq, hv,
            rfl, hq'⟩
        · -- the shorter text has a word where the longer one has the call itself
          obtain ⟨q, rfl, hq''⟩ := exists_of_tight hcalls (hcalls x hx).tight hq'
          obtain ⟨m, hm⟩ := exists_behind_call hcalls hx (hspelled _ List.mem_cons_self) ha hb
            (List.cons.inj hqeq).2
          rw [← List.cons_append, ← List.append_assoc] at hm
          exact hnext hm (hcons _ _ _) (by simp at hk ⊢; omega) hp' hrest hq'' hplain
        · -- both have a word, and the same call in its place
          obtain rfl := (hcalls x hx).eq_of_append (hcalls x' hx') hv
          obtain ⟨rfl, rfl⟩ := List.cons.inj (List.append_cancel_left hv)
          obtain ⟨m, hm⟩ := exists_behind_word (hplain _ List.mem_cons_self) ha'
            (List.cons.inj hqeq).2
          rw [← List.cons_append, ← List.append_assoc] at hm
          exact hnext hm (hcons _ _ _) (by simp at hk ⊢; omega) hp' hrest hq'
            fun m hm => hplain m (List.mem_cons_of_mem _ hm)

theorem not_beside_call {x : String} (hx : puts x) {w t t' : List Char} (hw : Spelled w) :
    ¬ Rewritten puts ms (w ++ t) (x.toList ++ t') := by
  intro h
  obtain ⟨c, w, rfl, hc⟩ := hw.head
  obtain ⟨more, hmore⟩ := (hcalls x hx).begins
  rw [hmore] at h
  obtain ⟨u, hu⟩ := h.head
  rw [(List.cons.inj hu).1] at hc
  exact absurd hc (by decide)

/-- **Two texts tell where calls were put in**, if one can be had from the other by taking out words
without edges. -/
theorem unique (h : Rewritten puts ms u v) (hspelled : ∀ m ∈ ms, Spelled m.word)
    (h' : Rewritten puts ms' u v)
    (hspelled' : ∀ m ∈ ms', Spelled m.word) (hplain : ∀ m ∈ ms', ∀ c ∈ m.word, isEdge c = false) :
    ms = ms' := by
  induction hk : v.length using Nat.strongRecOn generalizing u v ms ms' with
  | _ k ih =>
    cases v with
    | nil => rw [h.eq_nil.2, h'.eq_nil.2]
    | cons a v =>
      rw [List.length_cons] at hk
      rcases h.cases_cons with ⟨u, rfl, hrest⟩ | ⟨w, b, p, v, x, ms₁, ha, hb, hx, rfl, rfl, rfl,
          hrest⟩
      · rcases h'.cases_cons with ⟨u', hu, hrest'⟩ | ⟨w', b', q, v, x', ms₂, _, _, hx', hu, rfl,
            rfl, hrest'⟩
        · obtain rfl := (List.cons.inj hu).2
          exact ih _ (by omega) hrest hspelled hrest' hspelled' hplain rfl
        · obtain rfl := (List.cons.inj hu).2
          exact absurd hrest (not_beside_call hcalls hx' (hspelled' _ List.mem_cons_self))
      · rcases h'.cases_cons with ⟨u', hu, hrest'⟩ | ⟨w', b', q, v', x', ms₂, _, hb', hx', hu, hv,
            rfl, hrest'⟩
        · obtain rfl := (List.cons.inj hu).2
          exact absurd hrest' (not_beside_call hcalls hx (hspelled _ List.mem_cons_self))
        · obtain rfl := (hcalls x hx).eq_of_append (hcalls x' hx') hv
          obtain ⟨rfl, rfl⟩ := List.cons.inj (List.append_cancel_left hv)
          have htail : ∀ m ∈ ms₁, Spelled m.word :=
            fun m hm => hspelled m (List.mem_cons_of_mem _ hm)
          have htail' : ∀ m ∈ ms₂, ∀ c ∈ m.word, isEdge c = false :=
            fun m hm => hplain m (List.mem_cons_of_mem _ hm)
          by_cases hw : w = w'
          · subst hw
            obtain rfl := (List.cons.inj (List.append_cancel_left (List.cons.inj hu).2)).2
            rw [ih _ (by simp at hk ⊢; omega) hrest htail hrest'
              (fun m hm => hspelled' m (List.mem_cons_of_mem _ hm)) htail' rfl]
          exfalso
          rcases List.append_eq_append_iff.mp (List.cons.inj hu).2 with ⟨m, rfl, hm⟩ | ⟨m, rfl, hm⟩
          · -- the edge behind the shorter word would lie in the longer one
            obtain ⟨c, m, rfl⟩ := List.exists_cons_of_ne_nil
              fun hnil : m = [] => hw (by rw [hnil, List.append_nil])
            obtain ⟨rfl, -⟩ := List.cons.inj hm
            rw [hplain _ List.mem_cons_self b (by simp)] at hb
            cases hb
          · rw [hm] at hrest'
            refine not_shifted hcalls (fun hnil : m = [] => hw ?_) hrest htail hrest' htail'
            rw [hnil, List.append_nil]

end

end Rewritten

/-! ### Changes at tables only -/

def OnTable (tables : List String) (m : Match) : Prop :=
  Text.isBlank m.left = true ∧ Text.isBlank m.right = true ∧ String.ofList m.word ∈ tables

/-- **The second text differs from the first one only where a table stands between blanks.** -/
def Framed (puts : String → Prop) (tables : List String) (before text : List Char) : Prop :=
  ∃ ms, Rewritten puts ms before text ∧ ∀ m ∈ ms, OnTable tables m

theorem framed_iff_eq {puts : String → Prop} {tables : List String} {before text : List Char}
    (h : ∀ table ∈ tables, ∀ u, ¬ StandsBehind u table.toList before) :
    Framed puts tables before text ↔ text = before := by
  constructor
  · rintro ⟨ms, hms, hon⟩
    cases ms with
    | nil => exact hms.eq_of_nil.symm
    | cons m ms =>
      obtain ⟨hleft, hright, htable⟩ := hon m List.mem_cons_self
      obtain ⟨u, rest, hu⟩ := hms.exists_split List.mem_cons_self
      refine absurd ⟨m.left, m.right, rest, ?_, hleft, hright⟩ (h _ htable u)
      rw [String.toList_ofList, hu]
  · rintro rfl
    exact ⟨[], .refl text, fun m hm => by cases hm⟩

theorem foldlM_substitute_swapAll : ∀ {subs : List Substitution}, (∀ s ∈ subs, Callable s) →
    ∀ script : String,
    subs.foldlM substitute script = .ok (String.ofList (swapAll subs script.toList)) := by
  intro subs
  induction subs with
  | nil =>
    intro _ script
    change Except.ok script = .ok (String.ofList script.toList)
    rw [String.ofList_toList]
  | cons s subs ih =>
    intro hsubs script
    rw [List.foldlM_cons, substitute_eq_swap (hsubs s List.mem_cons_self), ok_bind,
      ih fun s' hs' => hsubs s' (List.mem_cons_of_mem _ hs'), String.toList_ofList]
    rfl

def contentAfter (manifest : Value) (scan : Scripts.TableScan) (content : String) : String :=
  if scan.status = 0 then content
  else
    match substituteAll (chain manifest scan.tables) (Text.unifyNewlines content) with
    | .ok text => text
    | .error _ => content

/-- The calls that a script may get. -/
def callsFor (manifest : Value) (scan : Scripts.TableScan) (x : String) : Prop :=
  ∃ s ∈ (chain manifest scan.tables).items, s.call = x

/-- If a script is rewritten, it has no returns, and whatever is taken for a table is one. -/
def Spares (manifest : Value) (scan : Scripts.TableScan) (content : String) : Prop :=
  scan.status ≠ 0 → (chain manifest scan.tables).stop = none →
    '\r' ∉ content.toList ∧
      ∀ m ∈ replaced (chain manifest scan.tables).items content.toList, OnTable scan.tables m

section

variable {manifest : Value} {scan : Scripts.TableScan} (hl : scan.tables.Nodup)
  (hnamed : ∀ table ∈ scan.tables, isNamed table.toList = true) (hplain : PlainSources manifest)

include hl hnamed hplain

theorem contentAfter_of_stop (hcode : scan.status ≠ 0)
    (hstop : (chain manifest scan.tables).stop = none)
    (content : String) : contentAfter manifest scan content =
      String.ofList (swapAll (chain manifest scan.tables).items
        (Text.unifyNewlines content).toList) := by
  have hfold := foldlM_substitute_swapAll (fun s hs =>
    (callable_of_mem_chain hl hnamed hplain hs).2)
    (Text.unifyNewlines content)
  rw [contentAfter, if_neg hcode, substituteAll, hfold, hstop]
  rfl

theorem contentAfter_of_stop_ne (h : scan.status ≠ 0 → (chain manifest scan.tables).stop ≠ none)
    (content : String) :
    contentAfter manifest scan content = content := by
  rw [contentAfter]
  split
  · rfl
  · rename_i hcode
    have hfold := foldlM_substitute_swapAll (fun s hs =>
      (callable_of_mem_chain hl hnamed hplain hs).2)
      (Text.unifyNewlines content)
    obtain ⟨f, hf⟩ := Option.ne_none_iff_exists'.mp (h hcode)
    rw [substituteAll, hfold, hf]
    rfl

/-- **When a rewritten script differs at its tables only.** -/
theorem framed_iff_spares (content : String) :
    Framed (callsFor manifest scan) scan.tables content.toList
      (contentAfter manifest scan content).toList ↔ Spares manifest scan content := by
  by_cases hrewritten : scan.status ≠ 0 ∧ (chain manifest scan.tables).stop = none
  · obtain ⟨hcode, hstop⟩ := hrewritten
    have hchain := fun s hs => @isCall_of_mem_chain manifest _ hl hnamed hplain s hs
    have hcalls : ∀ x, callsFor manifest scan x → IsCall x := by
      rintro x ⟨s, hs, rfl⟩
      exact (hchain s hs).2
    have hsubs : ∀ s ∈ (chain manifest scan.tables).items,
        isNamed s.table.toList = true ∧ callsFor manifest scan s.call :=
      fun s hs => ⟨hnamed _ (hchain s hs).1, s, hs, rfl⟩
    obtain ⟨ms, hms, hmem⟩ := Rewritten.exists_swapAll hcalls hsubs
      (.refl (Text.unifyNewlines content).toList)
    have hplace : ∀ m, m ∈ ms ↔ m ∈ replaced (chain manifest scan.tables).items
        (Text.unifyNewlines content).toList :=
      fun m => (hmem m).trans (by simp)
    have hspelled : ∀ m ∈ ms, Spelled m.word := fun m hm =>
      spelled_of_mem_replaced (fun s hs => (hsubs s hs).1) ((hplace m).mp hm)
    rw [contentAfter_of_stop hl hnamed hplain hcode hstop, String.toList_ofList]
    constructor
    · rintro ⟨ms', hms', hon⟩ - -
      have htable : ∀ m ∈ ms', isNamed m.word = true := by
        intro m hm
        have h := hnamed _ (hon m hm).2.2
        rwa [String.toList_ofList] at h
      have hedge : ∀ m ∈ ms', ∀ c ∈ m.word, isEdge c = false :=
        fun m hm => not_isEdge_of_mem (htable m hm)
      have hreturn : '\r' ∉ content.toList := by
        intro hmem
        rcases hms.mem_or (hms'.mem_of_isEdge (by decide) hedge hmem) with h | ⟨x, ⟨s, hs, rfl⟩, h⟩
        · exact Text.not_mem_unifyNewlines _ h
        · exact (callable_of_mem_chain hl hnamed hplain hs).2.returnless h
      rw [Text.unifyNewlines_of_not_mem hreturn] at hms hms' hplace
      obtain rfl := Rewritten.unique hcalls hms hspelled hms'
        (fun m hm => spelled_of_isNamed (htable m hm)) hedge
      exact ⟨hreturn, fun m hm => hon m ((hplace m).mpr hm)⟩
    · intro h
      obtain ⟨hreturn, hon⟩ := h hcode hstop
      rw [Text.unifyNewlines_of_not_mem hreturn] at hms hplace ⊢
      exact ⟨ms, hms, fun m hm => hon m ((hplace m).mp hm)⟩
  · rw [contentAfter_of_stop_ne hl hnamed hplain fun hcode hstop => hrewritten ⟨hcode, hstop⟩]
    exact ⟨fun _ hcode hstop => absurd ⟨hcode, hstop⟩ hrewritten,
      fun _ => ⟨[], .refl _, fun m hm => by cases hm⟩⟩

end

/-! ### Files of a run -/

def bytesAfter (manifest : Value) (scan : Scripts.TableScan) (bytes : ByteArray) : ByteArray :=
  match Text.decode bytes with
  | .ok content => (contentAfter manifest scan content).toUTF8
  | .error _ => bytes

/-- The same paths lead to a place, and the file there is the same. -/
structure SameFile (place : List String) (t t' : Tree) : Prop where
  file : ∀ {p : String} {c : ByteArray}, t.follow p = .file place c → t'.follow p = .file place c
  path : ∀ {p : String} {c : ByteArray}, t'.follow p = .file place c →
    ∃ c', t.follow p = .file place c'

section

variable {manifest : Value} {scans : Scripts.TableScans} {t : Tree} {place : List String}
    {path : String}

theorem tree_replaceIn_of_error (status : Status) {f : Fault}
    (hread : t.readText (Path.ofString path).text = .error f) :
    ((replaceIn manifest scans status path).run t).tree = t := by
  rw [replaceIn, Edit.run_bind_error (by rw [Edit.run_ask, hread])]
  rfl

theorem tree_replaceIn (status : Status) {old : ByteArray} {script : String}
    (hfollow : t.follow (Path.ofString path).text = .file place old)
    (hread : t.readText (Path.ofString path).text = .ok script) :
    ((replaceIn manifest scans status path).run t).tree =
      if (scans.get path).status = 0 then t
      else
        match substituteAll (chain manifest (scans.get path).tables) script with
        | .ok text => t.putNode place (.file text.toUTF8)
        | .error _ => t := by
  split
  · rename_i hcode
    rw [replaceIn, Edit.run_bind_ok (by rw [Edit.run_ask, hread])]
    simp [hcode]
  · rename_i hcode
    cases htext : substituteAll (chain manifest (scans.get path).tables) script with
    | ok text => rw [run_replaceIn_eq status hfollow hread hcode htext]
    | error f =>
      have hzero : ((scans.get path).status == 0) = false := by simpa using hcode
      have houtcome := outcome_substituted manifest (scans.get path).tables script t
      rw [htext] at houtcome
      rw [replaceIn, Edit.run_bind_ok (by rw [Edit.run_ask, hread])]
      simp only [Edit.run_ask, hzero, Bool.false_eq_true, if_false]
      rw [Edit.run_bind_error houtcome, tree_substituted]

/-- **What the turn of a path does to its file.** -/
theorem follow_replaceIn (status : Status) {bytes : ByteArray}
    (hfile : t.follow (Path.ofString path).text = .file place bytes) :
    ((replaceIn manifest scans status path).run t).tree.follow (Path.ofString path).text =
      .file place (bytesAfter manifest (scans.get path) bytes) := by
  rw [bytesAfter]
  cases hdecode : Text.decode bytes with
  | error cause =>
    have hread : t.readText (Path.ofString path).text = .error (.badEncoding cause) := by
      rw [Tree.readText, Tree.readBytes, hfile]
      simp only [hdecode]
    rw [tree_replaceIn_of_error status hread, hfile]
  | ok content =>
    have hread : t.readText (Path.ofString path).text = .ok (Text.unifyNewlines content) := by
      rw [Tree.readText, Tree.readBytes, hfile]
      simp only [hdecode]
    have hsame : bytes = content.toUTF8 := Text.eq_toUTF8_of_decode hdecode
    simp only [tree_replaceIn status hfile hread, contentAfter]
    split
    · rw [hfile, hsame]
    · cases substituteAll (chain manifest (scans.get path).tables) (Text.unifyNewlines content) with
      | ok text =>
        simp only
        rw [Tree.follow_putNode (Tree.node?_of_follow hfile), hfile, Tree.Target.withContent,
          if_pos rfl]
      | error f => simp only [hfile, hsame]

theorem tree_replaceIn_cases (status : Status) (path : String) :
    ((replaceIn manifest scans status path).run t).tree = t ∨ ∃ place old new,
      t.follow (Path.ofString path).text = .file place old ∧
        ((replaceIn manifest scans status path).run t).tree = t.putNode place (.file new) := by
  cases hread : t.readText (Path.ofString path).text with
  | error f => exact .inl (tree_replaceIn_of_error status hread)
  | ok script =>
    obtain ⟨place, old, hfollow⟩ := Tree.follow_of_readText hread
    rw [tree_replaceIn status hfollow hread]
    split
    · exact .inl rfl
    · split
      · exact .inr ⟨place, old, _, hfollow, rfl⟩
      · exact .inl rfl

theorem exists_of_follow_replaceIn (status : Status) {p : String} {c : ByteArray}
    (h : ((replaceIn manifest scans status path).run t).tree.follow p = .file place c) :
    ∃ c', t.follow p = .file place c' := by
  rcases @tree_replaceIn_cases manifest scans t status path with hsame | ⟨_, _, _, hfollow, hput⟩
  · rw [hsame] at h
    exact ⟨c, h⟩
  · rw [hput] at h
    exact Tree.exists_of_follow_putNode (Tree.node?_of_follow hfollow) h

theorem sameFile_replaceIn (status : Status)
    (helse : ∀ c, t.follow (Path.ofString path).text ≠ .file place c) :
    SameFile place t ((replaceIn manifest scans status path).run t).tree where
  file := by
    intro p c hp
    rcases @tree_replaceIn_cases manifest scans t status path with hsame
        | ⟨other, old, new, hfollow, hput⟩
    · rw [hsame, hp]
    · rw [hput, Tree.follow_putNode_elsewhere (Tree.node?_of_follow hfollow), hp]
      rw [hp]
      rintro c' hc'
      cases hc'
      exact helse _ hfollow
  path := exists_of_follow_replaceIn status

theorem sameFile_foldl : ∀ {paths : List String} {t : Tree} (status : Status),
    (∀ q ∈ paths, ∀ c, t.follow (Path.ofString q).text ≠ .file place c) →
      SameFile place t ((Edit.foldl (replaceIn manifest scans) status paths).run t).tree := by
  intro paths
  induction paths with
  | nil => intro t status _; exact ⟨fun h => h, fun h => ⟨_, h⟩⟩
  | cons q paths ih =>
    intro t status helse
    have hfirst := @sameFile_replaceIn manifest scans t place q status (helse q List.mem_cons_self)
    rw [Edit.run_foldl_cons, Edit.tree_bind]
    cases ((replaceIn manifest scans status q).run t).outcome with
    | error f => exact hfirst
    | ok status =>
      have hrest := @ih ((replaceIn manifest scans _ q).run t).tree status fun q' hq' c hc => by
        obtain ⟨c', hc'⟩ := hfirst.path hc
        exact helse q' (List.mem_cons_of_mem _ hq') c' hc'
      refine ⟨fun h => hrest.file (hfirst.file h), fun h => ?_⟩
      obtain ⟨c', hc'⟩ := hrest.path h
      exact hfirst.path hc'

/-- **What a run does to a file that one of its paths leads to.**  The turns before and after its
own do not matter, except that a fault in an earlier one ends the run. -/
theorem follow_replace {earlier later : List String} {bytes : ByteArray}
    (hfile : t.follow (Path.ofString path).text = .file place bytes)
    (helse : ∀ q ∈ earlier ++ later, ∀ c, t.follow (Path.ofString q).text ≠ .file place c) :
    ((replace manifest scans (earlier ++ path :: later)).run t).tree.follow
      (Path.ofString path).text = match ((replace manifest scans earlier).run t).outcome with
      | .ok _ => .file place (bytesAfter manifest (scans.get path) bytes)
      | .error _ => .file place bytes := by
  have hearlier := @sameFile_foldl manifest scans place earlier t 0 fun q hq =>
    helse q (List.mem_append_left _ hq)
  have hturn := hearlier.file hfile
  rw [replace, Edit.tree_foldl_append, replace]
  cases ((Edit.foldl (replaceIn manifest scans) 0 earlier).run t).outcome with
  | error f => exact hturn
  | ok status =>
    simp only [Edit.run_foldl_cons, Edit.tree_bind]
    have hown := @follow_replaceIn manifest scans _ place path status bytes hturn
    cases ((replaceIn manifest scans status path).run
        ((Edit.foldl (replaceIn manifest scans) 0 earlier).run t).tree).outcome with
    | error f => exact hown
    | ok status' =>
      refine (sameFile_foldl status' fun q hq c hc => ?_).file hown
      obtain ⟨c', hc'⟩ := exists_of_follow_replaceIn status hc
      obtain ⟨c'', hc''⟩ := hearlier.path hc'
      exact helse q (List.mem_append_right _ hq) c'' hc''

/-- The run does not end with a fault in one of these paths. -/
def Reached (manifest : Value) (scans : Scripts.TableScans) (earlier : List String) (t : Tree) :
    Prop :=
  ∃ status, ((replace manifest scans earlier).run t).outcome = .ok status

/-- **When a run changes a script only at its tables.**  A file that one path leads to, and that
holds a text, holds a text after the run.  The two differ only where a table of the script stands
between blanks, if and only if the script is not rewritten or it has no returns and the patterns of
its tables match nothing but tables between blanks.  If no table stands between blanks, just then
nothing is changed.  A file that is no text stays as it is. -/
theorem replace_framed_iff {earlier later : List String} {bytes : ByteArray}
    (hfile : t.follow (Path.ofString path).text = .file place bytes)
    (helse : ∀ q ∈ earlier ++ later, ∀ c, t.follow (Path.ofString q).text ≠ .file place c)
    (hl : (scans.get path).tables.Nodup)
    (hnamed : ∀ table ∈ (scans.get path).tables, isNamed table.toList = true)
    (hplain : PlainSources manifest) :
    ∃ after, ((replace manifest scans (earlier ++ path :: later)).run t).tree.readBytes
        (Path.ofString path).text = .ok after ∧
      ((∀ content : String, bytes ≠ content.toUTF8) → after = bytes) ∧
      ∀ content : String, bytes = content.toUTF8 → ∃ text : String, after = text.toUTF8 ∧
        (Framed (callsFor manifest (scans.get path))
          (scans.get path).tables content.toList text.toList ↔
            (Reached manifest scans earlier t → Spares manifest (scans.get path) content)) ∧
        ((∀ table ∈ (scans.get path).tables, ∀ u, ¬ StandsBehind u table.toList content.toList) →
          (text = content ↔ (Reached manifest scans earlier t →
            Spares manifest (scans.get path) content))) := by
  have hend : ∃ after, ((replace manifest scans (earlier ++ path :: later)).run t).tree.follow
      (Path.ofString path).text = .file place after ∧
        (Reached manifest scans earlier t ∧ after = bytesAfter manifest (scans.get path) bytes ∨
          ¬ Reached manifest scans earlier t ∧ after = bytes) := by
    have hfollow := @follow_replace manifest scans t place path earlier later bytes hfile helse
    cases houtcome : ((replace manifest scans earlier).run t).outcome with
    | ok status => exact ⟨_, by rw [hfollow, houtcome], .inl ⟨⟨status, houtcome⟩, rfl⟩⟩
    | error f =>
      refine ⟨_, by rw [hfollow, houtcome], .inr ⟨?_, rfl⟩⟩
      rintro ⟨status, hok⟩
      rw [houtcome] at hok
      cases hok
  obtain ⟨after, hafter, hcases⟩ := hend
  refine ⟨after, Tree.readBytes_eq_ok_iff.mpr ⟨place, hafter⟩, fun hno => ?_, ?_⟩
  · rcases hcases with ⟨-, rfl⟩ | ⟨-, rfl⟩
    · rw [bytesAfter]
      cases hdecode : Text.decode bytes with
      | ok content => exact absurd (Text.eq_toUTF8_of_decode hdecode) (hno content)
      | error cause => rfl
    · rfl
  · rintro content rfl
    have htext : ∃ text : String, after = text.toUTF8 ∧
        (Framed (callsFor manifest (scans.get path))
          (scans.get path).tables content.toList text.toList ↔
            (Reached manifest scans earlier t → Spares manifest (scans.get path) content)) := by
      rcases hcases with ⟨hreached, rfl⟩ | ⟨hnot, rfl⟩
      · refine ⟨contentAfter manifest (scans.get path) content, ?_, ?_⟩
        · rw [bytesAfter, Text.decode_toUTF8]
        · rw [framed_iff_spares hl hnamed hplain]
          exact ⟨fun h _ => h, fun h => h hreached⟩
      · exact ⟨content, rfl, fun _ h => absurd h hnot, fun _ =>
          ⟨[], .refl _, fun m hm => by cases hm⟩⟩
    obtain ⟨text, hbytes, hframed⟩ := htext
    refine ⟨text, hbytes, hframed, fun hnone => ?_⟩
    rw [← hframed, framed_iff_eq hnone, String.toList_inj]

end

/-- A script that has its tables between blanks is changed only there. -/
theorem replace_framed_twoUsers :
    let script := "from users join raw.t on a join users "
    let scans : Scripts.TableScans := [("m.sql", ⟨1, ["users", "raw.t"]⟩)]
    ∃ text : String,
      ((replace usersAndRaw scans ["m.sql"]).run (oneScript script)).tree.readBytes "m.sql" =
        .ok text.toUTF8 ∧
      Framed (callsFor usersAndRaw ⟨1, ["users", "raw.t"]⟩) ["users", "raw.t"]
        script.toList text.toList := by
  intro script scans
  have hnamed : ∀ table ∈ ["users", "raw.t"], isNamed table.toList = true := by
    intro table htable
    rcases List.mem_pair.mp htable with rfl | rfl <;> decide
  have hreplaced : replaced (chain usersAndRaw ["users", "raw.t"]).items script.toList =
      [⟨' ', "users".toList, ' '⟩, ⟨' ', "users".toList, ' '⟩, ⟨' ', "raw.t".toList, ' '⟩] := by
    decide +kernel
  obtain ⟨after, hafter, -, htext⟩ :=
    @replace_framed_iff usersAndRaw scans (oneScript script) ["m.sql"] "m.sql" [] []
    script.toUTF8 rfl (fun q hq => by cases hq) (by decide) hnamed plainSources_usersAndRaw
  obtain ⟨text, rfl, hframed, -⟩ := htext script rfl
  refine ⟨text, hafter, hframed.mpr fun _ _ _ => ⟨by decide, fun m hm => ?_⟩⟩
  have hm' : m ∈ replaced (chain usersAndRaw ["users", "raw.t"]).items script.toList := hm
  rw [hreplaced] at hm'
  simp only [List.mem_cons, List.not_mem_nil, or_false] at hm'
  rcases hm' with rfl | rfl | rfl
  · exact ⟨rfl, rfl, by decide⟩
  · exact ⟨rfl, rfl, by decide⟩
  · exact ⟨rfl, rfl, by decide⟩

def noneListed : Value := .record [("nodes", .record []), ("sources", .record [])]

theorem plainSources_noneListed : PlainSources noneListed := by
  intro srcs hsrcs e he
  cases hsrcs
  cases he

/-- **A word that looks like a table is replaced as well**: a dot of the table stands for any
character. -/
theorem replace_lookalike :
    let script := "from raw_t join raw.t on a "
    let text :=
      "from \x7b\x7b source('raw', 't') \x7d\x7d join \x7b\x7b source('raw', 't') \x7d\x7d on a "
    let scans : Scripts.TableScans := [("m.sql", ⟨1, ["raw.t"]⟩)]
    ((replace noneListed scans ["m.sql"]).run (oneScript script)).tree.readBytes "m.sql" =
      .ok text.toUTF8 ∧ ¬ Framed (fun _ => True) ["raw.t"] script.toList text.toList := by
  intro script text scans
  have hnamed : ∀ table ∈ ["raw.t"], isNamed table.toList = true := by
    intro table htable
    rw [List.mem_singleton.mp htable]
    decide
  constructor
  · have hcontent : contentAfter noneListed ⟨1, ["raw.t"]⟩ script = text := by
      rw [contentAfter_of_stop (by decide) hnamed plainSources_noneListed (by decide) rfl,
        ← String.toList_inj, String.toList_ofList]
      decide +kernel
    have hbytes : bytesAfter noneListed ⟨1, ["raw.t"]⟩ script.toUTF8 = text.toUTF8 := by
      rw [bytesAfter, Text.decode_toUTF8]
      exact congrArg String.toUTF8 hcontent
    have hfollow := @follow_replace noneListed scans (oneScript script) ["m.sql"] "m.sql" []
      [] script.toUTF8 rfl fun q hq => by cases hq
    exact Tree.readBytes_eq_ok_iff.mpr ⟨["m.sql"],
      hfollow.trans (congrArg (Tree.Target.file ["m.sql"]) hbytes)⟩
  · rintro ⟨ms, hms, hon⟩
    cases ms with
    | nil => exact absurd hms.eq_of_nil (by decide)
    | cons m ms =>
      obtain ⟨-, -, htable⟩ := hon m List.mem_cons_self
      have hword : m.word = "raw.t".toList := by
        rw [← List.mem_singleton.mp htable, String.toList_ofList]
      obtain ⟨before, rest, rest', hscript, htext⟩ := hms.exists_before
      rw [hword] at hscript
      -- the texts part behind the first blank, and no table begins there or before
      have hsame : script.toList.take (before.length + 1) =
          text.toList.take (before.length + 1) := by
        rw [hscript, htext]
        simp [List.take_append]
      have hdrop : "raw.t".toList <+: script.toList.drop (before.length + 1) :=
        ⟨m.right :: rest, by rw [hscript]; simp [List.drop_append]⟩
      have hshort : before.length < 5 := by
        by_contra hlong
        have hsix := congrArg (List.take 6) hsame
        rw [List.take_take, List.take_take, Nat.min_eq_left (by omega)] at hsix
        exact absurd hsix (by decide)
      have hnone : ∀ n < 5, ¬ "raw.t".toList <+: script.toList.drop (n + 1) := by decide
      exact hnone _ hshort hdrop

end ProjectLint.TableNames
