import ProjectLint.Proofs.TablePattern

/-!
# Calls among the words of a script

A script is cut at its edges into words (`cut`), and the tables of a script are found word by word.
While tables are replaced, calls stand among the words (`Cell`).

A name is never found inside a call: a call has a mark behind every one of its blanks, or two marks
together behind a word, and no name with single dots reaches over two marks (`mem_of_spells_marks`).
So the text with calls is searched as if the calls were not there, and `swap` on the text becomes
`put` on the words (`swap_eq_put`).
-/

namespace ProjectLint.TableNames

/-! ### Names do not reach over marks -/

variable {name : List Char}

variable {c : Char} {rest x : List Char}

theorem isNameChar_head (h : isNamed (c :: name) = true) : isNameChar c = true := by
  cases name with
  | nil => exact h
  | cons d rest =>
    by_cases hd : d = '.'
    · subst hd
      rw [isNamed, Bool.and_eq_true] at h
      exact h.1
    · rw [isNamed, Bool.and_eq_true] at h
      · exact h.1
      · exact List.cons_ne_nil _ _
      · exact fun _ he => hd (List.cons.inj he).1

theorem isNameChar_or_dot (h : isNamed name = true) : ∀ c ∈ name, isNameChar c = true ∨
    c = '.' := by
  fun_induction isNamed name with
  | case1 => cases h
  | case2 c =>
    intro d hd
    rw [List.mem_singleton.mp hd]
    exact .inl h
  | case3 c rest ih =>
    rw [Bool.and_eq_true] at h
    intro d hd
    rcases List.mem_cons.mp hd with rfl | hd
    · exact .inl h.1
    rcases List.mem_cons.mp hd with rfl | hd
    · exact .inr rfl
    · exact ih h.2 d hd
  | case4 c rest _ _ ih =>
    rw [Bool.and_eq_true] at h
    exact List.forall_mem_cons.mpr ⟨.inl h.1, ih h.2⟩

theorem isEdge_dot : isEdge '.' = false := by decide

theorem not_isEdge_of_mem (h : isNamed name = true) : ∀ c ∈ name, isEdge c = false := by
  intro c hc
  rcases isNameChar_or_dot h c hc with hn | rfl
  · exact not_isEdge_of_isNameChar hn
  · exact isEdge_dot

theorem eq_of_fits {d : Char} (hc : isNameChar c = true) (h : fits c d = true) : c = d := by
  rw [fits, if_neg (ne_dot_of_isNameChar hc)] at h
  exact eq_of_beq h

/-- A name that begins a text and has an edge behind it ends before the first two marks that stand
together. -/
theorem mem_of_spells_marks {p q b : Char} (hp : isNameChar p = false) (hpe : isEdge p = false)
    (hq : isNameChar q = false) (hb : isEdge b = true) (rest after : List Char)
    (h : isNamed name = true) :
    ∀ {y : List Char}, spells name (y ++ p :: q :: rest) = some (b :: after) →
      ∃ w v, y = w ++ b :: v ∧ spells name w = some [] := by
  -- a character of a name fits no mark, so the first one stands before the marks
  have hfirst : ∀ {c : Char} {name y text : List Char}, isNameChar c = true →
      spells (c :: name) (y ++ p :: q :: rest) = some text →
        ∃ d y', y = d :: y' ∧ fits c d = true ∧ spells name (y' ++ p :: q :: rest) = some text := by
    intro c name y text hc hs
    obtain ⟨d, text', hy, hf, hs⟩ := spells_cons_eq_some_iff.mp hs
    cases y with
    | nil =>
      rw [eq_of_fits hc hf, ← (List.cons.inj hy).1, hp] at hc
      cases hc
    | cons e y =>
      obtain ⟨rfl, rfl⟩ := List.cons.inj hy
      exact ⟨e, y, rfl, hf, hs⟩
  have hword : ∀ {c d : Char} {name w : List Char}, fits c d = true → spells name w = some [] →
      spells (c :: name) (d :: w) = some [] :=
    fun hf hs => spells_cons_eq_some_iff.mpr ⟨_, _, rfl, hf, hs⟩
  fun_induction isNamed name with
  | case1 => cases h
  | case2 c =>
    intro y hs
    obtain ⟨d, y, rfl, hf, hs⟩ := hfirst h hs
    cases y with
    | nil =>
      rw [← (List.cons.inj (Option.some.inj hs)).1, hpe] at hb
      cases hb
    | cons e y =>
      obtain ⟨rfl, -⟩ := List.cons.inj (Option.some.inj hs)
      exact ⟨[d], y, rfl, hword hf rfl⟩
  | case3 c name ih =>
    rw [Bool.and_eq_true] at h
    intro y hs
    obtain ⟨d, y, rfl, hf, hs⟩ := hfirst h.1 hs
    obtain ⟨e, text, hy, hd, hs⟩ := spells_cons_eq_some_iff.mp hs
    cases y with
    | nil =>
      -- the dot stands for the first mark, and no name begins with the second
      obtain ⟨-, rfl⟩ := List.cons.inj hy
      cases name with
      | nil => exact absurd h.2 (by decide)
      | cons k name =>
        obtain ⟨q', text, hq', hk, -⟩ := spells_cons_eq_some_iff.mp hs
        have hname := isNameChar_head h.2
        rw [eq_of_fits hname hk, ← (List.cons.inj hq').1, hq] at hname
        cases hname
    | cons e' y =>
      obtain ⟨rfl, rfl⟩ := List.cons.inj hy
      obtain ⟨w, v, rfl, hw⟩ := ih h.2 hs
      exact ⟨d :: e' :: w, v, rfl, hword hf (hword hd hw)⟩
  | case4 c name _ _ ih =>
    rw [Bool.and_eq_true] at h
    intro y hs
    obtain ⟨d, y, rfl, hf, hs⟩ := hfirst h.1 hs
    obtain ⟨w, v, rfl, hw⟩ := ih h.2 hs
    exact ⟨d :: w, v, rfl, hword hf hw⟩

/-! ### Silent texts -/

def Silent (name x : List Char) : Prop :=
  ∀ u v rest, x = u ++ v → v ≠ [] → hitAt name (v ++ rest) = none

theorem hitAt_eq_none_of_not_isEdge (h : isEdge c = false) : hitAt name (c :: rest) = none := by
  rw [hitAt, h]

theorem hitAt_eq_none_of_fits {a p : Char} (h : isNamed name = true) (hp : isNameChar p = false) :
    hitAt name (a :: p :: rest) = none := by
  cases name with
  | nil => cases h
  | cons c name =>
    have hf : fits c p = false := by
      rw [Bool.eq_false_iff]
      intro hf
      rw [← eq_of_fits (isNameChar_head h) hf, isNameChar_head h] at hp
      cases hp
    simp only [hitAt, spells, hf, Bool.false_eq_true, if_false]
    cases isEdge a <;> rfl

theorem silent_of_not_isEdge {x : List Char} (h : ∀ c ∈ x, isEdge c = false) : Silent name x := by
  rintro u v rest rfl hv
  obtain ⟨c, v, rfl⟩ := List.exists_cons_of_ne_nil hv
  exact hitAt_eq_none_of_not_isEdge (h c (by simp))

theorem Silent.tail (h : Silent name (c :: x)) : Silent name x := by
  rintro u v rest rfl hv
  exact h (c :: u) v rest rfl hv

theorem Silent.hitAt_eq_none (h : Silent name (c :: x)) (text : List Char) :
    hitAt name (c :: (x ++ text)) = none :=
  h [] (c :: x) text rfl (List.cons_ne_nil _ _)

theorem Silent.append {y : List Char} (hx : Silent name x) (hy : Silent name y) :
    Silent name (x ++ y) := by
  intro u v rest huv hv
  rcases List.append_eq_append_iff.mp huv with ⟨m, rfl, rfl⟩ | ⟨m, rfl, rfl⟩
  · exact hy m v rest rfl hv
  · cases m with
    | nil => exact hy [] y rest rfl (by simpa using hv)
    | cons c m =>
      rw [List.append_assoc]
      exact hx u (c :: m) (y ++ rest) rfl (List.cons_ne_nil _ _)

theorem silent_mark (h : isNamed name = true) {a p : Char} (hp : isNameChar p = false)
    (hpe : isEdge p = false) :
    Silent name [a, p] := by
  intro u v rest huv hv
  cases u with
  | nil =>
    obtain rfl : v = [a, p] := huv.symm
    exact hitAt_eq_none_of_fits h hp
  | cons c u =>
    refine @silent_of_not_isEdge name [p] ?_ u v rest (List.cons.inj huv).2 hv
    intro d hd
    rwa [List.mem_singleton.mp hd]

theorem silent_word (h : isNamed name = true) {a p q : Char} {y : List Char}
    (hy : ∀ c ∈ y, isEdge c = false)
    (hp : isNameChar p = false) (hpe : isEdge p = false) (hq : isNameChar q = false)
    (hqe : isEdge q = false) :
    Silent name (a :: (y ++ [p, q])) := by
  have htail : ∀ c ∈ y ++ [p, q], isEdge c = false := by
    intro c hc
    rcases List.mem_append.mp hc with hc | hc
    · exact hy c hc
    · rcases List.mem_cons.mp hc with rfl | hc
      · exact hpe
      · rwa [List.mem_singleton.mp hc]
  intro u v rest huv hv
  cases u with
  | nil =>
    obtain rfl : v = a :: (y ++ [p, q]) := huv.symm
    rw [Option.eq_none_iff_forall_ne_some]
    rintro ⟨a', b, after⟩ hit
    obtain ⟨text, htext, -, hs, hb⟩ := hitAt_eq_some_iff.mp hit
    have hrest : text = y ++ p :: q :: rest := by simpa using (List.cons.inj htext).2.symm
    rw [hrest] at hs
    obtain ⟨w, v, hw, -⟩ := mem_of_spells_marks hp hpe hq hb rest after h hs
    rw [hy b (by simp [hw])] at hb
    cases hb
  | cons c u => exact silent_of_not_isEdge htail u v rest (List.cons.inj huv).2 hv

/-! ### Calls -/

theorem not_isEdge_of_all {text : List Char} (h : text.all (fun c => !isEdge c) = true) :
    ∀ c ∈ text, isEdge c = false := by
  intro c hc
  have hedge := List.all_eq_true.mp h c hc
  rwa [Bool.not_eq_true'] at hedge

theorem silent_of_all (h : x.all (fun c => !isEdge c) = true) : Silent name x :=
  silent_of_not_isEdge (not_isEdge_of_all h)

/-- **No name is found in a call**, if none is found in what it is given. -/
theorem silent_call (h : isNamed name = true) (function : List Char) {args : List Char}
    (hfunction : function.all (fun c => !isEdge c) = true) (hargs : Silent name args) :
    Silent name (['\x7b', '\x7b'] ++ ((' ' :: (function ++ ['(', '\x27'])) ++
      (args ++ (['\x27', ')'] ++ ([' ', '\x7d'] ++ ['\x7d']))))) := by
  refine (silent_of_all (by decide)).append
    ((silent_word h (not_isEdge_of_all hfunction) ?_ ?_ ?_ ?_).append
    (hargs.append ((silent_of_all (by decide)).append
      ((silent_mark h ?_ ?_).append (silent_of_all (by decide))))))
  all_goals decide

theorem toList_refCall (x : String) : (refCall x).toList = ['\x7b', '\x7b'] ++ ' ' :: 'r' ::
    (['e', 'f', '(', '\x27'] ++ (x.toList ++ (['\x27', ')'] ++ ' ' :: '\x7d' :: ['\x7d']))) := by
  simp [refCall, String.toList_append]

theorem toList_sourceCallText (x y : String) : (sourceCallText x y).toList =
    ['\x7b', '\x7b'] ++ ' ' :: 's' :: (['o', 'u', 'r', 'c', 'e', '(', '\x27'] ++
      (x.toList ++ (['\x27', ','] ++ ' ' :: '\x27' ::
        (y.toList ++ (['\x27', ')'] ++ ' ' :: '\x7d' :: ['\x7d']))))) := by
  simp [sourceCallText, String.toList_append]

theorem silent_refCall (h : isNamed name = true) {x : String}
    (hx : ∀ c ∈ x.toList, isEdge c = false) : Silent name (refCall x).toList := by
  rw [toList_refCall]
  exact silent_call h ['r', 'e', 'f'] (by decide) (silent_of_not_isEdge hx)

theorem silent_sourceCallText (h : isNamed name = true) {x y : String}
    (hx : ∀ c ∈ x.toList, isEdge c = false) (hy : ∀ c ∈ y.toList, isEdge c = false) :
    Silent name (sourceCallText x y).toList := by
  have hargs : Silent name (x.toList ++ (['\x27', ','] ++ ([' ', '\x27'] ++ y.toList))) := by
    refine (silent_of_not_isEdge hx).append ((silent_of_all (by decide)).append
      ((silent_mark h ?_ ?_).append (silent_of_not_isEdge hy)))
    all_goals decide
  have hcall := silent_call h ['s', 'o', 'u', 'r', 'c', 'e'] (by decide) hargs
  rw [toList_sourceCallText]
  simpa using hcall

/-! ### Words and calls -/

def cut : List Char → List Char × List (Char × List Char)
  | [] => ([], [])
  | c :: rest =>
    if isEdge c then ([], (c, (cut rest).1) :: (cut rest).2) else (c :: (cut rest).1, (cut rest).2)

/-- What stands in the place of a word: the word itself, or the call for the table that it names. -/
inductive Cell where
  | word (w : List Char)
  | call (s : Substitution)

def Cell.before : Cell → List Char
  | .word w => w
  | .call s => s.table.toList

/-- The text that a cell has now. -/
def Cell.after : Cell → List Char
  | .word w => w
  | .call s => s.call.toList

def wordsBefore (ps : List (Char × Cell)) : List (Char × List Char) :=
  ps.map fun p => (p.1, p.2.before)

def join (es : List (Char × List Char)) : List Char := es.flatMap fun e => e.1 :: e.2

/-- The text of edges with cells. -/
def after (ps : List (Char × Cell)) : List Char := ps.flatMap fun p => p.1 :: p.2.after

/-- Puts the call of a substitution in place of the first `n` words that are its table and have an
edge behind them.  The word behind such a word is passed over, since its edge is used up. -/
def put (s : Substitution) : Nat → List (Char × Cell) → List (Char × Cell)
  | 0, ps => ps
  | _ + 1, [] => []
  | n + 1, (a, .word w) :: (b, x) :: rest =>
    if w = s.table.toList then (a, .call s) :: (b, x) :: put s n rest
    else (a, .word w) :: put s (n + 1) ((b, x) :: rest)
  | n + 1, p :: rest => p :: put s (n + 1) rest

theorem join_cut (text : List Char) : (cut text).1 ++ join (cut text).2 = text := by
  induction text with
  | nil => rfl
  | cons c rest ih =>
    rw [cut]
    split
    · change c :: ((cut rest).1 ++ join (cut rest).2) = _
      rw [ih]
    · rw [List.cons_append, ih]

theorem not_isEdge_cut (text : List Char) : ∀ c ∈ (cut text).1, isEdge c = false := by
  induction text with
  | nil => simp [cut]
  | cons c rest ih =>
    rw [cut]
    split
    · simp
    · rename_i h
      intro d hd
      rcases List.mem_cons.mp hd with rfl | hd
      · simpa using h
      · exact ih d hd

theorem isEdge_of_mem_cut (text : List Char) :
    ∀ e ∈ (cut text).2, isEdge e.1 = true ∧ ∀ c ∈ e.2, isEdge c = false := by
  induction text with
  | nil => simp [cut]
  | cons c rest ih =>
    rw [cut]
    split
    · intro e he
      rcases List.mem_cons.mp he with rfl | he
      · exact ⟨‹_›, not_isEdge_cut rest⟩
      · exact ih e he
    · exact ih

theorem eq_of_append_edge {y u v : List Char} {b b' : Char} (hx : ∀ c ∈ x, isEdge c = false)
    (hy : ∀ c ∈ y, isEdge c = false) (hb : isEdge b = true) (hb' : isEdge b' = true)
    (h : x ++ b :: u = y ++ b' :: v) :
    x = y := by
  induction x generalizing y with
  | nil =>
    cases y with
    | nil => rfl
    | cons d y =>
      rw [(List.cons.inj h).1, hy d List.mem_cons_self] at hb
      cases hb
  | cons c x ih =>
    cases y with
    | nil =>
      rw [← (List.cons.inj h).1, hx c List.mem_cons_self] at hb'
      cases hb'
    | cons d y =>
      obtain ⟨rfl, htail⟩ := List.cons.inj h
      rw [ih (fun c hc => hx c (List.mem_cons_of_mem _ hc))
        (fun c hc => hy c (List.mem_cons_of_mem _ hc)) htail]

/-! ### Swapping names among words and calls -/

/-- A substitution that can be made with a pattern and a template. -/
structure Callable (s : Substitution) : Prop where
  named : isNamed s.table.toList = true
  begins : ∃ more, s.call.toList = '\x7b' :: '\x7b' :: more ∧ '\\' ∉ more
  silent : ∀ name, isNamed name = true → Silent name s.call.toList
  returnless : '\r' ∉ s.call.toList

/-- Edges are edges, words have none, and calls can be made. -/
structure Laid (ps : List (Char × Cell)) : Prop where
  edge : ∀ p ∈ ps, isEdge p.1 = true
  word : ∀ p ∈ ps, ∀ c ∈ p.2.before, isEdge c = false
  call : ∀ p ∈ ps, ∀ s, p.2 = .call s → Callable s

variable {ps : List (Char × Cell)}

theorem Laid.tail {p : Char × Cell} (h : Laid (p :: ps)) : Laid ps :=
  ⟨fun q hq => h.edge q (List.mem_cons_of_mem _ hq), fun q hq =>
    h.word q (List.mem_cons_of_mem _ hq), fun q hq => h.call q (List.mem_cons_of_mem _ hq)⟩

theorem Laid.silent_after {p : Char × Cell} (h : Laid (p :: ps)) (hn : isNamed name = true) :
    Silent name p.2.after := by
  cases hp : p.2 with
  | word w =>
    have hw := h.word p List.mem_cons_self
    rw [hp] at hw
    exact silent_of_not_isEdge hw
  | call s => exact (h.call p List.mem_cons_self s hp).silent name hn

/-- Between edges the pattern of a name fits nothing but the name itself. -/
def Exact (name text : List Char) : Prop :=
  ∀ u a w b v, text = u ++ a :: (w ++ b :: v) → isEdge a = true → isEdge b = true →
    spells name w = some [] → w = name

theorem Exact.of_append {x text : List Char} (h : Exact name (x ++ text)) : Exact name text := by
  rintro u a w b v rfl
  exact h (x ++ u) a w b v (by rw [List.append_assoc])

theorem spells_append {rest : List Char} : ∀ {name w : List Char}, spells name w = some [] →
    spells name (w ++ rest) = some rest ∧ w.length = name.length := by
  intro name
  induction name with
  | nil =>
    intro w h
    cases h
    exact ⟨rfl, rfl⟩
  | cons c name ih =>
    intro w h
    obtain ⟨d, w, rfl, hf, h⟩ := spells_cons_eq_some_iff.mp h
    obtain ⟨hs, hlen⟩ := ih h
    exact ⟨spells_cons_eq_some_iff.mpr ⟨d, w ++ rest, rfl, hf, hs⟩,
      by rw [List.length_cons, hlen, List.length_cons]⟩

def isExact (name : List Char) : List Char → Bool
  | [] => true
  | a :: rest =>
    ((hitAt name (a :: rest)).isNone || rest.take name.length == name) && isExact name rest

theorem exact_of_isExact : ∀ {text : List Char}, isExact name text = true → Exact name text := by
  intro text
  induction text with
  | nil =>
    intro _ u a w b v h
    exact absurd h (by simp)
  | cons c text ih =>
    intro h u a w b v htext ha hb hs
    rw [isExact, Bool.and_eq_true, Bool.or_eq_true] at h
    cases u with
    | nil =>
      obtain ⟨rfl, htail⟩ := List.cons.inj htext
      obtain ⟨hspells, hlen⟩ := @spells_append (b :: v) _ _ hs
      have hhit : hitAt name (c :: text) = some (c, b, v) :=
        hitAt_eq_some_iff.mpr ⟨text, rfl, ha, by rw [htail, hspells], hb⟩
      rcases h.1 with hnone | htake
      · rw [hhit] at hnone
        cases hnone
      · rw [htail, ← hlen, List.take_left, beq_iff_eq] at htake
        exact htake
    | cons d u => exact ih h.2 u a w b v (List.cons.inj htext).2 ha hb hs

theorem spells_self (name text : List Char) : spells name (name ++ text) = some text := by
  induction name with
  | nil => rfl
  | cons c name ih =>
    have hf : fits c c = true := by
      rw [fits]
      split
      · rename_i hc
        rw [hc]
        decide
      · exact beq_self_eq_true c
    rw [List.cons_append, spells, if_pos hf, ih]

/-- A name that is found in the text with calls is found in the script as well. -/
theorem spells_join_of_spells_after (hn : isNamed name = true) {b : Char} {v : List Char}
    (hb : isEdge b = true) :
    ∀ {ps : List (Char × Cell)} {y : List Char}, Laid ps →
      spells name (y ++ after ps) = some (b :: v) →
        ∃ w v', y ++ join (wordsBefore ps) = w ++ b :: v' ∧ spells name w = some [] := by
  intro ps
  induction ps with
  | nil =>
    intro y _ hs
    obtain ⟨w, hw, hf⟩ := exists_of_spells_eq_some hs
    exact ⟨w, v, hw, hf⟩
  | cons p ps ih =>
    intro y hl hs
    obtain ⟨e, x⟩ := p
    cases x with
    | word w₁ =>
      obtain ⟨w, v', hw, hf⟩ := @ih (y ++ e :: w₁) hl.tail (by simpa [after, Cell.after] using hs)
      exact ⟨w, v', by simpa [join, wordsBefore, Cell.before] using hw, hf⟩
    | call s =>
      obtain ⟨more, hmore, -⟩ := (hl.call _ List.mem_cons_self s rfl).begins
      have hs' : spells name ((y ++ [e]) ++ '\x7b' :: '\x7b' :: (more ++ after ps)) =
          some (b :: v) := by
        simpa [after, Cell.after, hmore] using hs
      obtain ⟨w, v', hw, hf⟩ := mem_of_spells_marks (by decide) (by decide)
        (by decide) hb _ _ hn hs'
      refine ⟨w, v' ++ (s.table.toList ++ join (wordsBefore ps)), ?_, hf⟩
      calc y ++ join (wordsBefore ((e, .call s) :: ps))
          = (y ++ [e]) ++ (s.table.toList ++ join (wordsBefore ps)) := by
            simp [join, wordsBefore, Cell.before]
        _ = w ++ b :: (v' ++ (s.table.toList ++ join (wordsBefore ps))) := by rw [hw]; simp

/-- A name is found at an edge exactly if the word behind it is the name and an edge follows. -/
theorem hitAt_word (hn : isNamed name = true) {a : Char} {w : List Char} (ha : isEdge a = true)
    (hw : ∀ c ∈ w, isEdge c = false) (hl : Laid ps)
    (hexact : Exact name (a :: (w ++ join (wordsBefore ps)))) :
    hitAt name (a :: (w ++ after ps)) =
      match ps with
      | [] => none
      | (b, x) :: rest => if w = name then some (a, b, x.after ++ after rest) else none := by
  cases ps with
  | nil =>
    rw [Option.eq_none_iff_forall_ne_some]
    rintro ⟨a', b, v⟩ hit
    obtain ⟨text, htext, -, hs, hb⟩ := hitAt_eq_some_iff.mp hit
    obtain ⟨w', hw', -⟩ := exists_of_spells_eq_some hs
    have hmem : b ∈ w := by
      have : w ++ after [] = text := (List.cons.inj htext).2
      rw [show w = text by simpa [after] using this, hw']
      simp
    rw [hw b hmem] at hb
    cases hb
  | cons p rest =>
    obtain ⟨b, x⟩ := p
    have hb := hl.edge _ List.mem_cons_self
    by_cases hname : w = name
    · simp only [if_pos hname]
      refine hitAt_eq_some_iff.mpr ⟨_, rfl, ha, ?_, hb⟩
      rw [hname, spells_self]
      rfl
    · simp only [if_neg hname]
      rw [Option.eq_none_iff_forall_ne_some]
      rintro ⟨a', b', v⟩ hit
      obtain ⟨text, htext, -, hs, hb'⟩ := hitAt_eq_some_iff.mp hit
      rw [← (List.cons.inj htext).2] at hs
      obtain ⟨w', v', hw', hf⟩ := spells_join_of_spells_after hn hb' hl hs
      have hw'name : w' = name := hexact [] a w' b' v' (by rw [hw', List.nil_append]) ha hb' hf
      subst hw'name
      have hjoin : w ++ b :: (x.before ++ join (wordsBefore rest)) = w' ++ b' :: v' := by
        rw [← hw']
        simp [join, wordsBefore]
      exact hname (eq_of_append_edge hw (not_isEdge_of_mem hn) hb hb' hjoin)

theorem swap_nil (name call : List Char) (n : Nat) : swap name call n [] = [] := by
  cases n <;> rfl

theorem swap_cons_of_none (call : List Char) (n : Nat) (h : hitAt name (c :: rest) = none) :
    swap name call n (c :: rest) = c :: swap name call n rest := by
  cases n with
  | zero => rfl
  | succ n =>
    rw [swap, swap, firstHit, h]
    cases firstHit name rest with
    | none => rfl
    | some found => rfl

theorem swap_cons_of_some {v : List Char} (call : List Char) {a b : Char} (n : Nat)
    (h : hitAt name (a :: rest) = some (a, b, v)) :
    swap name call (n + 1) (a :: rest) = a :: (call ++ b :: swap name call n v) := by
  rw [swap, firstHit, h]
  rfl

theorem Silent.swap_append (call : List Char) (n : Nat) (text : List Char) (h : Silent name x) :
    swap name call n (x ++ text) = x ++ swap name call n text := by
  induction x with
  | nil => rfl
  | cons c x ih =>
    rw [List.cons_append, swap_cons_of_none call n (h.hitAt_eq_none text), ih h.tail,
      List.cons_append]

theorem after_cons (p : Char × Cell) (ps : List (Char × Cell)) :
    after (p :: ps) = p.1 :: (p.2.after ++ after ps) := rfl

theorem join_wordsBefore_cons (p : Char × Cell) (ps : List (Char × Cell)) :
    join (wordsBefore (p :: ps)) = p.1 :: (p.2.before ++ join (wordsBefore ps)) := rfl

/-- **Swapping names in the text is putting calls in place of words.** -/
theorem swap_eq_put {s : Substitution} (hs : Callable s) (n : Nat) (ps : List (Char × Cell))
    (hl : Laid ps) (hexact : Exact s.table.toList (join (wordsBefore ps))) :
    swap s.table.toList s.call.toList n (after ps) = after (put s n ps) := by
  have hn := hs.named
  fun_induction put s n ps with
  | case1 ps => rfl
  | case2 n => exact swap_nil _ _ _
  | case3 n a b x rest ih =>
    -- the word is the table: its edges are used up, and the search goes on in the next word
    have hit := hitAt_word hn (hl.edge _ List.mem_cons_self)
      (hl.word _ List.mem_cons_self) hl.tail hexact
    simp only [Cell.before, if_true] at hit
    have htail : Exact s.table.toList (join (wordsBefore rest)) := by
      rw [join_wordsBefore_cons, join_wordsBefore_cons] at hexact
      refine @Exact.of_append _ (a :: (s.table.toList ++ b :: x.before)) _ ?_
      simpa [Cell.before] using hexact
    rw [after_cons, Cell.after, swap_cons_of_some _ _ hit, (hl.tail.silent_after hn).swap_append,
      ih hl.tail.tail htail]
    rfl
  | case4 n a w b x rest hne ih =>
    have hit := hitAt_word hn (hl.edge _ List.mem_cons_self)
      (hl.word _ List.mem_cons_self) hl.tail hexact
    simp only [Cell.before, hne, if_false] at hit
    have htail : Exact s.table.toList (join (wordsBefore ((b, x) :: rest))) :=
      @Exact.of_append _ (a :: w) _ hexact
    have hsilent : Silent s.table.toList w := silent_of_not_isEdge (hl.word _ List.mem_cons_self)
    rw [after_cons, Cell.after, swap_cons_of_none _ _ hit, hsilent.swap_append, ih hl.tail htail]
    rfl
  | case5 n p rest hlast ih =>
    have htail : Exact s.table.toList (join (wordsBefore rest)) :=
      @Exact.of_append _ (p.1 :: p.2.before) _ hexact
    have hit : hitAt s.table.toList (after (p :: rest)) = none := by
      obtain ⟨a, x⟩ := p
      cases x with
      | word w =>
        cases rest with
        | nil =>
          exact hitAt_word hn (hl.edge _ List.mem_cons_self) (hl.word _ List.mem_cons_self) hl.tail
            hexact
        | cons q rest => exact absurd rfl (hlast a w q.1 q.2 rest rfl)
      | call s' =>
        obtain ⟨more, hmore, -⟩ := (hl.call _ List.mem_cons_self s' rfl).begins
        rw [after_cons, Cell.after, hmore]
        exact hitAt_eq_none_of_fits hn (by decide)
    rw [after_cons] at hit ⊢
    rw [swap_cons_of_none _ _ hit, (hl.silent_after hn).swap_append, ih hl.tail htail]
    rfl

end ProjectLint.TableNames
