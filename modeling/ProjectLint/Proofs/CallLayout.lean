import Mathlib.Data.List.Basic
import ProjectLint.Proofs.Files
import ProjectLint.Script.Calls

/-!
# Calls on the lines of a script

A script is laid out as calls with other text before, between and behind them.  The argument of a
call reaches to the last call that is closed on the same line, so the calls of one line are found as
**one call**, which has all that stands between the first opening and the last closing for its
argument (`gather`).  That this is what the search finds is `callsFrom_textOf`: calls with a line
end between them are found one by one, and those without are not.
-/

namespace ProjectLint.Script

/-! ### Layouts -/

def isPlainChar (c : Char) : Bool :=
  !Text.isBlank c && !(['\'', '"', '(', ')', '\x7b', '\x7d', ','].contains c)

structure PlainName where
  chars : List Char
  plain : ∀ c ∈ chars, isPlainChar c = true

def PlainName.text (n : PlainName) : String := String.ofList n.chars

/-- Text without braces. -/
structure Fragment where
  chars : List Char
  noBrace : ∀ c ∈ chars, c ≠ '\x7b' ∧ c ≠ '\x7d'

def Fragment.Breaks (f : Fragment) : Prop := '\n' ∈ f.chars ∨ '\r' ∈ f.chars

/-- A call as it is usually written. -/
inductive PlainCall where
  | ref (model : PlainName)
  | source (source table : PlainName)

namespace PlainCall

def callee : PlainCall → Callee
  | .ref _ => .ref
  | .source _ _ => .source

def opening : PlainCall → List Char
  | .ref _ => ['\x7b', '\x7b', ' ', 'r', 'e', 'f', '(']
  | .source _ _ => ['\x7b', '\x7b', ' ', 's', 'o', 'u', 'r', 'c', 'e', '(']

def argument : PlainCall → List Char
  | .ref m => '\'' :: (m.chars ++ ['\''])
  | .source s t => '\'' :: (s.chars ++ '\'' :: ',' :: ' ' :: '\'' :: (t.chars ++ ['\'']))

def closing : List Char := [')', ' ', '\x7d', '\x7d']

end PlainCall

/-- A call and the text behind it. -/
abbrev Piece := PlainCall × Fragment

def textOf : List Piece → List Char
  | [] => []
  | (p, f) :: rest => p.opening ++ (p.argument ++ (PlainCall.closing ++ (f.chars ++ textOf rest)))

/-- A script: text, and calls with the text behind each. -/
structure Layout where
  lead : Fragment
  pieces : List Piece

namespace Layout

def text (l : Layout) : String := String.ofList (l.lead.chars ++ textOf l.pieces)

/-- Between two calls there is a line end. -/
def OnePerLine (l : Layout) : Prop := ∀ piece ∈ l.pieces.dropLast, piece.2.Breaks

end Layout

/-! ### Characters of a call -/

theorem PlainName.ne_of_mem {n : PlainName} {c d : Char} (hc : c ∈ n.chars)
    (hd : isPlainChar d = false) : c ≠ d := by
  rintro rfl
  rw [n.plain c hc] at hd
  cases hd

theorem PlainCall.of_mem_opening {p : PlainCall} {c : Char} (hc : c ∈ p.opening) :
    c ≠ '\n' ∧ c ≠ '\r' ∧ c ≠ ')' := by
  have hall : ∀ d ∈ p.opening, d ≠ '\n' ∧ d ≠ '\r' ∧ d ≠ ')' := by
    cases p <;> simp [opening]
  exact hall c hc

theorem PlainCall.of_mem_argument {p : PlainCall} {c : Char} (hc : c ∈ p.argument) :
    c ≠ '\n' ∧ c ≠ '\r' ∧ c ≠ ')' := by
  have hname : ∀ {n : PlainName}, c ∈ n.chars → c ≠ '\n' ∧ c ≠ '\r' ∧ c ≠ ')' := fun h =>
    ⟨PlainName.ne_of_mem h (by decide), PlainName.ne_of_mem h (by decide),
      PlainName.ne_of_mem h (by decide)⟩
  cases p with
  | ref model =>
    simp only [argument, List.mem_cons, List.mem_append, List.not_mem_nil, or_false] at hc
    rcases hc with rfl | hc | rfl
    · decide
    · exact hname hc
    · decide
  | source source table =>
    simp only [argument, List.mem_cons, List.mem_append, List.not_mem_nil, or_false] at hc
    rcases hc with rfl | hc | rfl | rfl | rfl | rfl | hc | rfl
    · decide
    · exact hname hc
    · decide
    · decide
    · decide
    · decide
    · exact hname hc
    · decide

/-! ### How far an argument reaches -/

theorem after?_eq_none {text : String} {c : Char} {cs : List Char}
    (htext : text.toList.head? = some c) (hcs : cs.head? ≠ some c) : after? text cs = none := by
  rw [after?, if_neg]
  intro hprefix
  obtain ⟨rest, rfl⟩ := List.isPrefixOf_iff_prefix.mp hprefix
  rw [List.head?_append, htext] at hcs
  exact hcs rfl

theorem closing?_fragment (pieces : List Piece) : ∀ {cs : List Char}, (∀ c ∈ cs, c ≠ '\x7d') →
    closing? (cs ++ textOf pieces) = none := by
  intro cs hcs
  have hhead : ((cs ++ textOf pieces).dropWhile Text.isBlank).head? ≠ some '\x7d' := by
    induction cs with
    | nil =>
      cases pieces with
      | nil => simp [textOf]
      | cons piece pieces =>
        obtain ⟨p, f⟩ := piece
        cases p with
        | ref model => exact (by decide : some '\x7b' ≠ some '\x7d')
        | source source table => exact (by decide : some '\x7b' ≠ some '\x7d')
    | cons c cs ih =>
      rw [List.cons_append, List.dropWhile_cons]
      split
      · exact ih fun d hd => hcs d (List.mem_cons_of_mem c hd)
      · rw [List.head?_cons]
        exact fun h => hcs c List.mem_cons_self (Option.some.inj h)
  exact after?_eq_none rfl hhead

theorem argument?_cons {c : Char} {cs : List Char} (hc : c ≠ '\n')
    (hclose : c = ')' → closing? cs = none) :
    argument? (c :: cs) = (argument? cs).map fun r => (c :: r.1, r.2) := by
  rw [argument?, if_neg (by simpa using hc)]
  cases hrest : argument? cs with
  | some r => rfl
  | none =>
    by_cases hparen : c = ')'
    · simp [hparen, hclose hparen]
    · simp [hparen]

theorem argument?_append (before cs : List Char) (h : ∀ c ∈ before, c ≠ '\n' ∧ c ≠ ')') :
    argument? (before ++ cs) = (argument? cs).map fun r => (before ++ r.1, r.2) := by
  induction before with
  | nil => simp
  | cons c before ih =>
    obtain ⟨hline, hparen⟩ := h c List.mem_cons_self
    rw [List.cons_append, argument?_cons hline fun h => absurd h hparen,
      ih fun d hd => h d (List.mem_cons_of_mem c hd), Option.map_map]
    rfl

theorem argument?_of_break {f : Fragment} (hbreak : '\n' ∈ f.chars) (pieces : List Piece) :
    argument? (f.chars ++ textOf pieces) = none := by
  obtain ⟨cs, hno⟩ := f
  induction cs with
  | nil => cases hbreak
  | cons c cs ih =>
    by_cases hc : c = '\n'
    · subst hc
      rfl
    · have hrest : '\n' ∈ cs := by simpa [Ne.symm hc] using hbreak
      have hcs : ∀ d ∈ cs, d ≠ '\x7b' ∧ d ≠ '\x7d' := fun d hd => hno d (List.mem_cons_of_mem c hd)
      show argument? (c :: (cs ++ textOf pieces)) = none
      rw [argument?_cons hc fun _ => closing?_fragment pieces fun d hd => (hcs d hd).2]
      have hnone : argument? (cs ++ textOf pieces) = none := ih hcs hrest
      rw [hnone]
      rfl

theorem argument?_of_line {f : Fragment} (hline : '\n' ∉ f.chars) (pieces : List Piece) :
    argument? (f.chars ++ textOf pieces) = (argument? (textOf pieces)).map fun r =>
      (f.chars ++ r.1, r.2) := by
  obtain ⟨cs, hno⟩ := f
  dsimp only at hline ⊢
  induction cs with
  | nil => simp
  | cons c cs ih =>
    have hc : c ≠ '\n' := fun h => hline (h ▸ List.mem_cons_self)
    have hcs : ∀ d ∈ cs, d ≠ '\x7b' ∧ d ≠ '\x7d' := fun d hd => hno d (List.mem_cons_of_mem c hd)
    rw [List.cons_append, argument?_cons hc fun _ => closing?_fragment pieces fun d hd =>
      (hcs d hd).2, ih hcs fun h => hline (List.mem_cons_of_mem c h), Option.map_map]
    rfl

theorem argument?_closing (cs : List Char) : argument? (PlainCall.closing ++ cs) =
    some (match argument? cs with
      | some r => (PlainCall.closing ++ r.1, r.2)
      | none => ([], cs)) := by
  have hblank : argument? (' ' :: '\x7d' :: '\x7d' :: cs) =
      (argument? cs).map fun r => (' ' :: '\x7d' :: '\x7d' :: r.1, r.2) :=
    argument?_append [' ', '\x7d', '\x7d'] cs (by simp)
  have hclose : closing? (' ' :: '\x7d' :: '\x7d' :: cs) = some cs := rfl
  show argument? (')' :: ' ' :: '\x7d' :: '\x7d' :: cs) = _
  rw [argument?, if_neg (by decide), hblank, hclose]
  cases argument? cs <;> rfl

theorem suffix_of_argument? : ∀ {cs argument left : List Char}, argument? cs = some (argument,
    left) → left <:+ cs := by
  intro cs
  induction cs with
  | nil => intro argument left h; cases h
  | cons c cs ih =>
    intro argument left h
    rw [argument?] at h
    split at h
    · rename_i a l hrest
      cases h
      split at hrest
      · cases hrest
      · exact (ih hrest).trans (List.suffix_cons c cs)
    · split at h
      · obtain ⟨l, hclose, heq⟩ := Option.map_eq_some_iff.mp h
        cases heq
        rw [closing?, after?] at hclose
        split at hclose
        · cases hclose
          exact ((List.drop_suffix _ _).trans (List.dropWhile_suffix _)).trans
            (List.suffix_cons c cs)
        · cases hclose
      · cases h

/-! ### The calls that are found -/

/-- **The calls of a script, line by line**: calls of one line are one call, which reaches from the
first to the last. -/
def gather : List Piece → List Call
  | [] => []
  | [(p, _)] => [⟨p.callee, p.argument⟩]
  | (p, f) :: (q, g) :: rest =>
    if '\n' ∈ f.chars then ⟨p.callee, p.argument⟩ :: gather ((q, g) :: rest)
    else
      match gather ((q, g) :: rest) with
      | [] => []
      | call :: calls =>
        ⟨p.callee, p.argument ++ (PlainCall.closing ++
          (f.chars ++ (q.opening ++ call.argument)))⟩ :: calls

theorem callsFrom_skip : ∀ (skip : Nat) (cs : List Char),
    callsFrom skip cs = callsFrom 0 (cs.drop skip) := by
  intro skip
  induction skip with
  | zero => intro cs; rfl
  | succ skip ih =>
    intro cs
    cases cs with
    | nil => rfl
    | cons c cs => exact ih cs

theorem call?_eq_none {c : Char} (hc : c ≠ '\x7b') (cs : List Char) : call? (c :: cs) = none := by
  have hopen : after? "\x7b\x7b" (c :: cs) = none :=
    after?_eq_none rfl fun h => hc (Option.some.inj h)
  rw [call?, hopen]
  rfl

theorem callsFrom_fragment {cs : List Char} (hcs : ∀ c ∈ cs, c ≠ '\x7b') (rest : List Char) :
    callsFrom 0 (cs ++ rest) = callsFrom 0 rest := by
  induction cs with
  | nil => rfl
  | cons c cs ih =>
    rw [List.cons_append, callsFrom, call?_eq_none (hcs c List.mem_cons_self)]
    exact ih fun d hd => hcs d (List.mem_cons_of_mem c hd)

theorem call?_opening (p : PlainCall) (cs : List Char) :
    call? (p.opening ++ cs) = (argument? cs).map fun r => (⟨p.callee, r.1⟩, r.2) := by
  have hcall : call? (p.opening ++ cs) = argument? cs >>= fun r => some (⟨p.callee, r.1⟩, r.2) := by
    cases p <;> rfl
  rw [hcall]
  cases argument? cs <;> rfl

theorem callsFrom_opening {p : PlainCall} {cs argument left : List Char}
    (h : argument? cs = some (argument, left)) :
    callsFrom 0 (p.opening ++ cs) = ⟨p.callee, argument⟩ :: callsFrom 0 left := by
  obtain ⟨more, hopening⟩ : ∃ more, p.opening = '\x7b' :: more := by cases p <;> exact ⟨_, rfl⟩
  have hcall := call?_opening p cs
  rw [h, Option.map_some] at hcall
  have hsuffix : left <:+ more ++ cs := (suffix_of_argument? h).trans (List.suffix_append more cs)
  rw [hopening, List.cons_append] at hcall ⊢
  rw [callsFrom, hcall]
  dsimp only
  rw [callsFrom_skip, ← List.suffix_iff_eq_drop.mp hsuffix]

/-- **The calls that are found in a script are those of its lines.** -/
theorem callsFrom_textOf : ∀ (pieces : List Piece) {lead : List Char}, (∀ c ∈ lead, c ≠ '\x7b') →
    callsFrom 0 (lead ++ textOf pieces) = gather pieces := by
  -- with a call in front, also its argument and what is found behind it are told
  have hfirst : ∀ (rest : List Piece) (p : PlainCall) (f : Fragment), ∃ argument left calls,
      gather ((p, f) :: rest) = ⟨p.callee, argument⟩ :: calls ∧
      argument? (p.argument ++ (PlainCall.closing ++ (f.chars ++ textOf rest))) = some (argument,
        left) ∧
      callsFrom 0 left = calls := by
    intro rest
    induction rest with
    | nil =>
      intro p f
      have hnone : argument? (f.chars ++ textOf []) = none := by
        by_cases hbreak : '\n' ∈ f.chars
        · exact argument?_of_break hbreak []
        · exact argument?_of_line hbreak []
      refine ⟨p.argument, f.chars ++ textOf [], [], rfl, ?_, ?_⟩
      · rw [argument?_append _ _ fun c hc => ⟨(p.of_mem_argument hc).1, (p.of_mem_argument hc).2.2⟩,
          argument?_closing, hnone, Option.map_some, List.append_nil]
      · rw [callsFrom_fragment fun c hc => (f.noBrace c hc).1]
        rfl
    | cons piece rest ih =>
      obtain ⟨q, g⟩ := piece
      intro p f
      obtain ⟨argument, left, calls, hgather, hargument, hcalls⟩ := ih q g
      have hopening : ∀ c ∈ q.opening, c ≠ '\n' ∧ c ≠ ')' := fun c hc =>
        ⟨(q.of_mem_opening hc).1, (q.of_mem_opening hc).2.2⟩
      rw [gather, argument?_append _ _ fun c hc =>
        ⟨(p.of_mem_argument hc).1, (p.of_mem_argument hc).2.2⟩, argument?_closing]
      by_cases hbreak : '\n' ∈ f.chars
      · rw [if_pos hbreak, argument?_of_break hbreak]
        refine ⟨p.argument, f.chars ++ textOf ((q, g) :: rest), gather ((q, g) :: rest), rfl,
          by simp, ?_⟩
        rw [callsFrom_fragment fun c hc => (f.noBrace c hc).1, textOf, callsFrom_opening hargument,
          hgather, hcalls]
      · rw [if_neg hbreak, hgather, argument?_of_line hbreak, textOf, argument?_append _ _ hopening,
          hargument]
        exact ⟨_, left, calls, rfl, rfl, hcalls⟩
  intro pieces lead hlead
  rw [callsFrom_fragment hlead]
  cases pieces with
  | nil => rfl
  | cons piece rest =>
    obtain ⟨p, f⟩ := piece
    obtain ⟨argument, left, calls, hgather, hargument, hcalls⟩ := hfirst rest p f
    rw [textOf, callsFrom_opening hargument, hgather, hcalls]

theorem gather_of_breaks : ∀ (pieces : List Piece),
    (∀ piece ∈ pieces.dropLast, '\n' ∈ piece.2.chars) →
    gather pieces = pieces.map fun piece => ⟨piece.1.callee, piece.1.argument⟩ := by
  intro pieces
  induction pieces with
  | nil => intro _; rfl
  | cons piece rest ih =>
    intro h
    obtain ⟨p, f⟩ := piece
    cases rest with
    | nil => rfl
    | cons next rest =>
      obtain ⟨q, g⟩ := next
      have hbreak : '\n' ∈ f.chars := h (p, f) List.mem_cons_self
      rw [gather, if_pos hbreak, ih fun piece hpiece => h piece (List.mem_cons_of_mem _ hpiece)]
      rfl

def StartsIn (pieces : List Piece) (call : Call) : Prop :=
  ∃ p tail, p ∈ pieces.map (·.1) ∧ call = ⟨p.callee, p.argument ++ tail⟩ ∧
    (tail = [] ∨ ∃ more, tail = PlainCall.closing ++ more)

theorem startsIn_of_mem_gather : ∀ (pieces : List Piece) {call : Call}, call ∈ gather pieces →
    StartsIn pieces call := by
  intro pieces
  induction pieces with
  | nil => intro call hcall; cases hcall
  | cons piece rest ih =>
    intro call hcall
    obtain ⟨p, f⟩ := piece
    have halone : call = ⟨p.callee, p.argument⟩ → StartsIn ((p, f) :: rest) call := by
      rintro rfl
      exact ⟨p, [], List.mem_cons_self, by rw [List.append_nil], .inl rfl⟩
    have hlater : call ∈ gather rest → StartsIn ((p, f) :: rest) call := by
      intro hrest
      obtain ⟨p', tail, hp', heq, htail⟩ := ih hrest
      exact ⟨p', tail, List.mem_cons_of_mem _ hp', heq, htail⟩
    cases rest with
    | nil => exact halone (List.mem_singleton.mp hcall)
    | cons next rest =>
      obtain ⟨q, g⟩ := next
      rw [gather] at hcall
      split at hcall
      · rcases List.mem_cons.mp hcall with hcall | hcall
        · exact halone hcall
        · exact hlater hcall
      · split at hcall
        · cases hcall
        · rename_i first calls hgather
          rcases List.mem_cons.mp hcall with rfl | hcall
          · exact ⟨p, _, List.mem_cons_self, rfl, .inr ⟨_, rfl⟩⟩
          · exact hlater (hgather ▸ List.mem_cons_of_mem first hcall)

theorem gather_ne_nil (piece : Piece) (rest : List Piece) : gather (piece :: rest) ≠ [] := by
  induction rest generalizing piece with
  | nil => exact List.cons_ne_nil _ _
  | cons next rest ih =>
    obtain ⟨p, f⟩ := piece
    rw [gather]
    split
    · exact List.cons_ne_nil _ _
    · split
      · rename_i hnil
        exact absurd hnil (ih next)
      · exact List.cons_ne_nil _ _

/-- **Where two calls stand on one line, a call is found that has more of its line for its
argument.** -/
theorem exists_mem_gather : ∀ (pieces : List Piece),
    (∃ piece ∈ pieces.dropLast, '\n' ∉ piece.2.chars) →
    ∃ p more, p ∈ pieces.map (·.1) ∧
      ⟨p.callee, p.argument ++ (PlainCall.closing ++ more)⟩ ∈ gather pieces := by
  intro pieces
  induction pieces with
  | nil => rintro ⟨piece, hpiece, -⟩; cases hpiece
  | cons piece rest ih =>
    intro h
    obtain ⟨p, f⟩ := piece
    cases rest with
    | nil =>
      obtain ⟨piece, hpiece, -⟩ := h
      cases hpiece
    | cons next rest =>
      obtain ⟨q, g⟩ := next
      rw [gather]
      by_cases hbreak : '\n' ∈ f.chars
      · rw [if_pos hbreak]
        obtain ⟨piece, hpiece, hline⟩ := h
        rcases List.mem_cons.mp hpiece with rfl | hpiece
        · exact absurd hbreak hline
        · obtain ⟨p', more, hp', hmem⟩ := ih ⟨piece, hpiece, hline⟩
          exact ⟨p', more, List.mem_cons_of_mem _ hp', List.mem_cons_of_mem _ hmem⟩
      · rw [if_neg hbreak]
        split
        · rename_i hnil
          exact absurd hnil (gather_ne_nil _ _)
        · exact ⟨p, _, List.mem_cons_self, List.mem_cons_self⟩

end ProjectLint.Script

/-! ### Line ends -/

namespace ProjectLint.Text

theorem toList_unifyNewlines (s : String) : (unifyNewlines s).toList = unifyLines s.toList := by
  have hself : ∀ cs : List Char, '\r' ∉ cs → unifyLines cs = cs := by
    intro cs
    fun_induction unifyLines cs with
    | case1 => intro _; rfl
    | case2 rest ih => intro h; exact absurd List.mem_cons_self h
    | case3 rest _ ih => intro h; exact absurd List.mem_cons_self h
    | case4 c rest _ _ ih => intro h; rw [ih fun hr => h (List.mem_cons_of_mem c hr)]
  rw [unifyNewlines]
  split
  · rw [String.toList_ofList]
  · rename_i h
    rw [hself _ h]

theorem unifyLines_append {rest : List Char} (hrest : rest.head? ≠ some '\n') (cs : List Char) :
    unifyLines (cs ++ rest) = unifyLines cs ++ unifyLines rest := by
  fun_induction unifyLines cs with
  | case1 => rfl
  | case2 cs ih => rw [List.cons_append, List.cons_append, unifyLines, ih, List.cons_append]
  | case3 cs hcs ih =>
    have hnext : ∀ more, cs ++ rest = '\n' :: more → False := by
      intro more heq
      cases cs with
      | nil =>
        rw [List.nil_append] at heq
        rw [heq] at hrest
        exact hrest rfl
      | cons c cs =>
        rw [List.cons_append, List.cons.injEq] at heq
        exact hcs cs (by rw [heq.1])
    rw [List.cons_append, unifyLines.eq_3 _ hnext, ih, List.cons_append]
  | case4 c cs hcs hc ih =>
    rw [List.cons_append, unifyLines.eq_4 _ _ (fun more h _ => hc h) hc, ih, List.cons_append]

theorem mem_unifyLines {c : Char} {cs : List Char} (h : c ∈ unifyLines cs) : c ∈ cs ∨ c = '\n' := by
  fun_induction unifyLines cs with
  | case1 => cases h
  | case2 rest ih => grind
  | case3 rest _ ih => grind
  | case4 d rest _ _ ih => grind

theorem newline_mem_unifyLines {cs : List Char} : '\n' ∈ unifyLines cs ↔ '\n' ∈ cs ∨ '\r' ∈ cs := by
  fun_induction unifyLines cs with
  | case1 => simp
  | case2 rest ih => simp
  | case3 rest _ ih => simp
  | case4 c rest _ hc ih => grind

end ProjectLint.Text

namespace ProjectLint.Script

/-- The text with its line ends unified. -/
def Fragment.unified (f : Fragment) : Fragment where
  chars := Text.unifyLines f.chars
  noBrace := by
    intro c hc
    rcases Text.mem_unifyLines hc with hc | rfl
    · exact f.noBrace c hc
    · decide

theorem Fragment.breaks_iff (f : Fragment) : f.Breaks ↔ '\n' ∈ f.unified.chars :=
  Text.newline_mem_unifyLines.symm

def Piece.unified (piece : Piece) : Piece := (piece.1, piece.2.unified)

theorem head?_textOf (pieces : List Piece) : (textOf pieces).head? ≠ some '\n' := by
  cases pieces with
  | nil => simp [textOf]
  | cons piece pieces =>
    obtain ⟨p, f⟩ := piece
    cases p with
    | ref m => exact (by decide : some '\x7b' ≠ some '\n')
    | source s t => exact (by decide : some '\x7b' ≠ some '\n')

theorem unifyLines_textOf : ∀ pieces : List Piece,
    Text.unifyLines (textOf pieces) = textOf (pieces.map Piece.unified) := by
  have hpass : ∀ (cs rest : List Char), (∀ c ∈ cs, c ≠ '\r') →
      Text.unifyLines (cs ++ rest) = cs ++ Text.unifyLines rest := by
    intro cs rest hcs
    induction cs with
    | nil => rfl
    | cons c cs ih =>
      have hc : c ≠ '\r' := hcs c List.mem_cons_self
      rw [List.cons_append, Text.unifyLines.eq_4 _ _ (fun _ h _ => hc h) hc, ih fun d hd =>
        hcs d (List.mem_cons_of_mem c hd), List.cons_append]
  intro pieces
  induction pieces with
  | nil => rfl
  | cons piece pieces ih =>
    obtain ⟨p, f⟩ := piece
    rw [textOf, hpass _ _ fun c hc => (p.of_mem_opening hc).2.1, hpass _ _ fun c hc =>
      (p.of_mem_argument hc).2.1, hpass _ _ (by simp [PlainCall.closing]),
        Text.unifyLines_append (head?_textOf pieces), ih]
    rfl

/-- **The calls that are found in the text of a file**, in which any line end counts. -/
theorem calls_layout (l : Layout) : calls (Text.unifyNewlines l.text) =
    gather (l.pieces.map Piece.unified) := by
  rw [calls, Text.toList_unifyNewlines, Layout.text, String.toList_ofList,
    Text.unifyLines_append (head?_textOf l.pieces), unifyLines_textOf]
  exact callsFrom_textOf _ fun c hc => (l.lead.unified.noBrace c hc).1

end ProjectLint.Script
