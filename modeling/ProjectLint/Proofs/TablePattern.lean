import Mathlib.Data.List.Basic
import ProjectLint.Fixes.Tables
import ProjectLint.Proofs.Outcomes

/-!
# The pattern for a table name

A table is looked for by a pattern: its name, with an edge on both sides that is kept in a group.
Here the notation of that pattern is read, and matching it is brought down to lists of characters.
A name is spelled character by character, except that a dot of the name stands for **any** character
that is no newline (`spells`).

`replace_eq_swap` says what a replacement with this pattern does: it finds names from left to right,
at most `n` of them, and goes on behind the edge that follows a name (`swap`).
-/

namespace ProjectLint.TableNames

open Pattern

/-! ### Names -/

def isEdge (c : Char) : Bool := c == '\\' || Text.isBlank c

def marks : List Char :=
  ['|', '(', ')', '[', '.', '^', '$', '*', '+', '?', '\x7b', '\x7d', '\x27', ',']

def isNameChar (c : Char) : Bool := !isEdge c && !marks.contains c

theorem not_isEdge_of_isNameChar {c : Char} (h : isNameChar c = true) : isEdge c = false := by
  rw [isNameChar, Bool.and_eq_true, Bool.not_eq_true'] at h
  exact h.1

theorem not_mem_marks_of_isNameChar {c : Char} (h : isNameChar c = true) : c ∉ marks := by
  rw [isNameChar, Bool.and_eq_true, Bool.not_eq_true'] at h
  simpa using h.2

theorem ne_dot_of_isNameChar {c : Char} (h : isNameChar c = true) : c ≠ '.' := by
  rintro rfl
  exact absurd h (by decide)

/-- Name characters and dots, no dot at either end and no two dots together. -/
def isNamed : List Char → Bool
  | [] => false
  | [c] => isNameChar c
  | c :: '.' :: rest => isNameChar c && isNamed rest
  | c :: rest => isNameChar c && isNamed rest

/-! ### The notation of the pattern -/

def spellChar (c : Char) : Pattern :=
  .char (if c = '.' then .notNewline else .oneOf false .exact [.one c])

def edgePattern : Pattern :=
  .char (.oneOf false .exact [.one '\\', .kind .blank false false, .one '\n', .one '\r', .one '\t'])

def namePattern (name : List Char) : Pattern :=
  .cat (.group 1 edgePattern) (name.foldr (fun c p => .cat (spellChar c) p) (.group 2 edgePattern))

def edgeText : String := "([\\\\\\s\\n\\r\\t])"

theorem toList_edgeText : edgeText.toList =
    ['(', '[', '\\', '\\', '\\', 's', '\\', 'n', '\\', 'r', '\\', 't', ']', ')'] := rfl

theorem sequence_spellChar (fuel : Nat) (acc : List Item) (n : Nat) (w : List (Nat × Width))
    {c : Char} (rest : List Char) (hc : isNameChar c = true ∨ c = '.') :
    (Pattern.sequence (fuel + 1) true acc).run ⟨c :: rest, {}, n, [], [], w, none, []⟩ =
      (Pattern.sequence fuel true (.plain (spellChar c) :: acc)).run ⟨rest, {}, n, [], [], w, none,
        []⟩ := by
  rcases hc with hc | rfl
  · have h1 : c ≠ '\\' := by rintro rfl; exact absurd hc (by decide)
    have h2 := not_mem_marks_of_isNameChar hc
    simp only [marks, List.mem_cons, not_or] at h2
    simp [Pattern.sequence, Reader.peek, Reader.drop, spellChar, Options.caseRule, h1, h2]
  · rfl

theorem sequence_spell (n : Nat) (w : List (Nat × Width)) (rest : List Char) :
    ∀ (name : List Char) (fuel : Nat)
    (acc : List Item), (∀ c ∈ name, isNameChar c = true ∨ c = '.') →
    (Pattern.sequence (fuel + name.length) true acc).run ⟨name ++ rest, {}, n, [], [], w, none,
      []⟩ = (Pattern.sequence fuel true (name.reverse.map (.plain <| spellChar ·) ++ acc)).run
        ⟨rest, {}, n, [], [], w, none, []⟩ := by
  intro name
  induction name with
  | nil => intro fuel acc _; rfl
  | cons c name ih =>
    intro fuel acc h
    have hc := h c List.mem_cons_self
    have hname : ∀ c ∈ name, isNameChar c = true ∨ c = '.' :=
      fun d hd => h d (List.mem_cons_of_mem _ hd)
    rw [List.length_cons, ← Nat.add_assoc, List.cons_append, sequence_spellChar _ _ _ _ _ hc,
      ih _ _ hname]
    simp

theorem sequence_edge (fuel : Nat) (acc : List Item) (n : Nat) (w : List (Nat × Width))
    (rest : List Char) :
    (Pattern.sequence (fuel + 20) true acc).run
        ⟨edgeText.toList ++ rest, {}, n, [], [], w, none, []⟩ =
      (Pattern.sequence (fuel + 17) true (.plain (.group (n + 1) edgePattern) :: acc)).run
        ⟨rest, {}, n + 1, [], [], (n + 1, (1, some 1)) :: w, none, []⟩ := by
  have hread : (Pattern.sequence (fuel + 20) true acc).run
        ⟨edgeText.toList ++ rest, {}, n, [], [], w, none, []⟩ =
      (Pattern.sequence (fuel + 17) true (.plain (.group (n + 1) edgePattern) :: acc)).run
        ⟨rest, {}, n + 1, [], [n + 1].filter (· != n + 1), (n + 1, (1, some 1)) :: w, none,
          []⟩ := by
    rw [toList_edgeText]
    rfl
  -- the group is closed behind the edge
  have hclosed : [n + 1].filter (· != n + 1) = [] := by simp
  rw [hread, hclosed]

theorem sequence_end (fuel : Nat) (acc : List Item) (n : Nat) (w : List (Nat × Width)) :
    (Pattern.sequence (fuel + 1) true acc).run ⟨[], {}, n, [], [], w, none, []⟩ =
      .ok (joinItems acc, ⟨[], {}, n, [], [], w, none, []⟩) := rfl

theorem alternatives_of_sequence {fuel : Nat} {r r' : Reading} {p : Pattern}
    (h : (Pattern.sequence fuel true []).run r = .ok (p, r')) (hend : r'.ahead = []) :
    (alternatives (fuel + 1) true).run r = .ok (p, r') := by
  simp [alternatives, h, Reader.accept, Reader.peek, hend]
  rfl

theorem joinItems_spell (name : List Char) (first last : Pattern) :
    joinItems (.plain last :: (name.reverse.map (.plain <| spellChar ·) ++ [.plain first])) =
      .cat first (name.foldr (fun c p => .cat (spellChar c) p) last) := by
  rw [joinItems, List.foldl_append, List.map_reverse, List.foldl_reverse, List.foldr_map]
  rfl

/-- **The notation for a name between edges is read as its pattern.** -/
theorem compile_name {table : String} (h : ∀ c ∈ table.toList, isNameChar c = true ∨ c = '.') :
    compile (edgeText ++ table ++ edgeText) false = .ok ⟨namePattern table.toList, 2, []⟩ := by
  have htext : (edgeText ++ table ++ edgeText).toList =
      edgeText.toList ++ (table.toList ++ (edgeText.toList ++ [])) := by
    simp [String.toList_append]
  have hedge : edgeText.toList.length = 14 := by rw [toList_edgeText]; rfl
  have hfuel : ∃ k, 4 * (edgeText ++ table ++ edgeText).length +
      8 = (k + 20 + table.toList.length + 3) + 1 := by
    refine ⟨4 * (edgeText ++ table ++ edgeText).length - table.toList.length - 16, ?_⟩
    rw [← String.length_toList, htext]
    simp only [List.length_append, hedge, List.length_nil]
    omega
  obtain ⟨k, hk⟩ := hfuel
  have hread : (Pattern.sequence (k + 20 + table.toList.length + 3) true []).run
      ⟨(edgeText ++ table ++ edgeText).toList, {}, 0, [], [], [], none, []⟩ =
        .ok (namePattern table.toList, ⟨[], {}, 2, [], [], [(2, (1, some 1)), (1, (1, some 1))],
          none, []⟩) := by
    have hsplit : k + 20 + table.toList.length + 3 = (k + table.toList.length + 3) + 20 := by omega
    have hnext : k + table.toList.length + 3 + 17 = (k + 20) + table.toList.length := by omega
    rw [htext, hsplit, sequence_edge, hnext, sequence_spell _ _ _ _ _ _ h, sequence_edge,
      sequence_end, joinItems_spell]
    rfl
  rw [compile, hk, alternatives_of_sequence hread rfl]
  rfl

/-! ### The template -/

theorem template_text (c : Compiled) (rest : List Char) {parts : List TemplatePart} :
    ∀ (text : List Char) (fuel : Nat), '\\' ∉ text → template c fuel rest = .ok parts →
      template c (fuel + text.length) (text ++ rest) = .ok (text.map .text ++ parts) := by
  intro text
  induction text with
  | nil => intro fuel _ h; exact h
  | cons d text ih =>
    intro fuel hd h
    rw [List.mem_cons, not_or] at hd
    rw [List.length_cons, ← Nat.add_assoc, List.cons_append, template]
    · rw [ih fuel hd.2 h]
      rfl
    · exact fun he => hd.1 he.symm

/-- A call between the two groups; it begins with braces, so that no digit follows the number of a
group. -/
theorem template_call (p : Pattern) {call : String} {more : List Char}
    (hcall : call.toList = '\x7b' :: '\x7b' :: more) (hno : '\\' ∉ more) :
    template ⟨p, 2, []⟩ (("\\1" ++ call ++ "\\2").length + 1) ("\\1" ++ call ++ "\\2").toList =
      .ok (.group 1 :: (call.toList.map .text ++ [.group 2])) := by
  have htext : ("\\1" ++ call ++ "\\2").toList = '\\' :: '1' :: (call.toList ++ ['\\', '2']) := by
    simp [String.toList_append]
  have hlength : ("\\1" ++ call ++ "\\2").length = 4 + call.toList.length := by
    rw [← String.length_toList, htext]
    simp only [List.length_cons, List.length_append, List.length_nil]
    omega
  have hend : template ⟨p, 2, []⟩ 4 ['\\', '2'] = .ok [.group 2] := rfl
  have hbody : template ⟨p, 2, []⟩ (4 + call.toList.length) (call.toList ++ ['\\', '2']) =
      .ok (call.toList.map .text ++ [.group 2]) := by
    refine template_text _ _ _ _ ?_ hend
    simp [hcall, hno]
  rw [hlength, htext, hcall]
  rw [hcall] at hbody
  change (do return (← groupPart ⟨p, 2, []⟩ 1) :: (← template ⟨p, 2, []⟩ _ _)) = _
  rw [hbody]
  rfl

/-! ### Matching the pattern -/

def fits (c d : Char) : Bool := if c = '.' then d != '\n' else c == d

def spells : List Char → List Char → Option (List Char)
  | [], text => some text
  | _ :: _, [] => none
  | c :: name, d :: text => if fits c d then spells name text else none

def hitAt (name : List Char) : List Char → Option (Char × Char × List Char)
  | [] => none
  | a :: rest =>
    match isEdge a, spells name rest with
    | true, some (b :: after) => if isEdge b then some (a, b, after) else none
    | _, _ => none

def firstHit (name : List Char) : List Char → Option (List Char × Char × Char × List Char)
  | [] => none
  | c :: rest =>
    match hitAt name (c :: rest) with
    | some (a, b, after) => some ([], a, b, after)
    | none => (firstHit name rest).map fun (before, hit) => (c :: before, hit)

def swap (name call : List Char) : Nat → List Char → List Char
  | 0, text => text
  | n + 1, text =>
    match firstHit name text with
    | none => text
    | some (before, a, b, after) => before ++ a :: (call ++ b :: swap name call n after)

theorem holds_edgePattern (c : Char) :
    (CharTest.oneOf false .exact [.one '\\', .kind .blank false false, .one '\n', .one '\r',
      .one '\t']).holds c = isEdge c := by
  have h : ∀ d, Text.isBlank d = true → d = c → Text.isBlank c = true := by
    rintro d hd rfl
    exact hd
  rw [Bool.eq_iff_iff]
  simp only [CharTest.holds, ClassItem.holds, CaseRule.same, CharKind.holds, List.any_cons,
    List.any_nil, isEdge, Bool.bne_false, Bool.or_false, Bool.or_eq_true, beq_iff_eq,
      Bool.false_eq_true, if_false]
  constructor
  · rintro (rfl | hb | hn | hr | ht)
    · exact .inl rfl
    · exact .inr hb
    · exact .inr (h _ (by decide) hn)
    · exact .inr (h _ (by decide) hr)
    · exact .inr (h _ (by decide) ht)
  · rintro (rfl | hb)
    · exact .inl rfl
    · exact .inr (.inl hb)

theorem run_edge (s : Spot) (n : Nat) (k : Rest) :
    run (.group n edgePattern) s k =
      match s.ahead with
      | [] => none
      | a :: rest => if isEdge a then k ⟨a :: s.behind, rest, (n, [a]) :: s.groups⟩ else none := by
  obtain ⟨behind, ahead, groups⟩ := s
  cases ahead with
  | nil => rfl
  | cons a rest => simp [run, edgePattern, Spot.next, holds_edgePattern, Spot.upTo, Spot.left]

theorem holds_spellChar (c d : Char) :
    (if c = '.' then CharTest.notNewline else .oneOf false .exact [.one c]).holds d = fits c d := by
  by_cases hc : c = '.'
  · simp [hc, fits, CharTest.holds]
  · simp [hc, fits, CharTest.holds, ClassItem.holds, CaseRule.same]

/-- A name that is spelled leads to what follows it in the pattern. -/
theorem run_spell (last : Pattern) (k : Rest) : ∀ (name : List Char) (s : Spot),
    match spells name s.ahead with
    | none => run (name.foldr (fun c p => .cat (spellChar c) p) last) s k = none
    | some rest => ∃ behind, run (name.foldr (fun c p => .cat (spellChar c) p) last) s k =
        run last ⟨behind, rest, s.groups⟩ k := by
  intro name
  induction name with
  | nil => intro s; exact ⟨s.behind, rfl⟩
  | cons c name ih =>
    intro s
    obtain ⟨behind, ahead, groups⟩ := s
    cases ahead with
    | nil => rfl
    | cons d text =>
      cases hd : fits c d with
      | true =>
        have hrun : run ((c :: name).foldr (fun c p => .cat (spellChar c) p) last)
            ⟨behind, d :: text, groups⟩ k =
            run (name.foldr (fun c p => .cat (spellChar c) p) last) ⟨d :: behind, text,
              groups⟩ k := by
          simp only [List.foldr_cons, run, spellChar, Spot.next, holds_spellChar, hd, if_true]
        rw [spells, if_pos hd, hrun]
        exact ih ⟨d :: behind, text, groups⟩
      | false =>
        simp only [spells, List.foldr_cons, run, spellChar, Spot.next, holds_spellChar, hd,
          Bool.false_eq_true, if_false]

/-- **The pattern of a name matches where the name stands between edges.** -/
theorem run_namePattern (name : List Char) (s : Spot) (k : Rest) :
    match hitAt name s.ahead with
    | none => run (namePattern name) s k = none
    | some (a, b, after) => ∃ behind, run (namePattern name) s k =
        k ⟨behind, after, (2, [b]) :: (1, [a]) :: s.groups⟩ := by
  obtain ⟨behind, ahead, groups⟩ := s
  cases ahead with
  | nil => rfl
  | cons a rest =>
    cases ha : isEdge a with
    | false =>
      have hrun : run (namePattern name) ⟨behind, a :: rest, groups⟩ k = none := by
        rw [namePattern, run, run_edge]
        simp [ha]
      simpa [hitAt, ha] using hrun
    | true =>
      have hrun : run (namePattern name) ⟨behind, a :: rest, groups⟩ k =
          run (name.foldr (fun c p => .cat (spellChar c) p) (.group 2 edgePattern))
            ⟨a :: behind, rest, (1, [a]) :: groups⟩ k := by
        rw [namePattern, run, run_edge]
        simp [ha]
      have hspell := run_spell (.group 2 edgePattern) k name ⟨a :: behind, rest, (1, [a]) :: groups⟩
      rw [hrun]
      cases hs : spells name rest with
      | none => simpa [hitAt, ha, hs] using hspell
      | some left =>
        obtain ⟨behind', hlast⟩ : ∃ _, _ := by simpa [hs] using hspell
        rw [hlast, run_edge]
        cases left with
        | nil => simp [hitAt, ha, hs]
        | cons b after =>
          cases hb : isEdge b with
          | false => simp [hitAt, ha, hs, hb]
          | true =>
            simp only [hitAt, ha, hs, hb, if_true]
            exact ⟨b :: behind', rfl⟩

/-! ### Replacing the matches -/

theorem spells_cons_eq_some_iff {c : Char} {name text rest : List Char} :
    spells (c :: name) text = some rest ↔
      ∃ d text', text = d :: text' ∧ fits c d = true ∧ spells name text' = some rest := by
  cases text with
  | nil => simp [spells]
  | cons d text => simp [spells]

theorem exists_of_spells_eq_some {rest : List Char} :
    ∀ {name text : List Char}, spells name text = some rest →
    ∃ w, text = w ++ rest ∧ spells name w = some [] := by
  intro name
  induction name with
  | nil =>
    intro text h
    cases h
    exact ⟨[], rfl, rfl⟩
  | cons c name ih =>
    intro text h
    obtain ⟨d, text, rfl, hf, h⟩ := spells_cons_eq_some_iff.mp h
    obtain ⟨w, rfl, hw⟩ := ih h
    exact ⟨d :: w, rfl, spells_cons_eq_some_iff.mpr ⟨d, w, rfl, hf, hw⟩⟩

theorem hitAt_eq_some_iff {name text after : List Char} {a b : Char} :
    hitAt name text = some (a, b, after) ↔
      ∃ rest, text = a :: rest ∧ isEdge a = true ∧ spells name rest = some (b :: after) ∧
        isEdge b = true := by
  cases text with
  | nil => simp [hitAt]
  | cons c rest =>
    rw [hitAt]
    split
    · rename_i e left hc hs
      constructor
      · intro h
        split at h
        · cases h
          exact ⟨rest, rfl, hc, hs, ‹_›⟩
        · cases h
      · rintro ⟨_, h, ha, hs', hb⟩
        cases h
        rw [hs] at hs'
        cases hs'
        rw [if_pos hb]
    · rename_i hno
      constructor
      · intro h; cases h
      · rintro ⟨_, h, ha, hs, hb⟩
        cases h
        exact absurd hs (hno b after ha)

/-- Where a search by the pattern ends: at the first name, which takes up some of the text. -/
theorem nextMatch_namePattern (name : List Char) :
    ∀ (ahead behind : List Char) (fuel : Nat) (advance : Bool), ahead.length ≤ fuel →
    match firstHit name ahead with
    | none => nextMatch (namePattern name) (fuel + 1) advance ⟨behind, ahead, []⟩ = none
    | some (before, a, b, after) => ∃ s e,
        nextMatch (namePattern name) (fuel + 1) advance ⟨behind, ahead, []⟩ = some (s, e) ∧
        ahead = before ++ s.ahead ∧ e.ahead = after ∧ e.groups = [(2, [b]), (1, [a])] ∧
        e.left < s.left := by
  intro ahead
  induction ahead with
  | nil =>
    intro behind fuel advance _
    rfl
  | cons c rest ih =>
    intro behind fuel advance hfuel
    have hrun := run_namePattern name ⟨behind, c :: rest, []⟩
      fun t => if advance && t.left == (⟨behind, c :: rest, []⟩ : Spot).left then none else some t
    rw [firstHit, nextMatch]
    cases hit : hitAt name (c :: rest) with
    | some found =>
      obtain ⟨a, b, after⟩ := found
      obtain ⟨left, hleft, -, hs, -⟩ := hitAt_eq_some_iff.mp hit
      obtain ⟨w, hw, -⟩ := exists_of_spells_eq_some hs
      have hlt : after.length < (c :: rest).length := by
        rw [hleft, hw]
        simp only [List.length_cons, List.length_append]
        omega
      simp only [hit] at hrun
      obtain ⟨behind', hrun⟩ := hrun
      have hne : (after.length == (c :: rest).length) = false := by
        rw [beq_eq_false_iff_ne]
        omega
      simp only [Spot.left, hne, Bool.and_false, Bool.false_eq_true, if_false] at hrun
      simp only [Spot.left, hrun]
      exact ⟨_, _, rfl, rfl, rfl, rfl, hlt⟩
    | none =>
      simp only [hit] at hrun
      obtain ⟨fuel, rfl⟩ : ∃ k, fuel = k + 1 :=
        ⟨fuel - 1, by simp only [List.length_cons] at hfuel; omega⟩
      have hnext := ih (c :: behind) fuel false (by simpa using hfuel)
      rw [hrun]
      cases hf : firstHit name rest with
      | none =>
        simp only [hf] at hnext
        exact hnext
      | some found =>
        obtain ⟨before, a, b, after⟩ := found
        simp only [hf] at hnext
        obtain ⟨s, e, hm, hahead, he⟩ := hnext
        exact ⟨s, e, hm, by rw [hahead, List.cons_append], he⟩

theorem fill_call (call whole : List Char) (a b : Char) {e : Spot}
    (h : e.groups = [(2, [b]), (1, [a])]) :
    fill (.group 1 :: (call.map .text ++ [.group 2])) whole e = a :: (call ++ [b]) := by
  have hone : e.group? 1 = some [a] := by rw [Spot.group?, h]; rfl
  have htwo : e.group? 2 = some [b] := by rw [Spot.group?, h]; rfl
  have htext : ∀ cs : List Char, fill (cs.map .text ++ [.group 2]) whole e = cs ++ [b] := by
    intro cs
    induction cs with
    | nil => simp [fill, htwo]
    | cons c cs ih =>
      rw [List.map_cons, List.cons_append, List.cons_append, ← ih]
      rfl
  rw [← htext call]
  simp [fill, hone]

/-- The replacement behind the pattern of a name. -/
theorem replaceFrom_namePattern (name call : List Char) :
    ∀ (n : Nat) (advance : Bool) (behind ahead : List Char),
    replaceFrom (namePattern name) (.group 1 :: (call.map .text ++ [.group 2])) n advance
      ⟨behind, ahead, []⟩ = swap name call n ahead := by
  intro n
  induction n with
  | zero => intro _ _ _; rfl
  | succ n ih =>
    intro advance behind ahead
    have hnext := nextMatch_namePattern name ahead behind ahead.length advance (Nat.le_refl _)
    rw [replaceFrom, swap]
    cases hf : firstHit name ahead with
    | none =>
      simp only [hf] at hnext
      simp only [Spot.left, hnext]
    | some found =>
      obtain ⟨before, a, b, after⟩ := found
      simp only [hf] at hnext
      obtain ⟨s, e, hm, hahead, hafter, hgroups, -⟩ := hnext
      have hbefore : Spot.upTo ⟨behind, ahead, []⟩ s = before := by
        rw [Spot.upTo, Spot.left, Spot.left, hahead, List.length_append, Nat.add_sub_cancel]
        exact List.take_left
      simp only [Spot.left] at hm ⊢
      simp only [hm, hbefore, fill_call call _ a b hgroups, hafter, ih]
      simp

/-- **A replacement of a name between edges swaps it, from left to right.** -/
theorem replace_eq_swap {table call : String} {more : List Char} (n : Nat) (script : String)
    (htable : ∀ c ∈ table.toList, isNameChar c = true ∨ c = '.')
    (hcall : call.toList = '\x7b' :: '\x7b' :: more) (hno : '\\' ∉ more) :
    Pattern.replace (edgeText ++ table ++ edgeText) ("\\1" ++ call ++ "\\2") n script =
      .ok (String.ofList (swap table.toList call.toList n script.toList)) := by
  rw [Pattern.replace, compile_name htable, ok_bind, template_call _ hcall hno, ok_bind, Spot.start,
    replaceFrom_namePattern]
  rfl

end ProjectLint.TableNames
