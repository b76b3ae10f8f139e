import Mathlib.Data.List.Infix
import Mathlib.Data.List.TakeWhile
import ProjectLint.Script.Comments

/-!
# Scripts without comments

What is cut at one place is the inside of a block comment or a line comment (`Cut`), and a script
without its comments comes about by keeping a character or cutting a comment, again and again
(`Stripped`).  A character before the inside of a block comment is no dash, and neither is the one
behind it; behind a line comment the line is at its end.  So two dashes that stand next to each
other in the end stood so from the beginning, where they were a line comment:
`withoutComments_unmarked` says that **no mark of a line comment is left and none is made**.
-/

namespace ProjectLint.Script

variable {before ahead cut rest out blanks : List Char}

/-! ### What is cut at one place -/

/-- The inside of a block comment goes up to the first closing mark behind its first character. -/
structure Inside (cut rest : List Char) : Prop where
  nonempty : cut ≠ []
  closes : closesBlock rest = true
  first : ∀ tail, tail <:+ cut → tail ≠ [] → tail ≠ cut → closesBlock (tail ++ rest) = false

/-- A comment behind what comes before it, and what follows. -/
inductive Cut (before : List Char) : List Char → List Char → Prop
  | inside {cut rest : List Char} (opens : opensBlock before = true) (inside : Inside cut rest) :
      Cut before cut rest
  /-- A line comment with the blanks before it. -/
  | line {blanks text rest : List Char} (indent : ∀ c ∈ blanks, isIndent c = true)
      (oneLine : '\n' ∉ text)
      (ends : ∀ c ∈ rest.head?, c = '\n') : Cut before (blanks ++ '-' :: '-' :: text) rest

theorem insideLength?_eq_some : ∀ {ahead : List Char} {n : Nat}, insideLength? ahead = some n →
    ∃ cut rest, ahead = cut ++ rest ∧ cut.length = n ∧ Inside cut rest := by
  intro ahead
  induction ahead with
  | nil => intro n h; cases h
  | cons c ahead ih =>
    intro n h
    rw [insideLength?] at h
    split at h
    · rename_i hcloses
      cases h
      refine ⟨[c], ahead, rfl, rfl, List.cons_ne_nil c [], hcloses,
        fun tail htail hne hproper => ?_⟩
      exact absurd (List.suffix_nil.mp ((List.suffix_cons_iff.mp htail).resolve_left hproper)) hne
    · rename_i hopen
      obtain ⟨m, hm, rfl⟩ := Option.map_eq_some_iff.mp h
      obtain ⟨cut, rest, rfl, rfl, hinside⟩ := ih hm
      refine ⟨c :: cut, rest, rfl, rfl, List.cons_ne_nil c cut, hinside.closes,
        fun tail htail hne hproper => ?_⟩
      by_cases hwhole : tail = cut
      · rw [hwhole]
        exact Bool.eq_false_iff.mpr hopen
      · exact hinside.first tail ((List.suffix_cons_iff.mp htail).resolve_left hproper) hne hwhole

theorem exists_insideLength? (hcloses : closesBlock rest = true) : ∀ {cut : List Char}, cut ≠ [] →
    ∃ n, insideLength? (cut ++ rest) = some n := by
  intro cut
  induction cut with
  | nil => intro h; exact absurd rfl h
  | cons c cut ih =>
    intro _
    rw [List.cons_append, insideLength?]
    split
    · exact ⟨1, rfl⟩
    · rename_i hopen
      cases cut with
      | nil => exact absurd hcloses hopen
      | cons d cut =>
        obtain ⟨n, hn⟩ := ih (List.cons_ne_nil d cut)
        exact ⟨n + 1, by rw [hn]; rfl⟩

theorem cut_dashes (hblanks : ∀ c ∈ blanks, isIndent c = true) (rest : List Char) :
    Cut before (blanks ++ '-' :: '-' :: rest.takeWhile (· != '\n'))
      (rest.dropWhile (· != '\n')) := by
  refine .line hblanks (fun hmem => ?_) fun c hc => ?_
  · have hne := List.mem_takeWhile_imp hmem
    simp at hne
  · have hhead := List.head?_dropWhile_not (· != '\n') rest
    rw [Option.mem_def.mp hc] at hhead
    simpa using hhead

theorem lineCommentLength_of_dashes (hblanks : ∀ c ∈ blanks, isIndent c = true) (rest : List Char) :
    lineCommentLength (blanks ++ '-' :: '-' :: rest) = (blanks ++ '-' :: '-' :: rest.takeWhile
      (· != '\n')).length := by
  have hline : ∀ c ∈ blanks, (c != '\n') = true := by
    intro c hc
    rw [bne_iff_ne]
    rintro rfl
    cases hblanks _ hc
  rw [lineCommentLength, List.dropWhile_append_of_pos hblanks, List.takeWhile_append_of_pos hline]
  rfl

theorem cut_of_lineCommentLength (before : List Char) (h : lineCommentLength ahead ≠ 0) :
    ∃ cut rest, ahead = cut ++ rest ∧ cut.length = lineCommentLength ahead ∧
      Cut before cut rest := by
  have hblanks : ∀ c ∈ ahead.takeWhile isIndent, isIndent c = true :=
    fun c => List.mem_takeWhile_imp
  unfold lineCommentLength at h
  split at h
  · rename_i rest hrest
    have hahead := @List.takeWhile_append_dropWhile _ isIndent ahead
    rw [hrest] at hahead
    refine ⟨_, _, ?_, ?_, cut_dashes hblanks rest⟩
    · rw [List.append_assoc, List.cons_append, List.cons_append, List.takeWhile_append_dropWhile,
        hahead]
    · rw [← lineCommentLength_of_dashes hblanks rest, hahead]
  · exact absurd rfl h

/-- **What is cut is a comment.** -/
theorem cut_of_cutLength (h : cutLength before ahead ≠ 0) :
    ∃ cut rest, ahead = cut ++ rest ∧ cut.length = cutLength before ahead ∧
      Cut before cut rest := by
  cases hinside : if opensBlock before then insideLength? ahead else none with
  | none =>
    have hlength : cutLength before ahead = lineCommentLength ahead := by rw [cutLength, hinside]
    rw [hlength] at h ⊢
    exact cut_of_lineCommentLength before h
  | some n =>
    have hlength : cutLength before ahead = n := by rw [cutLength, hinside]
    rw [hlength]
    split at hinside
    · rename_i hopens
      obtain ⟨cut, rest, hahead, hcut, hcomment⟩ := insideLength?_eq_some hinside
      exact ⟨cut, rest, hahead, hcut, .inside hopens hcomment⟩
    · cases hinside

/-- **Where there is a comment, something is cut.** -/
theorem Cut.cutLength_ne_zero (h : Cut before cut rest) : cutLength before (cut ++ rest) ≠ 0 := by
  cases hinside : if opensBlock before then insideLength? (cut ++ rest) else none with
  | some n =>
    have hlength : cutLength before (cut ++ rest) = n := by rw [cutLength, hinside]
    rw [hlength]
    split at hinside
    · obtain ⟨found, _, -, rfl, hfound⟩ := insideLength?_eq_some hinside
      exact mt List.length_eq_zero_iff.mp hfound.nonempty
    · cases hinside
  | none =>
    have hlength : cutLength before (cut ++ rest) = lineCommentLength (cut ++ rest) := by
      rw [cutLength, hinside]
    rw [hlength]
    cases h with
    | inside opens inside =>
      obtain ⟨n, hn⟩ := exists_insideLength? inside.closes inside.nonempty
      rw [if_pos opens, hn] at hinside
      cases hinside
    | line indent _ _ =>
      rw [List.append_assoc, List.cons_append, List.cons_append, lineCommentLength_of_dashes indent]
      simp

/-! ### The whole script -/

def Uncut (before ahead : List Char) : Prop :=
  ∀ cut rest, ahead = cut ++ rest → ¬ Cut before cut rest

/-- **A script and what is left of it**, behind what comes before it: a character is kept where no
comment begins, and a comment is cut. -/
inductive Stripped : List Char → List Char → List Char → Prop
  | nil {before : List Char} : Stripped before [] []
  | kept {before rest out : List Char} {c : Char} (uncut : Uncut before (c :: rest))
      (more : Stripped (c :: before) rest out) : Stripped before (c :: rest) (c :: out)
  | cut {before cut rest out : List Char} (comment : Cut before cut rest)
      (more : Stripped (cut.reverse ++ before) rest out) : Stripped before (cut ++ rest) out

theorem cutComments_append (rest : List Char) : ∀ cut before : List Char,
    cutComments cut.length before (cut ++ rest) = cutComments 0 (cut.reverse ++ before) rest := by
  intro cut
  induction cut with
  | nil => intro before; rfl
  | cons c cut ih =>
    intro before
    rw [List.reverse_cons, List.append_assoc]
    exact ih (c :: before)

/-- **Comments are cut from the left to the right.** -/
theorem stripped_cutComments (ahead before : List Char) :
    Stripped before ahead (cutComments 0 before ahead) := by
  induction hn : ahead.length using Nat.strongRecOn generalizing ahead before with
  | ind n ih =>
    cases ahead with
    | nil => exact .nil
    | cons c rest =>
      cases hcut : cutLength before (c :: rest) with
      | zero =>
        rw [cutComments, hcut]
        refine .kept ?_ (ih rest.length (by rw [← hn]; simp) rest _ rfl)
        rintro cut after heq hcomment
        exact hcomment.cutLength_ne_zero (heq ▸ hcut)
      | succ m =>
        have hne : cutLength before (c :: rest) ≠ 0 := by simp [hcut]
        obtain ⟨cut, after, hahead, hlength, hcomment⟩ := cut_of_cutLength hne
        have hskip : cutComments 0 before (c :: rest) = cutComments (m + 1) before (c :: rest) := by
          show _ = cutComments m (c :: before) rest
          rw [cutComments, hcut]
        rw [hskip, ← hcut, ← hlength, hahead, cutComments_append]
        refine .cut hcomment (ih after.length ?_ after _ rfl)
        rw [← hn, hahead, List.length_append]
        omega

def NoLine (ahead : List Char) : Prop := ∀ c ∈ ahead.head?, c = '\n' ∨ c = '*' ∨ c = '#'

theorem noLine_of_closesBlock (h : closesBlock ahead = true) : NoLine ahead := by
  unfold closesBlock at h
  split at h
  · exact fun c hc => .inr (.inr (Option.mem_some.mp hc).symm)
  · exact fun c hc => .inr (.inl (Option.mem_some.mp hc).symm)
  · cases h

theorem not_noLine_of_dashes (hblanks : ∀ c ∈ blanks, isIndent c = true) :
    ¬ NoLine (blanks ++ '-' :: rest) := by
  intro h
  cases blanks with
  | nil =>
    have hdash := h '-' rfl
    simp at hdash
  | cons b blanks =>
    have hb := hblanks b List.mem_cons_self
    rcases h b rfl with rfl | rfl | rfl
    · cases hb
    · cases hb
    · cases hb

namespace Stripped

theorem sublist (h : Stripped before ahead out) : out.Sublist ahead := by
  induction h with
  | nil => exact .slnil
  | kept _ _ ih => exact ih.cons_cons _
  | cut _ _ ih => exact ih.trans (List.sublist_append_right _ _)

theorem head_ne_dash (h : Stripped before ahead out) (hhead : NoLine ahead) :
    out.head? ≠ some '-' := by
  induction h with
  | nil => simp
  | kept _ _ _ =>
    intro hdash
    cases hdash
    exact @not_noLine_of_dashes _ [] (by simp) hhead
  | cut comment _ ih =>
    cases comment with
    | inside _ inside => exact ih (noLine_of_closesBlock inside.closes)
    | line indent _ _ =>
      rw [List.append_assoc] at hhead
      exact absurd hhead (not_noLine_of_dashes indent)

theorem head_ne_dash_of_dash (h : Stripped ('-' :: before) ahead out)
    (hhead : ahead.head? ≠ some '-') :
    out.head? ≠ some '-' := by
  cases h with
  | nil => simp
  | kept _ _ => exact hhead
  | cut comment more =>
    cases comment with
    | inside opens _ =>
      -- no opening ends with a dash
      simp [opensBlock] at opens
    | line _ _ ends => exact more.head_ne_dash fun c hc => .inl (ends c hc)

/-- **No two dashes are left**: the first of them would have been kept, and then no dash follows. -/
theorem not_infix_dashes (h : Stripped before ahead out) : ¬ ['-', '-'] <:+: out := by
  induction h with
  | nil => simp
  | @kept before rest out c uncut more ih =>
    rw [List.infix_cons_iff, not_or]
    refine ⟨fun hprefix => ?_, ih⟩
    obtain ⟨rfl, hnext⟩ := List.cons_prefix_cons.mp hprefix
    refine more.head_ne_dash_of_dash (fun hdash => ?_) ?_
    · obtain ⟨rest', rfl⟩ := List.head?_eq_some_iff.mp hdash
      refine uncut _ _ ?_ (@cut_dashes before [] (by simp) rest')
      simp
    · obtain ⟨more', rfl⟩ := hnext
      rfl
  | cut _ _ ih => exact ih

end Stripped

/-- **No mark of a line comment is left or made.**  A script without its comments is what is left if
just the comments are cut from the left to the right.  So characters are only taken out, and no two
dashes stand next to each other in the end. -/
theorem withoutComments_unmarked (script : String) :
    Stripped [] script.toList (withoutComments script).toList ∧
    (withoutComments script).toList.Sublist script.toList ∧
    ¬ ['-', '-'] <:+: (withoutComments script).toList := by
  have hstripped : Stripped [] script.toList (withoutComments script).toList := by
    rw [withoutComments, String.toList_ofList]
    exact stripped_cutComments script.toList []
  exact ⟨hstripped, hstripped.sublist, hstripped.not_infix_dashes⟩

example : withoutComments "a - -- b /*\n- */- /* - */--" = "a -*/- /**/" := rfl

end ProjectLint.Script
