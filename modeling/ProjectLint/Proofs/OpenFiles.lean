import Mathlib.Data.List.DropRight
import ProjectLint.Proofs.Outcomes
import ProjectLint.Script.Semicolon

/-!
# Looking for a semicolon from the end of a file

The walk goes back over the line ends of an open file.  It stands behind a byte that it has just
read, so it can go back by two as long as that byte is not the first one: **no step leads before the
start of the file**.  What it stops behind is the script without the line ends at its end
(`skipLineEnds_front`), and so the walk finds and cuts off what `endsInSemicolon` and
`dropSemicolon` say of the bytes (`checkSemicolon_opened`).
-/

namespace ProjectLint.Script

theorem isLineEnd_iff {b : UInt8} : isLineEnd b = true ↔ b = 10 ∨ b = 13 := by
  simp [isLineEnd]

theorem suffix_rtakeWhile {kind : UInt8 → Bool} {bytes ending : List UInt8}
    (hend : ending <:+ bytes)
    (hall : ∀ b ∈ ending, kind b = true) : ending <:+ bytes.rtakeWhile kind := by
  have hprefix : ending.reverse <+: bytes.reverse := List.reverse_prefix.mpr hend
  obtain ⟨rest, hrest⟩ := hprefix
  rw [← List.reverse_prefix, List.rtakeWhile, List.reverse_reverse, ← hrest,
    List.takeWhile_append_of_pos fun b hb => hall b (List.mem_reverse.mp hb)]
  exact List.prefix_append _ _

namespace Handle

/-! ### Single steps -/

theorem goTo_natCast (h : Handle) (n : Nat) : h.goTo n = .ok ⟨h.bytes, n⟩ := by
  rw [goTo, if_neg (by omega), Int.toNat_natCast]

theorem seek_back (bytes : List UInt8) {position back : Nat} (hle : back ≤ position) :
    (Handle.mk bytes position).seek (-back) = .ok ⟨bytes, position - back⟩ := by
  have htarget : (position : Int) + -(back : Int) = ((position - back : Nat) : Int) := by omega
  rw [seek, htarget, goTo_natCast]

theorem seekFromEnd_last {bytes : List UInt8} (h : bytes ≠ []) :
    (opened bytes).seekFromEnd (-1) = .ok ⟨bytes, bytes.length - 1⟩ := by
  have hpos : 0 < bytes.length := List.length_pos_iff.mpr h
  have htarget : ((opened bytes).bytes.length : Int) + -1 = ((bytes.length - 1 : Nat) : Int) := by
    show (bytes.length : Int) + -1 = _
    omega
  rw [seekFromEnd, htarget, goTo_natCast]
  rfl

/-- **Only in an empty file there is no last byte to go to.** -/
theorem seekFromEnd_eq_error_iff (bytes : List UInt8) :
    (∃ fault, (opened bytes).seekFromEnd (-1) = .error fault) ↔ bytes = [] := by
  constructor
  · rintro ⟨fault, h⟩
    by_contra hne
    rw [seekFromEnd_last hne] at h
    cases h
  · rintro rfl
    exact ⟨_, rfl⟩

theorem read_last (front rest : List UInt8) (hne : front ≠ []) :
    (Handle.mk (front ++ rest) (front.length - 1)).read = (front.getLast?,
      ⟨front ++ rest, front.length⟩) := by
  have hpos : 0 < front.length := List.length_pos_iff.mpr hne
  have hbyte : (front ++ rest)[front.length - 1]? = front.getLast? := by
    rw [List.getElem?_append_left (by omega), List.getLast?_eq_getElem?]
  have hlast : front.getLast? = some (front.getLast hne) := List.getLast?_eq_some_getLast hne
  simp only [read, hbyte, hlast, Prod.mk.injEq, Handle.mk.injEq, true_and]
  omega

/-! ### The walk -/

/-- **Where the walk over the line ends stops**, when it comes from behind the last byte of `front`:
at the first byte of the file, if all of `front` are line ends, and otherwise behind what `front` is
without them. -/
theorem skipLineEnds_front : ∀ (front rest : List UInt8), front ≠ [] → ∃ last position,
    skipLineEnds ⟨front ++ rest, front.length⟩ front.getLast? =
      .ok (last, ⟨front ++ rest, position⟩) ∧ (dropLineEnds front = [] ∧ last.any isLineEnd = true ∨
        dropLineEnds front ≠ [] ∧ last = (dropLineEnds front).getLast? ∧
          position = (dropLineEnds front).length) := by
  intro front
  -- from the end, as the walk goes
  induction front using List.reverseRecOn with
  | nil => intro rest hne; exact absurd rfl hne
  | append_singleton front b ih =>
    intro rest _
    rw [List.getLast?_concat, skipLineEnds, Option.any_some]
    by_cases hb : isLineEnd b = true
    · rw [if_pos hb]
      have hdrop : dropLineEnds (front ++ [b]) = dropLineEnds front :=
        List.rdropWhile_concat_pos isLineEnd front b hb
      rw [hdrop]
      by_cases hfront : front = []
      · subst hfront
        exact ⟨some b, 1, by rw [if_pos (by rfl)]; rfl, .inl ⟨rfl, hb⟩⟩
      · have hpos : 0 < front.length := List.length_pos_iff.mpr hfront
        have hlength : (front ++ [b]).length = front.length + 1 := by simp
        have hseek : (Handle.mk (front ++ [b] ++ rest) (front ++ [b]).length).seek (-2) =
            .ok ⟨front ++ (b :: rest), front.length - 1⟩ := by
          have htwo : 2 ≤ (front ++ [b]).length := by omega
          have hback := seek_back (front ++ [b] ++ rest) htwo
          rw [hlength] at hback ⊢
          rw [List.append_assoc, List.singleton_append] at hback ⊢
          exact hback
        have hread := read_last front (b :: rest) hfront
        rw [if_neg (by show ¬(front ++ [b]).length = 1; omega)]
        split
        · rename_i fault herror
          rw [hseek] at herror
          cases herror
        · rename_i h' hok
          rw [hseek] at hok
          cases hok
          rw [hread, List.append_assoc, List.singleton_append]
          exact ih (b :: rest) hfront
    · rw [if_neg hb]
      have hdrop : dropLineEnds (front ++ [b]) = front ++ [b] :=
        List.rdropWhile_concat_neg isLineEnd front b hb
      rw [hdrop]
      exact ⟨some b, (front ++ [b]).length, rfl, .inr ⟨by simp, by rw [List.getLast?_concat], rfl⟩⟩

theorem dropLineEnds_append_lineEnds (bytes : List UInt8) :
    dropLineEnds bytes ++ bytes.rtakeWhile isLineEnd = bytes := List.rdropWhile_append_rtakeWhile

theorem take_before_last (bytes : List UInt8) :
    bytes.take ((dropLineEnds bytes).length - 1) = (dropLineEnds bytes).dropLast := by
  have htake : ∀ body rest : List UInt8, (body ++ rest).take (body.length - 1) = body.dropLast := by
    intro body rest
    rw [List.take_append_of_le_length (by omega), List.dropLast_eq_take]
  have hbytes := htake (dropLineEnds bytes) (bytes.rtakeWhile isLineEnd)
  rwa [dropLineEnds_append_lineEnds] at hbytes

/-- **What the check finds and leaves of a file**: it comes to an end without a fault, whatever the
bytes. -/
theorem checkSemicolon_opened (bytes : List UInt8) (takeOff : Bool) : ∃ position,
    (opened bytes).checkSemicolon takeOff = .ok (if endsInSemicolon bytes then 1 else 0,
      ⟨if takeOff then dropSemicolon bytes else bytes, position⟩) := by
  by_cases hne : bytes = []
  · subst hne
    exact ⟨0, by cases takeOff <;> rfl⟩
  · have hend := seekFromEnd_last hne
    have hread := read_last bytes [] hne
    rw [List.append_nil] at hread
    obtain ⟨last, position, hskip, hcases⟩ := skipLineEnds_front bytes [] hne
    rw [List.append_nil] at hskip
    simp only [checkSemicolon, hend, hread, hskip, ok_bind]
    rcases hcases with ⟨hnil, hlast⟩ | ⟨hsome, rfl, rfl⟩
    · -- nothing but line ends
      have hno : endsInSemicolon bytes = false := by rw [endsInSemicolon, hnil]; rfl
      have hlast' : (last == some semicolon) = false := by
        cases last with
        | none => rfl
        | some b =>
          rw [beq_eq_false_iff_ne]
          rintro h
          cases h
          exact absurd hlast (by decide)
      refine ⟨position, ?_⟩
      rw [hlast', hno, dropSemicolon, hno]
      cases takeOff <;> rfl
    · cases hends : endsInSemicolon bytes with
      | false =>
        rw [endsInSemicolon] at hends
        refine ⟨(dropLineEnds bytes).length, ?_⟩
        rw [hends, dropSemicolon, endsInSemicolon, hends]
        cases takeOff <;> rfl
      | true =>
        have hdrop : dropSemicolon bytes = (dropLineEnds bytes).dropLast := by
          rw [dropSemicolon, if_pos hends]
        rw [endsInSemicolon] at hends
        have hcore : 1 ≤ (dropLineEnds bytes).length := List.length_pos_iff.mpr hsome
        have hback := seek_back bytes hcore
        rw [hends, hdrop, if_pos rfl, if_pos rfl]
        cases takeOff with
        | false => exact ⟨_, rfl⟩
        | true =>
          refine ⟨(dropLineEnds bytes).length - 1, ?_⟩
          rw [if_pos rfl, if_pos rfl]
          rw [show (-(1 : Nat) : Int) = -1 from rfl] at hback
          rw [hback, ok_bind, truncate, take_before_last]
          rfl

/-- **The check from the end of a file.**  Let `body` be the script without the longest end of line
ends.  Whatever the bytes, the check comes to an end, and no step of it leads before the start of
the file, but for the first one in an empty file.  It finds a semicolon just if `body` ends in one.
If it is to be taken off, `body` without it is left of the file; in all other cases the file stays
as it is. -/
theorem checkSemicolon_from_end (bytes : List UInt8) (takeOff : Bool) : ∃ body ends,
    bytes = body ++ ends ∧ (∀ b ∈ ends, b = 10 ∨ b = 13) ∧
    (∀ ending, ending <:+ bytes → (∀ b ∈ ending, b = 10 ∨ b = 13) → ending <:+ ends) ∧
    ((∃ fault, (opened bytes).seekFromEnd (-1) = .error fault) ↔ bytes = []) ∧
    ∃ position, (opened bytes).checkSemicolon takeOff =
      .ok (if body.getLast? = some semicolon then 1 else 0,
        ⟨if takeOff = true ∧ body.getLast? = some semicolon then body.dropLast else bytes,
          position⟩) := by
  refine ⟨dropLineEnds bytes, bytes.rtakeWhile isLineEnd, (dropLineEnds_append_lineEnds bytes).symm,
    fun b hb => isLineEnd_iff.mp (List.mem_rtakeWhile_imp hb), fun ending hend hall => ?_,
    seekFromEnd_eq_error_iff bytes, ?_⟩
  · exact suffix_rtakeWhile hend fun b hb => isLineEnd_iff.mpr (hall b hb)
  · obtain ⟨position, hcheck⟩ := checkSemicolon_opened bytes takeOff
    refine ⟨position, ?_⟩
    rw [hcheck, dropSemicolon]
    by_cases hlast : (dropLineEnds bytes).getLast? = some semicolon
    · have hends : endsInSemicolon bytes = true := by rw [endsInSemicolon, hlast]; rfl
      simp [hends, hlast]
    · have hends : endsInSemicolon bytes = false := by
        rw [endsInSemicolon, beq_eq_false_iff_ne]; exact hlast
      simp [hends, hlast]

end Handle

end ProjectLint.Script
