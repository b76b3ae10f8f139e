import Mathlib.Data.List.DropRight
import Mathlib.Logic.Function.Iterate
import ProjectLint.Checks.Scripts
import ProjectLint.Fixes.Semicolons
import ProjectLint.Proofs.Files
import ProjectLint.Proofs.OpenFiles

/-!
# Semicolons taken off until none is left

A script may end in many semicolons with line ends between them; `closing` is the longest end of it
that holds nothing else.  One run takes off the last of these semicolons and the line ends behind
it, and leaves what stands before the closing as it is (`dropSemicolon_closing`).  So **as many runs
find a semicolon as the closing has**, and what is left is the script before the first of them
(`iterate_dropSemicolon`).  The same runs on a file are `removal_settles`.
-/

namespace ProjectLint

namespace Script

/-! ### What a script ends in -/

/-- A semicolon or a line end. -/
def isClosing (b : UInt8) : Bool := b == semicolon || isLineEnd b

/-- The longest end of a script that holds semicolons and line ends only. -/
def closing (bytes : List UInt8) : List UInt8 := bytes.rtakeWhile isClosing

/-- The script before the first semicolon of its closing. -/
def settled (bytes : List UInt8) : List UInt8 :=
  bytes.rdropWhile isClosing ++ (closing bytes).takeWhile (· ≠ semicolon)

def Unclosed (bytes : List UInt8) : Prop := ∀ b, bytes.getLast? = some b → isClosing b = false

theorem unclosed_rdropWhile (bytes : List UInt8) : Unclosed (bytes.rdropWhile isClosing) := by
  intro b hb
  have hne : bytes.rdropWhile isClosing ≠ [] := by
    intro hnil
    rw [hnil] at hb
    cases hb
  have hlast := List.rdropWhile_last_not isClosing bytes hne
  rw [List.getLast?_eq_some_getLast hne, Option.some.injEq] at hb
  rw [hb] at hlast
  simpa using hlast

/-- **The closing is the longest end of its kind.** -/
theorem suffix_closing {bytes ending : List UInt8} (hend : ending <:+ bytes)
    (hclosing : ∀ b ∈ ending, isClosing b = true) : ending <:+ closing bytes :=
      suffix_rtakeWhile hend hclosing

theorem isLineEnd_of_isClosing {b : UInt8} (h : isClosing b = true) (hne : b ≠ semicolon) :
    isLineEnd b = true := by
  simpa [isClosing, hne] using h

/-! ### One run -/

theorem dropLineEnds_append (bytes : List UInt8) :
    ∀ {ends : List UInt8}, (∀ b ∈ ends, isLineEnd b = true) →
    dropLineEnds (bytes ++ ends) = dropLineEnds bytes := by
  intro ends
  induction ends using List.reverseRecOn with
  | nil => intro _; rw [List.append_nil]
  | append_singleton ends b ih =>
    intro hends
    have hb : isLineEnd b = true := hends b (by simp)
    have hstep : dropLineEnds (bytes ++ ends ++ [b]) = dropLineEnds (bytes ++ ends) :=
      List.rdropWhile_concat_pos isLineEnd _ b hb
    rw [← List.append_assoc, hstep, ih fun x hx => hends x (by simp [hx])]

theorem dropLineEnds_semicolon (bytes : List UInt8) :
    dropLineEnds (bytes ++ [semicolon]) = bytes ++ [semicolon] :=
  List.rdropWhile_concat_neg isLineEnd bytes semicolon (by decide)

section

variable {bytes ends : List UInt8} (hends : ∀ b ∈ ends, isLineEnd b = true)

include hends

theorem dropLineEnds_semicolon_append :
    dropLineEnds (bytes ++ semicolon :: ends) = bytes ++ [semicolon] := by
  rw [List.append_cons, dropLineEnds_append _ hends, dropLineEnds_semicolon]

theorem endsInSemicolon_append : endsInSemicolon (bytes ++ semicolon :: ends) = true := by
  rw [endsInSemicolon, dropLineEnds_semicolon_append hends, List.getLast?_concat]
  decide

/-- **The last semicolon goes, with the line ends behind it.** -/
theorem dropSemicolon_append : dropSemicolon (bytes ++ semicolon :: ends) = bytes := by
  rw [dropSemicolon, if_pos (endsInSemicolon_append hends), dropLineEnds_semicolon_append hends,
    List.dropLast_concat]

theorem endsInSemicolon_of_unclosed (hbytes : Unclosed bytes) :
    endsInSemicolon (bytes ++ ends) = false := by
  have hlast : ∀ b, bytes.getLast? = some b → isLineEnd b = false ∧ b ≠ semicolon := by
    intro b hb
    simpa [isClosing, and_comm] using hbytes b hb
  have hself : dropLineEnds bytes = bytes := by
    show bytes.rdropWhile isLineEnd = bytes
    rw [List.rdropWhile_eq_self_iff]
    intro hne hb
    have := (hlast _ (List.getLast?_eq_some_getLast hne)).1
    rw [this] at hb
    cases hb
  rw [endsInSemicolon, dropLineEnds_append _ hends, hself]
  cases hb : bytes.getLast? with
  | none => rfl
  | some b => simpa using (hlast b hb).2

end

theorem exists_last_semicolon : ∀ {ending : List UInt8}, (∀ b ∈ ending, isClosing b = true) →
    semicolon ∈ ending →
    ∃ rest ends, ending = rest ++ semicolon :: ends ∧ ∀ b ∈ ends, isLineEnd b = true := by
  intro ending
  induction ending using List.reverseRecOn with
  | nil => intro _ hmem; cases hmem
  | append_singleton ending b ih =>
    intro hclosing hmem
    by_cases hb : b = semicolon
    · exact ⟨ending, [], by rw [hb], by simp⟩
    · have hmem' : semicolon ∈ ending := by simpa [Ne.symm hb] using hmem
      obtain ⟨rest, ends, rfl, hends⟩ := ih (fun x hx => hclosing x (by simp [hx])) hmem'
      refine ⟨rest, ends ++ [b], by simp, fun x hx => ?_⟩
      rcases List.mem_append.mp hx with hx | hx
      · exact hends x hx
      · obtain rfl := List.mem_singleton.mp hx
        exact isLineEnd_of_isClosing (hclosing x (by simp)) hb

theorem takeWhile_append_semicolon (ends : List UInt8) : ∀ rest : List UInt8,
    (rest ++ semicolon :: ends).takeWhile (· ≠ semicolon) = rest.takeWhile (· ≠ semicolon) := by
  intro rest
  induction rest with
  | nil => simp
  | cons b rest ih =>
    by_cases hb : b = semicolon
    · simp [hb]
    · rw [List.cons_append, List.takeWhile_cons_of_pos (by simpa using hb), ih,
        List.takeWhile_cons_of_pos (by simpa using hb)]

section

variable {bytes ending : List UInt8} (hbytes : Unclosed bytes)
    (hending : ∀ b ∈ ending, isClosing b = true)

include hbytes hending

theorem endsInSemicolon_closing : endsInSemicolon (bytes ++ ending) =
    decide (0 < ending.count semicolon) := by
  by_cases hmem : semicolon ∈ ending
  · obtain ⟨rest, ends, rfl, hends⟩ := exists_last_semicolon hending hmem
    rw [← List.append_assoc, endsInSemicolon_append hends,
      decide_eq_true (List.count_pos_iff.mpr hmem)]
  · have hends : ∀ b ∈ ending, isLineEnd b = true := fun b hb =>
      isLineEnd_of_isClosing (hending b hb) fun h => hmem (h ▸ hb)
    rw [endsInSemicolon_of_unclosed hends hbytes, List.count_eq_zero_of_not_mem hmem]
    rfl

/-- **One run on a closing**: it has one semicolon less, if it had one, and the same line ends
before the first. -/
theorem dropSemicolon_closing : ∃ rest, dropSemicolon (bytes ++ ending) = bytes ++ rest ∧
    (∀ b ∈ rest, isClosing b = true) ∧ rest.count semicolon = ending.count semicolon - 1 ∧
      rest.takeWhile (· ≠ semicolon) = ending.takeWhile (· ≠ semicolon) := by
  by_cases hmem : semicolon ∈ ending
  · obtain ⟨rest, ends, rfl, hends⟩ := exists_last_semicolon hending hmem
    have hcount : ends.count semicolon = 0 := by
      rw [List.count_eq_zero]
      intro hin
      exact absurd (hends semicolon hin) (by decide)
    refine ⟨rest, by rw [← List.append_assoc, dropSemicolon_append hends],
      fun b hb => hending b (by simp [hb]), ?_, ?_⟩
    · rw [List.count_append, List.count_cons_self, hcount]
      omega
    · rw [takeWhile_append_semicolon]
  · have hnone : ending.count semicolon = 0 := List.count_eq_zero_of_not_mem hmem
    refine ⟨ending, ?_, hending, by omega, rfl⟩
    rw [dropSemicolon, endsInSemicolon_closing hbytes hending, hnone]
    rfl

/-! ### Run after run -/

/-- **Any number of runs on a closing.** -/
theorem iterate_dropSemicolon (n : Nat) :
    ∃ rest, dropSemicolon^[n] (bytes ++ ending) = bytes ++ rest ∧
      (∀ b ∈ rest, isClosing b = true) ∧ rest.count semicolon = ending.count semicolon - n ∧
      rest.takeWhile (· ≠ semicolon) = ending.takeWhile (· ≠ semicolon) := by
  induction n with
  | zero => exact ⟨ending, rfl, hending, by omega, rfl⟩
  | succ n ih =>
    obtain ⟨rest, hrun, hrest, hcount, hhead⟩ := ih
    obtain ⟨rest', hstep, hrest', hcount', hhead'⟩ := dropSemicolon_closing hbytes hrest
    refine ⟨rest', ?_, hrest', by omega, hhead'.trans hhead⟩
    rw [Function.iterate_succ_apply', hrun, hstep]

end

theorem bytes_eq (bytes : List UInt8) : bytes = bytes.rdropWhile isClosing ++ closing bytes :=
  List.rdropWhile_append_rtakeWhile.symm

theorem endsInSemicolon_iterate (bytes : List UInt8) (n : Nat) :
    endsInSemicolon (dropSemicolon^[n] bytes) = decide (n < (closing bytes).count semicolon) := by
  have hclosing : ∀ b ∈ closing bytes, isClosing b = true := fun b hb => List.mem_rtakeWhile_imp hb
  obtain ⟨rest, hrun, hrest, hcount, -⟩ :=
    iterate_dropSemicolon (unclosed_rdropWhile bytes) hclosing n
  rw [← bytes_eq] at hrun
  rw [hrun, endsInSemicolon_closing (unclosed_rdropWhile bytes) hrest, hcount]
  congr 1
  simp only [Nat.sub_pos_iff_lt]

theorem dropSemicolon_iterate_eq_settled (bytes : List UInt8) {n : Nat}
    (hn : (closing bytes).count semicolon ≤ n) :
    dropSemicolon^[n] bytes = settled bytes := by
  have hclosing : ∀ b ∈ closing bytes, isClosing b = true := fun b hb => List.mem_rtakeWhile_imp hb
  obtain ⟨rest, hrun, -, hcount, hhead⟩ :=
    iterate_dropSemicolon (unclosed_rdropWhile bytes) hclosing n
  rw [← bytes_eq] at hrun
  have hnone : semicolon ∉ rest := List.count_eq_zero.mp (by omega)
  have hall : rest.takeWhile (· ≠ semicolon) = rest :=
    List.takeWhile_eq_self_iff.mpr fun b hb => by
      have hne : b ≠ semicolon := fun h => hnone (h ▸ hb)
      simpa using hne
  rw [hrun, settled, ← hhead, hall]

end Script

/-! ### Files -/

theorem toList_loop (bytes : ByteArray) (i : Nat) (read : List UInt8) :
    ByteArray.toList.loop bytes i read = read.reverse ++ bytes.data.toList.drop i := by
  induction i, read using ByteArray.toList.loop.induct bytes with
  | case1 i read hlt ih =>
    have hsize : i < bytes.data.toList.length := hlt
    have hbyte : bytes.get! i = bytes.data.toList[i] := by
      show bytes.data[i]! = bytes.data.toList[i]
      rw [getElem!_pos bytes.data i hlt]
      rfl
    rw [ByteArray.toList.loop, if_pos hlt, ih, hbyte, List.reverse_cons, List.append_assoc,
      List.singleton_append, List.getElem_cons_drop]
  | case2 i read hge =>
    have hsize : bytes.data.toList.length ≤ i := Nat.le_of_not_lt hge
    rw [ByteArray.toList.loop, if_neg hge, List.drop_eq_nil_of_le hsize, List.append_nil]

theorem toList_byteArray (bytes : List UInt8) : (ByteArray.mk bytes.toArray).toList = bytes := by
  rw [ByteArray.toList, toList_loop]
  rfl

namespace Semicolons

open Script

/-- The tree after one run on a file. -/
def after (path : String) (t : Tree) : Tree := ((remove [path]).run t).tree

section

variable {t : Tree} {path : String} {place : List String} {bytes : List UInt8}
  (hfile : t.follow path = .file place ⟨bytes.toArray⟩)

include hfile

/-- What one run does to a file. -/
theorem run_remove : (remove [path]).run t = if endsInSemicolon bytes then
    ⟨["Replacing semicolon in " ++ path ++ "."],
      t.putNode place (.file ⟨(dropSemicolon bytes).toArray⟩), .ok 1⟩
    else ⟨[], t, .ok 0⟩ := by
  have hread : t.readBytes path = .ok ⟨bytes.toArray⟩ := Tree.readBytes_eq_ok_iff.mpr ⟨place, hfile⟩
  have hask : (Edit.ask fun t => t.readBytes path).run t = ⟨[], t, .ok ⟨bytes.toArray⟩⟩ := by
    rw [Edit.run_ask, hread]
  have hfrom : (removeFrom 0 path).run t = if endsInSemicolon bytes then
      ⟨["Replacing semicolon in " ++ path ++ "."],
        t.putNode place (.file ⟨(dropSemicolon bytes).toArray⟩), .ok 1⟩
      else ⟨[], t, .ok 0⟩ := by
    obtain ⟨position, hcheck⟩ := Handle.checkSemicolon_opened bytes true
    rw [removeFrom, Edit.run_bind_ok (a := ⟨bytes.toArray⟩) (by rw [hask]), hask, toList_byteArray,
      hcheck, Edit.ofExcept_ok_bind]
    by_cases hends : endsInSemicolon bytes = true
    · rw [if_pos hends, if_pos hends]
      dsimp only
      rw [if_pos (by decide)]
      have hwrite : t.writeBytes path ⟨(dropSemicolon bytes).toArray⟩ =
          .ok (t.putNode place (.file ⟨(dropSemicolon bytes).toArray⟩)) := by
        rw [Tree.writeBytes, hfile]
      rw [Edit.run_bind_ok (a := ()) (by rw [Edit.run_change_ok hwrite]), Edit.run_change_ok hwrite]
      rfl
    · rw [if_neg hends, if_neg hends]
      rfl
  rw [remove, Edit.run_foldl_cons]
  by_cases hends : endsInSemicolon bytes = true
  · rw [if_pos hends] at hfrom ⊢
    rw [Edit.run_bind_ok (a := 1) (by rw [hfrom]), hfrom]
    rfl
  · rw [if_neg hends] at hfrom ⊢
    rw [Edit.run_bind_ok (a := 0) (by rw [hfrom]), hfrom]
    rfl

/-- **One run on a file**: it is cut as its bytes are, and no other file is touched. -/
theorem follow_after : (after path t).follow path = .file place ⟨(dropSemicolon bytes).toArray⟩ ∧
    ∀ other, other ≠ place → (after path t).node? other = t.node? other := by
  rw [after, run_remove hfile]
  by_cases hends : endsInSemicolon bytes = true
  · rw [if_pos hends]
    refine ⟨?_, fun other hne => Tree.node?_putNode_of_ne _ hne⟩
    show (t.putNode place (.file ⟨(dropSemicolon bytes).toArray⟩)).follow path = _
    rw [Tree.follow_putNode (Tree.node?_of_follow hfile), hfile, Tree.Target.withContent,
      if_pos rfl]
  · rw [if_neg hends]
    refine ⟨?_, fun other _ => rfl⟩
    rw [dropSemicolon, if_neg hends]
    exact hfile

/-- **Any number of runs on a file.** -/
theorem follow_iterate_after (n : Nat) :
    ((after path)^[n] t).follow path = .file place ⟨(dropSemicolon^[n] bytes).toArray⟩ ∧
    ∀ other, other ≠ place → ((after path)^[n] t).node? other = t.node? other := by
  induction n with
  | zero => exact ⟨hfile, fun other _ => rfl⟩
  | succ n ih =>
    obtain ⟨hfollow, hframe⟩ := ih
    obtain ⟨hfollow', hframe'⟩ := follow_after hfollow
    rw [Function.iterate_succ_apply', Function.iterate_succ_apply']
    exact ⟨hfollow', fun other hne => (hframe' other hne).trans (hframe other hne)⟩

theorem report_checkSemicolon : (Scripts.checkSemicolon t [path]).report.outcome =
    .ok (if endsInSemicolon bytes then 1 else 0) := by
  have hread : t.readBytes path = .ok ⟨bytes.toArray⟩ := Tree.readBytes_eq_ok_iff.mpr ⟨place, hfile⟩
  obtain ⟨position, hcheck⟩ := Handle.checkSemicolon_opened bytes false
  rw [Scripts.checkSemicolon, Feed.flatMap, Feed.flatMap, Scripts.fileSemicolon, hread, ok_bind,
    toList_byteArray, hcheck, ok_bind]
  by_cases hends : endsInSemicolon bytes = true
  · simp only [hends, if_true]
    rfl
  · simp only [hends]
    rfl

end

/-- **Semicolons are taken off one by one until none is left.**  The closing of a script is the
longest end of it that holds semicolons and line ends only.  As many runs as it has semicolons find
one, all later ones find none and change nothing, and the script before the first of these
semicolons is left.  On a file each of the first runs gives status one and each later run status
zero; no other file changes, and at the end the check finds nothing. -/
theorem removal_settles (bytes : List UInt8) :
    (closing bytes <:+ bytes ∧ (∀ b ∈ closing bytes, isClosing b = true) ∧
      ∀ ending, ending <:+ bytes → (∀ b ∈ ending, isClosing b = true) → ending <:+ closing bytes) ∧
    (∀ n, endsInSemicolon (dropSemicolon^[n] bytes) =
      decide (n < (closing bytes).count semicolon)) ∧
    (∀ n, (closing bytes).count semicolon ≤ n → dropSemicolon^[n] bytes = settled bytes) ∧
    ∀ (t : Tree) (path : String) (place : List String),
      t.follow path = .file place ⟨bytes.toArray⟩ → ∀ n,
      ((after path)^[n] t).readBytes path = .ok ⟨(dropSemicolon^[n] bytes).toArray⟩ ∧
      (∀ other, other ≠ place → ((after path)^[n] t).node? other = t.node? other) ∧
      ((remove [path]).run ((after path)^[n] t)).outcome =
        .ok (if n < (closing bytes).count semicolon then 1 else 0) ∧
      ((closing bytes).count semicolon ≤ n → after path ((after path)^[n] t) = (after path)^[n] t ∧
        (Scripts.checkSemicolon ((after path)^[n] t) [path]).report.outcome = .ok 0) := by
  refine ⟨⟨List.rtakeWhile_suffix _ _, fun b hb => List.mem_rtakeWhile_imp hb, fun ending =>
    suffix_closing⟩, endsInSemicolon_iterate bytes, fun n => dropSemicolon_iterate_eq_settled bytes,
      ?_⟩
  intro t path place hfile n
  obtain ⟨hfollow, hframe⟩ := follow_iterate_after hfile n
  have hends := endsInSemicolon_iterate bytes n
  refine ⟨Tree.readBytes_eq_ok_iff.mpr ⟨place, hfollow⟩, hframe, ?_, fun hn => ?_⟩
  · rw [run_remove hfollow, hends]
    by_cases hn : n < (closing bytes).count semicolon
    · simp [hn]
    · simp [hn]
  · have hnone : endsInSemicolon (dropSemicolon^[n] bytes) = false := by
      rw [hends]
      exact decide_eq_false (by omega)
    rw [after, run_remove hfollow, report_checkSemicolon hfollow, hnone]
    exact ⟨rfl, rfl⟩

def twoSemicolons : List UInt8 := [97, 13, 10, 59, 10, 59, 13, 10]

def closedScript : Tree := ⟨[(["m.sql"], .file ⟨twoSemicolons.toArray⟩)]⟩

/-- Two runs take one semicolon each, the third finds none, and `a⏎` is left. -/
theorem removal_twoSemicolons :
    closedScript.follow "m.sql" = .file ["m.sql"] ⟨twoSemicolons.toArray⟩ ∧
    ((remove ["m.sql"]).run ((after "m.sql")^[1] closedScript)).outcome = .ok 1 ∧
    ((remove ["m.sql"]).run ((after "m.sql")^[2] closedScript)).outcome = .ok 0 ∧
    ((after "m.sql")^[2] closedScript).readBytes "m.sql" = .ok ⟨#[97, 13, 10]⟩ := by
  have hfile : closedScript.follow "m.sql" = .file ["m.sql"] ⟨twoSemicolons.toArray⟩ := rfl
  obtain ⟨-, -, hsettled, hruns⟩ := removal_settles twoSemicolons
  obtain ⟨-, -, hfirst, -⟩ := hruns closedScript "m.sql" ["m.sql"] hfile 1
  obtain ⟨hread, -, hsecond, -⟩ := hruns closedScript "m.sql" ["m.sql"] hfile 2
  have hcount : (closing twoSemicolons).count semicolon = 2 := by decide
  rw [hsettled 2 (by omega)] at hread
  rw [hcount] at hfirst hsecond
  exact ⟨hfile, hfirst, hsecond, hread⟩

end Semicolons

end ProjectLint
