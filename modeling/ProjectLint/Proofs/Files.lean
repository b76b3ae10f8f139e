import Mathlib.Data.List.Basic
import ProjectLint.Tree

/-!
# Reading back what was written

A file that is written over keeps its place, so every path leads where it led before, and only the
content found there is another one (`follow_putNode`).  From this come the two facts that the proofs
about edits use: the text that was written is the text that is read back (`readText_writeText`), and
what stands at another place is as before (`node?_putNode_of_ne`).
-/

namespace ProjectLint

/-! ### Text and bytes -/

namespace Text

theorem decode_toUTF8 (s : String) : decode s.toUTF8 = .ok s := by
  have h : String.fromUTF8? s.toUTF8 = some s := by
    simp only [String.fromUTF8?, String.toUTF8_eq_toByteArray, dif_pos s.isValidUTF8]
    rfl
  rw [decode, h]

theorem eq_toUTF8_of_decode {bytes : ByteArray} {s : String} (h : decode bytes = .ok s) :
    bytes = s.toUTF8 := by
  rw [decode, String.fromUTF8?] at h
  by_cases hvalid : bytes.IsValidUTF8
  · rw [dif_pos hvalid] at h
    cases h
    rfl
  · rw [dif_neg hvalid] at h
    cases h

theorem not_mem_unifyLines (cs : List Char) : '\r' ∉ unifyLines cs := by
  fun_induction unifyLines cs with
  | case1 => simp
  | case2 rest ih => simp [ih]
  | case3 rest _ ih => simp [ih]
  | case4 c rest _ hc ih => simp [ih, Ne.symm hc]

theorem unifyNewlines_of_not_mem {s : String} (h : '\r' ∉ s.toList) : unifyNewlines s = s :=
  if_neg h

theorem not_mem_unifyNewlines (s : String) : '\r' ∉ (unifyNewlines s).toList := by
  rw [unifyNewlines]
  split
  · rw [String.toList_ofList]
    exact not_mem_unifyLines _
  · assumption

end Text

namespace Tree

/-! ### Nodes in their places -/

/-- A search among nodes of which the one at a place is another one. -/
theorem find?_map_put (place other : List String) (node : Node) :
    ∀ nodes : List (List String × Node),
    ((nodes.map fun n => if n.1 == place then (place, node) else n).find? fun n => n.1 == other).map
      (·.2) = if other = place then (if nodes.any fun n => n.1 == place then some node else none)
      else (nodes.find? fun n => n.1 == other).map (·.2) := by
  have hpos : ∀ (n : List String × Node) (rest : List (List String × Node)), n.1 = other →
      ((n :: rest).find? fun n => n.1 == other) = some n :=
    fun n rest h => List.find?_cons_of_pos (by simpa using h)
  have hneg : ∀ (n : List String × Node) (rest : List (List String × Node)), n.1 ≠ other →
      ((n :: rest).find? fun n => n.1 == other) = rest.find? fun n => n.1 == other :=
    fun n rest h => List.find?_cons_of_neg (by simpa using h)
  intro nodes
  induction nodes with
  | nil => simp
  | cons n rest ih =>
    rw [List.map_cons, List.any_cons]
    by_cases hn : n.1 = place
    · rw [if_pos (beq_iff_eq.mpr hn)]
      by_cases ho : other = place
      · rw [hpos _ _ ho.symm, if_pos ho, beq_iff_eq.mpr hn]
        rfl
      · rw [hneg _ _ (Ne.symm ho), hneg _ _ (hn ▸ Ne.symm ho), ih, if_neg ho, if_neg ho]
    · rw [if_neg (fun h => hn (eq_of_beq h)), beq_eq_false_iff_ne.mpr hn, Bool.false_or]
      by_cases hno : n.1 = other
      · rw [hpos _ _ hno, hpos _ _ hno, if_neg (fun h => hn (hno.trans h))]
      · rw [hneg _ _ hno, hneg _ _ hno, ih]

theorem node?_putNode (t : Tree) (place other : List String) (node : Node) :
    (t.putNode place node).node? other = if other = place then some node else t.node? other := by
  by_cases hthere : t.nodes.any fun n => n.1 == place
  · rw [putNode, if_pos hthere, node?, find?_map_put, if_pos hthere]
    rfl
  · have habsent : (t.nodes.find? fun n => n.1 == place) = none := by
      rw [List.find?_eq_none]
      intro n hn he
      exact hthere (List.any_eq_true.mpr ⟨n, hn, he⟩)
    rw [putNode, if_neg hthere, node?, List.find?_append]
    by_cases ho : other = place
    · rw [if_pos ho, ho, habsent]
      simp
    · have hne : place ≠ other := Ne.symm ho
      rw [if_neg ho, node?]
      simp [hne]

variable {t : Tree} {path : String} {place : List String} {old content : ByteArray}
    {text q : String}

variable {other : List String}

theorem node?_putNode_of_ne (node : Node) (h : other ≠ place) :
    (t.putNode place node).node? other = t.node? other := by
  rw [node?_putNode, if_neg h]

/-! ### Following paths after a file was written -/

def Target.withContent (place : List String) (content : ByteArray) : Target → Target
  | .file other old => .file other (if other = place then content else old)
  | target => target

theorem step_putNode (h : t.node? place = some (.file old)) (content : ByteArray) (part : String)
    (target : Target) :
    (t.putNode place (.file content)).step part (target.withContent place content) =
      (t.step part target).withContent place content := by
  cases target with
  | dir above =>
    simp only [Target.withContent, step]
    split
    · rfl
    split
    · split <;> rfl
    rw [node?_putNode]
    by_cases hp : above ++ [part] = place
    · rw [if_pos hp, hp, h]
      simp
    · rw [if_neg hp]
      cases t.node? (above ++ [part]) with
      | none => rfl
      | some node =>
        cases node with
        | dir => rfl
        | file c => simp [hp]
  | file other c => rfl
  | outside =>
    simp only [Target.withContent, step]
    split <;> rfl
  | absent above =>
    simp only [Target.withContent, step]
    split <;> rfl
  | noDirectory => rfl
  | throughFile => rfl

/-- **Every path leads where it led before a file was written.** -/
theorem follow_putNode (h : t.node? place = some (.file old)) (content : ByteArray)
    (path : String) :
    (t.putNode place (.file content)).follow path = (t.follow path).withContent place content := by
  have hfold : ∀ (parts : List String) (target : Target),
      parts.foldl (fun target part => (t.putNode place (.file content)).step part target)
          (target.withContent place content) =
        (parts.foldl (fun target part => t.step part target) target).withContent place content := by
    intro parts
    induction parts with
    | nil => intro target; rfl
    | cons part parts ih =>
      intro target
      rw [List.foldl_cons, List.foldl_cons, step_putNode h, ih]
  rw [follow, follow]
  split
  · rfl
  · rw [← hfold]
    split <;> rfl

/-- A step leads to a file in a directory only. -/
theorem step_eq_file {part : String} {target : Target}
    (h : t.step part target = .file place content) :
    place.getLast? = some part ∧ t.node? place = some (.file content) := by
  cases target with
  | dir above =>
    simp only [step] at h
    split at h
    · cases h
    split at h
    · split at h <;> cases h
    split at h
    · rename_i hnode
      cases h
      exact ⟨List.getLast?_concat, hnode⟩
    · cases h
    · cases h
  | file other c => cases h
  | outside =>
    simp only [step] at h
    split at h <;> cases h
  | absent above =>
    simp only [step] at h
    split at h <;> cases h
  | noDirectory => cases h
  | throughFile => cases h

/-- What holds where a path may start, and is kept by each step, holds where the path leads. -/
theorem follow_induction {motive : Target → Prop} (hnone : motive .noDirectory)
    (hdir : motive (.dir []))
    (houtside : motive .outside) (hstep : ∀ part target, motive target →
      motive (t.step part target)) (path : String) :
    motive (t.follow path) := by
  have hfold : ∀ (parts : List String) (target : Target), motive target →
      motive (parts.foldl (fun target part => t.step part target) target) := by
    intro parts
    induction parts with
    | nil => intro target h; exact h
    | cons part parts ih => intro target h; exact ih _ (hstep part target h)
  rw [follow]
  split
  · exact hnone
  · refine hfold _ _ ?_
    split
    · exact hdir
    · exact houtside

theorem node?_of_follow (h : t.follow path = .file place content) :
    t.node? place = some (.file content) := by
  refine @follow_induction t (fun target => target = .file place content →
    t.node? place = some (.file content)) ?_ ?_ ?_ ?_ path h
  · intro h; cases h
  · intro h; cases h
  · intro h; cases h
  · intro part target _ h; exact (step_eq_file h).2

theorem readBytes_eq_ok_iff : t.readBytes path = .ok content ↔
    ∃ place, t.follow path = .file place content := by
  rw [readBytes]
  cases t.follow path <;> simp

theorem writeText_of_follow (text : String) (h : t.follow path = .file place old) :
    t.writeText path text = .ok (t.putNode place (.file text.toUTF8)) := by
  rw [writeText, writeBytes, h]

theorem readText_of_follow (h : t.follow path = .file place text.toUTF8)
    (hno : '\r' ∉ text.toList) :
    t.readText path = .ok text := by
  rw [readText, readBytes, h]
  simp only [Text.decode_toUTF8, Text.unifyNewlines_of_not_mem hno]

theorem not_mem_of_readText (h : t.readText path = .ok text) : '\r' ∉ text.toList := by
  rw [readText] at h
  split at h
  · cases h
  split at h
  · cases h
    exact Text.not_mem_unifyNewlines _
  · cases h

/-- **A file that can be read can be written over, and reads as it was written**, with its line ends
unified. -/
theorem readText_putNode (text : String) (h : t.follow path = .file place old) :
    (t.putNode place (.file text.toUTF8)).readText path = .ok (Text.unifyNewlines text) := by
  rw [readText, readBytes, follow_putNode (node?_of_follow h), h, Target.withContent, if_pos rfl]
  simp only [Text.decode_toUTF8]

theorem readText_writeText (h : t.follow path = .file place old) (hno : '\r' ∉ text.toList) :
    (t.putNode place (.file text.toUTF8)).readText path = .ok text := by
  rw [readText_putNode text h, Text.unifyNewlines_of_not_mem hno]

theorem readText_putNode_of_ne {c : ByteArray} (content : ByteArray)
    (h : t.node? place = some (.file old))
    (hpath : t.follow path = .file other c) (hne : other ≠ place) :
    (t.putNode place (.file content)).readText path = t.readText path := by
  have hsame : (t.putNode place (.file content)).follow path = t.follow path := by
    rw [follow_putNode h, hpath, Target.withContent, if_neg hne]
  rw [readText, readText, readBytes, readBytes, hsame]

theorem follow_of_readText (h : t.readText path = .ok text) :
    ∃ place content, t.follow path = .file place content := by
  rw [readText] at h
  split at h
  · cases h
  · rename_i bytes hbytes
    obtain ⟨place, hplace⟩ := readBytes_eq_ok_iff.mp hbytes
    exact ⟨place, bytes, hplace⟩

theorem follow_putNode_elsewhere (hnode : t.node? place = some (.file old)) (content : ByteArray)
    (hq : ∀ c, t.follow q ≠ .file place c) :
    (t.putNode place (.file content)).follow q = t.follow q := by
  rw [follow_putNode hnode]
  cases hfollow : t.follow q with
  | file other c =>
    have hne : other ≠ place := fun h => hq c (h ▸ hfollow)
    rw [Target.withContent, if_neg hne]
  | dir above => rfl
  | outside => rfl
  | absent above => rfl
  | noDirectory => rfl
  | throughFile => rfl

theorem exists_of_follow_putNode {c : ByteArray} (hnode : t.node? place = some (.file old))
    (h : (t.putNode place (.file content)).follow q = .file other c) :
    ∃ c', t.follow q = .file other c' := by
  rw [follow_putNode hnode] at h
  cases hfollow : t.follow q with
  | file o c' =>
    rw [hfollow] at h
    cases h
    exact ⟨c', rfl⟩
  | dir above => rw [hfollow] at h; cases h
  | outside => rw [hfollow] at h; cases h
  | absent above => rw [hfollow] at h; cases h
  | noDirectory => rw [hfollow] at h; cases h
  | throughFile => rw [hfollow] at h; cases h

theorem readText_putNode_elsewhere (hnode : t.node? place = some (.file old)) (content : ByteArray)
    (hq : ∀ c, t.follow q ≠ .file place c) :
    (t.putNode place (.file content)).readText q = t.readText q ∧
      ∀ c, (t.putNode place (.file content)).follow q ≠ .file place c := by
  have hsame := follow_putNode_elsewhere hnode content hq
  rw [readText, readText, readBytes, readBytes, hsame]
  exact ⟨rfl, hq⟩

end Tree

end ProjectLint
