import ProjectLint.Fixes.Properties
import ProjectLint.Proofs.FileMaps
import ProjectLint.Proofs.Outcomes

/-!
# Files and directories that are added

A tree that is added to keeps its directories and files where they are (`Extends`), so **a path that
leads to a file leads to it for good** (`Extends.follow_file`).  A path that leads nowhere may come
to lead to a file that has been there all the time: directories that are made for it open the way,
and if it goes on with double dots then it comes back out of them.
-/

namespace ProjectLint.Tree

/-- The content of the file at a place. -/
def fileAt? (t : Tree) (place : List String) : Option ByteArray :=
  match t.node? place with
  | some (.file content) => some content
  | _ => none

/-- The path leads to the file at the place. -/
def leadsTo (t : Tree) (path : String) (place : List String) : Bool :=
  match t.follow path with
  | .file other _ => other == place
  | _ => false

variable {place : List String} {path : String} {content : ByteArray}

variable {t : Tree}

theorem leadsTo_iff : t.leadsTo path place = true ↔
    ∃ content, t.follow path = .file place content := by
  rw [leadsTo]
  cases t.follow path <;> simp

theorem fileAt?_eq_some_iff : t.fileAt? place = some content ↔
    t.node? place = some (.file content) := by
  rw [fileAt?]
  cases t.node? place with
  | none => simp
  | some node => cases node <;> simp

theorem fileAt?_of_follow (h : t.follow path = .file place content) :
    t.fileAt? place = some content :=
  fileAt?_eq_some_iff.mpr (node?_of_follow h)

theorem fileAt?_putNode_file (t : Tree) (place other : List String) (content : ByteArray) :
    (t.putNode place (.file content)).fileAt? other = if other = place then some content
      else t.fileAt? other := by
  rw [fileAt?, node?_putNode]
  by_cases h : other = place
  · rw [if_pos h, if_pos h]
  · rw [if_neg h, if_neg h]
    rfl

/-! ### Trees that are added to -/

/-- What is a directory stays one, and what is a file stays one, with any content. -/
structure Extends (t t' : Tree) : Prop where
  dirs : ∀ place, t.node? place = some .dir → t'.node? place = some .dir
  files : ∀ place content, t.node? place = some (.file content) →
    ∃ content', t'.node? place = some (.file content')

namespace Extends

variable {t t' t'' : Tree}

theorem refl (t : Tree) : Extends t t := ⟨fun _ h => h, fun _ content h => ⟨content, h⟩⟩

theorem trans (h : Extends t t') (h' : Extends t' t'') : Extends t t'' := by
  refine ⟨fun place hp => h'.dirs place (h.dirs place hp), fun place content hp => ?_⟩
  obtain ⟨content', hp'⟩ := h.files place content hp
  exact h'.files place content' hp'

theorem putNode_file (h : t.node? place ≠ some .dir) (content : ByteArray) :
    Extends t (t.putNode place (.file content)) := by
  refine ⟨fun other ho => ?_, fun other old ho => ?_⟩
  · rw [node?_putNode_of_ne _ (by rintro rfl; exact h ho), ho]
  · rw [node?_putNode]
    split
    · exact ⟨content, rfl⟩
    · exact ⟨old, ho⟩

theorem putNode_dir (h : t.node? place = none) : Extends t (t.putNode place .dir) := by
  have hne : ∀ other node, t.node? other = some node → other ≠ place := by
    rintro other node ho rfl
    rw [h] at ho
    cases ho
  refine ⟨fun other ho => ?_, fun other content ho => ⟨content, ?_⟩⟩
  · rw [node?_putNode_of_ne _ (hne _ _ ho), ho]
  · rw [node?_putNode_of_ne _ (hne _ _ ho), ho]

def Along : Target → Target → Prop
  | .dir place, target => target = .dir place
  | .file place _, target => ∃ content, target = .file place content
  | _, _ => True

theorem along_step (h : Extends t t') (part : String) {target target' : Target}
    (halong : Along target target') :
    Along (t.step part target) (t'.step part target') := by
  cases target with
  | dir place =>
    cases halong
    rw [step, step]
    split
    · rfl
    split
    · split
      · trivial
      · rfl
    · dsimp only
      cases hnode : t.node? (place ++ [part]) with
      | none => trivial
      | some node =>
        cases node with
        | dir => rw [h.dirs _ hnode]; rfl
        | file content =>
          obtain ⟨content', hnode'⟩ := h.files _ _ hnode
          rw [hnode']
          exact ⟨content', rfl⟩
  | file place content => trivial
  | outside =>
    rw [step]
    split <;> trivial
  | absent place =>
    rw [step]
    split <;> trivial
  | noDirectory => trivial
  | throughFile => trivial

theorem along_steps (h : Extends t t') : ∀ (parts : List String) {target target' : Target},
    Along target target' →
    Along (parts.foldl (fun target part => t.step part target) target)
      (parts.foldl (fun target part => t'.step part target) target') := by
  intro parts
  induction parts with
  | nil => intro target target' halong; exact halong
  | cons part parts ih => intro target target' halong; exact ih (h.along_step part halong)

theorem along_start (path : String) :
    Along (if Path.rootOf path.toList == .relative then .dir [] else .outside)
      (if Path.rootOf path.toList == .relative then .dir [] else .outside) := by
  split
  · rfl
  · trivial

/-- **A path that leads to a file leads to it for good.** -/
theorem follow_file (h : Extends t t') (hfollow : t.follow path = .file place content) :
    ∃ content', t'.follow path = .file place content' := by
  rw [follow] at hfollow ⊢
  split at hfollow
  · cases hfollow
  · rename_i hpath
    rw [if_neg hpath]
    have halong := h.along_steps (Path.pieces path) (along_start path)
    dsimp only at hfollow
    rw [hfollow] at halong
    exact halong

end Extends

/-! ### Files that are not there yet -/

theorem step_eq_absent {part : String} {target : Target} (h : t.step part target = .absent place) :
    (part = "" ∧ target = .absent place) ∨
      (t.node? place = none ∧ ∃ above, target = .dir above ∧ ∀ t' : Tree, ∀ content,
        t'.node? place = some (.file content) → t'.step part target = .file place content) := by
  cases target with
  | dir above =>
    rw [step] at h
    split at h
    · cases h
    rename_i hdot
    split at h
    · split at h <;> cases h
    rename_i hdots
    dsimp only at h
    cases hnode : t.node? (above ++ [part]) with
    | some node =>
      rw [hnode] at h
      cases node <;> cases h
    | none =>
      rw [hnode] at h
      cases h
      refine .inr ⟨hnode, above, rfl, fun t' content hnode' => ?_⟩
      simp only [step, if_neg hdot, if_neg hdots, hnode']
  | absent other =>
    rw [step] at h
    split at h
    · rename_i hempty
      cases h
      exact .inl ⟨String.isEmpty_iff.mp hempty, rfl⟩
    · cases h
  | outside =>
    rw [step] at h
    split at h <;> cases h
  | file other content => cases h
  | noDirectory => cases h
  | throughFile => cases h

theorem node?_of_follow_absent (h : t.follow path = .absent place) : t.node? place = none := by
  refine @follow_induction t (fun target => target = .absent place →
    t.node? place = none) ?_ ?_ ?_ ?_ path h
  · intro h; cases h
  · intro h; cases h
  · intro h; cases h
  · intro part target ih hstep
    rcases step_eq_absent hstep with ⟨-, habsent⟩ | ⟨hnone, -⟩
    · exact ih habsent
    · exact hnone

theorem follow_putNode_absent (h : t.follow path = .absent place) {last : String}
    (hlast : (Path.pieces path).getLast? = some last) (hne : last ≠ "") (content : ByteArray) :
    (t.putNode place (.file content)).follow path = .file place content := by
  have hnone := node?_of_follow_absent h
  have hextends : Extends t (t.putNode place (.file content)) :=
    .putNode_file (by rw [hnone]; simp) content
  obtain ⟨init, hinit⟩ := List.getLast?_eq_some_iff.mp hlast
  rw [follow] at h ⊢
  split at h
  · cases h
  rename_i hpath
  rw [if_neg hpath]
  have halong := hextends.along_steps init (Extends.along_start path)
  dsimp only at h ⊢
  rw [hinit, List.foldl_append, List.foldl_cons, List.foldl_nil] at h ⊢
  rcases step_eq_absent h with ⟨hempty, -⟩ | ⟨-, above, hdir, hfile⟩
  · exact absurd hempty hne
  · -- the directory is reached in the new tree too, and the last step finds the file
    rw [hdir] at halong hfile
    rw [show _ = Target.dir above from halong]
    exact hfile _ content (by rw [node?_putNode, if_pos rfl])

theorem getLast?_pieces_of_absent {s : String}
    (h : t.follow (Path.ofString s).text = .absent place) :
    ∃ last, (Path.pieces (Path.ofString s).text).getLast? = some last ∧ last ≠ "" := by
  by_cases hparts : (Path.ofString s).parts = []
  · -- a path without parts is the working directory or one outside
    have htext : (Path.ofString s).text = "." ∨ (Path.ofString s).text = "/" ∨
        (Path.ofString s).text = "//" := by
      rw [Path.text, hparts]
      cases (Path.ofString s).root <;> decide
    rcases htext with htext | htext | htext <;> rw [htext] at h <;> cases h
  · obtain ⟨init, last, hlast⟩ : ∃ init last, (Path.ofString s).parts = init ++ [last] :=
      ⟨_, _, (List.dropLast_concat_getLast hparts).symm⟩
    have hmem : last ∈ (Path.ofString s).parts := by
      rw [hlast]
      exact List.mem_append_right _ (List.mem_singleton.mpr rfl)
    obtain ⟨hpiece, hfull⟩ := List.mem_filter.mp hmem
    have hne : last ≠ "" := by
      rintro rfl
      cases hfull
    have hno : '/' ∉ last.toList := by
      obtain ⟨cs, hcs, rfl⟩ := List.mem_map.mp hpiece
      rw [String.toList_ofList]
      exact Text.not_mem_of_mem_splitList hcs
    exact ⟨last, Path.getLast?_pieces hlast hne hno, hne⟩

/-! ### Directories that are made -/

/-- Nothing but directories has been added. -/
structure MoreDirs (t t' : Tree) : Prop where
  extend : Extends t t'
  files : ∀ place, t'.fileAt? place = t.fileAt? place

theorem MoreDirs.refl (t : Tree) : MoreDirs t t := ⟨.refl t, fun _ => rfl⟩

theorem MoreDirs.trans {t' t'' : Tree} (h : MoreDirs t t') (h' : MoreDirs t' t'') :
    MoreDirs t t'' :=
  ⟨h.extend.trans h'.extend, fun place => (h'.files place).trans (h.files place)⟩

open PropertyFiles (makeDir makeDirs)

theorem moreDirs_makeDir {t' : Tree} {dir : Path} (h : makeDir t dir = .ok t') : MoreDirs t t' := by
  rw [makeDir] at h
  split at h
  · cases h
    exact .refl t
  · cases h
    exact .refl t
  · cases h
  · cases h
  · rename_i place hfollow
    cases h
    have hnone := node?_of_follow_absent hfollow
    refine ⟨.putNode_dir hnone, fun other => ?_⟩
    rw [fileAt?, fileAt?, node?_putNode]
    by_cases ho : other = place
    · rw [if_pos ho, ho, hnone]
    · rw [if_neg ho]
  · cases h

theorem moreDirs_forEach : ∀ (dirs : List Path) {t : Tree},
    ((Edit.forEach (fun d => Edit.change fun t => makeDir t d) dirs).run t).outcome = .ok () →
      MoreDirs t ((Edit.forEach (fun d => Edit.change fun t => makeDir t d) dirs).run t).tree := by
  intro dirs
  induction dirs with
  | nil => intro t _; exact .refl t
  | cons dir dirs ih =>
    intro t h
    rw [Edit.forEach_cons, Edit.outcome_bind] at h
    obtain ⟨_, hfirst, hrest⟩ := bind_eq_ok_iff.mp h
    rw [Edit.forEach_cons, Edit.run_bind_ok hfirst]
    exact (moreDirs_makeDir (Edit.eq_ok_of_change hfirst)).trans (ih hrest)

/-- **Where directories are made, no file is touched.** -/
theorem moreDirs_makeDirs {dir : Path} (h : ((makeDirs dir).run t).outcome = .ok ()) :
    MoreDirs t ((makeDirs dir).run t).tree := by
  rw [Edit.run, makeDirs] at h ⊢
  dsimp only at h ⊢
  split at h
  · exact moreDirs_forEach _ h
  · exact moreDirs_makeDir (Edit.eq_ok_of_change h)

end ProjectLint.Tree
