import ProjectLint.Project.Related
import ProjectLint.Proofs.FileMaps
import ProjectLint.Proofs.Outcomes

/-!
# What a search finds

Files are searched for at any depth: the parts of a path are looked for below every directory.  If
the path is literal, which means that it is relative and has no wildcards, the parts stand for
themselves, and **what is found ends in the path** (`endsIn_of_mem_filesAt`).  Endings of paths are
told component by component (`EndsIn`); the text of a path may end in another text without ending in
the path.
-/

namespace ProjectLint

/-! ### Endings -/

def EndsIn (path ending : String) : Prop :=
  (Path.ofString ending).components ≠ [] ∧
    (Path.ofString ending).components <:+ (Path.ofString path).components

instance (path ending : String) : Decidable (EndsIn path ending) :=
  inferInstanceAs (Decidable (_ ∧ _))

def Literal (path : String) : Prop :=
  (Path.ofString path).root = .relative ∧ (Path.ofString path).parts ≠ [] ∧
    ∀ part ∈ (Path.ofString path).parts, Wildcard.isWild part = false

instance (path : String) : Decidable (Literal path) := inferInstanceAs (Decidable (_ ∧ _ ∧ _))

namespace Path

def IsName (part : String) : Prop := part ≠ "" ∧ part ≠ "." ∧ '/' ∉ part.toList

theorem isName_of_mem_parts {s part : String} (h : part ∈ (ofString s).parts) : IsName part := by
  obtain ⟨hpiece, hkept⟩ := List.mem_filter.mp h
  obtain ⟨cs, hcs, rfl⟩ := List.mem_map.mp hpiece
  simp only [Bool.and_eq_true, Bool.not_eq_true', bne_iff_ne, ne_eq] at hkept
  refine ⟨fun hempty => ?_, hkept.2, ?_⟩
  · rw [hempty] at hkept
    exact absurd hkept.1 (by decide)
  · rw [String.toList_ofList]
    exact Text.not_mem_of_mem_splitList hcs

theorem filter_names {names : List String} (h : ∀ part ∈ names, IsName part) :
    (names.filter fun part => !part.isEmpty && part != ".") = names := by
  refine List.filter_eq_self.mpr fun part hpart => ?_
  obtain ⟨hempty, hdot, -⟩ := h part hpart
  simp [hempty, hdot]

theorem pieces_append (before after : String) :
    pieces (before ++ "/" ++ after) = pieces before ++ pieces after := by
  have hlist : (before ++ "/" ++ after).toList = before.toList ++ '/' :: after.toList := by
    simp [String.toList_append]
  rw [pieces, Text.split, hlist, Text.splitList_append, List.map_append]
  rfl

theorem pieces_intercalate : ∀ {names : List String}, names ≠ [] → (∀ part ∈ names, IsName part) →
    pieces ("/".intercalate names) = names := by
  intro names
  induction names with
  | nil => intro h; exact absurd rfl h
  | cons name names ih =>
    intro _ h
    have hfirst : pieces name = [name] := by
      rw [pieces, Text.split, Text.splitList_of_not_mem (h name List.mem_cons_self).2.2]
      simp
    by_cases hnil : names = []
    · rw [hnil, String.intercalate_singleton, hfirst]
    · rw [String.intercalate_cons_of_ne_nil hnil, pieces_append, hfirst,
        ih hnil fun part hpart => h part (List.mem_cons_of_mem _ hpart)]
      rfl

theorem parts_suffix_components (p : Path) : p.parts <:+ p.components := by
  rw [components]
  split
  · exact List.suffix_refl _
  · exact List.suffix_cons _ _

theorem text_relative {parts : List String} (h : "/".intercalate parts ≠ "") :
    text ⟨.relative, parts⟩ = "/".intercalate parts := by
  have hroot : Root.text .relative ++ "/".intercalate parts = "/".intercalate parts :=
    String.empty_append
  rw [text]
  simp only [hroot]
  exact if_neg fun hempty => h (String.isEmpty_iff.mp hempty)

/-- **A path that ends in names reads so**, whatever stands before them. -/
theorem suffix_parts_text {start names : List String} (hne : names ≠ [])
    (h : ∀ part ∈ names, IsName part) :
    names <:+ (ofString (text ⟨.relative, start ++ names⟩)).parts := by
  obtain ⟨before, hpieces⟩ :
      ∃ before, pieces ("/".intercalate (start ++ names)) = before ++ names := by
    by_cases hnil : start = []
    · exact ⟨[], by rw [hnil, List.nil_append, pieces_intercalate hne h]⟩
    · exact ⟨_, by
        rw [String.intercalate_append_of_ne_nil hnil hne, pieces_append, pieces_intercalate hne h]⟩
  have hbody : text ⟨.relative, start ++ names⟩ = "/".intercalate (start ++ names) := by
    refine text_relative fun hempty => ?_
    -- an empty text has one piece, which is no name
    rw [hempty] at hpieces
    have hone : pieces "" = [""] := rfl
    rw [hone] at hpieces
    obtain ⟨part, hpart⟩ := List.exists_mem_of_ne_nil _ hne
    have hmem : part ∈ [""] := hpieces ▸ List.mem_append_right _ hpart
    exact (h part hpart).1 (List.mem_singleton.mp hmem)
  refine ⟨before.filter fun part => !part.isEmpty && part != ".", ?_⟩
  rw [hbody, ofString, hpieces, List.filter_append, filter_names h]

end Path

/-! ### Searching for literal paths -/

namespace Search

theorem part_of_literal {part : String} (hname : part ≠ "") (hwild : Wildcard.isWild part = false)
    {q : Part} (h : Part.ofString part = .ok q) : q = .name part ∨ q = .up ∧ part = ".." := by
  rw [Part.ofString, if_neg (by simp [hname])] at h
  split at h
  · rename_i hstars
    rw [beq_iff_eq.mp hstars] at hwild
    exact absurd hwild (by decide)
  split at h
  · rename_i hup
    cases h
    exact .inr ⟨rfl, beq_iff_eq.mp hup⟩
  split at h
  · cases h
  rw [if_neg (by simp [hwild])] at h
  cases h
  exact .inl rfl

/-- **What literal parts lead to**: the parts themselves, behind what was found before. -/
theorem eq_append_of_mem_select {t : Tree} {ending : List Part}
    (hending : ending = [] ∨ ending = [.here]) :
    ∀ {parts : List String} {qs : List Part}, parts.mapM Part.ofString = .ok qs →
      (∀ part ∈ parts, part ≠ "" ∧ Wildcard.isWild part = false) →
      ∀ {found result : List String}, result ∈ select t (qs ++ ending) found →
        result = found ++ parts := by
  intro parts
  induction parts with
  | nil =>
    intro qs hqs _ found result hresult
    cases hqs
    rcases hending with rfl | rfl
    · simpa [select] using hresult
    · simpa [select] using hresult
  | cons part parts ih =>
    intro qs hqs hliteral found result hresult
    obtain ⟨q, rest, hq, hrest, rfl⟩ := mapM_cons_eq_ok_iff.mp hqs
    obtain ⟨⟨hname, hwild⟩, hothers⟩ := List.forall_mem_cons.mp hliteral
    have hnext : result ∈ select t (rest ++ ending) (found ++ [part]) := by
      rcases part_of_literal hname hwild hq with rfl | ⟨rfl, rfl⟩
      · rw [List.cons_append, select] at hresult
        exact (List.mem_ite_nil_right.mp hresult).2
      · rwa [List.cons_append, select] at hresult
    rw [ih hrest hothers hnext, List.append_assoc, List.singleton_append]

theorem parts_anyDepth (path : String) :
    (Path.ofString ("**/" ++ path)).parts = "**" :: (Path.ofString path).parts ∧
      (Path.ofString ("**/" ++ path)).root = .relative := by
  have htext : "**/" ++ path = "**" ++ "/" ++ path := rfl
  constructor
  · rw [Path.ofString, Path.ofString, htext, Path.pieces_append]
    rfl
  · rw [Path.ofString]
    have hlist : ("**/" ++ path).toList = '*' :: '*' :: '/' :: path.toList := by
      simp [String.toList_append]
    rw [hlist]
    rfl

/-- The pattern of such a search is two stars, the parts of the path, and perhaps a slash at the
end. -/
theorem parse_anyDepth {path : String} {qs : List Part} (h : parse ("**/" ++ path) = .ok qs) :
    ∃ rest ending,
    (Path.ofString path).parts.mapM Part.ofString = .ok rest ∧ (ending = [] ∨ ending = [.here]) ∧
      qs = .anyDepth :: (rest ++ ending) := by
  obtain ⟨hparts, hrelative⟩ := parts_anyDepth path
  rw [parse, if_neg (by simp), if_neg (by simp [hrelative]), hparts] at h
  dsimp only at h
  rw [List.cons_append, List.mapM_cons, List.mapM_append] at h
  obtain ⟨stars, hstars, h⟩ := bind_eq_ok_iff.mp h
  obtain rfl : Part.anyDepth = stars := Except.ok.inj hstars
  obtain ⟨both, hboth, h⟩ := bind_eq_ok_iff.mp h
  cases h
  obtain ⟨rest, hrest, hboth⟩ := bind_eq_ok_iff.mp hboth
  obtain ⟨ending, hending, hboth⟩ := bind_eq_ok_iff.mp hboth
  cases hboth
  refine ⟨rest, ending, hrest, ?_, rfl⟩
  split at hending
  · exact .inr (Except.ok.inj hending).symm
  · exact .inl (Except.ok.inj hending).symm

end Search

theorem exists_of_mem_filesAt {t : Tree} {path file : String} {found : List String}
    (h : filesAt t path = .ok found)
    (hfile : file ∈ found) : ∃ qs names, Search.parse ("**/" ++ path) = .ok qs ∧
      names ∈ Search.select t qs [] ∧ file = Path.text ⟨.relative, names⟩ ∧
      Text.contains (Text.lower file) "target/" = false := by
  obtain ⟨places, hplaces, hfound⟩ := bind_eq_ok_iff.mp h
  cases hfound
  obtain ⟨hfile, htarget⟩ := List.mem_filter.mp hfile
  obtain ⟨place, hplace, rfl⟩ := List.mem_map.mp hfile
  obtain ⟨qs, hqs, rfl⟩ := map_eq_ok_iff.mp hplaces
  obtain ⟨names, hnames, rfl⟩ := List.mem_map.mp hplace
  exact ⟨qs, names, hqs, hnames, rfl, by simpa using htarget⟩

/-- **The files that are found for a literal path end in the path.** -/
theorem endsIn_of_mem_filesAt {t : Tree} {path file : String} {found : List String}
    (hpath : Literal path)
    (h : filesAt t path = .ok found) (hfile : file ∈ found) : EndsIn file path := by
  obtain ⟨hroot, hne, hwild⟩ := hpath
  have hnames : ∀ part ∈ (Path.ofString path).parts, Path.IsName part :=
    fun _ => Path.isName_of_mem_parts
  have hcomponents : (Path.ofString path).components = (Path.ofString path).parts := by
    rw [Path.components, hroot]
    rfl
  obtain ⟨qs, result, hqs, hresult, rfl, -⟩ := exists_of_mem_filesAt h hfile
  obtain ⟨rest, ending, hrest, hending, rfl⟩ := Search.parse_anyDepth hqs
  rw [Search.select, List.mem_eraseDups] at hresult
  obtain ⟨start, -, hresult⟩ := List.mem_flatMap.mp hresult
  have hresult := Search.eq_append_of_mem_select hending hrest
    (fun part hpart => ⟨(hnames part hpart).1, hwild part hpart⟩) hresult
  refine ⟨by rwa [hcomponents], ?_⟩
  rw [hcomponents, hresult]
  exact (Path.suffix_parts_text hne hnames).trans (Path.parts_suffix_components _)

end ProjectLint
