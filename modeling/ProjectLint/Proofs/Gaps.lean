import Mathlib.Data.List.DropRight
import Mathlib.Data.List.Nodup
import ProjectLint.Checks.Descriptions
import ProjectLint.Proofs.Findings
import ProjectLint.Proofs.Texts

/-!
# Gaps in descriptions

The columns of models and the arguments of macros are described in two places: in the manifest and
in property files. Two checks walk through both, the nodes of the manifest first, and note under the
name of each model or macro what is left undescribed (`PartCheck`).

What is noted adds up until a mention leaves nothing undescribed, which clears the name.  So the
note under a name is the union of what its mentions leave out **behind the last complete one**
(`Gaps.get_notes`, by induction on the mentions from their end).  `PartCheck.run_reports` says this
of a whole run, together with its lines and its status.
-/

namespace ProjectLint

/-! ### Unions -/

theorem union_nil (gap : List Scalar) : union [] gap = gap := by
  simp [union, minus]

variable {x : Scalar}

theorem mem_of_mem_union {a b : List Scalar} (h : x ∈ union a b) : x ∈ a ∨ x ∈ b := by
  rcases List.mem_append.mp h with h | h
  · exact .inl h
  · exact .inr (List.mem_of_mem_filter h)

theorem exists_mem_union {a b : List Scalar} (h : x ∈ a ∨ x ∈ b) :
    x ∈ union a b ∨ ∃ y ∈ union a b, y.same x = true := by
  rcases h with h | h
  · exact .inl (List.mem_append_left _ h)
  · by_cases hin : a.any (·.same x) = true
    · obtain ⟨y, hy, hs⟩ := List.any_eq_true.mp hin
      exact .inr ⟨y, List.mem_append_left _ hy, hs⟩
    · exact .inl (List.mem_append_right _ (List.mem_filter.mpr ⟨h, by simpa using hin⟩))

/-! ### Notes -/

namespace Descriptions

namespace Gaps

theorem get_cons (e : Scalar × List Scalar) (g : Gaps) (m : String) :
    get (e :: g) (.str m) = if e.1.same (.str m) then e.2 else get g (.str m) := by
  rw [get, get, List.find?_cons]
  split
  · rename_i h
    rw [if_pos h]
    rfl
  · rename_i h
    rw [if_neg (by rw [h]; decide)]

theorem get_put (m m' : String) (gap : List Scalar) : ∀ g : Gaps,
    (g.put (.str m) gap).get (.str m') = if m = m' then gap else g.get (.str m') := by
  intro g
  induction g with
  | nil => by_cases heq : m = m' <;> simp [put, get, Scalar.same, heq]
  | cons e g ih =>
    rw [put]
    split
    · rename_i hm
      have he : e.1 = .str m := (Scalar.same_str_iff _ _).mp hm
      rw [get_cons, get_cons, he]
      by_cases heq : m = m'
      · simp [heq, Scalar.same]
      · simp [heq, Scalar.same]
    · rename_i hm
      rw [get_cons, get_cons, ih]
      by_cases heq : m = m'
      · rw [if_neg (heq ▸ hm), if_pos heq, if_pos heq]
      · rw [if_neg heq, if_neg heq]

/-- **One more note** clears a name if the gap is empty, adds to it otherwise, and leaves the other
names alone. -/
theorem get_note (g : Gaps) (m m' : String) (gap : List Scalar) :
    (g.note (.str m) gap).get (.str m') =
    if m = m' then (if gap.isEmpty then [] else union (g.get (.str m')) gap)
    else g.get (.str m') := by
  rw [note]
  by_cases hbefore : g.get (.str m) = []
  · by_cases hgap : gap.isEmpty = true
    · by_cases heq : m = m'
      · subst heq
        simp [hbefore, hgap]
      · simp [hbefore, hgap, heq]
    · by_cases heq : m = m'
      · subst heq
        simp [hbefore, hgap, get_put, union_nil]
      · simp [hbefore, hgap, heq, get_put]
  · by_cases heq : m = m'
    · subst heq
      simp [hbefore, get_put]
    · simp [hbefore, heq, get_put]

def Named (g : Gaps) : Prop := ∃ names : List String, g.map (·.1) = names.map Scalar.str ∧
    names.Nodup

theorem map_fst_put (m : String) (gap : List Scalar) : ∀ {g : Gaps} {names : List String},
    g.map (·.1) = names.map Scalar.str →
      (g.put (.str m) gap).map (·.1) =
        (if m ∈ names then names else names ++ [m]).map Scalar.str := by
  intro g
  induction g with
  | nil =>
    intro names h
    obtain rfl : names = [] := List.map_eq_nil_iff.mp h.symm
    rfl
  | cons e g ih =>
    intro names h
    cases names with
    | nil => cases h
    | cons n names =>
      obtain ⟨he, hg⟩ : e.1 = .str n ∧ g.map (·.1) = names.map Scalar.str := List.cons.inj h
      rw [put]
      split
      · rename_i hm
        have heq : n = m := Scalar.str.inj (he.symm.trans ((Scalar.same_str_iff _ _).mp hm))
        rw [if_pos (by rw [heq]; exact List.mem_cons_self)]
        exact h
      · rename_i hm
        have hne : m ≠ n := by
          rintro rfl
          exact hm (by rw [he, Scalar.same_str_iff])
        rw [List.map_cons, ih hg, he]
        by_cases hin : m ∈ names
        · rw [if_pos hin, if_pos (List.mem_cons_of_mem _ hin)]
          rfl
        · rw [if_neg hin, if_neg fun h => (List.mem_cons.mp h).elim hne hin]
          rfl

variable {g : Gaps}

theorem Named.put (h : g.Named) (m : String) (gap : List Scalar) : (g.put (.str m) gap).Named := by
  obtain ⟨names, hnames, hnodup⟩ := h
  refine ⟨_, map_fst_put m gap hnames, ?_⟩
  split
  · exact hnodup
  · rename_i hin
    exact hnodup.append (List.nodup_singleton m) (by simpa using hin)

theorem Named.note (h : g.Named) (m : String) (gap : List Scalar) :
    (g.note (.str m) gap).Named := by
  rw [Gaps.note]
  split
  · exact h.put m _
  split
  · exact h
  · exact h.put m gap

theorem Named.get_of_mem (h : g.Named) {m : String} {gap : List Scalar} (hmem : (.str m, gap) ∈ g) :
    g.get (.str m) = gap := by
  obtain ⟨names, hnames, hnodup⟩ := h
  induction g generalizing names with
  | nil => cases hmem
  | cons e g ih =>
    cases names with
    | nil => cases hnames
    | cons n names =>
      obtain ⟨he, hg⟩ : e.1 = .str n ∧ g.map (·.1) = names.map Scalar.str := List.cons.inj hnames
      obtain ⟨hn, hnames'⟩ := List.nodup_cons.mp hnodup
      rw [get_cons]
      rcases List.mem_cons.mp hmem with rfl | hmem
      · rw [if_pos (by rw [Scalar.same_str_iff])]
      · have hm : m ∈ names := by
          have hkey : Scalar.str m ∈ g.map (·.1) := List.mem_map.mpr ⟨_, hmem, rfl⟩
          rw [hg] at hkey
          obtain ⟨m', hm', heq⟩ := List.mem_map.mp hkey
          exact Scalar.str.inj heq ▸ hm'
        rw [if_neg, ih hmem names hg hnames']
        rw [he, Scalar.same_str_iff]
        intro heq
        exact hn (Scalar.str.inj heq ▸ hm)

theorem mem_of_get {m : String} (h : g.get (.str m) ≠ []) : (.str m, g.get (.str m)) ∈ g := by
  induction g with
  | nil => exact absurd rfl h
  | cons e g ih =>
    rw [get_cons] at h ⊢
    split at h
    · rename_i hm
      rw [if_pos hm, ← (Scalar.same_str_iff _ _).mp hm]
      exact List.mem_cons_self
    · rename_i hm
      rw [if_neg hm]
      exact List.mem_cons_of_mem _ (ih h)

/-! ### A walk through items -/

def under (items : List (Scalar × List Scalar)) (m : String) : List (List Scalar) :=
  (items.filter fun e => e.1.same (.str m)).map (·.2)

def sinceEmpty (gaps : List (List Scalar)) : List (List Scalar) :=
  gaps.rtakeWhile fun gap => !gap.isEmpty

theorem sinceEmpty_concat (gaps : List (List Scalar)) (gap : List Scalar) :
    sinceEmpty (gaps ++ [gap]) = if gap.isEmpty then [] else sinceEmpty gaps ++ [gap] := by
  rw [sinceEmpty, List.rtakeWhile_concat]
  cases gap.isEmpty <;> rfl

theorem mem_of_mem_foldl_union : ∀ {gaps : List (List Scalar)} {acc : List Scalar},
    x ∈ gaps.foldl union acc → x ∈ acc ∨ x ∈ gaps.flatten := by
  intro gaps
  induction gaps with
  | nil => intro acc h; exact .inl h
  | cons gap gaps ih =>
    intro acc h
    rw [List.flatten_cons, List.mem_append]
    rcases ih h with h | h
    · exact (mem_of_mem_union h).imp_right .inl
    · exact .inr (.inr h)

theorem subset_foldl_union : ∀ {gaps : List (List Scalar)} {acc : List Scalar}, x ∈ acc →
    x ∈ gaps.foldl union acc := by
  intro gaps
  induction gaps with
  | nil => intro acc h; exact h
  | cons gap gaps ih => intro acc h; exact ih (List.mem_append_left _ h)

theorem exists_mem_foldl_union : ∀ {gaps : List (List Scalar)} {acc : List Scalar},
    x ∈ gaps.flatten →
    x ∈ gaps.foldl union acc ∨ ∃ y ∈ gaps.foldl union acc, y.same x = true := by
  intro gaps
  induction gaps with
  | nil => intro acc h; cases h
  | cons gap gaps ih =>
    intro acc h
    rw [List.foldl_cons]
    rcases List.mem_append.mp h with h | h
    · rcases exists_mem_union (a := acc) (.inr h) with h | ⟨y, hy, hsame⟩
      · exact .inl (subset_foldl_union h)
      · exact .inr ⟨y, subset_foldl_union hy, hsame⟩
    · exact ih h

theorem mem_foldl_union_iff {gaps : List (List Scalar)} {texts : List String}
    (htexts : gaps.foldl union [] = texts.map .str) : x ∈ gaps.foldl union [] ↔
      x ∈ gaps.flatten := by
  constructor
  · intro h
    rcases mem_of_mem_foldl_union h with h | h
    · cases h
    · exact h
  · intro h
    rcases exists_mem_foldl_union h with h | ⟨y, hy, hsame⟩
    · exact h
    · have hy' := hy
      rw [htexts] at hy'
      obtain ⟨s, -, rfl⟩ := List.mem_map.mp hy'
      rwa [(Scalar.str_same_iff s x).mp hsame]

def notes (items : List (Scalar × List Scalar)) : Gaps := items.foldl (fun g e => g.note e.1 e.2) []

theorem notes_concat (items : List (Scalar × List Scalar)) (e : Scalar × List Scalar) :
    notes (items ++ [e]) = (notes items).note e.1 e.2 := by
  rw [notes, List.foldl_append]
  rfl

theorem under_concat (items : List (Scalar × List Scalar)) (n : String) (gap : List Scalar)
    (m : String) :
    under (items ++ [(.str n, gap)]) m = if n = m then under items m ++ [gap]
      else under items m := by
  by_cases h : n = m <;> simp [under, Scalar.same, h]

/-- **What is noted under a name** is the union of what its items leave undescribed behind the last
complete one. -/
theorem get_notes (m : String) : ∀ {items : List (Scalar × List Scalar)},
    (∀ e ∈ items, ∃ n, e.1 = .str n) →
    (notes items).get (.str m) = (sinceEmpty (under items m)).foldl union [] := by
  intro items
  induction items using List.reverseRecOn with
  | nil => intro _; rfl
  | append_singleton items e ih =>
    intro h
    have ih := ih fun x hx => h x (List.mem_append_left _ hx)
    obtain ⟨key, gap⟩ := e
    obtain ⟨n, rfl⟩ : ∃ n, key = .str n := h (key, gap) (by simp)
    rw [notes_concat, get_note, under_concat, ih]
    by_cases hn : n = m
    · rw [if_pos hn, if_pos hn, sinceEmpty_concat]
      by_cases hgap : gap.isEmpty = true <;> simp [hgap]
    · rw [if_neg hn, if_neg hn]

theorem named_notes : ∀ {items : List (Scalar × List Scalar)}, (∀ e ∈ items, ∃ n, e.1 = .str n) →
    (notes items).Named := by
  intro items
  induction items using List.reverseRecOn with
  | nil => intro _; exact ⟨[], rfl, List.nodup_nil⟩
  | append_singleton items e ih =>
    intro h
    obtain ⟨n, hn⟩ := h e (by simp)
    rw [notes_concat, hn]
    exact (ih fun x hx => h x (List.mem_append_left _ hx)).note n e.2

/-! ### Complaints -/

end Gaps

def textsIn (names : List Scalar) : List String :=
  names.filterMap fun name => match name with
    | .str s => some s
    | _ => none

theorem textsIn_map_str (texts : List String) : textsIn (texts.map .str) = texts := by
  rw [textsIn, List.filterMap_map]
  exact List.filterMap_some

/-- The line about a script with parts that are not described. -/
def gapLine (what file : String) (parts : List String) : String :=
  red file ++ ": following " ++ what ++ " are missing description:\n- " ++
    yellow ("\n- ".intercalate parts)

theorem eq_of_bullets : ∀ {names : List Scalar} {list : String}, bullets names = .ok list →
    names = (textsIn names).map .str ∧ list = "\n- ".intercalate (textsIn names) := by
  intro names list h
  obtain ⟨texts, htexts, rfl⟩ := map_eq_ok_iff.mp h
  have hnames : names = texts.map .str := by
    clear h
    induction names generalizing texts with
    | nil => cases htexts; rfl
    | cons name names ih =>
      rw [List.map_cons] at htexts
      obtain ⟨text, rest, htext, hrest, rfl⟩ := mapM_cons_eq_ok_iff.mp htexts
      cases name with
      | str s => cases htext; rw [List.map_cons, ← ih rest hrest]
      | _ => cases htext
  rw [hnames, textsIn_map_str]
  exact ⟨rfl, rfl⟩

variable {files : FileMap} {t : Tree}

/-- **One complaint for every name with a gap**, and all gaps are texts. -/
theorem Gaps.lines_of_complaints {what : String} : ∀ {g : Gaps} {lines : List String},
    (g.complaints what files).toExcept = .ok lines → (∀ e ∈ g, e.2 = (textsIn e.2).map .str) ∧
      lines = (g.filter fun e => !e.2.isEmpty).map fun e => gapLine what (files.shown e.1)
        (textsIn e.2) := by
  intro g
  induction g with
  | nil => intro lines h; cases h; exact ⟨fun e he => (nomatch he), rfl⟩
  | cons e g ih =>
    intro lines h
    rw [complaints, Feed.flatMap, Feed.toExcept_append] at h
    obtain ⟨first, hfirst, h⟩ := bind_eq_ok_iff.mp h
    obtain ⟨rest, hrest, rfl⟩ := map_eq_ok_iff.mp h
    obtain ⟨hall, hlines⟩ := ih hrest
    rw [List.forall_mem_cons]
    by_cases he : e.2 = []
    · rw [if_pos (by rw [he]; rfl)] at hfirst
      cases hfirst
      exact ⟨⟨by rw [he]; rfl, hall⟩, by rw [List.filter_cons_of_neg (by simp [he])]; exact hlines⟩
    · rw [if_neg (by simpa using he), Findings.toExcept_of] at hfirst
      obtain ⟨list, hlist, hfirst⟩ := bind_eq_ok_iff.mp hfirst
      cases hfirst
      obtain ⟨htexts, rfl⟩ := eq_of_bullets hlist
      refine ⟨⟨htexts, hall⟩, ?_⟩
      rw [List.filter_cons_of_pos (by simpa using he), List.map_cons, ← hlines]
      rfl

/-- The names that have a gap, and the lines about them. -/
theorem Gaps.Named.lines_eq {what : String} {files : FileMap} {g : Gaps} (h : g.Named)
    {lines : List String}
    (hlines : lines = (g.filter fun e => !e.2.isEmpty).map fun e => gapLine what (files.shown e.1)
      (textsIn e.2)) :
    ∃ names : List String, names.Nodup ∧ (∀ m, m ∈ names ↔ g.get (.str m) ≠ []) ∧
      lines = names.map fun m => gapLine what (files.shown (.str m))
        (textsIn (g.get (.str m))) := by
  obtain ⟨all, hall, hnodup⟩ := h
  have hsub : ((g.filter fun e => !e.2.isEmpty).map (·.1)).Sublist (all.map Scalar.str) :=
    hall ▸ List.Sublist.map _ List.filter_sublist
  obtain ⟨names, hnames, hkeys⟩ := List.sublist_map_iff.mp hsub
  -- a name with a gap stands in one place only, so that what is looked up is what stands there
  have hget : ∀ e ∈ g.filter fun e => !e.2.isEmpty, ∃ m, e.1 = .str m ∧ g.get (.str m) = e.2 := by
    intro e he
    have hkey : e.1 ∈ names.map Scalar.str := hkeys ▸ List.mem_map_of_mem he
    obtain ⟨m, -, hm⟩ := List.mem_map.mp hkey
    refine ⟨m, hm.symm, get_of_mem ⟨all, hall, hnodup⟩ ?_⟩
    rw [hm]
    exact List.mem_of_mem_filter he
  refine ⟨names, hnodup.sublist hnames, fun m => ?_, ?_⟩
  · have hmem : m ∈ names ↔ Scalar.str m ∈ (g.filter fun e => !e.2.isEmpty).map (·.1) := by
      rw [hkeys, List.mem_map]
      exact ⟨fun h => ⟨m, h, rfl⟩, fun ⟨m', h, heq⟩ => Scalar.str.inj heq ▸ h⟩
    rw [hmem]
    constructor
    · intro h
      obtain ⟨e, he, heq⟩ := List.mem_map.mp h
      obtain ⟨m', hm', hgap⟩ := hget e he
      obtain rfl := Scalar.str.inj (hm'.symm.trans heq)
      rw [hgap]
      simpa using (List.mem_filter.mp he).2
    · intro h
      exact List.mem_map.mpr ⟨_, List.mem_filter.mpr ⟨mem_of_get h, by simpa using h⟩, rfl⟩
  · have hline : ∀ e ∈ g.filter fun e => !e.2.isEmpty, gapLine what (files.shown e.1)
        (textsIn e.2) =
        gapLine what (files.shown e.1) (textsIn (g.get e.1)) := by
      intro e he
      obtain ⟨m, hm, hgap⟩ := hget e he
      rw [hm, hgap]
    rw [hlines, List.map_congr_left hline]
    have hcomp := congrArg (List.map fun k => gapLine what (files.shown k)
      (textsIn (g.get k))) hkeys
    rwa [List.map_map, List.map_map] at hcomp

/-! ### The entries of property files -/

theorem admits_of_described? {file : Path} {wanted : Wanted} {item : Value} {e : PropertyEntry}
    (h : described? file wanted item = .ok (some e)) : wanted.admits e.name = true := by
  unfold described? at h
  split at h
  · split at h
    · cases h
    · split at h
      · obtain ⟨key, -, h⟩ := bind_eq_ok_iff.mp h
        by_cases hkey : wanted.admits key = true
        · rw [if_pos hkey] at h
          cases h
          exact hkey
        · rw [if_neg hkey] at h
          cases h
      · cases h
  · cases h

theorem exists_name_of_mem {part : String} {names : List String} {files : List Path}
    {es : List PropertyEntry}
    (h : (Feed.flatMap (entriesOfFile t part (.named names)) files).toExcept = .ok es) :
    ∀ e ∈ es, ∃ n ∈ names, e.name = .str n := by
  intro e he
  rw [Feed.toExcept_flatMap, map_eq_ok_iff] at h
  obtain ⟨found, hfound, rfl⟩ := h
  obtain ⟨es', hes', he⟩ := List.mem_flatten.mp he
  obtain ⟨file, -, hfile⟩ := mem_of_mapM hfound es' hes'
  rw [entriesOfFile, Feed.toExcept_ofExcept] at hfile
  obtain ⟨feed, hfeed, hfile⟩ := bind_eq_ok_iff.mp hfile
  obtain ⟨document, -, hfeed⟩ := bind_eq_ok_iff.mp hfeed
  obtain ⟨items, -, hfeed⟩ := bind_eq_ok_iff.mp hfeed
  cases hfeed
  rw [Feed.toExcept_filterMapE, map_eq_ok_iff] at hfile
  obtain ⟨walked, hwalked, rfl⟩ := hfile
  obtain ⟨item, -, hitem⟩ := mem_of_mapM hwalked _ (List.reduceOption_mem_iff.mp he)
  obtain ⟨n, hn, hsame⟩ := List.any_eq_true.mp (admits_of_described? hitem)
  exact ⟨n, hn, (Scalar.same_str_iff _ _).mp hsame⟩

/-! ### The two checks -/

/-- Where the parts of a model or macro are listed: in a node of the manifest, or in an entry of a
property file. -/
inductive Mention where
  | node (name : String) (body : Value)
  | entry (name : Scalar) (body : Value)

namespace Mention

def name : Mention → Scalar
  | .node name _ => .str name
  | .entry name _ => name

/-- The mentions of a name. -/
def of (mentions : List Mention) (m : String) : List Mention :=
  mentions.filter fun x => x.name.same (.str m)

end Mention

/-- The checks that parts are described: the columns of models, or the arguments of macros. -/
inductive PartCheck where
  | columns
  | arguments
deriving DecidableEq, Repr

namespace PartCheck

/-- The parts, as they are called in complaints and in property files. -/
def word : PartCheck → String
  | .columns => "columns"
  | .arguments => "arguments"

def run (c : PartCheck) (t : Tree) (manifest : Value) (r : Request) : Findings :=
  match c with
  | .columns => checkColumns t manifest r
  | .arguments => checkArguments t manifest r.paths

/-- What a check returns beside its status: the scripts, and what is missing under each name. -/
def missing (c : PartCheck) (t : Tree) (manifest : Value) (r : Request) :
    Except Fault (FileMap × Gaps) :=
  match c with
  | .columns => columnGaps t manifest r
  | .arguments => argumentGaps t manifest r.paths

def scripts (c : PartCheck) (manifest : Value) (r : Request) : Except Fault FileMap :=
  match c with
  | .columns => r.givenModelFiles manifest
  | .arguments => macroFiles manifest r.paths

def nodes (c : PartCheck) (manifest : Value) (r : Request) (files : FileMap) :
    Except Fault (List Mention) :=
  match c with
  | .columns =>
    (models manifest files.stems r.scope).toExcept.map fun ms => ms.map fun m =>
      .node m.filename m.node
  | .arguments =>
    (macros manifest files.stems).toExcept.map fun ms => ms.map fun m => .node m.filename m.body

def entries (c : PartCheck) (t : Tree) (r : Request) (files : FileMap) :
    Except Fault (List Mention) :=
  let found := match c with
    | .columns => modelEntries t (propertyFiles r.paths).files (.named files.stems)
    | .arguments => macroEntries t (propertyFiles r.paths).files (.named files.stems)
  found.toExcept.map fun es => es.map fun e => .entry e.name e.body

def gapOf (c : PartCheck) : Mention → Except Fault (List Scalar)
  | .node _ body => match c with
    | .columns => do undescribedColumns (← body.fieldD "columns" (.map []))
    | .arguments => do undescribed (← body.fieldD "arguments" (.seq []))
  | .entry _ body => do undescribed (← body.fieldD c.word (.seq []))

def lacks (c : PartCheck) (x : Mention) : List Scalar := (c.gapOf x).toOption.getD []

/-- **What is to be reported under a name**: the union of what its mentions leave undescribed, of
those behind the last one that leaves nothing undescribed. -/
def reported (c : PartCheck) (mentions : List Mention) (m : String) : List Scalar :=
  (((Mention.of mentions m).map c.lacks).rtakeWhile fun gap => !gap.isEmpty).flatten

theorem run_eq (c : PartCheck) (t : Tree) (manifest : Value) (r : Request) :
    c.run t manifest r = .ofExcept do
      let (files, gaps) ← c.missing t manifest r
      return gaps.complaints c.word files := by
  cases c <;> rfl

theorem eq_of_withGaps {α : Type} (c : PartCheck) (f : α → Mention) {items : Feed α}
    {ys : List (Scalar × List Scalar)}
    (h : (withGaps (fun a => (f a).name) (fun a => c.gapOf (f a)) items).toExcept = .ok ys) :
    ∃ xs, items.toExcept.map (List.map f) = .ok xs ∧ (∀ x ∈ xs, c.gapOf x = .ok (c.lacks x)) ∧
      ys = xs.map fun x => (x.name, c.lacks x) := by
  obtain ⟨as, has, hwalk⟩ := Feed.toExcept_bind_eq_ok h
  refine ⟨as.map f, by rw [has]; rfl, ?_⟩
  clear h has
  induction as generalizing ys with
  | nil => cases hwalk; exact ⟨fun x hx => (nomatch hx), rfl⟩
  | cons a as ih =>
    rw [Feed.flatMap, Feed.toExcept_append, Feed.toExcept_ofExcept] at hwalk
    obtain ⟨first, hfirst, hwalk⟩ := bind_eq_ok_iff.mp hwalk
    obtain ⟨rest, hrest, rfl⟩ := map_eq_ok_iff.mp hwalk
    obtain ⟨feed, hfeed, hfirst⟩ := bind_eq_ok_iff.mp hfirst
    obtain ⟨gap, hgap, hfeed⟩ := bind_eq_ok_iff.mp hfeed
    cases hfeed
    cases hfirst
    obtain ⟨hall, rfl⟩ := ih hrest
    have hgap : c.gapOf (f a) = .ok gap := hgap
    have hlacks : c.lacks (f a) = gap := by rw [lacks, hgap]; rfl
    rw [List.map_cons, List.map_cons, hlacks]
    exact ⟨List.forall_mem_cons.mpr ⟨by rw [hgap, hlacks], hall⟩, rfl⟩

theorem eq_of_gapsOf {α β : Type} (c : PartCheck) (f : α → Mention) (as : Feed α) (g : β → Mention)
    (bs : Feed β)
    {gaps : Gaps} (h : gapsOf (withGaps (fun a => (f a).name) (fun a => c.gapOf (f a)) as ++
      withGaps (fun b => (g b).name) (fun b => c.gapOf (g b)) bs) = .ok gaps) :
    ∃ xs ys, as.toExcept.map (List.map f) = .ok xs ∧ bs.toExcept.map (List.map g) = .ok ys ∧
      (∀ x ∈ xs ++ ys, c.gapOf x = .ok (c.lacks x)) ∧
      gaps = Gaps.notes ((xs ++ ys).map fun x => (x.name, c.lacks x)) := by
  obtain ⟨items, hitems, h⟩ := bind_eq_ok_iff.mp h
  cases h
  rw [Feed.toExcept_append] at hitems
  obtain ⟨first, hfirst, hitems⟩ := bind_eq_ok_iff.mp hitems
  obtain ⟨second, hsecond, rfl⟩ := map_eq_ok_iff.mp hitems
  obtain ⟨xs, hxs, hgaps, rfl⟩ := eq_of_withGaps c f hfirst
  obtain ⟨ys, hys, hgaps', rfl⟩ := eq_of_withGaps c g hsecond
  refine ⟨xs, ys, hxs, hys, fun x hx => (List.mem_append.mp hx).elim (hgaps x) (hgaps' x), ?_⟩
  rw [List.map_append]
  rfl

variable {c : PartCheck} {r : Request} {manifest : Value}

/-- **What is missing** is noted in a walk through the nodes and then through the entries. -/
theorem missing_eq_ok {gaps : Gaps} (h : c.missing t manifest r = .ok (files, gaps)) :
    c.scripts manifest r = .ok files ∧
      ∃ ns es, c.nodes manifest r files = .ok ns ∧ c.entries t r files = .ok es ∧
        (∀ x ∈ ns ++ es, c.gapOf x = .ok (c.lacks x)) ∧
        gaps = Gaps.notes ((ns ++ es).map fun x => (x.name, c.lacks x)) := by
  cases c with
  | columns =>
    obtain ⟨files, hfiles, h⟩ := bind_eq_ok_iff.mp h
    obtain ⟨gaps, hgaps, h⟩ := bind_eq_ok_iff.mp h
    cases h
    have hwalk := eq_of_gapsOf .columns (fun m : Model => Mention.node m.filename m.node)
      (models manifest files.stems r.scope) (fun e : PropertyEntry => Mention.entry e.name e.body)
      (modelEntries t (propertyFiles r.paths).files (.named files.stems)) hgaps
    exact ⟨hfiles, hwalk⟩
  | arguments =>
    obtain ⟨files, hfiles, h⟩ := bind_eq_ok_iff.mp h
    obtain ⟨gaps, hgaps, h⟩ := bind_eq_ok_iff.mp h
    cases h
    have hwalk := eq_of_gapsOf .arguments (fun m : Macro => Mention.node m.filename m.body)
      (macros manifest files.stems) (fun e : PropertyEntry => Mention.entry e.name e.body)
      (macroEntries t (propertyFiles r.paths).files (.named files.stems)) hgaps
    exact ⟨hfiles, hwalk⟩

theorem exists_name_of_mem_nodes {ns : List Mention} (h : c.nodes manifest r files = .ok ns) :
    ∀ x ∈ ns, ∃ n, x.name = .str n := by
  intro x hx
  cases c with
  | columns =>
    obtain ⟨ms, -, rfl⟩ := map_eq_ok_iff.mp h
    obtain ⟨m, -, rfl⟩ := List.mem_map.mp hx
    exact ⟨m.filename, rfl⟩
  | arguments =>
    obtain ⟨ms, -, rfl⟩ := map_eq_ok_iff.mp h
    obtain ⟨m, -, rfl⟩ := List.mem_map.mp hx
    exact ⟨m.filename, rfl⟩

theorem exists_name_of_mem_entries {es : List Mention} (h : c.entries t r files = .ok es) :
    ∀ x ∈ es, ∃ n, x.name = .str n := by
  intro x hx
  obtain ⟨found, hfound, rfl⟩ := map_eq_ok_iff.mp h
  obtain ⟨e, he, rfl⟩ := List.mem_map.mp hx
  obtain ⟨n, -, hn⟩ : ∃ n ∈ files.stems, e.name = .str n := by
    cases c with
    | columns => exact exists_name_of_mem hfound e he
    | arguments => exact exists_name_of_mem hfound e he
  exact ⟨n, hn⟩

theorem under_map (c : PartCheck) (mentions : List Mention) (m : String) :
    Gaps.under (mentions.map fun x => (x.name, c.lacks x)) m =
      (Mention.of mentions m).map c.lacks := by
  rw [Gaps.under, List.filter_map, List.map_map]
  rfl

theorem get_notes_mentions {mentions : List Mention} (hnames : ∀ x ∈ mentions, ∃ n, x.name = .str n)
    (m : String) :
    (Gaps.notes (mentions.map fun x => (x.name, c.lacks x))).get (.str m) =
      (Gaps.sinceEmpty ((Mention.of mentions m).map c.lacks)).foldl union [] := by
  rw [← under_map]
  exact Gaps.get_notes m (List.forall_mem_map.mpr hnames)

/-- What a run has looked at, and what it has noted. -/
structure Walk (c : PartCheck) (t : Tree) (manifest : Value) (r : Request) (files : FileMap)
    (mentions : List Mention) (gaps : Gaps) : Prop where
  scripts : c.scripts manifest r = .ok files
  order : ∃ ns es, c.nodes manifest r files = .ok ns ∧ c.entries t r files = .ok es ∧
    mentions = ns ++ es
  read : ∀ x ∈ mentions, c.gapOf x = .ok (c.lacks x)
  missing : c.missing t manifest r = .ok (files, gaps)
  texts : ∀ m, ∃ parts : List String, gaps.get (.str m) = parts.map .str
  noted : ∀ m part, part ∈ gaps.get (.str m) ↔ part ∈ c.reported mentions m

/-- **A run that gives a verdict** has looked at all nodes and entries, and complains about every
name with a gap. -/
theorem exists_walk {status : Status} (h : (c.run t manifest r).report.outcome = .ok status) :
    ∃ files mentions gaps,
      Walk c t manifest r files mentions gaps ∧ gaps.Named ∧
      (c.run t manifest r).report.lines = (gaps.filter fun e => !e.2.isEmpty).map fun e =>
        gapLine c.word (files.shown e.1) (textsIn e.2) := by
  obtain ⟨hlines, -⟩ := Findings.verdict h
  generalize (c.run t manifest r).report.lines = lines at hlines ⊢
  rw [run_eq, Feed.toExcept_ofExcept] at hlines
  obtain ⟨feed, hfeed, hlines⟩ := bind_eq_ok_iff.mp hlines
  obtain ⟨⟨files, gaps⟩, hmissing, hfeed⟩ := bind_eq_ok_iff.mp hfeed
  cases hfeed
  obtain ⟨htexts, hlines⟩ := Gaps.lines_of_complaints hlines
  obtain ⟨hscripts, ns, es, hns, hes, hread, rfl⟩ := missing_eq_ok hmissing
  have hnames : ∀ x ∈ ns ++ es, ∃ n, x.name = .str n := fun x hx =>
    (List.mem_append.mp hx).elim (exists_name_of_mem_nodes hns x) (exists_name_of_mem_entries hes x)
  have hparts : ∀ m, ∃ parts : List String,
      (Gaps.notes ((ns ++ es).map fun x => (x.name, c.lacks x))).get (.str m) = parts.map .str := by
    intro m
    by_cases hnil : (Gaps.notes ((ns ++ es).map fun x => (x.name, c.lacks x))).get (.str m) = []
    · exact ⟨[], hnil⟩
    · exact ⟨_, htexts _ (Gaps.mem_of_get hnil)⟩
  refine ⟨files, ns ++ es, _, ⟨hscripts, ⟨ns, es, hns, hes, rfl⟩, hread, hmissing, hparts,
    fun m part => ?_⟩, Gaps.named_notes (List.forall_mem_map.mpr hnames), hlines⟩
  obtain ⟨parts, hm⟩ := hparts m
  rw [get_notes_mentions hnames] at hm ⊢
  exact Gaps.mem_foldl_union_iff hm

/-- **What the checks report.**  For each name take its mentions, those in the manifest and then
those in the property files.  What is missing under the name is the union of what they leave
undescribed, of those behind the last one that leaves nothing undescribed.  The status is one if
there is such a name, and exactly one line is printed for each. -/
theorem run_reports {c : PartCheck} {t : Tree} {manifest : Value} {r : Request} {status : Status}
    (h : (c.run t manifest r).report.outcome = .ok status) : ∃ files mentions gaps,
      Walk c t manifest r files mentions gaps ∧ (status = 0 ∨ status = 1) ∧
      (status = 1 ↔ ∃ m, c.reported mentions m ≠ []) ∧
      ∃ (names : List String) (parts : String → List String), names.Nodup ∧
        (∀ m, m ∈ names ↔ c.reported mentions m ≠ []) ∧
        (∀ m, ∀ part, part ∈ c.reported mentions m ↔ ∃ s ∈ parts m, part = .str s) ∧
        (c.run t manifest r).report.lines =
          names.map fun m => gapLine c.word (files.shown (.str m)) (parts m) := by
  obtain ⟨files, mentions, gaps, hwalk, hnamed, hlines⟩ := exists_walk h
  obtain ⟨-, hstatus⟩ := Findings.verdict h
  obtain ⟨names, hnames, hkeys, hlines⟩ := hnamed.lines_eq hlines
  have hreported : ∀ m, m ∈ names ↔ c.reported mentions m ≠ [] := by
    intro m
    rw [hkeys, not_iff_not, List.eq_nil_iff_forall_not_mem, List.eq_nil_iff_forall_not_mem]
    exact forall_congr' fun part => not_congr (hwalk.noted m part)
  refine ⟨files, mentions, gaps, hwalk, ?_, ?_, names, fun m => textsIn (gaps.get (.str m)), hnames,
    hreported, fun m part => ?_, hlines⟩
  · rw [hstatus]
    exact Findings.status_eq_zero_or_one _
  · rw [hstatus, Findings.status_eq_one_iff, hlines, Ne, List.map_eq_nil_iff,
      List.eq_nil_iff_forall_not_mem]
    simp only [hreported, not_forall, not_not]
  · obtain ⟨parts, hparts⟩ := hwalk.texts m
    dsimp only
    rw [← hwalk.noted, hparts, textsIn_map_str, List.mem_map]
    exact exists_congr fun s => and_congr_right fun _ => eq_comm

/-! ### Two halves of a description -/

/-- A model with two columns, of which the manifest describes the second, and a macro with an
argument. -/
def halves : Value :=
  .record [
    ("nodes", .record [("model.p.m", .record [("name", .str "m"), ("columns", .record [
      ("c", .record [("name", .str "c"), ("description", .str "")]),
      ("d", .record [("name", .str "d"), ("description", .str "x")])])])]),
    ("macros", .record [("macro.p.f", .record [("path", .str "f.sql"), ("name", .str "f"),
      ("arguments", .seq [.record [("name", .str "a")]])])])]

def halfFiles : Tree := ⟨[
  (["half.yml"],
    .file "models:\n- name: m\n  columns:\n  - name: c\n    description: x\n  - name: d\n".toUTF8),
  (["whole.yml"],
    .file ("models:\n- name: m\n  columns:\n  - name: c\n    description: x\n" ++
      "  - name: d\n    description: y\n").toUTF8)]⟩

/-- Both checks find something. -/
theorem run_reports_halves :
    (PartCheck.columns.run halfFiles halves { paths := ["m.sql", "half.yml"] }).report.outcome =
      .ok 1 ∧
    (PartCheck.arguments.run halfFiles halves { paths := ["f.sql"] }).report.outcome = .ok 1 ∧
    (∃ files mentions gaps,
      Walk .columns halfFiles halves { paths := ["m.sql", "half.yml"] } files mentions gaps ∧
        ∃ m, PartCheck.columns.reported mentions m ≠ []) ∧
    ∃ files mentions gaps,
      Walk .arguments halfFiles halves { paths := ["f.sql"] } files mentions gaps ∧
      ∃ m, PartCheck.arguments.reported mentions m ≠ [] := by
  have hcolumns : (PartCheck.columns.run halfFiles halves
      { paths := ["m.sql", "half.yml"] }).report.outcome = .ok 1 :=
    eq_ok_of_toOption (by decide +kernel)
  have harguments : (PartCheck.arguments.run halfFiles halves
      { paths := ["f.sql"] }).report.outcome = .ok 1 :=
    eq_ok_of_toOption (by decide +kernel)
  obtain ⟨files, mentions, gaps, hwalk, -, hstatus, -⟩ := run_reports hcolumns
  obtain ⟨files', mentions', gaps', hwalk', -, hstatus', -⟩ := run_reports harguments
  exact ⟨hcolumns, harguments, ⟨files, mentions, gaps, hwalk, hstatus.mp rfl⟩,
    files', mentions', gaps', hwalk', hstatus'.mp rfl⟩

end PartCheck

end Descriptions

end ProjectLint
