import ProjectLint.Proofs.FileMaps
import ProjectLint.Proofs.Preferred
import ProjectLint.Proofs.Yaml.Classes

/-!
# Unifying descriptions

The columns of all property files are grouped before anything is written; then the groups are gone
through, and for each the files that hold another description are read, described anew and written,
perhaps several times.  While this goes on, **every file holds a draft** of its document: the
document as it was, with the wording of the groups that are done (`State`).  One file described is a
step of this (`State.describeIn`), a group described gives the wording of one more name
(`State.unifyGroup`), and at the end each document has the wording of the preferred descriptions.

A column entry that is also found elsewhere in the file is described there too, so the rest of the
document is kept just if such columns are shared by column entries only (`unify_describes_iff`).
-/

namespace ProjectLint.Wording

open Yaml

/-! ### The choice -/

/-- The descriptions of the columns of a name, in all property files among the paths. -/
def descriptionsOf (t : Tree) (paths : List String) (name : String) : List (Option String) :=
  (propertyFiles paths).files.flatMap fun f =>
    ((columnsIn (docOf t f).root).filter fun c => nameOf c.2 == name).map fun c => descriptionOf c.2

/-- **What is chosen for a name**: its preferred description, unless the name is ignored. -/
def choice (t : Tree) (ignored paths : List String) (name : String) : Option String :=
  if name ∈ ignored then none else preferred? (descriptionsOf t paths name)

/-- All the columns of one name, and only these. -/
structure GroupOf (t : Tree) (paths : List String) (group : List Column) (name : String) :
    Prop where
  called : groupName group = .str name
  descriptions : ∃ ds : List (Option String), group.map (·.description) = ds.map wordValue ∧
    ds.Perm (descriptionsOf t paths name)
  sound : ∀ c ∈ group, c.file ∈ (propertyFiles paths).files ∧
    ∃ x ∈ columnsIn (docOf t c.file).root, c = columnFor c.file x.2 ∧ nameOf x.2 = name
  complete : ∀ f ∈ (propertyFiles paths).files, ∀ x ∈ columnsIn (docOf t f).root,
    nameOf x.2 = name → columnFor f x.2 ∈ group

variable {t : Tree} {f : Path} {chosen : String → Option String}

theorem mem_columnsFor {ignored : List String} {c : Column} :
    c ∈ columnsFor ignored t f ↔
      ∃ x ∈ columnsIn (docOf t f).root, nameOf x.2 ∉ ignored ∧ c = columnFor f x.2 := by
  rw [columnsFor_eq, mem_keptColumns]
  simp only [List.mem_map, exists_exists_and_eq_and]

/-- **Each group is that of a name**, which is not ignored. -/
theorem groupOf_of_mem {ignored paths : List String} {sorted : List Column}
    {found : List (List Column)}
    (hperm : sorted.Perm ((propertyFiles paths).files.flatMap (columnsFor ignored t)))
    (hfound : Grouped sorted found) {group : List Column} (hg : group ∈ found) :
    keyOf group ∉ ignored ∧ GroupOf t paths group (keyOf group) ∧
    ∀ c ∈ group, c.key = keyOf group := by
  have hkept := hperm.trans (.of_eq (List.flatMap_congr fun f _ => columnsFor_eq ignored t f))
  obtain ⟨hin, hgroup⟩ := hfound.groupIn hkept hg
  refine ⟨hin, ⟨hgroup.called, ⟨wordsOf group, hgroup.described, ?_⟩, ?_, ?_⟩, hgroup.key⟩
  · refine hgroup.words.trans (.of_eq (List.flatMap_congr fun f _ => ?_))
    rw [List.filter_map, List.map_map]
    rfl
  · intro c hc
    obtain ⟨f, hf, x, hx, hname, rfl⟩ := (hgroup.mem c).mp hc
    obtain ⟨y, hy, rfl⟩ := List.mem_map.mp hx
    exact ⟨hf, y, hy, rfl, hname⟩
  · intro f hf x hx hname
    exact (hgroup.mem _).mpr ⟨f, hf, x.2, List.mem_map.mpr ⟨x, hx, rfl⟩, hname, rfl⟩

theorem columnFor_mem_others {x : Value} {d : String} {group : List Column} :
    columnFor f x ∈ others d group ↔ columnFor f x ∈ group ∧ descriptionOf x ≠ some d := by
  have hsame : (columnFor f x).description.same (.str d) = true ↔ descriptionOf x = some d :=
    wordScalar_same (descriptionOf x) (some d)
  rw [others, List.mem_filter, Bool.not_eq_true', ← Bool.not_eq_true, hsame]

/-! ### Documents that are written -/

/-- **The documents that are written** for a document: some name that something is chosen for is
described, in the document itself or in what is read back of one that was written. -/
inductive Revision (chosen : String → Option String) (d : Document) : Document → Prop
  | first {name text : String} {e : Document} (hchosen : chosen name = some text)
      (hdescribe : describe d (.str name) (.str text) = .ok e) : Revision chosen d e
  | next {name text : String} {e e' e'' : Document} (h : Revision chosen d e)
      (hread : Document.read (Text.unifyNewlines e.write) = .ok e')
        (hchosen : chosen name = some text)
      (hdescribe : describe e' (.str name) (.str text) = .ok e'') : Revision chosen d e''

/-- A document that is read on the way: the document itself, or one that was written before. -/
def Reached (chosen : String → Option String) (d e : Document) : Prop :=
  e = d ∨ ∃ r, Revision chosen d r ∧ Document.read (Text.unifyNewlines r.write) = .ok e

variable {d : Document} {path : String}

theorem Reached.revision {e e' : Document} (h : Reached chosen d e) {name text : String}
    (hchosen : chosen name = some text) (hdescribe : describe e (.str name) (.str text) = .ok e') :
    Revision chosen d e' := by
  rcases h with rfl | ⟨r, hr, hread⟩
  · exact .first hchosen hdescribe
  · exact .next hr hread hchosen hdescribe

/-- **A draft described and written**: what is read back is a draft with the wording of one more
name. -/
theorem Draft.next {given : String → Option String} {e : Document} (hd : d.Coherent)
    (htidy : Tidy d.root)
    (hback : ∀ r, Revision chosen d r → ReadsBack r) (hdraft : Draft d given e)
    (hreached : Reached chosen d e) {name text : String} (hchosen : chosen name = some text) :
    ∃ r e', describe e (.str name) (.str text) = .ok r ∧
      Document.read (Text.unifyNewlines r.write) = .ok e' ∧
      Draft d (Function.update given name (some text)) e' ∧ Reached chosen d e' := by
  obtain ⟨r, hdescribe, hroot, hshares⟩ : ∃ r, describe e (.str name) (.str text) = .ok r ∧
      r.root = rebuild (wording d (Function.update given name (some text))) d.root ∧
      SameShares r e :=
    ⟨_, hdraft.describe_eq hd htidy name text, rfl, sameShares_of_shares rfl⟩
  have hrevision := hreached.revision hchosen hdescribe
  obtain ⟨e', hread, hroot', hshares'⟩ := hback r hrevision
  refine ⟨r, e', hdescribe, hread, ⟨coherent_of_read hread, hroot'.trans hroot, fun p q => ?_⟩,
    .inr ⟨r, hrevision, hread⟩⟩
  exact (hshares' p q).trans ((hshares p q).trans (hdraft.shares p q))

/-- The document has a column that is to be described in other words. -/
def HasOther (chosen : String → Option String) (d : Document) : Prop :=
  ∃ x ∈ columnsIn d.root, ∃ text, chosen (nameOf x.2) = some text ∧ descriptionOf x.2 ≠ some text

/-! ### Files on the way -/

theorem truthy_of_mem_columnsIn {root : Value} {c : Place × Value} (h : c ∈ columnsIn root) :
    root.truthy = true := by
  obtain ⟨m, hm, -⟩ := List.mem_flatMap.mp h
  unfold itemsUnder at hm
  split at hm
  · rename_i n hn
    obtain ⟨entries, e, rfl, he, -⟩ := valueAt?_field hn
    cases entries with
    | nil => cases he
    | cons e' entries => rfl
  · cases hm

theorem readProperties_of_truthy (h : t.readDocument path = .ok d)
    (htruthy : d.root.truthy = true) :
    t.readProperties path = .ok d := by
  rw [Tree.readProperties, h, ok_bind, if_pos htruthy]
  rfl

theorem readDocument_of_readProperties (h : t.readProperties path = .ok d)
    (htruthy : d.root.truthy = true) :
    t.readDocument path = .ok d := by
  obtain ⟨d₀, hd₀, h⟩ := bind_eq_ok_iff.mp h
  cases h
  split at htruthy
  · rename_i hfull
    rw [hd₀, if_pos hfull]
  · cases htruthy

theorem coherent_of_readProperties (h : t.readProperties path = .ok d) : d.Coherent := by
  obtain ⟨d₀, hd₀, h⟩ := bind_eq_ok_iff.mp h
  obtain ⟨text, -, hread⟩ := bind_eq_ok_iff.mp hd₀
  cases h
  split
  · exact coherent_of_read hread
  · exact ⟨fun s hs => (nomatch hs), fun s hs => (nomatch hs)⟩

theorem follow_of_readProperties (h : t.readProperties path = .ok d) :
    ∃ place content, t.follow path = .file place content := by
  obtain ⟨d₀, hd₀, -⟩ := bind_eq_ok_iff.mp h
  obtain ⟨text, htext, -⟩ := bind_eq_ok_iff.mp hd₀
  rw [Tree.readText] at htext
  split at htext
  · cases htext
  · rename_i bytes hbytes
    obtain ⟨place, hplace⟩ := Tree.readBytes_eq_ok_iff.mp hbytes
    exact ⟨place, bytes, hplace⟩

theorem readProperties_congr {t' : Tree} (h : t'.readText path = t.readText path) :
    t'.readProperties path = t.readProperties path := by
  rw [Tree.readProperties, Tree.readProperties, Tree.readDocument, Tree.readDocument, h]

theorem describeIn_run {name description : Value} {d' : Document} {place : List String}
    {old : ByteArray}
    (hread : t.readDocument f.text = .ok d) (hdescribe : describe d name description = .ok d')
    (hfollow : t.follow f.text = .file place old) :
    ((describeIn f name description).run t).tree = t.putNode place (.file d'.write.toUTF8) ∧
      ((describeIn f name description).run t).outcome = .ok () := by
  have hwrite : t.writeDocument f.text d' = .ok (t.putNode place (.file d'.write.toUTF8)) :=
    Tree.writeText_of_follow d'.write hfollow
  have hask : (Edit.ask fun t => t.readDocument f.text).run t = ⟨[], t, .ok d⟩ := by
    rw [Edit.run_ask, hread]
  unfold describeIn
  rw [Edit.run_bind_ok (a := d) (by rw [hask]), hask, hdescribe, Edit.ofExcept_ok_bind]
  rw [Edit.run_bind_ok (a := ()) (by rw [Edit.run_change_ok hwrite]), Edit.run_change_ok hwrite]
  exact ⟨rfl, rfl⟩

/-! ### The state on the way -/

/-- **What holds while groups are gone through**: every file stands where it stood and holds a draft
of its document, with the wording that `given` has for the file, and nothing changed but the files
with columns to describe. -/
structure State (t : Tree) (paths : List String) (chosen : String → Option String)
    (given : Path → String → Option String) (t' : Tree) : Prop where
  stays : ∀ f ∈ (propertyFiles paths).files,
    ∀ place content, t.follow f.text = .file place content →
    ∃ content', t'.follow f.text = .file place content'
  draft : ∀ f ∈ (propertyFiles paths).files, ∃ e, t'.readProperties f.text = .ok e ∧
    Draft (docOf t f) (given f) e ∧ Reached chosen (docOf t f) e
  frame : ∀ place, (∀ f ∈ (propertyFiles paths).files, HasOther chosen (docOf t f) →
    ∀ content, t.follow f.text ≠ .file place content) → t'.node? place = t.node? place

theorem mem_propertyFiles_ne {paths : List String} {f' : Path}
    (hf : f ∈ (propertyFiles paths).files)
    (hf' : f' ∈ (propertyFiles paths).files) (hne : f ≠ f') {place place' : List String}
    {content content' : ByteArray}
    (h : t.follow f.text = .file place content) (h' : t.follow f'.text = .file place' content') :
    place ≠ place' :=
  place_ne_of_mem_files (by decide) (by decide) hf hf' hne h h'

section Steps

variable {t : Tree} {paths : List String} {chosen : String → Option String}
  (hfiles : ∀ f ∈ (propertyFiles paths).files, t.readProperties f.text = .ok (docOf t f) ∧
    Tidy (docOf t f).root)
  (hback : ∀ f ∈ (propertyFiles paths).files, ∀ e, Revision chosen (docOf t f) e → ReadsBack e)

include hfiles

theorem State.start : State t paths chosen (fun _ _ => none) t := by
  refine ⟨fun f _ place content h => ⟨content, h⟩, fun f hf => ?_, fun place _ => rfl⟩
  have hread := (hfiles f hf).1
  exact ⟨docOf t f, hread, .start (coherent_of_readProperties hread), .inl rfl⟩

include hback

/-- **One file described.**  The draft of the file gets the wording of one more name, and no other
file changes. -/
theorem State.describeIn {given : Path → String → Option String} {t' : Tree}
    (hs : State t paths chosen given t')
    {f : Path} (hf : f ∈ (propertyFiles paths).files) {x : Place × Value}
    (hx : x ∈ columnsIn (docOf t f).root)
    {text : String} (hchosen : chosen (nameOf x.2) = some text)
    (hother : descriptionOf x.2 ≠ some text) :
    State t paths chosen (Function.update given f
      (Function.update (given f) (nameOf x.2) (some text)))
        ((describeIn f (.str (nameOf x.2)) (.str text)).run t').tree ∧
      ((describeIn f (.str (nameOf x.2)) (.str text)).run t').outcome = .ok () := by
  obtain ⟨hread, htidy⟩ := hfiles f hf
  have hd := coherent_of_readProperties hread
  obtain ⟨e, hreadE, hdraft, hreached⟩ := hs.draft f hf
  have hcolumns : ∀ g : String → Option String, ∃ c,
      c ∈ columnsIn (rebuild (wording (docOf t f) g) (docOf t f).root) := by
    intro g
    rw [columnsIn_reword]
    exact ⟨_, List.mem_map_of_mem hx⟩
  obtain ⟨c, hc⟩ := hcolumns (given f)
  rw [← hdraft.root] at hc
  obtain ⟨e₁, e₂, hdescribe, hreadBack, hdraft₂, hreached₂⟩ :=
    hdraft.next hd htidy (hback f hf) hreached hchosen
  obtain ⟨place, content, hplace⟩ := follow_of_readProperties hread
  obtain ⟨content', hplace'⟩ := hs.stays f hf place content hplace
  have hnode := Tree.node?_of_follow hplace'
  have hdocument := readDocument_of_readProperties hreadE (truthy_of_mem_columnsIn hc)
  obtain ⟨htree, hok⟩ := describeIn_run hdocument hdescribe hplace'
  refine ⟨?_, hok⟩
  rw [htree]
  refine ⟨?_, ?_, ?_⟩
  · intro f' hf' place₁ content₁ h₁
    obtain ⟨content₂, h₂⟩ := hs.stays f' hf' place₁ content₁ h₁
    rw [Tree.follow_putNode hnode, h₂]
    exact ⟨_, rfl⟩
  · intro f' hf'
    by_cases hff : f' = f
    · subst hff
      rw [Function.update_self]
      have hdocument₂ : (t'.putNode place (.file e₁.write.toUTF8)).readDocument f'.text = .ok e₂ :=
        bind_eq_ok_iff.mpr ⟨_, Tree.readText_putNode e₁.write hplace', hreadBack⟩
      obtain ⟨c', hc'⟩ := hcolumns (Function.update (given f') (nameOf x.2) (some text))
      rw [← hdraft₂.root] at hc'
      exact ⟨e₂, readProperties_of_truthy hdocument₂ (truthy_of_mem_columnsIn hc'), hdraft₂,
        hreached₂⟩
    · rw [Function.update_of_ne hff]
      obtain ⟨e', hreadE', hrest⟩ := hs.draft f' hf'
      obtain ⟨place', content₁, h₁⟩ := follow_of_readProperties hreadE'
      have hne := mem_propertyFiles_ne hf' hf hff h₁ hplace'
      exact ⟨e', (readProperties_congr (Tree.readText_putNode_of_ne _ hnode h₁ hne)).trans hreadE',
        hrest⟩
  · intro place₁ hplace₁
    have hne : place₁ ≠ place := fun h =>
      hplace₁ f hf ⟨x, hx, text, hchosen, hother⟩ content (h ▸ hplace)
    rw [Tree.node?_putNode_of_ne _ hne, hs.frame place₁ hplace₁]

/-- **A list of columns described**, each of them in another file or in one that was described
before. -/
theorem State.forEach {name text : String} (hchosen : chosen name = some text) :
    ∀ (cs : List Column) (given : Path → String → Option String) (t' : Tree),
    State t paths chosen given t' →
    (∀ c ∈ cs, c.file ∈ (propertyFiles paths).files ∧ ∃ x ∈ columnsIn (docOf t c.file).root,
      nameOf x.2 = name ∧ descriptionOf x.2 ≠ some text) →
    State t paths chosen
        (fun f => if f ∈ cs.map (·.file) then Function.update (given f) name (some text)
          else given f)
        ((Edit.forEach (fun c => Wording.describeIn c.file (.str name) (.str text)) cs).run
          t').tree ∧
      ((Edit.forEach (fun c => Wording.describeIn c.file (.str name) (.str text)) cs).run
        t').outcome = .ok () := by
  intro cs
  induction cs with
  | nil =>
    intro given t' hs _
    exact ⟨hs, rfl⟩
  | cons c cs ih =>
    intro given t' hs hcs
    obtain ⟨hf, x, hx, rfl, hother⟩ := hcs c List.mem_cons_self
    obtain ⟨hs₁, hok₁⟩ := hs.describeIn hfiles hback hf hx hchosen hother
    obtain ⟨hs₂, hok₂⟩ := ih _ _ hs₁ fun c' hc' => hcs c' (List.mem_cons_of_mem _ hc')
    rw [Edit.forEach_cons, Edit.run_bind_ok hok₁]
    refine ⟨?_, hok₂⟩
    convert hs₂ using 1
    funext f
    by_cases hfc : f = c.file
    · subst hfc
      rw [Function.update_self, Function.update_idem, ite_self, if_pos (by simp)]
    · rw [Function.update_of_ne hfc]
      simp only [List.map_cons, List.mem_cons, hfc, false_or]

/-- **A group described.**  All files get the wording of one more name: those with another
description by being written, the others because they have it already. -/
theorem State.describeOthers {given : String → Option String} {t' : Tree}
    (hs : State t paths chosen (fun _ => given) t') {group : List Column} {name text : String}
    (hgroup : GroupOf t paths group name) (hchosen : chosen name = some text)
    (hnone : given name = none) :
    State t paths chosen (fun _ => Function.update given name (some text))
        ((Wording.describeOthers text group).run t').tree ∧
      ((Wording.describeOthers text group).run t').outcome = .ok () := by
  have hcs : ∀ c ∈ others text group, c.file ∈ (propertyFiles paths).files ∧
      ∃ x ∈ columnsIn (docOf t c.file).root, nameOf x.2 = name ∧ descriptionOf x.2 ≠ some text := by
    intro c hc
    obtain ⟨hf, x, hx, hcx, hname⟩ := hgroup.sound c (List.mem_filter.mp hc).1
    rw [hcx] at hc
    exact ⟨hf, x, hx, hname, (columnFor_mem_others.mp hc).2⟩
  obtain ⟨hs', hok⟩ := State.forEach hfiles hback hchosen (others text group)
    (fun _ => given) t' hs hcs
  rw [Wording.describeOthers, hgroup.called]
  refine ⟨⟨hs'.stays, fun f hf => ?_, hs'.frame⟩, hok⟩
  obtain ⟨e, hread, hdraft, hreached⟩ := hs'.draft f hf
  refine ⟨e, hread, ?_, hreached⟩
  by_cases hmem : f ∈ (others text group).map (·.file)
  · simpa only [if_pos hmem] using hdraft
  · rw [if_neg hmem] at hdraft
    obtain ⟨hreadD, htidy⟩ := hfiles f hf
    refine ⟨hdraft.coherent, hdraft.root.trans ?_, hdraft.shares⟩
    refine (reword_described (coherent_of_readProperties hreadD) htidy hnone
      fun x hx hname => ?_).symm
    by_contra hne
    have hother := columnFor_mem_others.mpr ⟨hgroup.complete f hf x hx hname, hne⟩
    exact hmem (List.mem_map.mpr ⟨_, hother, rfl⟩)

/-- **A group gone through**, whatever is done for it. -/
theorem State.unifyGroup {given : String → Option String} {t' : Tree}
    (hs : State t paths chosen (fun _ => given) t') {group : List Column} {name : String}
    (hgroup : GroupOf t paths group name)
    (hchosen : chosen name = preferred? (descriptionsOf t paths name))
    (hnone : given name = none) {status status' : Status}
    (hok : ((Wording.unifyGroup status group).run t').outcome = .ok status') :
    State t paths chosen (fun _ => Function.update given name (chosen name))
      ((Wording.unifyGroup status group).run t').tree := by
  obtain ⟨ds, hds, hperm⟩ := hgroup.descriptions
  rw [← preferred?_perm hperm] at hchosen
  have hsame (h : chosen name = none) : Function.update given name (chosen name) = given := by
    rw [h, ← hnone, Function.update_eq_self]
  rcases unifyGroup_cases hds status with ⟨hall, heq⟩ | ⟨-, -, heq⟩ | ⟨-, hno, -, line, heq⟩
      | ⟨text, htext, heq⟩
  · rw [heq, hsame (hchosen.trans (preferred?_of_allSame hall))]
    exact hs
  · rw [heq] at hok
    cases hok
  · rw [heq, hsame (hchosen.trans hno)]
    exact hs
  · have hsome := hchosen.trans htext
    obtain ⟨hs', hok'⟩ := hs.describeOthers hfiles hback hgroup hsome hnone
    rw [heq, hsome, Edit.tree_bind, hok']
    exact hs'

/-- **All groups gone through**: the names of the groups get what is chosen for them. -/
theorem State.unifyGroups : ∀ (groups : List (List Column)) (given : String → Option String)
    (t' : Tree) (status status' : Status), State t paths chosen (fun _ => given) t' →
    (∀ group ∈ groups, GroupOf t paths group (keyOf group) ∧ given (keyOf group) = none ∧
      chosen (keyOf group) = preferred? (descriptionsOf t paths (keyOf group))) →
    (groups.map keyOf).Nodup →
    ((Edit.foldl Wording.unifyGroup status groups).run t').outcome = .ok status' →
    State t paths chosen (fun _ n => if n ∈ groups.map keyOf then chosen n else given n)
      ((Edit.foldl Wording.unifyGroup status groups).run t').tree := by
  intro groups
  induction groups with
  | nil =>
    intro given t' status status' hs _ _ _
    exact hs
  | cons group groups ih =>
    intro given t' status status' hs hgroups hnodup hok
    obtain ⟨hgroup, hnone, hchosen⟩ := hgroups group List.mem_cons_self
    rw [List.map_cons, List.nodup_cons] at hnodup
    rw [Edit.run_foldl_cons] at hok ⊢
    rw [Edit.outcome_bind] at hok
    obtain ⟨mid, hmid, hrest⟩ := bind_eq_ok_iff.mp hok
    have hs₁ := hs.unifyGroup hfiles hback hgroup hchosen hnone hmid
    have hs₂ := ih _ _ mid status' hs₁ (fun other hother => by
      obtain ⟨hgroup', hnone', hchosen'⟩ := hgroups other (List.mem_cons_of_mem _ hother)
      have hne : keyOf other ≠ keyOf group := fun h => hnodup.1 (h ▸ List.mem_map_of_mem hother)
      exact ⟨hgroup', by rw [Function.update_of_ne hne, hnone'], hchosen'⟩) hnodup.2 hrest
    rw [Edit.tree_bind, hmid]
    convert hs₂ using 1
    funext _ n
    by_cases hn : n = keyOf group
    · subst hn
      rw [Function.update_self, ite_self, if_pos (by simp)]
    · rw [Function.update_of_ne hn]
      simp only [List.map_cons, List.mem_cons, hn, false_or]

end Steps

/-! ### The whole run -/

section Run

variable {t : Tree} {ignored paths : List String} {sorted : List Column}
  {found : List (List Column)}
  (hperm : sorted.Perm ((propertyFiles paths).files.flatMap (columnsFor ignored t)))
  (hfound : Grouped sorted found)

include hperm hfound

theorem nodup_keyOf : (found.map keyOf).Nodup := by
  rw [List.nodup_iff_pairwise_ne, List.pairwise_map]
  refine hfound.distinct.imp_of_mem fun {g g'} hg hg' hne heq => ?_
  obtain ⟨c, hc⟩ := List.exists_mem_of_ne_nil g (hfound.group g hg).1
  obtain ⟨c', hc'⟩ := List.exists_mem_of_ne_nil g' (hfound.group g' hg').1
  refine hne c hc c' hc' ?_
  rw [(groupOf_of_mem hperm hfound hg).2.2 c hc, (groupOf_of_mem hperm hfound hg').2.2 c' hc', heq]

theorem choice_of_no_group {name : String} (h : name ∉ found.map keyOf) :
    choice t ignored paths name = none := by
  unfold choice
  split
  · rfl
  · rename_i hname
    have hnil : descriptionsOf t paths name = [] := by
      rw [descriptionsOf, List.flatMap_eq_nil_iff]
      intro f hf
      rw [List.map_eq_nil_iff, List.filter_eq_nil_iff]
      intro x hx hxname
      have hxname : nameOf x.2 = name := beq_iff_eq.mp hxname
      have hall : columnFor f x.2 ∈ (propertyFiles paths).files.flatMap (columnsFor ignored t) :=
        List.mem_flatMap.mpr ⟨f, hf, mem_columnsFor.mpr ⟨x, hx, hxname ▸ hname, rfl⟩⟩
      obtain ⟨g, hg, hcg⟩ := hfound.cover _ (hperm.mem_iff.mpr hall)
      have hkey := (groupOf_of_mem hperm hfound hg).2.2 _ hcg
      exact h (List.mem_map.mpr ⟨g, hg, hkey.symm.trans hxname⟩)
    rw [hnil]
    rfl

end Run

theorem choice_eq_some_iff {ignored paths : List String} {name text : String} :
    choice t ignored paths name = some text ↔ name ∉ ignored ∧
      ¬ AllSame (descriptionsOf t paths name) ∧
      Prevails (words (descriptionsOf t paths name)) text := by
  unfold choice
  by_cases hname : name ∈ ignored
  · simp [hname]
  · rw [if_neg hname, preferred?_eq_some_iff]
    simp only [hname, not_false_eq_true, true_and]

/-- **The columns before and after**: they stand where they stood and are shared as they were, with
their names and with the descriptions that are chosen, and else with those they had. -/
structure ColumnsUnified (chosen : String → Option String) (d d' : Document) : Prop where
  shares : SameShares d' d
  columns : (columnsIn d'.root).map (fun c => (c.1, nameOf c.2, descriptionOf c.2)) =
    (columnsIn d.root).map fun c => (c.1, nameOf c.2, (chosen (nameOf c.2)).or (descriptionOf c.2))

/-- **A document before and after, with the descriptions of column entries alone reworded.**
Whatever is no description of a column entry stays: the scalars, and the keys of each mapping in
their order. -/
structure Unified (chosen : String → Option String) (d d' : Document) : Prop
    extends ColumnsUnified chosen d d' where
  root : d'.root = rebuild (entryWording d.root chosen) d.root
  scalars : ∀ place s, ¬ InDescription (entryWording d.root chosen) d.root place →
    valueAt? d.root place = some (.scalar s) → valueAt? d'.root place = some (.scalar s)
  keys : ∀ place entries, ¬ InDescription (entryWording d.root chosen) d.root place →
    valueAt? d.root place = some (.map entries) → ∃ entries',
      valueAt? d'.root place = some (.map entries') ∧
      (entries'.map (·.1) = entries.map (·.1) ∨ entryWording d.root chosen place ≠ none ∧
        entries'.map (·.1) = entries.map (·.1) ++ [.str "description"])

theorem Draft.columnsUnified {d' : Document} (htidy : Tidy d.root) (h : Draft d chosen d') :
    ColumnsUnified chosen d d' := by
  refine ⟨h.shares, ?_⟩
  rw [h.root, columnsIn_reword, List.map_map]
  refine List.map_congr_left fun c hc => ?_
  have hcolumn := htidy.isColumn c hc
  rw [Function.comp_apply]
  dsimp only
  rw [nameOf_reword _ hcolumn, descriptionOf_reword _ hcolumn, List.append_nil,
    wording_self htidy chosen hc]

/-- **The frame is kept just if columns share with columns only.** -/
theorem Draft.unified_iff {d' : Document} (hd : d.Coherent) (htidy : Tidy d.root)
    (h : Draft d chosen d') : Unified chosen d d' ↔ SharedByColumns chosen d := by
  rw [← reword_entries_iff hd htidy, ← h.root]
  refine ⟨fun hunified => hunified.root, fun hroot => ⟨h.columnsUnified htidy, hroot, ?_, ?_⟩⟩
  · intro place s hout hs
    rw [hroot, valueAt?_reword hout hs, rebuild]
  · intro place entries hout hentries
    obtain ⟨entries', heq, hkeys⟩ :=
      keys_reword (fun q => entryWording d.root chosen (place ++ q)) entries
    rw [List.append_nil] at hkeys
    exact ⟨entries', by rw [hroot, valueAt?_reword hout hentries, heq], hkeys⟩

/-- **What holds after a whole run that ends well**: each kept file could be read, and holds the
draft with the wording of everything that is chosen. -/
theorem State.unify {ignored paths : List String} {status : Status}
    (hwf : ∀ f ∈ (propertyFiles paths).files, ∀ d, t.readProperties f.text = .ok d →
      WellFormed d.root)
    (hback : ∀ f ∈ (propertyFiles paths).files, ∀ d e, t.readProperties f.text = .ok d →
      Revision (choice t ignored paths) d e → ReadsBack e)
    (hrun : ((unify ignored paths).run t).outcome = .ok status) :
    (∀ f ∈ (propertyFiles paths).files, t.readProperties f.text = .ok (docOf t f) ∧
      Tidy (docOf t f).root) ∧
    State t paths (choice t ignored paths) (fun _ => choice t ignored paths)
      ((unify ignored paths).run t).tree := by
  unfold Wording.unify at hrun ⊢
  rw [Edit.outcome_bind] at hrun
  obtain ⟨found, hgroups, hrun⟩ := bind_eq_ok_iff.mp hrun
  rw [Edit.tree_bind, hgroups]
  rw [Edit.run_ask] at hgroups hrun
  obtain ⟨hfiles, sorted, hperm, hfound⟩ := groups_spec hwf hgroups
  have hback' : ∀ f ∈ (propertyFiles paths).files, ∀ e,
      Revision (choice t ignored paths) (docOf t f) e → ReadsBack e :=
    fun f hf e => hback f hf _ e (hfiles f hf).1
  have hof : ∀ group ∈ found, GroupOf t paths group (keyOf group) ∧ (none : Option String) = none ∧
      choice t ignored paths (keyOf group) = preferred? (descriptionsOf t paths (keyOf group)) := by
    intro group hgroup
    obtain ⟨hname, hof, -⟩ := groupOf_of_mem hperm hfound hgroup
    exact ⟨hof, rfl, if_neg hname⟩
  have hstate := State.unifyGroups hfiles hback' found (fun _ => none) t 0 status
    (State.start hfiles) hof (nodup_keyOf hperm hfound) hrun
  have hgiven : (fun n => if n ∈ found.map keyOf then choice t ignored paths n else none) =
      choice t ignored paths := by
    funext n
    split
    · rfl
    · rename_i hn
      exact (choice_of_no_group hperm hfound hn).symm
  rw [hgiven] at hstate
  exact ⟨hfiles, hstate⟩

/-- **Descriptions are unified.**  If the columns of the kept files are well formed and what is
written can be read back, then after a run that ends well each kept file holds its document with the
chosen descriptions: for a name that is not ignored and whose descriptions are not all the same the
one that prevails, and else none.  A column that is described anew is so wherever it is shared, so
the rest of the document is as it was just if such columns share with column entries only.  No other
file changes, and no file without a column to describe in other words. -/
theorem unify_describes_iff {t : Tree} {ignored paths : List String} {status : Status}
    (hwf : ∀ f ∈ (propertyFiles paths).files, ∀ d, t.readProperties f.text = .ok d →
      WellFormed d.root)
    (hback : ∀ f ∈ (propertyFiles paths).files, ∀ d e, t.readProperties f.text = .ok d →
      Revision (choice t ignored paths) d e → ReadsBack e)
    (hrun : ((unify ignored paths).run t).outcome = .ok status) :
    (∀ name text, choice t ignored paths name = some text ↔ name ∉ ignored ∧
      ¬ AllSame (descriptionsOf t paths name) ∧
        Prevails (words (descriptionsOf t paths name)) text) ∧
    (∀ f ∈ (propertyFiles paths).files, ∃ d d', t.readProperties f.text = .ok d ∧
      ((unify ignored paths).run t).tree.readProperties f.text = .ok d' ∧
      ColumnsUnified (choice t ignored paths) d d' ∧
      d'.root = rebuild (wording d (choice t ignored paths)) d.root ∧
      (Unified (choice t ignored paths) d d' ↔ SharedByColumns (choice t ignored paths) d)) ∧
    ∀ place, (∀ f ∈ (propertyFiles paths).files, ∀ d, t.readProperties f.text = .ok d →
      HasOther (choice t ignored paths) d → ∀ content, t.follow f.text ≠ .file place content) →
      ((unify ignored paths).run t).tree.node? place = t.node? place := by
  obtain ⟨hfiles, hstate⟩ := State.unify hwf hback hrun
  refine ⟨fun name text => choice_eq_some_iff, fun f hf => ?_, fun place hplace => ?_⟩
  · obtain ⟨e, hread, hdraft, -⟩ := hstate.draft f hf
    obtain ⟨hreadD, htidy⟩ := hfiles f hf
    exact ⟨docOf t f, e, hreadD, hread, hdraft.columnsUnified htidy, hdraft.root,
      hdraft.unified_iff (coherent_of_readProperties hreadD) htidy⟩
  · exact hstate.frame place fun f hf => hplace f hf _ (hfiles f hf).1

/-! ### Two files -/

def oneColumn (model : String) (description : Entries) : Document :=
  .plain (.map [(.str "models", .seq [.map [(.str "name", .str model),
    (.str "columns", .seq [.map ((.str "name", .str "c") :: description)])]])])

def twoFiles : Tree := ⟨[
  (["a.yml"], .file "models:\n- name: m\n  columns:\n  - name: c\n    description: a\n".toUTF8),
  (["b.yml"], .file "models:\n- name: n\n  columns:\n  - name: c\n".toUTF8)]⟩

/-- A document that is settled once a name is described: what is written reads back, and nothing
changes when the name is described again. -/
structure Settles (d : Document) (name text : String) (e : Document) : Prop where
  first : describe d (.str name) (.str text) = .ok e
  back : Document.read (Text.unifyNewlines e.write) = .ok e
  again : describe e (.str name) (.str text) = .ok e

theorem Settles.readsBack {name text : String} {e₀ e : Document} (h : Settles d name text e₀)
    (hchosen : ∀ n s, chosen n = some s → n = name ∧ s = text) (hrevision : Revision chosen d e) :
    ReadsBack e := by
  have heq : e = e₀ := by
    induction hrevision with
    | first hsome hdescribe =>
      obtain ⟨rfl, rfl⟩ := hchosen _ _ hsome
      exact Except.ok.inj (hdescribe.symm.trans h.first)
    | next _ hread hsome hdescribe ih =>
      obtain ⟨rfl, rfl⟩ := hchosen _ _ hsome
      subst ih
      obtain rfl := Except.ok.inj (hread.symm.trans h.back)
      exact Except.ok.inj (hdescribe.symm.trans h.again)
  rw [heq]
  exact ⟨e₀, h.back, rfl, sameShares_of_shares rfl⟩

theorem descriptionsOf_eq (t : Tree) (paths : List String) (name : String) :
    descriptionsOf t paths name = (((propertyFiles paths).files.flatMap fun f =>
      (columnsIn (docOf t f).root).map fun c => (nameOf c.2, descriptionOf c.2)).filter
        (·.1 == name)).map (·.2) := by
  rw [descriptionsOf, List.filter_flatMap, List.map_flatMap]
  refine List.flatMap_congr fun f _ => ?_
  rw [List.filter_map, List.map_map]
  rfl

/-- **A run on two files whose columns all have one name**: what the files are read as, what they
are settled to once the name is described, and that the run ends well. -/
structure Trial (name text : String) where
  tree : Tree
  before : Document × Document
  after : Document × Document
  reads : tree.readProperties "a.yml" = .ok before.1 ∧ tree.readProperties "b.yml" = .ok before.2
  wellFormed : WellFormed before.1.root ∧ WellFormed before.2.root
  named : ∀ c ∈ columnsIn before.1.root ++ columnsIn before.2.root, nameOf c.2 = name
  settles : Settles before.1 name text after.1 ∧ Settles before.2 name text after.2
  ends : ((unify [] ["a.yml", "b.yml"]).run tree).outcome = .ok 1

namespace Trial

variable {name text : String} (trial : Trial name text)

theorem descriptionsOf_tree (n : String) : descriptionsOf trial.tree ["a.yml", "b.yml"] n =
    (((columnsIn trial.before.1.root ++ columnsIn trial.before.2.root).map fun c =>
      (nameOf c.2, descriptionOf c.2)).filter (·.1 == n)).map (·.2) := by
  have hfiles : (propertyFiles ["a.yml", "b.yml"]).files =
    [⟨.relative, ["a.yml"]⟩, ⟨.relative, ["b.yml"]⟩] := rfl
  have hfirst : docOf trial.tree ⟨.relative, ["a.yml"]⟩ = trial.before.1 := docOf_eq trial.reads.1
  have hsecond : docOf trial.tree ⟨.relative, ["b.yml"]⟩ = trial.before.2 := docOf_eq trial.reads.2
  rw [descriptionsOf_eq, hfiles, List.flatMap_cons, List.flatMap_singleton, hfirst, hsecond,
    List.map_append]

theorem eq_of_choice {n s : String}
    (h : choice trial.tree [] ["a.yml", "b.yml"] n = some s) : n = name := by
  by_contra hne
  have hnil : descriptionsOf trial.tree ["a.yml", "b.yml"] n = [] := by
    rw [descriptionsOf_tree, List.map_eq_nil_iff, List.filter_eq_nil_iff]
    intro x hx
    obtain ⟨c, hc, rfl⟩ := List.mem_map.mp hx
    simpa [trial.named c hc] using Ne.symm hne
  rw [choice, hnil] at h
  cases h

theorem forall_files {P : Document → Prop} (hfirst : P trial.before.1)
    (hsecond : P trial.before.2) :
    ∀ f ∈ (propertyFiles ["a.yml", "b.yml"]).files, ∀ d,
      trial.tree.readProperties f.text = .ok d → P d := by
  intro f hf d hd
  rcases List.mem_cons.mp hf with rfl | hf
  · exact Except.ok.inj (trial.reads.1.symm.trans hd) ▸ hfirst
  · obtain rfl := List.mem_singleton.mp hf
    exact Except.ok.inj (trial.reads.2.symm.trans hd) ▸ hsecond

theorem readsBack (h : choice trial.tree [] ["a.yml", "b.yml"] name = some text) :
    ∀ f ∈ (propertyFiles ["a.yml", "b.yml"]).files, ∀ d e,
      trial.tree.readProperties f.text = .ok d →
        Revision (choice trial.tree [] ["a.yml", "b.yml"]) d e → ReadsBack e := by
  have hchosen : ∀ n s, choice trial.tree [] ["a.yml", "b.yml"] n = some s →
      n = name ∧ s = text := by
    intro n s hn
    obtain rfl := trial.eq_of_choice hn
    exact ⟨rfl, Option.some.inj (hn.symm.trans h)⟩
  intro f hf d e hd
  exact trial.forall_files (P := fun d => Revision _ d e → ReadsBack e)
    (trial.settles.1.readsBack hchosen) (trial.settles.2.readsBack hchosen) f hf d hd

end Trial

/-! ### A column without a description -/

def oneTrial : Trial "c" "a" where
  tree := twoFiles
  before := (oneColumn "m" [(.str "description", .str "a")], oneColumn "n" [])
  after := (oneColumn "m" [(.str "description", .str "a")],
    oneColumn "n" [(.str "description", .str "a")])
  reads := ⟨eq_of_yields (by decide +kernel), eq_of_yields (by decide +kernel)⟩
  wellFormed := by decide
  named := by decide
  settles := ⟨⟨rfl, eq_of_yields (by decide +kernel), rfl⟩,
    ⟨rfl, eq_of_yields (by decide +kernel), rfl⟩⟩
  ends := eq_ok_of_toOption (by decide +kernel)

theorem choice_twoFiles : choice oneTrial.tree [] ["a.yml", "b.yml"] "c" = some "a" := by
  rw [choice, oneTrial.descriptionsOf_tree]
  rfl

/-- The column without a description gets that of the other. -/
theorem unify_twoFiles : choice twoFiles [] ["a.yml", "b.yml"] "c" = some "a" ∧
    ∃ d d', twoFiles.readProperties "b.yml" = .ok d ∧
      ((unify [] ["a.yml", "b.yml"]).run twoFiles).tree.readProperties "b.yml" = .ok d' ∧
      Unified (choice twoFiles [] ["a.yml", "b.yml"]) d d' := by
  have hwf := oneTrial.forall_files (P := fun d => WellFormed d.root) oneTrial.wellFormed.1
    oneTrial.wellFormed.2
  obtain ⟨-, hfiles, -⟩ :=
    unify_describes_iff hwf (oneTrial.readsBack choice_twoFiles) oneTrial.ends
  obtain ⟨d, d', hd, hd', -, -, hunified⟩ :=
    hfiles ⟨.relative, ["b.yml"]⟩ (List.mem_cons_of_mem _ List.mem_cons_self)
  refine ⟨choice_twoFiles, d, d', hd, hd', hunified.mpr fun c hc _ _ _ q hq _ _ => ?_⟩
  obtain rfl := Except.ok.inj (hd.symm.trans oneTrial.reads.2)
  rw [Document.aliases_of_shares_nil rfl, List.mem_singleton] at hq
  exact hq ▸ List.mem_map_of_mem hc

/-! ### A column that is shared -/

/-- A file in which a column is shared with a part that is no column, and one in which columns of
the same name are described in other words. -/
def sharedColumn : Tree := ⟨[
  (["a.yml"],
    .file "x: &c\n  name: c\n  description: old\nmodels:\n- name: m\n  columns:\n  - *c\n".toUTF8),
  (["b.yml"], .file ("models:\n- name: n\n  columns:\n  - name: c\n    description: new\n" ++
    "- name: o\n  columns:\n  - name: c\n    description: new\n").toUTF8)]⟩

def columnC (description : String) : Value :=
  .map [(.str "name", .str "c"), (.str "description", .str description)]

def modelOf (name : String) (column : Value) : Value :=
  .map [(.str "name", .str name), (.str "columns", .seq [column])]

def sharing (description : String) : Document where
  root := .map [(.str "x", columnC description),
    (.str "models", .seq [modelOf "m" (columnC description)])]
  shares := [([0], 2), ([1, 0, 1, 0], 2)]

def describedTwice : Document :=
  .plain (.map [(.str "models", .seq [modelOf "n" (columnC "new"), modelOf "o" (columnC "new")])])

def sharedTrial : Trial "c" "new" where
  tree := sharedColumn
  before := (sharing "old", describedTwice)
  after := (sharing "new", describedTwice)
  reads := ⟨eq_of_yields (by decide +kernel), eq_of_yields (by decide +kernel)⟩
  wellFormed := by decide
  named := by decide
  settles := ⟨⟨rfl, eq_of_yields (by decide +kernel), rfl⟩,
    ⟨rfl, eq_of_yields (by decide +kernel), rfl⟩⟩
  ends := eq_ok_of_toOption (by decide +kernel)

theorem choice_sharedColumn : choice sharedTrial.tree [] ["a.yml", "b.yml"] "c" = some "new" := by
  rw [choice, sharedTrial.descriptionsOf_tree]
  rfl

/-- What is under `x` is no column entry, and gets the new description with the column. -/
theorem unify_sharedColumn :
    (∀ f ∈ (propertyFiles ["a.yml", "b.yml"]).files, ∀ d,
      sharedColumn.readProperties f.text = .ok d → WellFormed d.root) ∧
    (∀ f ∈ (propertyFiles ["a.yml", "b.yml"]).files, ∀ d e,
      sharedColumn.readProperties f.text = .ok d →
        Revision (choice sharedColumn [] ["a.yml", "b.yml"]) d e → ReadsBack e) ∧
    ((unify [] ["a.yml", "b.yml"]).run sharedColumn).outcome = .ok 1 ∧
    ∃ d d', sharedColumn.readProperties "a.yml" = .ok d ∧
      ((unify [] ["a.yml", "b.yml"]).run sharedColumn).tree.readProperties "a.yml" = .ok d' ∧
      ¬ Unified (choice sharedColumn [] ["a.yml", "b.yml"]) d d' := by
  have hwf := sharedTrial.forall_files (P := fun d => WellFormed d.root) sharedTrial.wellFormed.1
    sharedTrial.wellFormed.2
  have hback := sharedTrial.readsBack choice_sharedColumn
  obtain ⟨hfiles, hstate⟩ := State.unify hwf hback sharedTrial.ends
  obtain ⟨hread, htidy⟩ := hfiles ⟨.relative, ["a.yml"]⟩ List.mem_cons_self
  obtain ⟨e, hread', hdraft, -⟩ := hstate.draft ⟨.relative, ["a.yml"]⟩ List.mem_cons_self
  refine ⟨hwf, hback, sharedTrial.ends, _, e, hread, hread', fun hunified => ?_⟩
  have hshared := (hdraft.unified_iff (coherent_of_readProperties hread) htidy).mp hunified
  have hdoc : docOf sharedTrial.tree ⟨.relative, ["a.yml"]⟩ = sharing "old" :=
    docOf_eq sharedTrial.reads.1
  rw [hdoc] at hshared
  -- the column shares with what is under `x`, at the first place of the document
  have hmem := hshared ([1, 0, 1, 0], columnC "old") (List.mem_singleton.mpr rfl) "new"
    choice_sharedColumn (by decide) [0] List.mem_cons_self _ rfl
  exact absurd hmem (by decide)

end ProjectLint.Wording
