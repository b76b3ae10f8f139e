import ProjectLint.Proofs.Files
import ProjectLint.Proofs.TableAdditions
import ProjectLint.Proofs.Yaml.ReadBack

/-!
# Adding missing sources again

What is missing is found in the scripts and the manifest, and what is added goes to the property
file; a run does not look there for the tables that it adds.  For every call that the manifest does
not list, the file is read, the table is added to all sources of the name and the file is written
(`addAll_run`).  So **a second run adds the same tables again**: it leaves the file as it is just if
no source of the file goes by a missing name (`afterRun_twice_iff`).
-/

namespace ProjectLint.Sources

open Yaml (Document ReadsBack)
open Scripts (SourceCall)

/-! ### One run after another -/

/-- **What a run adds**: every source keeps its place and its name and lists what it listed, and for
every call a source of the name lists the table once more.  Without such a source all stays as it
is. -/
structure Grown (calls : List SourceCall) (root root' : Value) : Prop where
  orderly : orderly root' = true
  sources : ∀ i x, sourceAt? root i = some x → ∃ y, sourceAt? root' i = some y ∧ More x y ∧
    ∀ call ∈ calls, goesBy call.source x = true →
      timesListed call.table x < timesListed call.table y
  same : (∀ call ∈ calls, ∀ i x, sourceAt? root i = some x → goesBy call.source x = false) →
    root' = root

theorem Grown.nil {root : Value} (h : Sources.orderly root = true) : Grown [] root root :=
  ⟨h, fun i x hx => ⟨x, hx, More.refl x, by simp⟩, fun _ => rfl⟩

variable {call : SourceCall} {old : ByteArray}

theorem Grown.cons {calls : List SourceCall} {root root₁ root₂ : Value}
    (h : Grown [call] root root₁)
    (h' : Grown calls root₁ root₂) : Grown (call :: calls) root root₂ := by
  refine ⟨h'.orderly, fun i x hx => ?_, fun hno => ?_⟩
  · obtain ⟨y, hy, hmore, htimes⟩ := h.sources i x hx
    obtain ⟨z, hz, hmore', htimes'⟩ := h'.sources i y hy
    refine ⟨z, hz, hmore.trans hmore', fun other hother hgoes => ?_⟩
    rcases List.mem_cons.mp hother with rfl | hother
    · exact Nat.lt_of_lt_of_le (htimes other List.mem_cons_self hgoes) (hmore'.times _)
    · exact Nat.lt_of_le_of_lt (hmore.times _) (htimes' other hother ((hmore.names _).trans hgoes))
  · have hsame : root₁ = root :=
      h.same fun other hother => hno other (List.mem_singleton.mp hother ▸ List.mem_cons_self)
    subst hsame
    exact h'.same fun other hother => hno other (List.mem_cons_of_mem call hother)

theorem grown_addToDocument {text : String} {d : Document} (hread : Document.read text = .ok d)
    (horderly : orderly d.root = true) (call : SourceCall) :
    ∃ e seen, addToDocument d call = .ok (e, seen) ∧ Grown [call] d.root e.root := by
  obtain ⟨items, hitems, -⟩ := orderly_iff.mp horderly
  have hone := Yaml.oneEach_of_read hread
  have hcoherent := Yaml.coherent_of_read hread
  obtain ⟨e, seen, hfold, hstage, hsources, hsame⟩ :=
    Stage.addToSources hone hcoherent horderly call
    (List.range items.length) false (.start hcoherent horderly) fun n hn => by
      rw [sourceAt?_eq hitems]
      exact ⟨_, List.getElem?_eq_getElem (List.mem_range.mp hn)⟩
  have hrange : ∀ i x, sourceAt? d.root i = some x → i ∈ List.range items.length := by
    intro i x hx
    rw [sourceAt?_eq hitems] at hx
    exact List.mem_range.mpr (List.getElem?_eq_some_iff.mp hx).1
  refine ⟨e, seen, ?_, hstage.orderly, fun i x hx => ?_, fun hno => ?_⟩
  · have hsection : d.root.fieldD "sources" (.seq []) = .ok (.seq items) := by
      obtain ⟨es, hroot, hes⟩ := exists_of_under? hitems
      rw [hroot, Value.fieldD, Value.field?, hes, ok_map, Option.getD_some]
    rw [addToDocument, hsection, ok_bind, (fieldIndex?_eq_slot hitems).1]
    exact hfold
  · obtain ⟨y, hy, hmore, htimes⟩ := hsources i x hx
    refine ⟨y, hy, hmore, fun other hother => ?_⟩
    rw [List.mem_singleton.mp hother]
    exact htimes (hrange i x hx)
  · rw [hsame fun n _ => hno call List.mem_cons_self n]

/-- **A document that is written on the way**: one for each call, made of the one before as it is
read again. -/
inductive Written : Document → List SourceCall → Document → Prop
  | now {d e : Document} {call : SourceCall} {calls : List SourceCall} {seen : Bool}
      (added : addToDocument d call = .ok (e, seen)) : Written d (call :: calls) e
  | later {d e d' e' : Document} {call : SourceCall} {calls : List SourceCall} {seen : Bool}
      (added : addToDocument d call = .ok (e, seen))
      (reread : Document.read (Text.unifyNewlines e.write) = .ok d') (rest : Written d' calls e') :
      Written d (call :: calls) e'

section Files

variable {path : String} {place : List String}

/-- What is done to the property file for one call. -/
theorem addToFile_run {t : Tree} {d e : Document} {seen : Bool}
    (hread : t.readDocument (Path.ofString path).text = .ok d)
    (hadd : addToDocument d call = .ok (e, seen))
    (hfollow : t.follow (Path.ofString path).text = .file place old) :
    ((addToFile path call).run t).tree = t.putNode place (.file e.write.toUTF8) ∧
      ((addToFile path call).run t).outcome = .ok () := by
  have hwrite : t.writeDocument (Path.ofString path).text e =
      .ok (t.putNode place (.file e.write.toUTF8)) :=
    Tree.writeText_of_follow e.write hfollow
  have hask : (Edit.ask fun t => t.readDocument (Path.ofString path).text).run t = ⟨[], t,
      .ok d⟩ := by
    rw [Edit.run_ask, hread]
  have hdone : ∀ line,
      (Edit.say line >>= fun _ => Edit.change fun t =>
        t.writeDocument (Path.ofString path).text e).run t = ⟨[line],
          t.putNode place (.file e.write.toUTF8), .ok ()⟩ := by
    intro line
    rw [Edit.run_bind_ok (a := ()) rfl, Edit.run_say, Edit.run_change_ok hwrite]
    rfl
  unfold addToFile
  rw [Edit.run_bind_ok (a := d) (by rw [hask]), hask, hadd, Edit.ofExcept_ok_bind]
  cases seen with
  | true =>
    dsimp only
    rw [if_neg (by decide), hdone]
    exact ⟨rfl, rfl⟩
  | false =>
    dsimp only
    rw [if_pos (by decide), Edit.run_bind_ok (a := ()) rfl, Edit.run_say, hdone]
    exact ⟨rfl, rfl⟩

theorem addAll_cons_run {t : Tree} {d e d₁ : Document} {seen : Bool}
    (hread : t.readDocument (Path.ofString path).text = .ok d)
    (hadd : addToDocument d call = .ok (e, seen))
    (hfollow : t.follow (Path.ofString path).text = .file place old)
    (hd₁ : Document.read (Text.unifyNewlines e.write) = .ok d₁) (calls : List SourceCall) :
    ((addAll path (call :: calls)).run t).tree =
        ((addAll path calls).run (t.putNode place (.file e.write.toUTF8))).tree ∧
      ((addAll path (call :: calls)).run t).outcome =
        ((addAll path calls).run (t.putNode place (.file e.write.toUTF8))).outcome ∧
      (t.putNode place (.file e.write.toUTF8)).follow
        (Path.ofString path).text = .file place e.write.toUTF8 ∧
      (t.putNode place (.file e.write.toUTF8)).readDocument (Path.ofString path).text = .ok d₁ := by
  obtain ⟨htree, hok⟩ := addToFile_run hread hadd hfollow
  have hfile : t.isFile (Path.ofString path).text = true := by
    rw [Tree.isFile, Tree.exists?, Tree.isDir, hfollow]
    rfl
  have hstep : (addAll path (call :: calls)).run t =
      (addToFile path call >>= fun _ => addAll path calls).run t :=
    if_pos hfile
  refine ⟨?_, ?_, ?_, ?_⟩
  · rw [hstep, Edit.tree_bind, hok, htree]
  · rw [hstep, Edit.outcome_bind, hok, ok_bind, htree]
  · rw [Tree.follow_putNode (Tree.node?_of_follow hfollow), hfollow, Tree.Target.withContent,
      if_pos rfl]
  · rw [Tree.readDocument, Tree.readText_putNode _ hfollow, ok_bind, hd₁]

/-- **What adding table after table does to the property file.** -/
theorem addAll_run : ∀ (calls : List SourceCall) {t : Tree} {d : Document} {old : ByteArray},
    t.follow (Path.ofString path).text = .file place old →
      t.readDocument (Path.ofString path).text = .ok d →
    orderly d.root = true → (∀ e, Written d calls e → ReadsBack e) →
    ∃ d' content, ((addAll path calls).run t).tree.follow
      (Path.ofString path).text = .file place content ∧
        ((addAll path calls).run t).tree.readDocument (Path.ofString path).text = .ok d' ∧
      Grown calls d.root d'.root ∧
      ∀ q, (∀ c, t.follow q ≠ .file place c) →
        ((addAll path calls).run t).tree.readText q = t.readText q := by
  intro calls
  induction calls with
  | nil =>
    intro t d old hfollow hread horderly _
    exact ⟨d, old, hfollow, hread, Grown.nil horderly, fun q _ => rfl⟩
  | cons call calls ih =>
    intro t d old hfollow hread horderly hback
    obtain ⟨text, -, htext⟩ := bind_eq_ok_iff.mp hread
    obtain ⟨e, seen, hadd, hgrown⟩ := grown_addToDocument htext horderly call
    obtain ⟨d₁, hd₁, hroot, -⟩ := hback e (.now hadd)
    obtain ⟨hrest, -, hfollow₁, hread₁⟩ := addAll_cons_run hread hadd hfollow hd₁ calls
    have hgrown₁ : Grown [call] d.root d₁.root := hroot ▸ hgrown
    obtain ⟨d', content, hfollow', hread', hgrown', helse⟩ := ih hfollow₁ hread₁ hgrown₁.orderly
      fun e' he' => hback e' (.later hadd hd₁ he')
    rw [hrest]
    refine ⟨d', content, hfollow', hread', hgrown₁.cons hgrown', fun q hq => ?_⟩
    obtain ⟨hsame, hq'⟩ :=
      Tree.readText_putNode_elsewhere (Tree.node?_of_follow hfollow) e.write.toUTF8 hq
    rw [helse q hq', hsame]

end Files

/-! ### Two runs -/

/-- The calls of sources that the manifest does not list, as a run finds them. -/
def missingCalls (t : Tree) (manifest : Value) (paths : List String) : List SourceCall :=
  match Scripts.missing t manifest paths with
  | .ok missing => missing.sources.map (·.2)
  | .error _ => []

/-- The files after a run. -/
def afterRun (t : Tree) (manifest : Value) (path : String) (paths : List String) : Tree :=
  ((generate manifest path paths).run t).tree

theorem afterRun_eq (t : Tree) (manifest : Value) (path : String) (paths : List String) :
    afterRun t manifest path paths =
      ((addAll path (missingCalls t manifest paths)).run t).tree := by
  rw [afterRun, generate, missingCalls, Edit.tree_bind, Edit.run_ask]
  cases Scripts.missing t manifest paths with
  | error f => rfl
  | ok missing =>
    dsimp only
    rw [Edit.tree_bind, Edit.run_forEach_say]
    dsimp only
    rw [addMissing, Edit.tree_bind]
    cases ((addAll path (missing.sources.map (·.2))).run t).outcome <;> rfl

theorem missing_congr {t t' : Tree} {paths : List String} (manifest : Value)
    (h : ∀ f ∈ (scriptFiles paths).files, t'.readText f.text = t.readText f.text) :
    Scripts.missing t' manifest paths = Scripts.missing t manifest paths := by
  have hmentions : ∀ (files : List Path) (m : Scripts.Mentions),
      (∀ f ∈ files, t'.readText f.text = t.readText f.text) →
        files.foldlM (Scripts.Mentions.addFile t') m =
          files.foldlM (Scripts.Mentions.addFile t) m := by
    intro files
    induction files with
    | nil => intro m _; rfl
    | cons f files ih =>
      intro m hfiles
      rw [List.foldlM_cons, List.foldlM_cons, Scripts.Mentions.addFile, Scripts.Mentions.addFile,
        hfiles f List.mem_cons_self]
      exact congrArg _ (funext fun m => ih m fun f hf => hfiles f (List.mem_cons_of_mem _ hf))
  rw [Scripts.missing, Scripts.missing, Scripts.mentions, Scripts.mentions, hmentions _ _ h]

/-- Every document that a run writes reads back. -/
def WritesBack (t : Tree) (manifest : Value) (path : String) (paths : List String) : Prop :=
  ∀ d e, t.readDocument (Path.ofString path).text = .ok d →
    Written d (missingCalls t manifest paths) e → ReadsBack e

theorem afterRun_spec {t : Tree} {manifest : Value} {path : String} {paths : List String}
    {d : Document}
    {place : List String} (hfollow : t.follow (Path.ofString path).text = .file place old)
    (hread : t.readDocument (Path.ofString path).text = .ok d) (horderly : orderly d.root = true)
    (hback : WritesBack t manifest path paths) :
    ∃ d' content, (afterRun t manifest path paths).follow
      (Path.ofString path).text = .file place content ∧
        (afterRun t manifest path paths).readDocument (Path.ofString path).text = .ok d' ∧
      Grown (missingCalls t manifest paths) d.root d'.root ∧
      ∀ q, (∀ c, t.follow q ≠ .file place c) →
        (afterRun t manifest path paths).readText q = t.readText q := by
  rw [afterRun_eq]
  exact addAll_run _ hfollow hread horderly fun e he => hback d e hread he

/-- The property file is none of the scripts. -/
def Apart (t : Tree) (path : String) (paths : List String) : Prop :=
  ∀ f ∈ (scriptFiles paths).files, ∀ place c c',
    t.follow (Path.ofString path).text = .file place c →
    t.follow f.text ≠ .file place c'

/-- A source of the property file goes by the name that is called. -/
def HasSource (root : Value) (call : SourceCall) : Prop :=
  ∃ i x, sourceAt? root i = some x ∧ goesBy call.source x = true

/-- **A second run leaves the property file as it is just if it finds nothing to add to**: no source
of the file goes by the name of one that is missing.  It adds to every source of such a name once
more.  If the property file is none of the scripts then the second run finds what the first has
found, so that every table that was generated is listed twice. -/
theorem afterRun_twice_iff {t : Tree} {manifest : Value} {path : String} {paths : List String}
    {d : Document}
    (hread : t.readDocument (Path.ofString path).text = .ok d) (horderly : orderly d.root = true)
    (hback : WritesBack t manifest path paths)
    (hback' : WritesBack (afterRun t manifest path paths) manifest path paths) :
    ∃ d₁ d₂, (afterRun t manifest path paths).readDocument (Path.ofString path).text = .ok d₁ ∧
      (afterRun (afterRun t manifest path paths) manifest path paths).readDocument
        (Path.ofString path).text = .ok d₂ ∧
      (d₂.root = d₁.root ↔
        ∀ call ∈ missingCalls (afterRun t manifest path paths) manifest paths,
          ¬HasSource d₁.root call) ∧
      (∀ call ∈ missingCalls (afterRun t manifest path paths) manifest paths,
        ∀ i x, sourceAt? d₁.root i = some x → goesBy call.source x = true →
          ∃ y, sourceAt? d₂.root i = some y ∧ timesListed call.table x < timesListed call.table y) ∧
      (Apart t path paths →
        missingCalls (afterRun t manifest path paths) manifest paths =
          missingCalls t manifest paths ∧
        ∀ call ∈ missingCalls t manifest paths, ∀ i x, sourceAt? d.root i = some x →
          goesBy call.source x = true → ∃ y, sourceAt? d₂.root i = some y ∧
            timesListed call.table x + 2 ≤ timesListed call.table y) := by
  obtain ⟨text, htext, -⟩ := bind_eq_ok_iff.mp hread
  obtain ⟨place, old, hfollow⟩ := Tree.follow_of_readText htext
  obtain ⟨d₁, content, hfollow₁, hread₁, hgrown₁, helse⟩ :=
    afterRun_spec hfollow hread horderly hback
  obtain ⟨d₂, -, -, hread₂, hgrown₂, -⟩ := afterRun_spec hfollow₁ hread₁ hgrown₁.orderly hback'
  have hmore : ∀ call ∈ missingCalls (afterRun t manifest path paths) manifest paths, ∀ i x,
      sourceAt? d₁.root i = some x → goesBy call.source x = true →
        ∃ y, sourceAt? d₂.root i = some y ∧
          timesListed call.table x < timesListed call.table y := by
    intro call hcall i x hx hgoes
    obtain ⟨y, hy, -, htimes⟩ := hgrown₂.sources i x hx
    exact ⟨y, hy, htimes call hcall hgoes⟩
  refine ⟨d₁, d₂, hread₁, hread₂, ⟨fun hsame call hcall => ?_, fun hno => ?_⟩, hmore,
    fun hapart => ?_⟩
  · -- a table that is listed once more shows in the value
    rintro ⟨i, x, hx, hgoes⟩
    obtain ⟨y, hy, hlt⟩ := hmore call hcall i x hx hgoes
    rw [hsame, hx] at hy
    obtain rfl := Option.some.inj hy
    exact Nat.lt_irrefl _ hlt
  · refine hgrown₂.same fun call hcall i x hx => ?_
    rw [Bool.eq_false_iff]
    exact fun hgoes => hno call hcall ⟨i, x, hx, hgoes⟩
  · have hcalls : missingCalls (afterRun t manifest path paths) manifest paths =
        missingCalls t manifest paths := by
      have hsame : Scripts.missing (afterRun t manifest path paths) manifest paths =
          Scripts.missing t manifest paths :=
        missing_congr manifest fun f hf => helse f.text fun c => hapart f hf place old c hfollow
      rw [missingCalls, missingCalls, hsame]
    refine ⟨hcalls, fun call hcall i x hx hgoes => ?_⟩
    obtain ⟨y, hy, hmore₁, htimes⟩ := hgrown₁.sources i x hx
    obtain ⟨z, hz, hlt⟩ := hmore call (hcalls ▸ hcall) i y hy ((hmore₁.names _).trans hgoes)
    have hlt₁ := htimes call hcall hgoes
    exact ⟨z, hz, by omega⟩

/-! ### One script and one source -/

def oneCall : Tree := ⟨[
  (["schema.yml"], .file "version: 2\nsources:\n- name: s\n".toUTF8),
  (["m.sql"], .file "select * from \x7b\x7b source('s', 't') \x7d\x7d".toUTF8)]⟩

def noSources : Value := .record [("sources", .record [])]

def listing (times : Nat) : Document :=
  .plain (.map [(.str "version", .int 2), (.str "sources", .seq [.map (
    (.str "name", .str "s") :: if times = 0 then []
      else [(.str "tables", .seq (List.replicate times (.record [("name", .str "t")])))])])])

theorem afterRun_oneCall :
    oneCall.readDocument "schema.yml" = .ok (listing 0) ∧
    (afterRun oneCall noSources "schema.yml" ["m.sql"]).readDocument "schema.yml" =
      .ok (listing 1) ∧
    (afterRun (afterRun oneCall noSources "schema.yml" ["m.sql"]) noSources "schema.yml"
      ["m.sql"]).readDocument "schema.yml" = .ok (listing 2) :=
  ⟨Yaml.eq_of_yields (by decide +kernel), Yaml.eq_of_yields (by decide +kernel),
    Yaml.eq_of_yields (by decide +kernel)⟩

theorem missingCalls_oneCall : missingCalls oneCall noSources ["m.sql"] = [⟨"s", "t"⟩] ∧
    missingCalls (afterRun oneCall noSources "schema.yml" ["m.sql"]) noSources
      ["m.sql"] = [⟨"s", "t"⟩] := by
  have hone : ∀ calls : List SourceCall, calls.map (fun c => (c.source, c.table)) = [("s", "t")] →
      calls = [⟨"s", "t"⟩] := by
    intro calls h
    obtain ⟨⟨source, table⟩, rfl, heq⟩ := List.map_eq_singleton_iff.mp h
    cases heq
    rfl
  exact ⟨hone _ (by decide +kernel), hone _ (by decide +kernel)⟩

theorem readsBack_of_written_listing {times : Nat} {e : Document}
    (h : Written (listing times) [⟨"s", "t"⟩] e)
    (hadd : (addToDocument (listing times) ⟨"s", "t"⟩).map (·.1) = .ok (listing (times + 1)))
    (hread : Document.read (Text.unifyNewlines (listing (times + 1)).write) =
      .ok (listing (times + 1))) :
    ReadsBack e := by
  cases h with
  | now added =>
    rw [added, ok_map] at hadd
    cases hadd
    exact ⟨_, hread, rfl, Yaml.sameShares_of_shares rfl⟩
  | later added reread rest => cases rest

/-- After two runs the source lists the table twice. -/
theorem afterRun_twice_oneCall : ∃ d₂ y,
    (afterRun (afterRun oneCall noSources "schema.yml" ["m.sql"]) noSources "schema.yml"
      ["m.sql"]).readDocument (Path.ofString "schema.yml").text = .ok d₂ ∧
    sourceAt? d₂.root 0 = some y ∧ 2 ≤ timesListed "t" y := by
  have hpath : (Path.ofString "schema.yml").text = "schema.yml" := by decide +kernel
  obtain ⟨hread, hread₁, -⟩ := afterRun_oneCall
  obtain ⟨hcalls, hcalls₁⟩ := missingCalls_oneCall
  rw [← hpath] at hread
  have hback : WritesBack oneCall noSources "schema.yml" ["m.sql"] := by
    intro d e hd hwritten
    obtain rfl := Except.ok.inj (hread.symm.trans hd)
    rw [hcalls] at hwritten
    exact readsBack_of_written_listing hwritten (Yaml.eq_of_yields (by decide +kernel))
      (Yaml.eq_of_yields (by decide +kernel))
  have hback' : WritesBack (afterRun oneCall noSources "schema.yml"
      ["m.sql"]) noSources "schema.yml" ["m.sql"] := by
    intro d e hd hwritten
    rw [hpath] at hd
    obtain rfl := Except.ok.inj (hread₁.symm.trans hd)
    rw [hcalls₁] at hwritten
    exact readsBack_of_written_listing hwritten (Yaml.eq_of_yields (by decide +kernel))
      (Yaml.eq_of_yields (by decide +kernel))
  obtain ⟨d₁, d₂, -, hread₂, -, -, htwice⟩ := afterRun_twice_iff hread (by decide) hback hback'
  have hapart : Apart oneCall "schema.yml" ["m.sql"] := by
    have hscripts : ∀ f ∈ (scriptFiles ["m.sql"]).files, f.text = "m.sql" := by decide +kernel
    intro f hf place c c' hschema hscript
    rw [hscripts f hf] at hscript
    cases hschema
    cases hscript
  obtain ⟨y, hy, htimes⟩ := (htwice hapart).2 ⟨"s", "t"⟩
    (by rw [hcalls]; exact List.mem_cons_self) 0 _ rfl (by decide)
  exact ⟨d₂, y, hread₂, hy, htimes⟩

/-- The second run changes the property file. -/
theorem afterRun_oneCall_ne :
    (afterRun oneCall noSources "schema.yml" ["m.sql"]).readDocument "schema.yml" =
      .ok (listing 1) ∧
    (afterRun (afterRun oneCall noSources "schema.yml" ["m.sql"]) noSources "schema.yml"
      ["m.sql"]).readDocument "schema.yml" = .ok (listing 2) ∧
    (listing 2).root ≠ (listing 1).root := by
  refine ⟨afterRun_oneCall.2.1, afterRun_oneCall.2.2, fun h => ?_⟩
  have htables := congrArg (fun root => ((sourceAt? root 0).map (timesListed "t"))) h
  exact absurd htables (by decide)

end ProjectLint.Sources
