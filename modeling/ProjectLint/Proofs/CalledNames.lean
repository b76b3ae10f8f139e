import Mathlib.Data.List.DropRight
import ProjectLint.Checks.Scripts
import ProjectLint.Proofs.CallLayout
import ProjectLint.Proofs.FileMaps
import ProjectLint.Proofs.Files
import ProjectLint.Proofs.Outcomes
import ProjectLint.Proofs.Texts

/-!
# The names that a script calls

The models and source tables that a script calls are read off the calls that are found in it.  A
call that is found alone gives the names that are written in it, and a call with more of its line
behind it gives a name with a brace, which no name that is called has (`plain_ref`,
`sourceCall_plain`).  So **the report on a script is right just if no two of its calls stand on one
line** (`missing_faithful_iff`).
-/

namespace ProjectLint

/-! ### Trimming -/

namespace Text

variable {c : Char}

variable {cs : List Char}

theorem mem_dropWhile {kind : Char → Bool} (hc : kind c = false) (h : c ∈ cs) :
    c ∈ cs.dropWhile kind := by
  induction cs with
  | nil => cases h
  | cons d cs ih =>
    rw [List.dropWhile_cons]
    split
    · rename_i hd
      rcases List.mem_cons.mp h with rfl | h
      · rw [hc] at hd
        cases hd
      · exact ih h
    · exact h

theorem mem_trimList (hc : isBlank c = false) (h : c ∈ cs) : c ∈ trimList cs := by
  rw [trimList, trimWhere, List.mem_reverse]
  exact mem_dropWhile hc (List.mem_reverse.mpr (mem_dropWhile hc h))

theorem rdropWhile_append_cons {kind : Char → Bool} (hc : kind c = false) (front rest : List Char) :
    (front ++ c :: rest).rdropWhile kind = front ++ c :: rest.rdropWhile kind := by
  induction rest using List.reverseRecOn with
  | nil =>
    rw [List.rdropWhile_nil]
    exact List.rdropWhile_concat_neg kind front c (by rw [hc]; decide)
  | append_singleton rest d ih =>
    have hassoc : front ++ c :: (rest ++ [d]) = front ++ c :: rest ++ [d] := by simp
    rw [hassoc, List.rdropWhile_concat, List.rdropWhile_concat]
    split
    · exact ih
    · exact hassoc.symm

theorem trimList_of_no_blank (h : ∀ c ∈ cs, isBlank c = false) : trimList cs = cs := by
  have hdrop : ∀ l : List Char, (∀ c ∈ l, isBlank c = false) → l.dropWhile isBlank = l := by
    intro l hl
    cases l with
    | nil => rfl
    | cons c l => rw [List.dropWhile_cons, hl c List.mem_cons_self]; rfl
  rw [trimList, trimWhere, hdrop cs h, hdrop cs.reverse fun c hc => h c (List.mem_reverse.mp hc),
    List.reverse_reverse]

theorem trimList_append_cons {front : List Char} (hfront : ∀ c ∈ front, isBlank c = false)
    (hc : isBlank c = false)
    (rest : List Char) : trimList (front ++ c :: rest) = front ++ c :: rest.rdropWhile isBlank := by
  have hstart : (front ++ c :: rest).dropWhile isBlank = front ++ c :: rest := by
    cases front with
    | nil => rw [List.nil_append, List.dropWhile_cons, hc]; rfl
    | cons d front => rw [List.cons_append, List.dropWhile_cons, hfront d List.mem_cons_self]; rfl
  rw [trimList, trimWhere, hstart]
  exact rdropWhile_append_cons hc front rest

theorem trimList_behind_blank (hblank : ∀ c ∈ cs, isBlank c = false) (hcomma : ',' ∉ cs) :
    trimList (((' ' :: cs).rdropWhile isBlank).takeWhile (· ≠ ',')) = cs := by
  cases cs using List.reverseRecOn with
  | nil => rfl
  | append_singleton front c =>
    have hlast : (' ' :: (front ++ [c])).rdropWhile isBlank = ' ' :: (front ++ [c]) :=
      List.rdropWhile_concat_neg isBlank (' ' :: front) c (by rw [hblank c (by simp)]; decide)
    have hself : (' ' :: (front ++ [c])).takeWhile (· ≠ ',') = ' ' :: (front ++ [c]) := by
      rw [List.takeWhile_eq_self_iff]
      intro d hd
      rcases List.mem_cons.mp hd with rfl | hd
      · decide
      · exact decide_eq_true fun h => hcomma (h ▸ hd)
    have htrim : trimList (' ' :: (front ++ [c])) = trimList (front ++ [c]) := rfl
    rw [hlast, hself, htrim, trimList_of_no_blank hblank]

theorem splitList_eq_takeWhile (d : Char) (cs : List Char) :
    ∃ more, splitList d cs = cs.takeWhile (· ≠ d) :: more := by
  induction cs with
  | nil => exact ⟨[], rfl⟩
  | cons c cs ih =>
    obtain ⟨more, hmore⟩ := ih
    rw [splitList]
    by_cases hc : c = d
    · exact ⟨splitList d cs, by simp [hc]⟩
    · exact ⟨more, by simp [hc, hmore]⟩

end Text

/-! ### What is read off a call -/

namespace Script

theorem PlainName.isBlank_of_mem {n : PlainName} (hc : c ∈ n.chars) : Text.isBlank c = false := by
  have hplain := n.plain c hc
  rw [isPlainChar, Bool.and_eq_true] at hplain
  simpa using hplain.1

theorem PlainName.brace_not_mem (n : PlainName) : '\x7d' ∉ n.text.toList := by
  rw [PlainName.text, String.toList_ofList]
  exact fun h => n.ne_of_mem h (by decide) rfl

def unquoted (cs : List Char) : List Char := (cs.filter (· != '\'')).filter (· != '"')

theorem unquoted_append (cs ds : List Char) : unquoted (cs ++ ds) = unquoted cs ++ unquoted ds := by
  rw [unquoted, List.filter_append, List.filter_append]
  rfl

theorem unquoted_name (n : PlainName) : unquoted n.chars = n.chars := by
  rw [unquoted, List.filter_eq_self.mpr fun c hc => bne_iff_ne.mpr (n.ne_of_mem hc (by decide))]
  exact List.filter_eq_self.mpr fun c hc => bne_iff_ne.mpr (n.ne_of_mem hc (by decide))

theorem plain_ref (m : PlainName) (tail : List Char) :
    Call.plain ⟨.ref, (PlainCall.ref m).argument ++ tail⟩ =
      Text.trimList (m.chars ++ unquoted tail) := by
  show Text.trimList (unquoted (['\''] ++ (m.chars ++ ['\'']) ++ tail)) = _
  rw [unquoted_append, unquoted_append, unquoted_append, unquoted_name]
  show Text.trimList ([] ++ (m.chars ++ []) ++ unquoted tail) = _
  rw [List.nil_append, List.append_nil]

theorem unquoted_source (s t : PlainName) (tail : List Char) :
    unquoted ((PlainCall.source s t).argument ++ tail) = s.chars ++
      ',' :: ' ' :: (t.chars ++ unquoted tail) := by
  show unquoted (['\''] ++ (s.chars ++ (['\'', ',', ' ', '\''] ++ (t.chars ++ ['\'']))) ++ tail) = _
  rw [unquoted_append, unquoted_append, unquoted_append, unquoted_append, unquoted_append,
    unquoted_name, unquoted_name]
  show [] ++ (s.chars ++ ([',', ' '] ++ (t.chars ++ []))) ++ unquoted tail = _
  simp

end Script

namespace Scripts

open Script

theorem model_plain (m : PlainName) :
    Call.plain ⟨.ref, (PlainCall.ref m).argument⟩ = m.chars ∧
      ∀ more, '\x7d' ∈ Call.plain ⟨.ref, (PlainCall.ref m).argument ++
        (PlainCall.closing ++ more)⟩ := by
  have halone := plain_ref m []
  rw [List.append_nil] at halone
  refine ⟨?_, fun more => ?_⟩
  · rw [halone]
    show Text.trimList (m.chars ++ []) = m.chars
    rw [List.append_nil, Text.trimList_of_no_blank fun c => m.isBlank_of_mem]
  · rw [plain_ref]
    refine Text.mem_trimList (by decide) (List.mem_append_right _ ?_)
    rw [unquoted_append]
    exact List.mem_append_left _ (by decide)

/-- The names in a call of a source table: those that are written, or one with a brace. -/
theorem sourceCall_plain (s t : PlainName) :
    sourceCall (Call.plain ⟨.source, (PlainCall.source s t).argument⟩) = .ok ⟨s.text, t.text⟩ ∧
      ∀ more, ∃ table, '\x7d' ∈ table.toList ∧
        sourceCall (Call.plain ⟨.source, (PlainCall.source s t).argument ++
          (PlainCall.closing ++ more)⟩) = .ok ⟨s.text, table⟩ := by
  have hcomma : ∀ n : PlainName, ',' ∉ n.chars := fun n h => n.ne_of_mem h (by decide) rfl
  have hplain : ∀ tail, Call.plain ⟨.source, (PlainCall.source s t).argument ++ tail⟩ =
      s.chars ++ ',' :: (' ' :: (t.chars ++ unquoted tail)).rdropWhile Text.isBlank := by
    intro tail
    show Text.trimList (unquoted ((PlainCall.source s t).argument ++ tail)) = _
    rw [unquoted_source, Text.trimList_append_cons (fun c => s.isBlank_of_mem) (by decide)]
  -- of what follows the first comma, the second name is what stands before the next one
  have hread : ∀ tail, sourceCall (Call.plain ⟨.source, (PlainCall.source s t).argument ++ tail⟩) =
      .ok ⟨s.text, String.ofList (Text.trimList
        (((' ' :: (t.chars ++ unquoted tail)).rdropWhile Text.isBlank).takeWhile (· ≠ ',')))⟩ := by
    intro tail
    obtain ⟨more, hmore⟩ := Text.splitList_eq_takeWhile ','
      ((' ' :: (t.chars ++ unquoted tail)).rdropWhile Text.isBlank)
    rw [hplain, sourceCall, Text.splitList_append, Text.splitList_of_not_mem (hcomma s), hmore]
    dsimp only [List.cons_append, List.nil_append]
    rw [Text.trimList_of_no_blank fun c => s.isBlank_of_mem]
    rfl
  refine ⟨?_, fun more => ⟨_, ?_, hread _⟩⟩
  · have halone := hread []
    rw [List.append_nil] at halone
    rw [halone]
    show Except.ok (SourceCall.mk s.text (String.ofList (Text.trimList
      (((' ' :: (t.chars ++ [])).rdropWhile Text.isBlank).takeWhile (· ≠ ','))))) = _
    rw [List.append_nil, Text.trimList_behind_blank (fun c => t.isBlank_of_mem) (hcomma t)]
    rfl
  · rw [String.toList_ofList]
    refine Text.mem_trimList (by decide) ?_
    -- the closing of the call stands before the next comma
    have hclosing : (' ' :: (t.chars ++ unquoted (PlainCall.closing ++ more))) =
        (' ' :: t.chars ++ [')', ' ', '\x7d']) ++ '\x7d' :: unquoted more := by
      rw [unquoted_append]
      show ' ' :: (t.chars ++ ([')', ' ', '\x7d', '\x7d'] ++ unquoted more)) = _
      simp
    rw [hclosing, Text.rdropWhile_append_cons (by decide), List.takeWhile_append_of_pos]
    · exact List.mem_append_left _ (by simp)
    · intro d hd
      rcases List.mem_append.mp hd with hd | hd
      · rcases List.mem_cons.mp hd with rfl | hd
        · decide
        · exact decide_eq_true fun h => hcomma t (h ▸ hd)
      · have hall : ∀ d ∈ [')', ' ', '\x7d'], decide (d ≠ ',') = true := by simp
        exact hall d hd

/-! ### Names, each once -/

/-- What a call names. -/
inductive Called where
  | model (name : String)
  | table (call : SourceCall)

def nameOf (call : Call) : Except Fault Called :=
  match call.callee with
  | .ref => .ok (.model (String.ofList call.plain))
  | .source => (sourceCall call.plain).map .table

def Mentions.note (m : Mentions) : Called → Mentions
  | .model name => if m.models.contains name then m else { m with models := m.models ++ [name] }
  | .table call => { m with sources := m.sources.put call.pair call }

theorem Mentions.add_eq (m : Mentions) (call : Call) : m.add call = (nameOf call).map m.note := by
  rw [add, nameOf]
  cases call.callee with
  | ref => rfl
  | source =>
    dsimp only
    cases sourceCall call.plain <;> rfl

def SourceCall.Alike (c d : SourceCall) : Prop :=
  (c.source = d.source ∧ c.table = d.table) ∨ (c.source = d.table ∧ c.table = d.source)

theorem SourceCall.Alike.symm {c d : SourceCall} (h : c.Alike d) : d.Alike c := by
  rcases h with ⟨h₁, h₂⟩ | ⟨h₁, h₂⟩
  · exact .inl ⟨h₁.symm, h₂.symm⟩
  · exact .inr ⟨h₂.symm, h₁.symm⟩

theorem SourceCall.Alike.trans {c d e : SourceCall} (h : c.Alike d) (h' : d.Alike e) :
    c.Alike e := by
  unfold SourceCall.Alike at *
  grind

theorem same_pair_iff (c d : SourceCall) : c.pair.same d.pair = true ↔ c.Alike d := by
  have hmembers : ∀ e : SourceCall, e.pair.members = textSet [e.source, e.table] := fun _ => rfl
  rw [NamePair.same, Bool.and_eq_true, hmembers, hmembers, isSubset_textSet_iff,
    isSubset_textSet_iff]
  simp only [List.not_mem_nil, mem_textSet, List.mem_cons, or_false, Scalar.str.injEq,
    exists_eq_right', forall_eq_or_imp, forall_eq, SourceCall.Alike]
  grind

theorem put_cases {α : Type} (pair : NamePair) (x : α) : ∀ m : ByPair α,
    ((∀ e ∈ m, e.1.same pair = false) ∧ m.put pair x = m ++ [(pair, x)]) ∨
      ∃ before e after, m = before ++ e :: after ∧ e.1.same pair = true ∧
        m.put pair x = before ++ (e.1, x) :: after := by
  intro m
  induction m with
  | nil => exact .inl ⟨fun e he => (nomatch he), rfl⟩
  | cons e m ih =>
    rw [ByPair.put]
    cases he : e.1.same pair with
    | true => exact .inr ⟨[], e, m, rfl, he, rfl⟩
    | false =>
      rcases ih with ⟨hnone, hput⟩ | ⟨before, e', after, hm, hsame, hput⟩
      · exact .inl ⟨List.forall_mem_cons.mpr ⟨he, hnone⟩, by rw [hput]; rfl⟩
      · exact .inr ⟨e :: before, e', after, by rw [hm]; rfl, hsame, by rw [hput]; rfl⟩

/-- The source tables are those called, of which tables that are alike stand under one key. -/
structure Keyed (tables : List SourceCall) (sources : ByPair SourceCall) : Prop where
  key : ∀ e ∈ sources, ∃ k : SourceCall, e.1 = k.pair ∧ k.Alike e.2
  called : ∀ e ∈ sources, e.2 ∈ tables
  every : ∀ c ∈ tables, ∃ e ∈ sources, e.2.Alike c
  once : sources.Pairwise fun e f => ¬ e.2.Alike f.2

namespace Keyed

variable {tables : List SourceCall}

/-- A table that is like none of the others gets an entry of its own. -/
theorem append {sources : ByPair SourceCall} (h : Keyed tables sources) {c : SourceCall}
    (hnone : ∀ e ∈ sources, e.1.same c.pair = false) :
    Keyed (tables ++ [c]) (sources ++ [(c.pair, c)]) := by
  have hself : c.Alike c := .inl ⟨rfl, rfl⟩
  refine ⟨?_, ?_, ?_, List.pairwise_append.mpr ⟨h.once, List.pairwise_singleton _ _, ?_⟩⟩
  · intro f hf
    rcases List.mem_append.mp hf with hf | hf
    · exact h.key f hf
    · rw [List.mem_singleton.mp hf]
      exact ⟨c, rfl, hself⟩
  · intro f hf
    rcases List.mem_append.mp hf with hf | hf
    · exact List.mem_append_left _ (h.called f hf)
    · rw [List.mem_singleton.mp hf]
      exact List.mem_append_right _ List.mem_cons_self
  · intro d hd
    rcases List.mem_append.mp hd with hd | hd
    · obtain ⟨f, hf, halike⟩ := h.every d hd
      exact ⟨f, List.mem_append_left _ hf, halike⟩
    · rw [List.mem_singleton.mp hd]
      exact ⟨(c.pair, c), List.mem_append_right _ List.mem_cons_self, hself⟩
  · intro f hf f' hf' halike
    rw [List.mem_singleton.mp hf'] at halike
    obtain ⟨k, hk, hkf⟩ := h.key f hf
    have hfalse := hnone f hf
    rw [hk, (same_pair_iff k c).mpr (hkf.trans halike)] at hfalse
    cases hfalse

/-- A table that is like another takes its place. -/
theorem replace {before after : ByPair SourceCall} {e : NamePair × SourceCall}
    (h : Keyed tables (before ++ e :: after)) {c : SourceCall} (hsame : e.1.same c.pair = true) :
    Keyed (tables ++ [c]) (before ++ (e.1, c) :: after) := by
  obtain ⟨k, hk, hke⟩ := h.key e (by simp)
  have hkc : k.Alike c := (same_pair_iff k c).mp (hk ▸ hsame)
  have hce : c.Alike e.2 := hkc.symm.trans hke
  -- the entry in whose place the new one stands is alike, so it can stand for it everywhere
  have hold : ∀ f ∈ before ++ e :: after, f ∈ before ++ (e.1, c) :: after ∨ f = e := by
    intro f hf
    simp only [List.mem_append, List.mem_cons] at hf ⊢
    grind
  have hnew : ∀ f ∈ before ++ (e.1, c) :: after, f ∈ before ++ e :: after ∨ f = (e.1, c) := by
    intro f hf
    simp only [List.mem_append, List.mem_cons] at hf ⊢
    grind
  refine ⟨?_, ?_, ?_, ?_⟩
  · intro f hf
    rcases hnew f hf with hf | rfl
    · exact h.key f hf
    · exact ⟨k, hk, hkc⟩
  · intro f hf
    rcases hnew f hf with hf | rfl
    · exact List.mem_append_left _ (h.called f hf)
    · exact List.mem_append_right _ List.mem_cons_self
  · intro d hd
    rcases List.mem_append.mp hd with hd | hd
    · obtain ⟨f, hf, halike⟩ := h.every d hd
      rcases hold f hf with hf | rfl
      · exact ⟨f, hf, halike⟩
      · exact ⟨(f.1, c), by simp, hce.trans halike⟩
    · rw [List.mem_singleton.mp hd]
      exact ⟨(e.1, c), by simp, .inl ⟨rfl, rfl⟩⟩
  · have honce := h.once
    rw [List.pairwise_append, List.pairwise_cons] at honce ⊢
    obtain ⟨hbefore, ⟨he, hafter⟩, hacross⟩ := honce
    refine ⟨hbefore, ⟨fun f hf halike => he f hf (hce.symm.trans halike), hafter⟩,
      fun f hf f' hf' halike => ?_⟩
    rcases List.mem_cons.mp hf' with rfl | hf'
    · exact hacross f hf e List.mem_cons_self (halike.trans hce)
    · exact hacross f hf f' (List.mem_cons_of_mem e hf') halike

theorem put {sources : ByPair SourceCall} (h : Keyed tables sources) (c : SourceCall) :
    Keyed (tables ++ [c]) (sources.put c.pair c) := by
  rcases put_cases c.pair c sources with ⟨hnone, hput⟩ | ⟨before, e, after, rfl, hsame, hput⟩
  · rw [hput]
    exact h.append hnone
  · rw [hput]
    exact h.replace hsame

end Keyed

def Called.model? : Called → Option String
  | .model name => some name
  | .table _ => none

def Called.table? : Called → Option SourceCall
  | .model _ => none
  | .table call => some call

/-- **What is found is what is named**: the models, each once, and the source tables under their
pairs. -/
structure Lists (names : List Called) (found : Mentions) : Prop where
  models : ∀ name, name ∈ found.models ↔ name ∈ names.filterMap Called.model?
  once : found.models.Nodup
  tables : Keyed (names.filterMap Called.table?) found.sources

theorem Lists.empty : Lists [] .empty :=
  ⟨fun _ => Iff.rfl, List.nodup_nil,
    ⟨fun _ he => (nomatch he), fun _ he => (nomatch he), fun _ hc => (nomatch hc), .nil⟩⟩

variable {names : List Called} {found : Mentions}

theorem Lists.note {m : Mentions} (h : Lists names m) (n : Called) :
    Lists (names ++ [n]) (m.note n) := by
  cases n with
  | model name =>
    have htables : (names ++ [Called.model name]).filterMap Called.table? =
        names.filterMap Called.table? := by
      rw [List.filterMap_append]
      exact List.append_nil _
    have hmodels : (names ++ [Called.model name]).filterMap Called.model? =
        names.filterMap Called.model? ++ [name] := by
      rw [List.filterMap_append]
      rfl
    rw [Mentions.note]
    cases hold : m.models.contains name with
    | true =>
      refine ⟨fun x => ?_, h.once, htables ▸ h.tables⟩
      have hmem := (h.models name).mp (List.contains_iff_mem.mp hold)
      rw [hmodels, if_pos rfl, h.models x, List.mem_append, List.mem_singleton]
      exact ⟨.inl, fun hx => hx.elim id fun heq => heq ▸ hmem⟩
    | false =>
      have hnot : name ∉ m.models := fun hmem => by
        rw [List.contains_iff_mem.mpr hmem] at hold
        cases hold
      refine ⟨fun x => ?_, ?_, htables ▸ h.tables⟩
      · rw [hmodels, List.mem_append, ← h.models x]
        exact List.mem_append
      · show (m.models ++ [name]).Nodup
        refine List.nodup_append.mpr ⟨h.once, List.nodup_singleton name, fun a ha b hb => ?_⟩
        rw [List.mem_singleton.mp hb]
        exact fun heq => hnot (heq ▸ ha)
  | table call =>
    have htables : (names ++ [Called.table call]).filterMap Called.table? =
        names.filterMap Called.table? ++ [call] := by
      rw [List.filterMap_append]
      rfl
    have hmodels : (names ++ [Called.table call]).filterMap Called.model? =
        names.filterMap Called.model? := by
      rw [List.filterMap_append]
      exact List.append_nil _
    exact ⟨fun x => by rw [hmodels]; exact h.models x, h.once, htables ▸ h.tables.put call⟩

theorem lists_foldlM {calls : List Call} {m : Mentions} {before : List Called} (h : Lists before m)
    (hnames : calls.mapM nameOf = .ok names) :
    ∃ found, calls.foldlM Mentions.add m = .ok found ∧ Lists (before ++ names) found := by
  induction calls generalizing m before names with
  | nil =>
    cases hnames
    exact ⟨m, rfl, (List.append_nil before).symm ▸ h⟩
  | cons call calls ih =>
    obtain ⟨n, rest, hn, hrest, rfl⟩ := mapM_cons_eq_ok_iff.mp hnames
    obtain ⟨found, hfold, hlists⟩ := ih (h.note n) hrest
    refine ⟨found, ?_, by rwa [List.append_assoc] at hlists⟩
    rw [List.foldlM_cons, Mentions.add_eq, hn]
    exact hfold

/-! ### A script on its own -/

def ofPlain : PlainCall → Called
  | .ref m => .model m.text
  | .source s t => .table ⟨s.text, t.text⟩

def Called.Braced : Called → Prop
  | .model name => '\x7d' ∈ name.toList
  | .table call => '\x7d' ∈ call.table.toList

theorem nameOf_alone (p : PlainCall) : nameOf ⟨p.callee, p.argument⟩ = .ok (ofPlain p) := by
  cases p with
  | ref m =>
    show Except.ok
      (Called.model (String.ofList (Call.plain ⟨.ref, (PlainCall.ref m).argument⟩))) = _
    rw [(model_plain m).1]
    rfl
  | source s t =>
    show (sourceCall (Call.plain ⟨.source, (PlainCall.source s t).argument⟩)).map Called.table = _
    rw [(sourceCall_plain s t).1]
    rfl

theorem nameOf_more (p : PlainCall) (more : List Char) :
    ∃ c, nameOf ⟨p.callee, p.argument ++ (PlainCall.closing ++ more)⟩ = .ok c ∧ c.Braced := by
  cases p with
  | ref m =>
    refine ⟨_, rfl, ?_⟩
    show '\x7d' ∈ (String.ofList _).toList
    rw [String.toList_ofList]
    exact (model_plain m).2 more
  | source s t =>
    obtain ⟨table, hbrace, hcall⟩ := (sourceCall_plain s t).2 more
    refine ⟨.table ⟨s.text, table⟩, ?_, hbrace⟩
    show (sourceCall (Call.plain ⟨.source, (PlainCall.source s t).argument ++ _⟩)).map
        Called.table = _
    rw [hcall]
    rfl

/-- What is listed as the names of plain calls has no braces. -/
theorem not_braced_of_lists {calls : List PlainCall} (hplain : Lists (calls.map ofPlain) found)
    (h : Lists names found) {c : Called} (hc : c ∈ names) : ¬ c.Braced := by
  cases c with
  | model name =>
    have hmem := (h.models name).mpr (List.mem_filterMap.mpr ⟨_, hc, rfl⟩)
    obtain ⟨d, hd, hname⟩ := List.mem_filterMap.mp ((hplain.models name).mp hmem)
    obtain ⟨p, -, rfl⟩ := List.mem_map.mp hd
    cases p with
    | ref m =>
      cases hname
      exact m.brace_not_mem
    | source s t => cases hname
  | table call =>
    obtain ⟨e, he, halike⟩ := h.tables.every call (List.mem_filterMap.mpr ⟨_, hc, rfl⟩)
    obtain ⟨d, hd, htable⟩ := List.mem_filterMap.mp (hplain.tables.called e he)
    obtain ⟨p, -, rfl⟩ := List.mem_map.mp hd
    cases p with
    | ref m => cases htable
    | source s t =>
      have heq : e.2 = ⟨s.text, t.text⟩ := (Option.some.inj htable).symm
      rw [heq] at halike
      intro hbrace
      rcases halike with ⟨-, h⟩ | ⟨h, -⟩
      · change t.text = call.table at h
        exact t.brace_not_mem (h ▸ hbrace)
      · change s.text = call.table at h
        exact s.brace_not_mem (h ▸ hbrace)

theorem mapM_nameOf_gather (pieces : List Piece) :
    ∃ names, (gather pieces).mapM nameOf = .ok names := by
  refine exists_mapM_eq_ok fun call hcall => ?_
  obtain ⟨p, tail, -, rfl, rfl | ⟨more, rfl⟩⟩ := startsIn_of_mem_gather _ hcall
  · exact ⟨_, by rw [List.append_nil]; exact nameOf_alone p⟩
  · obtain ⟨c, hc, -⟩ := nameOf_more p more
    exact ⟨c, hc⟩

/-- What the calls of a script name. -/
def named (l : Layout) : List Called := (l.pieces.map (·.1)).map ofPlain

theorem mapM_nameOf_of_onePerLine {l : Layout} (hline : l.OnePerLine) :
    (gather (l.pieces.map Piece.unified)).mapM nameOf = .ok (named l) := by
  have hbreaks : ∀ piece ∈ (l.pieces.map Piece.unified).dropLast, '\n' ∈ piece.2.chars := by
    intro piece hpiece
    rw [← List.map_dropLast] at hpiece
    obtain ⟨p, hp, rfl⟩ := List.mem_map.mp hpiece
    exact (Fragment.breaks_iff _).mp (hline p hp)
  rw [gather_of_breaks _ hbreaks, List.map_map, List.mapM_map]
  rw [mapM_eq_ok_map fun piece _ => nameOf_alone piece.1]
  rw [named, List.map_map]
  rfl

/-- **The calls of a script are noted with the names that are written just if no two stand on one
line.** -/
theorem lists_named_iff (l : Layout)
    (hnames : (gather (l.pieces.map Piece.unified)).mapM nameOf = .ok names)
    (h : Lists names found) : Lists (named l) found ↔ l.OnePerLine := by
  constructor
  · intro hplain
    by_contra hline
    simp only [Layout.OnePerLine, not_forall] at hline
    obtain ⟨piece, hpiece, hno⟩ := hline
    -- two calls on one line are found as one with a brace in its names
    have hdrop : piece.unified ∈ (l.pieces.map Piece.unified).dropLast := by
      rw [← List.map_dropLast]
      exact List.mem_map_of_mem hpiece
    obtain ⟨p, more, -, hcall⟩ := exists_mem_gather _ ⟨_, hdrop, fun hn =>
      hno ((Fragment.breaks_iff _).mpr hn)⟩
    obtain ⟨c, hc, hname⟩ := ok_of_mapM hnames _ hcall
    obtain ⟨d, hd, hbraced⟩ := nameOf_more p more
    obtain rfl : c = d := Except.ok.inj (hname.symm.trans hd)
    exact not_braced_of_lists hplain h hc hbraced
  · intro hline
    rw [← Except.ok.inj (hnames.symm.trans (mapM_nameOf_of_onePerLine hline))]
    exact h

theorem missing_of_bare {manifest : Value} (hnodes : sectionNodes manifest "nodes" = .ok [])
    (hsources : sectionNodes manifest "sources" = .ok []) {t : Tree} {paths : List String}
    (h : mentions t paths = .ok found) : missing t manifest paths = .ok found := by
  have hmodels : unlistedModels manifest found.models = .ok found.models := by
    rw [unlistedModels, hnodes]
    split
    · rename_i hempty
      rw [List.isEmpty_iff.mp hempty]
      rfl
    · show Except.ok (found.models.filter fun _ => true) = _
      rw [List.filter_true]
  have hsources : unlistedSources manifest found.sources = .ok found.sources := by
    rw [unlistedSources, hsources]
    split
    · rename_i hempty
      rw [List.isEmpty_iff.mp hempty]
      rfl
    · rfl
  rw [missing, h, ok_bind, hmodels, ok_bind, hsources]
  rfl

theorem mentions_layout (l : Layout) {t : Tree} {path : String} {place : List String}
    (hpath : (Path.ofString path).suffix = ".sql")
    (hfile : t.follow (Path.ofString path).text = .file place l.text.toUTF8) :
    mentions t [path] = (gather (l.pieces.map Piece.unified)).foldlM Mentions.add .empty := by
  have hread : t.readText (Path.ofString path).text = .ok (Text.unifyNewlines l.text) := by
    rw [Tree.readText, Tree.readBytes, hfile]
    simp only [Text.decode_toUTF8]
  have hfiles : (scriptFiles [path]).files = [Path.ofString path] := by
    have hsuffix : FileMap.hasSuffix scriptSuffixes (Path.ofString path) = true := by
      rw [FileMap.hasSuffix, hpath]
      decide
    rw [scriptFiles, FileMap.ofPaths, List.map_cons, List.map_nil, List.foldl_cons, List.foldl_nil,
      FileMap.add, if_pos hsuffix, FileMap.put, FileMap.files, List.map_cons, List.map_nil]
  rw [mentions, hfiles, List.foldlM_cons, Mentions.addFile, hread, ok_bind, calls_layout]
  exact bind_pure _

theorem isEmpty_missingLines (h : Lists names found) :
    (missingLines found).isEmpty = names.isEmpty := by
  have hlines : (missingLines found).isEmpty = (found.sources.isEmpty && found.models.isEmpty) := by
    rw [Bool.eq_iff_iff, missingLines, List.isEmpty_iff, List.append_eq_nil_iff,
      List.map_eq_nil_iff, List.map_eq_nil_iff, Bool.and_eq_true, List.isEmpty_iff,
        List.isEmpty_iff]
  rw [hlines]
  cases names with
  | nil =>
    have hmodels : found.models = [] :=
      List.eq_nil_iff_forall_not_mem.mpr fun name hname => nomatch (h.models name).mp hname
    have hsources : found.sources = [] :=
      List.eq_nil_iff_forall_not_mem.mpr fun e he => nomatch h.tables.called e he
    rw [hmodels, hsources]
    rfl
  | cons c names =>
    rw [List.isEmpty_cons, Bool.and_eq_false_iff, List.isEmpty_eq_false_iff_exists_mem,
      List.isEmpty_eq_false_iff_exists_mem]
    cases c with
    | model name => exact .inr ⟨name, (h.models name).mpr List.mem_cons_self⟩
    | table call =>
      obtain ⟨e, he, -⟩ := h.tables.every call List.mem_cons_self
      exact .inl ⟨e, he⟩

theorem isEmpty_names {pieces : List Piece} (h : (gather pieces).mapM nameOf = .ok names) :
    names.isEmpty = pieces.isEmpty := by
  cases pieces with
  | nil =>
    cases h
    rfl
  | cons piece rest =>
    obtain ⟨call, hcall⟩ := List.exists_mem_of_ne_nil _ (gather_ne_nil piece rest)
    obtain ⟨c, hc, -⟩ := ok_of_mapM h call hcall
    exact List.isEmpty_eq_false_iff_exists_mem.mpr ⟨c, hc⟩

/-- **What is missing in a manifest without nodes and sources.** The report on a script lists what
its calls name, and nothing else, just if there is a line end between any two of them.  A script
with any call is complained about. -/
theorem missing_faithful_iff (l : Layout) {t : Tree} {manifest : Value} {path : String}
    {place : List String} (hnodes : sectionNodes manifest "nodes" = .ok [])
    (hsources : sectionNodes manifest "sources" = .ok [])
    (hpath : (Path.ofString path).suffix = ".sql")
    (hfile : t.follow (Path.ofString path).text = .file place l.text.toUTF8) :
    ∃ found, missing t manifest [path] = .ok found ∧
      (checkCalls t manifest [path]).report =
        ⟨missingLines found, .ok (if l.pieces.isEmpty then 0 else 1)⟩ ∧
      (Lists (named l) found ↔ l.OnePerLine) := by
  obtain ⟨names, hnames⟩ := mapM_nameOf_gather (l.pieces.map Piece.unified)
  obtain ⟨found, hfold, hlists⟩ := lists_foldlM .empty hnames
  rw [List.nil_append] at hlists
  have hmissing := missing_of_bare hnodes hsources ((mentions_layout l hpath hfile).trans hfold)
  refine ⟨found, hmissing, ?_, lists_named_iff l hnames hlists⟩
  have hempty : (missingLines found).isEmpty = l.pieces.isEmpty := by
    rw [isEmpty_missingLines hlists, isEmpty_names hnames, List.isEmpty_map]
  rw [checkCalls, hmissing, ← hempty]
  rfl

/-! ### Two calls -/

def nameA : PlainName := ⟨['a'], List.forall_mem_singleton.mpr (by decide)⟩

def nameB : PlainName := ⟨['b'], List.forall_mem_singleton.mpr (by decide)⟩

def twoCalls (between : Fragment) : Layout :=
  ⟨⟨[], fun _ h => (nomatch h)⟩,
    [(.ref nameA, between), (.source nameB nameA, ⟨[], fun _ h => (nomatch h)⟩)]⟩

def bareManifest : Value := .map []

def lone (l : Layout) : Tree := ⟨[(["m.sql"], .file l.text.toUTF8)]⟩

/-- Calls on two lines are listed as they are. -/
theorem missing_twoLines :
    let l := twoCalls ⟨['\n'], List.forall_mem_singleton.mpr (by decide)⟩
    l.OnePerLine ∧ ∃ found, missing (lone l) bareManifest ["m.sql"] = .ok found ∧
      (checkCalls (lone l) bareManifest ["m.sql"]).report = ⟨missingLines found, .ok 1⟩ ∧
      Lists (named l) found := by
  intro l
  have honce : l.OnePerLine := by
    intro piece hpiece
    rw [List.mem_singleton.mp hpiece]
    exact .inl List.mem_cons_self
  obtain ⟨found, hfound, hreport, hlists⟩ :=
    @missing_faithful_iff l (lone l) bareManifest "m.sql" ["m.sql"] rfl rfl (by decide +kernel) rfl
  exact ⟨honce, found, hfound, hreport, hlists.mpr honce⟩

/-- Two calls on one line are found as one. -/
theorem missing_oneLine :
    let l := twoCalls ⟨[' '], List.forall_mem_singleton.mpr (by decide)⟩
    let found : Mentions := ⟨["a) \x7d\x7d \x7b\x7b source(b, a"], []⟩
    missing (lone l) bareManifest ["m.sql"] = .ok found ∧ ¬ Lists (named l) found := by
  intro l found
  have hmentions : mentions (lone l) ["m.sql"] = .ok found := by
    rw [@mentions_layout l (lone l) "m.sql" ["m.sql"] (by decide +kernel) rfl]
    rfl
  refine ⟨missing_of_bare rfl rfl hmentions, fun h => ?_⟩
  have hmem : "a" ∈ found.models := (h.models "a").mpr List.mem_cons_self
  exact absurd hmem (by decide)

end Scripts

end ProjectLint
