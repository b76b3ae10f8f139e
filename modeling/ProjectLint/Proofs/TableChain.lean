import Mathlib.Data.List.Induction
import Mathlib.Data.List.Nodup
import ProjectLint.Fixes.Tables
import ProjectLint.Proofs.FileMaps
import ProjectLint.Proofs.Outcomes
import ProjectLint.Proofs.Texts

/-!
# The chain of stages that find calls for tables

The tables of a script go through three stages that share one set: the nodes of the manifest take
tables by their aliases, the sources take what they cover, and what is left gets a made-up source if
it has a dot.  `chain` is what the three hand on together, and `outcome_substituted` ties it to the
script that is rewritten.

Each stage is described by the tables that it singles out.  Of all tables with one last part a node
takes the last (`takenByAlias`), and a source takes the last of the tables that it covers, where it
looks at all tables that the nodes left, also at those that an earlier source has taken (`picks`).
So the chain breaks off exactly when an alias or a name is a collection, or when two sources single
out one table, and it passes over a table that is named by an alias or covered by a source if
another one is always singled out in its place.
-/

namespace ProjectLint.TableNames

/-- The tables that a feed has calls for. -/
def tablesOf (f : Feed Substitution) : List String := f.items.map (·.table)

/-- What the three stages find, one after another. -/
def chain (manifest : Value) (tables : List String) : Feed Substitution :=
  let known := sources manifest (refs manifest tables).left
  (refs manifest tables).found ++
    (known.found ++ Feed.ofList (known.left.filterMap fun t => (unknown t).2))

/-! ### The chain and the script -/

theorem substituteAll_append (f g : Feed Substitution) (script : String) :
    substituteAll (f ++ g) script = substituteAll f script >>= substituteAll g := by
  cases hs : f.stop with
  | some fault =>
    have : f ++ g = f := by
      change Feed.append f g = f
      rw [Feed.append, hs]
    rw [this, substituteAll, hs, bind_assoc]
    rfl
  | none =>
    have : f ++ g = ⟨f.items ++ g.items, g.stop⟩ := by
      change Feed.append f g = _
      rw [Feed.append, hs]
    rw [this]
    simp only [substituteAll, hs, List.foldlM_append, bind_assoc]
    rfl

theorem outcome_substituteUnknown (script table : String) (t : Tree) :
    ((substituteUnknown script table).run t).outcome =
      (match (unknown table).2 with
        | none => .ok script
        | some s => substitute script s) ∧ ((substituteUnknown script table).run t).tree = t := by
  rw [substituteUnknown]
  cases hu : (unknown table).2 with
  | none => exact ⟨by simp [Edit.outcome_bind, hu], by simp [Edit.run_bind_ok, hu]⟩
  | some s => exact ⟨by simp [Edit.outcome_bind, hu], by simp [Edit.run_bind_ok, hu]⟩

theorem outcome_foldl_substituteUnknown : ∀ (left : List String) (script : String) (t : Tree),
    ((Edit.foldl substituteUnknown script left).run t).outcome =
      substituteAll (.ofList (left.filterMap fun t => (unknown t).2)) script := by
  intro left
  induction left with
  | nil => intro script t; rfl
  | cons table rest ih =>
    intro script t
    obtain ⟨houtcome, htree⟩ := outcome_substituteUnknown script table t
    rw [Edit.run_foldl_cons, Edit.outcome_bind, houtcome, htree]
    cases hu : (unknown table).2 with
    | none => simp [hu, ih]
    | some s => simp [hu, ih, substituteAll, Feed.ofList]

/-- **The rewritten script is the one that the chain makes.** -/
theorem outcome_substituted (manifest : Value) (tables : List String) (script : String) (t : Tree) :
    ((substituted manifest tables script).run t).outcome =
      substituteAll (chain manifest tables) script := by
  rw [substituted, chain, substituteAll_append, Edit.outcome_bind]
  simp only [Edit.run_ofExcept, Edit.outcome_bind, outcome_foldl_substituteUnknown]
  refine congrArg _ (funext fun script => ?_)
  rw [substituteAll_append]

theorem tree_substituted (manifest : Value) (tables : List String) (script : String) (t : Tree) :
    ((substituted manifest tables script).run t).tree = t := by
  have hfold : ∀ (left : List String) (script : String),
      ((Edit.foldl substituteUnknown script left).run t).tree = t := by
    intro left
    induction left with
    | nil => intro script; rfl
    | cons table rest ih =>
      intro script
      have htree := (outcome_substituteUnknown script table t).2
      rw [Edit.run_foldl_cons, Edit.tree_bind, htree]
      cases ((substituteUnknown script table).run t).outcome with
      | error f => rfl
      | ok script => exact ih script
  rw [substituted, Edit.tree_bind, Edit.run_ofExcept]
  cases substituteAll (refs manifest tables).found script with
  | error f => rfl
  | ok script =>
    dsimp only
    rw [Edit.tree_bind, Edit.run_ofExcept]
    cases substituteAll (sources manifest (refs manifest tables).left).found script with
    | error f => rfl
    | ok script => exact hfold _ script

/-! ### Tables under their last part -/

def lastName (table : String) : String := lastPart (idParts table)

def putLast (m : List (String × String)) (table : String) : List (String × String) :=
  if m.any fun e => e.1 == lastName table then
    m.map fun e => if e.1 == lastName table then (lastName table, table) else e
  else m ++ [(lastName table, table)]

theorem byLastPart_append (tables : List String) (table : String) :
    byLastPart (tables ++ [table]) = putLast (byLastPart tables) table := by
  rw [byLastPart, List.foldl_append]
  rfl

variable {left : List String} {node : Value} {t : String} {id : Scalar} {rest : Entries}
    {names : List (String × String)} {s : Stage} {e : String × String}

theorem mem_putLast {m : List (String × String)} {table : String} :
    e ∈ putLast m table ↔ (e.1 = lastName table ∧ e.2 = table) ∨
      (e.1 ≠ lastName table ∧ e ∈ m) := by
  obtain ⟨n, t⟩ := e
  rw [putLast]
  by_cases hany : m.any (fun e => e.1 == lastName table) = true
  · rw [if_pos hany, List.mem_map]
    obtain ⟨e, he, hn⟩ := List.any_eq_true.mp hany
    constructor
    · rintro ⟨f, hf, hft⟩
      by_cases h : f.1 = lastName table
      · rw [if_pos (by simpa using h)] at hft
        cases hft
        exact Or.inl ⟨rfl, rfl⟩
      · rw [if_neg (by simpa using h)] at hft
        subst hft
        exact Or.inr ⟨h, hf⟩
    · rintro (⟨h, ht⟩ | ⟨h, hm⟩)
      · exact ⟨e, he, by rw [if_pos hn, ← h, ← ht]⟩
      · exact ⟨(n, t), hm, by rw [if_neg (by simpa using h)]⟩
  · rw [if_neg hany, List.mem_append, List.mem_singleton]
    have hnone : ∀ e ∈ m, e.1 ≠ lastName table := by
      intro e he h
      exact hany (List.any_eq_true.mpr ⟨e, he, by simpa using h⟩)
    constructor
    · rintro (hm | h)
      · exact Or.inr ⟨hnone _ hm, hm⟩
      · cases h
        exact Or.inl ⟨rfl, rfl⟩
    · rintro (⟨h, ht⟩ | ⟨-, hm⟩)
      · exact Or.inr (Prod.ext h ht)
      · exact Or.inl hm

theorem nodup_putLast {m : List (String × String)} (table : String) (h : (m.map (·.1)).Nodup) :
    ((putLast m table).map (·.1)).Nodup := by
  rw [putLast]
  by_cases hany : m.any (fun e => e.1 == lastName table) = true
  · rw [if_pos hany, List.map_map]
    have hfst : (Prod.fst ∘ fun e : String × String =>
        if e.1 == lastName table then (lastName table, table) else e) = Prod.fst := by
      funext e
      by_cases he : e.1 = lastName table
      · simp [he]
      · simp [he]
    rwa [hfst]
  · rw [if_neg hany, List.map_append, List.nodup_append]
    refine ⟨h, by simp, ?_⟩
    intro a ha b hb
    obtain ⟨e, he, rfl⟩ := List.mem_map.mp ha
    simp only [List.map_cons, List.map_nil, List.mem_singleton] at hb
    subst hb
    intro hn
    exact hany (List.any_eq_true.mpr ⟨e, he, by simpa using hn⟩)

theorem nodup_byLastPart (tables : List String) : ((byLastPart tables).map (·.1)).Nodup := by
  induction tables using List.reverseRecOn with
  | nil => simp [byLastPart]
  | append_singleton tables table ih =>
    rw [byLastPart_append]
    exact nodup_putLast table ih

variable {tables : List String} {nodes srcs : Entries} {name : String} {f : Fault}

/-- **Of the tables with one last part the last one stands under it.** -/
theorem mem_byLastPart : e ∈ byLastPart tables ↔
    (tables.filter fun t => lastName t == e.1).getLast? = some e.2 := by
  induction tables using List.reverseRecOn with
  | nil => simp [byLastPart]
  | append_singleton tables table ih =>
    rw [byLastPart_append, mem_putLast, List.filter_append]
    by_cases h : e.1 = lastName table
    · rw [List.filter_cons_of_pos (by simpa using h.symm), List.getLast?_append]
      simp [h, eq_comm]
    · rw [List.filter_cons_of_neg (by simpa using Ne.symm h), List.filter_nil, List.append_nil,
        ← ih]
      simp [h]

theorem lastName_of_mem_byLastPart (h : e ∈ byLastPart tables) :
    lastName e.2 = e.1 ∧ e.2 ∈ tables := by
  have := List.mem_of_getLast? (mem_byLastPart.mp h)
  rw [List.mem_filter] at this
  exact ⟨by simpa using this.2, this.1⟩

/-! ### Tables that nodes take -/

/-- The alias of a node, which may be any scalar. -/
def aliasOf (node : Value) : Except Fault Scalar := node.field "alias" >>= Value.key?

/-- Has some node the text for its alias? -/
def isAlias (nodes : Entries) (name : String) : Bool :=
  nodes.any fun e =>
    match aliasOf e.2 with
    | .ok a => a.same (.str name)
    | .error _ => false

theorem isAlias_iff : isAlias nodes name = true ↔ ∃ e ∈ nodes, aliasOf e.2 = .ok (.str name) := by
  rw [isAlias, List.any_eq_true]
  refine exists_congr fun e => and_congr_right fun _ => ?_
  cases aliasOf e.2 with
  | error f => simp
  | ok a => simp [Scalar.same_str_iff]

theorem isAlias_cons :
    isAlias ((id, node) :: rest) name = true ↔ aliasOf node = .ok (.str name) ∨
      isAlias rest name = true := by
  simp [isAlias_iff]

@[simp] theorem tablesOf_append_of_stop_none {f g : Feed Substitution} (h : f.stop = none) :
    tablesOf (f ++ g) = tablesOf f ++ tablesOf g ∧ (f ++ g).stop = g.stop := by
  have : f ++ g = ⟨f.items ++ g.items, g.stop⟩ := by
    change Feed.append f g = _
    rw [Feed.append, h]
  rw [this]
  exact ⟨List.map_append, rfl⟩

theorem append_of_stop_some {f g : Feed Substitution} (h : f.stop ≠ none) : f ++ g = f := by
  change Feed.append f g = _
  cases hs : f.stop with
  | none => exact absurd hs h
  | some fault => rw [Feed.append, hs]

/-- What is asked of the names that nodes can still take: each stands once, and its table is still
there. -/
structure Open (names : List (String × String)) (left : List String) : Prop where
  nodup_names : (names.map (·.1)).Nodup
  lastName_eq : ∀ e ∈ names, lastName e.2 = e.1
  mem_left : ∀ e ∈ names, e.2 ≠ "" → e.2 ∈ left

theorem Open.eq_of_mem (h : Open names left) {n u : String} (ht : (n, t) ∈ names)
    (hu : (n, u) ∈ names) : t = u := by
  have := List.inj_on_of_nodup_map h.nodup_names ht hu rfl
  exact (Prod.mk.inj this).2

theorem Open.take (h : Open names left) (n t : String) (hnt : (n, t) ∈ names) :
    Open (names.filter fun e => e.1 != n) (left.erase t) where
  nodup_names := (List.Sublist.map _ List.filter_sublist).nodup h.nodup_names
  lastName_eq := fun e he => h.lastName_eq e (List.mem_of_mem_filter he)
  mem_left := by
    intro e he hne
    obtain ⟨hm, hn⟩ := List.mem_filter.mp he
    refine (List.mem_erase_of_ne ?_).mpr (h.mem_left e hm hne)
    rintro rfl
    exact (by simpa using hn : e.1 ≠ n) ((h.lastName_eq e hm).symm.trans (h.lastName_eq _ hnt))

theorem Open.skip (h : Open names left) (n : String) :
    Open (names.filter fun e => e.1 != n) left where
  nodup_names := (List.Sublist.map _ List.filter_sublist).nodup h.nodup_names
  lastName_eq := fun e he => h.lastName_eq e (List.mem_of_mem_filter he)
  mem_left := fun e he hne => h.mem_left e (List.mem_of_mem_filter he) hne

/-- What the walk through the nodes finds and leaves. -/
structure RefsDone (names : List (String × String)) (left : List String) (nodes : Entries)
    (s : Stage) : Prop where
  stop_iff : s.found.stop = none ↔ ∀ e ∈ nodes, ∃ a, aliasOf e.2 = .ok a
  nodup : (tablesOf s.found).Nodup
  sound : ∀ t ∈ tablesOf s.found, t ≠ "" ∧ ∃ n, (n, t) ∈ names ∧ isAlias nodes n = true
  complete : s.found.stop = none → ∀ n t, (n, t) ∈ names → t ≠ "" → isAlias nodes n = true →
    t ∈ tablesOf s.found
  left_eq : s.left = left.filter fun t => t ∉ tablesOf s.found

theorem erase_filter_not_mem (hl : left.Nodup) (t : String) (ts : List String) :
    (left.erase t).filter (fun u => u ∉ ts) = left.filter fun u => u ∉ t :: ts := by
  rw [hl.erase_eq_filter, List.filter_filter]
  apply List.filter_congr
  intro u _
  by_cases h : u = t
  · simp [h]
  · simp [h]

theorem refsFrom_cons_error (h : aliasOf node = .error f) :
    refsFrom names left ((id, node) :: rest) = ⟨.broken f, left⟩ := by
  rw [aliasOf] at h
  rw [refsFrom, h]

theorem refsFrom_cons_ok {key : Scalar} (h : aliasOf node = .ok key) :
    refsFrom names left ((id, node) :: rest) =
      match names.find? fun e => key.same (.str e.1) with
      | none => refsFrom names left rest
      | some (name, table) =>
        let names := names.filter fun e => e.1 != name
        if table.isEmpty then refsFrom names left rest
        else
          let more := refsFrom names (left.erase table) rest
          ⟨⟨[⟨table, refCall name⟩], none⟩ ++ more.found, more.left⟩ := by
  rw [aliasOf] at h
  rw [refsFrom]
  split
  · rename_i hfault
    cases h.symm.trans hfault
  · rename_i hkey
    cases h.symm.trans hkey
    rfl

theorem RefsDone.pass {names' : List (String × String)} {key : Scalar}
    (halias : aliasOf node = .ok key)
    (hsub : ∀ e ∈ names', e ∈ names) (hrest : ∀ n t, (n, t) ∈ names → t ≠ "" → key ≠ .str n ∧
      (n, t) ∈ names')
    (h : RefsDone names' left rest s) : RefsDone names left ((id, node) :: rest) s where
  stop_iff := by rw [h.stop_iff]; simp [halias]
  nodup := h.nodup
  sound := by
    intro t ht
    obtain ⟨hne, n, hn, ha⟩ := h.sound t ht
    exact ⟨hne, n, hsub _ hn, isAlias_cons.mpr (Or.inr ha)⟩
  complete := by
    intro hs n t hn hne ha
    obtain ⟨hkey, hn'⟩ := hrest n t hn hne
    rcases isAlias_cons.mp ha with ha | ha
    · rw [halias] at ha
      exact absurd (Except.ok.inj ha) hkey
    · exact h.complete hs n t hn' hne ha
  left_eq := h.left_eq

/-- A node that takes a table adds it to the account. -/
theorem RefsDone.take {table : String} (ho : Open names left) (hl : left.Nodup)
    (halias : aliasOf node = .ok (.str name)) (hmem : (name, table) ∈ names) (hne : table ≠ "")
    (h : RefsDone (names.filter fun e => e.1 != name) (left.erase table) rest s) :
    RefsDone names left ((id, node) :: rest)
      ⟨⟨[⟨table, refCall name⟩], none⟩ ++ s.found, s.left⟩ := by
  obtain ⟨htables, hstop⟩ := tablesOf_append_of_stop_none (f := ⟨[⟨table, refCall name⟩], none⟩)
    (g := s.found) rfl
  have hnew : table ∉ tablesOf s.found := by
    intro ht
    obtain ⟨-, n, hn, -⟩ := h.sound table ht
    obtain ⟨hn, hne'⟩ := List.mem_filter.mp hn
    exact (by simpa using hne' : n ≠ name) ((ho.lastName_eq _ hn).symm.trans
      (ho.lastName_eq _ hmem))
  refine ⟨?_, ?_, ?_, ?_, ?_⟩
  · rw [hstop, h.stop_iff]
    simp [halias]
  · rw [htables]
    exact List.nodup_cons.mpr ⟨hnew, h.nodup⟩
  · rw [htables]
    intro t ht
    rcases List.mem_cons.mp ht with rfl | ht
    · exact ⟨hne, name, hmem, isAlias_cons.mpr (Or.inl halias)⟩
    · obtain ⟨hne, n, hn, ha⟩ := h.sound t ht
      exact ⟨hne, n, List.mem_of_mem_filter hn, isAlias_cons.mpr (Or.inr ha)⟩
  · rw [hstop, htables]
    intro hs n t hn hne' ha
    by_cases hnn : n = name
    · subst hnn
      rw [ho.eq_of_mem hn hmem]
      exact List.mem_cons_self
    · refine List.mem_cons_of_mem _ (h.complete hs n t
        (List.mem_filter.mpr ⟨hn, by simpa using hnn⟩) hne' ?_)
      rcases isAlias_cons.mp ha with ha | ha
      · rw [halias] at ha
        exact absurd (Scalar.str.inj (Except.ok.inj ha)).symm hnn
      · exact ha
  · rw [htables]
    exact h.left_eq.trans (erase_filter_not_mem hl table _)

/-- **The account of the walk through the nodes.** -/
theorem refsDone : ∀ (nodes : Entries) (names : List (String × String)) (left : List String),
    Open names left → left.Nodup → RefsDone names left nodes (refsFrom names left nodes) := by
  intro nodes
  induction nodes with
  | nil =>
    intro names left _ _
    exact ⟨by simp [refsFrom, Feed.empty], by simp [refsFrom, tablesOf, Feed.empty],
      by simp [refsFrom, tablesOf, Feed.empty], fun _ _ _ _ _ ha => by simp [isAlias] at ha,
      by simp [refsFrom, tablesOf, Feed.empty]⟩
  | cons head rest ih =>
    obtain ⟨id, node⟩ := head
    intro names left ho hl
    cases halias : aliasOf node with
    | error f =>
      rw [refsFrom_cons_error halias]
      refine ⟨⟨fun h => by simp [Feed.broken] at h, fun h => ?_⟩, by simp [tablesOf, Feed.broken],
        by simp [tablesOf, Feed.broken], fun h => by simp [Feed.broken] at h, by
        simp [tablesOf, Feed.broken]⟩
      obtain ⟨a, ha⟩ := h (id, node) List.mem_cons_self
      rw [halias] at ha
      cases ha
    | ok key =>
      rw [refsFrom_cons_ok halias]
      cases hfind : names.find? fun e => key.same (.str e.1) with
      | none =>
        refine RefsDone.pass halias (fun e he => he) (fun n t hn _ => ⟨?_, hn⟩)
          (ih names left ho hl)
        intro hkey
        exact List.find?_eq_none.mp hfind (n, t) hn ((Scalar.same_str_iff _ _).mpr hkey)
      | some e =>
        obtain ⟨name, table⟩ := e
        have hmem := List.mem_of_find?_eq_some hfind
        have hsame := List.find?_some hfind
        have hkey : key = .str name := (Scalar.same_str_iff _ _).mp (by simpa using hsame)
        subst hkey
        by_cases hempty : table.isEmpty = true
        · simp only [hempty, if_true]
          refine RefsDone.pass halias (fun e he => List.mem_of_mem_filter he) ?_
            (ih _ left (ho.skip name) hl)
          -- the only table under `name` is the empty one
          intro n t hn hne
          have hnn : n ≠ name := by
            rintro rfl
            exact hne ((ho.eq_of_mem hn hmem).trans (by simpa using hempty))
          exact ⟨fun h => hnn (Scalar.str.inj h).symm, List.mem_filter.mpr ⟨hn, by simpa using hnn⟩⟩
        · simp only [hempty]
          exact RefsDone.take ho hl halias hmem (by simpa using hempty)
            (ih _ _ (ho.take name table hmem) (hl.erase table))

/-- Is the table the last of those with its last part, and that part the alias of a node? -/
def takenByAlias (nodes : Entries) (tables : List String) (t : String) : Bool :=
  t != "" && isAlias nodes (lastName t) &&
    (tables.filter fun u => lastName u == lastName t).getLast? == some t

/-- The tables that no node takes. -/
def spared (nodes : Entries) (tables : List String) : List String :=
  tables.filter fun t => !takenByAlias nodes tables t

theorem takenByAlias_iff :
    takenByAlias nodes tables t = true ↔ t ≠ "" ∧ ∃ n, (n, t) ∈ byLastPart tables ∧
      isAlias nodes n = true := by
  rw [takenByAlias, Bool.and_eq_true, Bool.and_eq_true, bne_iff_ne, beq_iff_eq, and_assoc]
  refine and_congr_right fun _ => ?_
  constructor
  · rintro ⟨ha, hlast⟩
    exact ⟨lastName t, mem_byLastPart.mpr hlast, ha⟩
  · rintro ⟨n, hn, ha⟩
    have hname : lastName t = n := (lastName_of_mem_byLastPart hn).1
    rw [hname]
    exact ⟨ha, mem_byLastPart.mp hn⟩

theorem refsDone_refs {manifest : Value} (hl : tables.Nodup)
    (hnodes : sectionNodes manifest "nodes" = .ok nodes) :
    RefsDone (byLastPart tables) tables nodes (refs manifest tables) := by
  rw [refs, hnodes]
  refine refsDone nodes (byLastPart tables) tables ⟨nodup_byLastPart tables, ?_, ?_⟩ hl
  · exact fun e he => (lastName_of_mem_byLastPart he).1
  · exact fun e he _ => (lastName_of_mem_byLastPart he).2

theorem RefsDone.mem_tablesOf_iff (h : RefsDone (byLastPart tables) tables nodes s)
    (hs : s.found.stop = none) :
    t ∈ tablesOf s.found ↔ takenByAlias nodes tables t = true := by
  rw [takenByAlias_iff]
  constructor
  · exact h.sound t
  · rintro ⟨hne, n, hn, ha⟩
    exact h.complete hs n t hn hne ha

theorem RefsDone.left_eq_spared (h : RefsDone (byLastPart tables) tables nodes s)
    (hs : s.found.stop = none) :
    s.left = spared nodes tables := by
  rw [h.left_eq, spared]
  apply List.filter_congr
  intro t _
  simp [h.mem_tablesOf_iff hs]

/-! ### Tables that sources take -/

def pick (tables : List String) (node : Value) : Option String :=
  match sourceNames node with
  | .ok names => (coveredBy names tables).filter fun t => !t.isEmpty
  | .error _ => none

def picks (tables : List String) (srcs : Entries) : List String :=
  srcs.filterMap fun e => pick tables e.2

/-- What the walk through the sources finds and leaves. -/
structure SourcesDone (tables left : List String) (srcs : Entries) (s : Stage) : Prop where
  stop_iff : s.found.stop = none ↔ (∀ e ∈ srcs, ∃ names, sourceNames e.2 = .ok names) ∧
    (picks tables srcs).Nodup ∧ ∀ t ∈ picks tables srcs, t ∈ left
  nodup : (tablesOf s.found).Nodup
  mem_left : ∀ t ∈ tablesOf s.found, t ∈ left
  tables_eq : s.found.stop = none → tablesOf s.found = picks tables srcs
  left_eq : s.left = left.filter fun t => t ∉ tablesOf s.found

theorem SourcesDone.broken (h : (∀ e ∈ srcs, ∃ names, sourceNames e.2 = .ok names) →
    (picks tables srcs).Nodup → ¬ ∀ t ∈ picks tables srcs, t ∈ left) : SourcesDone tables left srcs
      ⟨.broken f, left⟩ where
  stop_iff := ⟨fun h => by simp [Feed.broken] at h, fun ⟨h1, h2, h3⟩ => absurd h3 (h h1 h2)⟩
  nodup := by simp [tablesOf, Feed.broken]
  mem_left := by simp [tablesOf, Feed.broken]
  tables_eq := fun h => by simp [Feed.broken] at h
  left_eq := by simp [tablesOf, Feed.broken]

theorem picks_cons_none (h : pick tables node = none) :
    picks tables ((id, node) :: rest) = picks tables rest :=
  List.filterMap_cons_none h

theorem picks_cons_some (h : pick tables node = some t) :
    picks tables ((id, node) :: rest) = t :: picks tables rest :=
  List.filterMap_cons_some h

theorem SourcesDone.pass {names : List Scalar} (hnames : sourceNames node = .ok names)
    (hpick : pick tables node = none) (h : SourcesDone tables left rest s) :
    SourcesDone tables left ((id, node) :: rest) s where
  stop_iff := by
    rw [picks_cons_none hpick, h.stop_iff]
    simp [hnames]
  nodup := h.nodup
  mem_left := h.mem_left
  tables_eq := by rw [picks_cons_none hpick]; exact h.tables_eq
  left_eq := h.left_eq

/-- A source that takes a table adds it to the account. -/
theorem SourcesDone.take {names : List Scalar} {call : String} (hl : left.Nodup)
    (hnames : sourceNames node = .ok names) (hpick : pick tables node = some t) (ht : t ∈ left)
    (h : SourcesDone tables (left.erase t) rest s) :
    SourcesDone tables left ((id, node) :: rest) ⟨⟨[⟨t, call⟩], none⟩ ++ s.found, s.left⟩ := by
  obtain ⟨htables, hstop⟩ := tablesOf_append_of_stop_none (f := ⟨[⟨t, call⟩], none⟩)
    (g := s.found) rfl
  have hmem : ∀ u ∈ tablesOf s.found, u ≠ t ∧ u ∈ left :=
    fun u hu => (hl.mem_erase_iff).mp (h.mem_left u hu)
  refine ⟨?_, ?_, ?_, ?_, ?_⟩
  · rw [hstop, h.stop_iff, picks_cons_some hpick, List.nodup_cons]
    constructor
    · rintro ⟨hok, hnd, hin⟩
      have hin' := fun u hu => (hl.mem_erase_iff).mp (hin u hu)
      refine ⟨by simpa [hnames] using hok, ⟨fun hp => (hin' t hp).1 rfl, hnd⟩, ?_⟩
      exact List.forall_mem_cons.mpr ⟨ht, fun u hu => (hin' u hu).2⟩
    · rintro ⟨hok, ⟨hnot, hnd⟩, hin⟩
      refine ⟨fun e he => hok e (List.mem_cons_of_mem _ he), hnd, ?_⟩
      intro u hu
      refine (hl.mem_erase_iff).mpr ⟨?_, hin u (List.mem_cons_of_mem _ hu)⟩
      rintro rfl
      exact hnot hu
  · rw [htables]
    exact List.nodup_cons.mpr ⟨fun hm => (hmem t hm).1 rfl, h.nodup⟩
  · rw [htables]
    exact List.forall_mem_cons.mpr ⟨ht, fun u hu => (hmem u hu).2⟩
  · rw [hstop, htables, picks_cons_some hpick]
    intro hs
    exact congrArg (t :: ·) (h.tables_eq hs)
  · rw [htables]
    exact h.left_eq.trans (erase_filter_not_mem hl t _)

theorem sourcesFrom_cons_error (h : sourceNames node = .error f) :
    sourcesFrom tables left ((id, node) :: rest) = ⟨.broken f, left⟩ := by
  rw [sourcesFrom, h]

theorem sourcesFrom_cons_pass {names : List Scalar} (h : sourceNames node = .ok names)
    (hpick : pick tables node = none) :
    sourcesFrom tables left ((id, node) :: rest) = sourcesFrom tables left rest := by
  rw [pick, h] at hpick
  rw [sourcesFrom, h]
  cases hc : coveredBy names tables with
  | none => simp only [hc]
  | some t =>
    simp only [hc, Option.filter_eq_none_iff] at hpick ⊢
    rw [if_pos (by simpa using hpick)]

theorem sourcesFrom_cons_gone {names : List Scalar} (h : sourceNames node = .ok names)
    (hpick : pick tables node = some t) (ht : t ∉ left) :
    sourcesFrom tables left ((id, node) :: rest) = ⟨.broken .missingKey, left⟩ := by
  rw [pick, h] at hpick
  obtain ⟨hc, hne⟩ := Option.filter_eq_some_iff.mp hpick
  rw [sourcesFrom, h]
  simp only [hc]
  rw [if_neg (by simpa using hne), if_pos (by simpa using ht)]

theorem exists_call {names : List Scalar} (h : sourceNames node = .ok names) :
    ∃ source name, node.field "source_name" = .ok source ∧ node.field "name" = .ok name := by
  cases node with
  | map entries => exact ⟨_, _, rfl, rfl⟩
  | _ => cases h

theorem sourcesFrom_cons_take (id : Scalar) (rest : Entries) {names : List Scalar}
    (h : sourceNames node = .ok names) (hpick : pick tables node = some t) (ht : t ∈ left) :
    ∃ call, sourcesFrom tables left ((id, node) :: rest) =
      ⟨⟨[⟨t, call⟩], none⟩ ++ (sourcesFrom tables (left.erase t) rest).found,
        (sourcesFrom tables (left.erase t) rest).left⟩ := by
  obtain ⟨source, name, hs, hn⟩ := exists_call h
  rw [pick, h] at hpick
  obtain ⟨hc, hne⟩ := Option.filter_eq_some_iff.mp hpick
  refine ⟨sourceCallText source.text name.text, ?_⟩
  rw [sourcesFrom, h]
  simp only [hc]
  rw [if_neg (by simpa using hne), if_neg (by simpa using ht), hs, hn]

/-- **The account of the walk through the sources.** -/
theorem sourcesDone (tables : List String) : ∀ (srcs : Entries) (left : List String), left.Nodup →
    SourcesDone tables left srcs (sourcesFrom tables left srcs) := by
  intro srcs
  induction srcs with
  | nil =>
    intro left _
    exact ⟨by simp [sourcesFrom, Feed.empty, picks], by simp [sourcesFrom, tablesOf, Feed.empty],
      by simp [sourcesFrom, tablesOf, Feed.empty],
        by simp [sourcesFrom, tablesOf, Feed.empty, picks],
      by simp [sourcesFrom, tablesOf, Feed.empty]⟩
  | cons head rest ih =>
    obtain ⟨id, node⟩ := head
    intro left hl
    cases hnames : sourceNames node with
    | error f =>
      rw [sourcesFrom_cons_error hnames]
      refine SourcesDone.broken fun hok => ?_
      obtain ⟨names, h⟩ := hok (id, node) List.mem_cons_self
      rw [hnames] at h
      cases h
    | ok names =>
      cases hpick : pick tables node with
      | none =>
        rw [sourcesFrom_cons_pass hnames hpick]
        exact (ih left hl).pass hnames hpick
      | some t =>
        by_cases ht : t ∈ left
        · obtain ⟨call, he⟩ := sourcesFrom_cons_take id rest hnames hpick ht
          rw [he]
          exact SourcesDone.take hl hnames hpick ht (ih (left.erase t) (hl.erase t))
        · rw [sourcesFrom_cons_gone hnames hpick ht]
          refine SourcesDone.broken fun _ _ hin => ht (hin t ?_)
          rw [picks_cons_some hpick]
          exact List.mem_cons_self

/-- The table is covered by a source: all its parts are names of the source. -/
def Covers (node : Value) (t : String) : Prop :=
  ∃ names, sourceNames node = .ok names ∧ ∀ part ∈ idParts t, Scalar.str part ∈ names

theorem mem_of_coveredBy {names : List Scalar} (h : coveredBy names tables = some t) :
    t ∈ tables ∧ ∀ part ∈ idParts t, Scalar.str part ∈ names := by
  obtain ⟨hm, hs⟩ := List.mem_filter.mp (List.mem_of_getLast? h)
  exact ⟨hm, isSubset_textSet_iff.mp hs⟩

theorem mem_of_mem_picks (h : t ∈ picks tables srcs) : t ∈ tables ∧ ∃ e ∈ srcs, Covers e.2 t := by
  obtain ⟨e, he, hp⟩ := List.mem_filterMap.mp h
  rw [pick] at hp
  cases hn : sourceNames e.2 with
  | error f => simp [hn] at hp
  | ok names =>
    rw [hn] at hp
    obtain ⟨hm, hc⟩ := mem_of_coveredBy (Option.filter_eq_some_iff.mp hp).1
    exact ⟨hm, e, he, names, hn, hc⟩

theorem picks_nil (srcs : Entries) : picks [] srcs = [] := by
  rw [List.eq_nil_iff_forall_not_mem]
  intro t ht
  simpa using (mem_of_mem_picks ht).1

/-- **What the second stage finds**: it does not look at the sources at all if no table is left. -/
theorem sourcesDone_sources {manifest : Value} (hl : left.Nodup)
    (hsources : sectionNodes manifest "sources" = .ok srcs) :
    ((sources manifest left).found.stop = none ↔
      (left ≠ [] → ∀ e ∈ srcs, ∃ names, sourceNames e.2 = .ok names) ∧ (picks left srcs).Nodup) ∧
    (tablesOf (sources manifest left).found).Nodup ∧
    (∀ t ∈ tablesOf (sources manifest left).found, t ∈ left) ∧
    ((sources manifest left).found.stop = none →
      tablesOf (sources manifest left).found = picks left srcs) ∧
    (sources manifest left).left = left.filter fun t =>
      t ∉ tablesOf (sources manifest left).found := by
  by_cases hempty : left = []
  · subst hempty
    simp [sources, Feed.empty, tablesOf, picks_nil]
  · have heq : sources manifest left = sourcesFrom left left srcs := by
      rw [sources, if_neg (by simpa using hempty), hsources]
    have h := sourcesDone left srcs left hl
    rw [heq]
    refine ⟨?_, h.nodup, h.mem_left, h.tables_eq, h.left_eq⟩
    rw [h.stop_iff]
    constructor
    · rintro ⟨h1, h2, -⟩
      exact ⟨fun _ => h1, h2⟩
    · rintro ⟨h1, h2⟩
      exact ⟨h1 hempty, h2, fun t ht => (mem_of_mem_picks ht).1⟩

/-! ### Tables that nobody takes -/

/-- The table name has no dot. -/
def Dotless (t : String) : Prop := '.' ∉ t.toList

theorem length_splitList_of_mem {c : Char} : ∀ {cs : List Char}, c ∈ cs →
    2 ≤ (Text.splitList c cs).length := by
  intro cs
  induction cs with
  | nil => intro h; simp at h
  | cons d rest ih =>
    intro h
    rw [Text.splitList]
    by_cases hd : d = c
    · rw [if_pos hd, List.length_cons]
      have := List.length_pos_iff.mpr (Text.splitList_ne_nil c rest)
      omega
    · rw [if_neg hd]
      have := ih ((List.mem_cons.mp h).resolve_left (Ne.symm hd))
      cases hs : Text.splitList c rest with
      | nil => rw [hs] at this; simp at this
      | cons piece pieces => rw [hs] at this; simpa using this

theorem Dotless.idParts_eq (h : Dotless t) : idParts t = [t] := by
  rw [idParts, Text.split, Text.splitList_of_not_mem h]
  simp

theorem Dotless.lastName_eq (h : Dotless t) : lastName t = t := by
  rw [lastName, h.idParts_eq]
  rfl

theorem unknown_eq_none_iff : (unknown t).2 = none ↔ Dotless t := by
  by_cases h : Dotless t
  · rw [unknown, h.idParts_eq]
    simp [h]
  · have hlen : 2 ≤ (idParts t).reverse.length := by
      rw [List.length_reverse, idParts, Text.split, List.length_map]
      exact length_splitList_of_mem (not_not.mp h)
    rw [unknown]
    cases hr : (idParts t).reverse with
    | nil => rw [hr] at hlen; simp at hlen
    | cons name more =>
      cases more with
      | nil => rw [hr] at hlen; simp at hlen
      | cons source more => simp [h]

theorem table_of_unknown {s : Substitution} (h : (unknown t).2 = some s) : s.table = t := by
  rw [unknown] at h
  split at h
  · cases h; rfl
  · cases h

theorem tablesOf_unknown (left : List String) :
    tablesOf (Feed.ofList (left.filterMap fun t => (unknown t).2)) =
      left.filter fun t => ((unknown t).2).isSome := by
  induction left with
  | nil => rfl
  | cons t rest ih =>
    cases h : (unknown t).2 with
    | none => simpa [tablesOf, Feed.ofList, h] using ih
    | some s => simpa [tablesOf, Feed.ofList, h, table_of_unknown h] using ih

/-! ### The whole chain -/

theorem stop_append_eq_none_iff {f g : Feed Substitution} :
    (f ++ g).stop = none ↔ f.stop = none ∧ g.stop = none := by
  by_cases h : f.stop = none
  · rw [(tablesOf_append_of_stop_none h).2]
    simp [h]
  · rw [append_of_stop_some h]
    simp [h]

theorem nodup_tablesOf_append {f g : Feed Substitution} (hf : (tablesOf f).Nodup)
    (hg : (tablesOf g).Nodup)
    (hd : ∀ t ∈ tablesOf g, t ∉ tablesOf f) : (tablesOf (f ++ g)).Nodup := by
  by_cases h : f.stop = none
  · rw [(tablesOf_append_of_stop_none h).1, List.nodup_append]
    refine ⟨hf, hg, ?_⟩
    rintro a ha b hb rfl
    exact hd a hb ha
  · rwa [append_of_stop_some h]

theorem mem_tablesOf_append {f g : Feed Substitution} (h : t ∈ tablesOf (f ++ g)) :
    t ∈ tablesOf f ∨ t ∈ tablesOf g := by
  by_cases hs : f.stop = none
  · rw [(tablesOf_append_of_stop_none hs).1] at h
    exact List.mem_append.mp h
  · rw [append_of_stop_some hs] at h
    exact Or.inl h

section

variable {manifest : Value} {tables : List String} {nodes srcs : Entries} (hl : tables.Nodup)
  (hnodes : sectionNodes manifest "nodes" = .ok nodes)
    (hsources : sectionNodes manifest "sources" = .ok srcs)

include hl hnodes hsources

/-- **Each table is handed on at most once.** -/
theorem nodup_tablesOf_chain : (tablesOf (chain manifest tables)).Nodup := by
  have hrefs := refsDone_refs hl hnodes
  have hleft : (refs manifest tables).left.Nodup := by
    rw [hrefs.left_eq]
    exact hl.filter _
  obtain ⟨-, hnodup, hmem, -, hrest⟩ := sourcesDone_sources hleft hsources
  have hspared : ∀ t ∈ (refs manifest tables).left, t ∉ tablesOf (refs manifest tables).found := by
    intro t ht
    rw [hrefs.left_eq] at ht
    simpa using (List.mem_filter.mp ht).2
  have hlast : ∀ t ∈ (sources manifest (refs manifest tables).left).left,
      t ∈ (refs manifest tables).left ∧
      t ∉ tablesOf (sources manifest (refs manifest tables).left).found := by
    intro t ht
    rw [hrest] at ht
    exact ⟨List.mem_of_mem_filter ht, by simpa using (List.mem_filter.mp ht).2⟩
  rw [chain]
  refine nodup_tablesOf_append hrefs.nodup (nodup_tablesOf_append hnodup ?_ ?_) ?_
  · rw [tablesOf_unknown, hrest]
    exact (hleft.filter _).filter _
  · intro t ht
    rw [tablesOf_unknown] at ht
    exact (hlast t (List.mem_of_mem_filter ht)).2
  · intro t ht
    rcases mem_tablesOf_append ht with h | h
    · exact hspared t (hmem t h)
    · rw [tablesOf_unknown] at h
      exact hspared t (hlast t (List.mem_of_mem_filter h)).1

/-- **When the chain does not break off.** -/
theorem stop_chain_eq_none_iff : (chain manifest tables).stop = none ↔
    (∀ e ∈ nodes, ∃ a, aliasOf e.2 = .ok a) ∧
    (spared nodes tables ≠ [] → ∀ e ∈ srcs, ∃ names, sourceNames e.2 = .ok names) ∧
    (picks (spared nodes tables) srcs).Nodup := by
  have hrefs := refsDone_refs hl hnodes
  have hunknown : ∀ left : List String, (Feed.ofList (left.filterMap fun t => (unknown t).2)).stop =
      none :=
    fun _ => rfl
  rw [chain, stop_append_eq_none_iff, stop_append_eq_none_iff, ← hrefs.stop_iff]
  refine and_congr_right fun hs => ?_
  have hspared : (spared nodes tables).Nodup := hl.filter _
  rw [hrefs.left_eq_spared hs, (sourcesDone_sources hspared hsources).1]
  simp [hunknown]

/-- **Which tables a chain that does not break off hands on**: those that a node or a source singles
out, and those with a dot. -/
theorem mem_tablesOf_chain_iff (hs : (chain manifest tables).stop = none) {t : String}
    (ht : t ∈ tables) :
    t ∈ tablesOf (chain manifest tables) ↔
      takenByAlias nodes tables t = true ∨ t ∈ picks (spared nodes tables) srcs ∨ ¬ Dotless t := by
  have hrefs := refsDone_refs hl hnodes
  rw [chain] at hs ⊢
  obtain ⟨hs1, hs2⟩ := stop_append_eq_none_iff.mp hs
  obtain ⟨hs2, -⟩ := stop_append_eq_none_iff.mp hs2
  have hspared : (spared nodes tables).Nodup := hl.filter _
  obtain ⟨-, -, -, heq, hrest⟩ := sourcesDone_sources hspared hsources
  rw [hrefs.left_eq_spared hs1] at hs2 ⊢
  rw [(tablesOf_append_of_stop_none hs1).1, (tablesOf_append_of_stop_none hs2).1, List.mem_append,
    List.mem_append, hrefs.mem_tablesOf_iff hs1, heq hs2, tablesOf_unknown, hrest, heq hs2,
      List.mem_filter, List.mem_filter,
    Option.isSome_iff_ne_none, ne_eq, unknown_eq_none_iff]
  by_cases h1 : takenByAlias nodes tables t = true
  · simp [h1]
  · by_cases h2 : t ∈ picks (spared nodes tables) srcs
    · simp [h2]
    · have hin : t ∈ spared nodes tables := List.mem_filter.mpr ⟨ht, by simpa using h1⟩
      simp [h1, h2, hin]

/-- **When the chain settles all tables.**  It hands on each table at most once without breaking
off, and passes over exactly the tables without a dot that no alias names and no source covers, if
and only if aliases and source names are scalars, no two sources single out one table, and each
table without a dot that is named or covered is itself the one that a node or a source singles
out. -/
theorem chain_settles_iff :
    ((chain manifest tables).stop = none ∧ (tablesOf (chain manifest tables)).Nodup ∧
      ∀ t ∈ tables, t ∉ tablesOf (chain manifest tables) ↔
        Dotless t ∧ isAlias nodes t = false ∧ ∀ e ∈ srcs, ¬ Covers e.2 t) ↔
    (∀ e ∈ nodes, ∃ a, aliasOf e.2 = .ok a) ∧
    (spared nodes tables ≠ [] → ∀ e ∈ srcs, ∃ names, sourceNames e.2 = .ok names) ∧
    (picks (spared nodes tables) srcs).Nodup ∧
    ∀ t ∈ tables, Dotless t → (isAlias nodes t = true ∨ ∃ e ∈ srcs, Covers e.2 t) →
      takenByAlias nodes tables t = true ∨ t ∈ picks (spared nodes tables) srcs := by
  have hnodup := nodup_tablesOf_chain hl hnodes hsources
  have hstop := stop_chain_eq_none_iff hl hnodes hsources
  -- what is singled out is named or covered, so only the other direction is a condition
  have hnamed : ∀ t, Dotless t → takenByAlias nodes tables t = true → isAlias nodes t = true := by
    intro t hd ht
    rw [takenByAlias, Bool.and_eq_true, Bool.and_eq_true, hd.lastName_eq] at ht
    exact ht.1.2
  have hrest : (chain manifest tables).stop = none →
      ((∀ t ∈ tables, t ∉ tablesOf (chain manifest tables) ↔
        Dotless t ∧ isAlias nodes t = false ∧ ∀ e ∈ srcs, ¬ Covers e.2 t) ↔
      ∀ t ∈ tables, Dotless t → (isAlias nodes t = true ∨ ∃ e ∈ srcs, Covers e.2 t) →
        takenByAlias nodes tables t = true ∨ t ∈ picks (spared nodes tables) srcs) := by
    intro hs
    refine forall_congr' fun t => forall_congr' fun ht => ?_
    rw [mem_tablesOf_chain_iff hl hnodes hsources hs ht]
    constructor
    · intro h hd hnc
      by_contra hno
      rw [not_or] at hno
      obtain ⟨-, ha, hc⟩ := h.mp (by simp [hno, hd])
      rcases hnc with hn | ⟨e, he, hcov⟩
      · rw [ha] at hn; cases hn
      · exact hc e he hcov
    · intro h
      constructor
      · intro hno
        rw [not_or, not_or, not_not] at hno
        obtain ⟨hn, hp, hd⟩ := hno
        refine ⟨hd, ?_, fun e he hcov => ?_⟩
        · by_contra ha
          exact (h hd (Or.inl (by simpa using ha))).elim hn hp
        · exact (h hd (Or.inr ⟨e, he, hcov⟩)).elim hn hp
      · rintro ⟨hd, ha, hc⟩ (hn | hp | hdot)
        · rw [hnamed t hd hn] at ha; cases ha
        · obtain ⟨-, e, he, hcov⟩ := mem_of_mem_picks hp
          exact hc e he hcov
        · exact hdot hd
  constructor
  · rintro ⟨hs, -, h⟩
    obtain ⟨h1, h2, h3⟩ := hstop.mp hs
    exact ⟨h1, h2, h3, (hrest hs).mp h⟩
  · rintro ⟨h1, h2, h3, h4⟩
    have hs := hstop.mpr ⟨h1, h2, h3⟩
    exact ⟨hs, hnodup, (hrest hs).mpr h4⟩

end

/-! ### Two manifests -/

def sourceNode (source schema name : String) : Value :=
  .record [("database", .str "db"), ("schema", .str schema), ("name", .str name),
    ("source_name", .str source)]

def usersAndRaw : Value :=
  .record [("nodes", .record [("model.p.u", .record [("alias", .str "users")])]),
    ("sources", .record [("source.p.one.t", sourceNode "one" "raw" "t")])]

/-- The chain settles a model, a source table, an unknown table with a dot and one without. -/
theorem chain_settles_usersAndRaw :
    let tables := ["a.users", "raw.t", "p.q", "x"]
    let nodes : Entries := [(.str "model.p.u", .record [("alias", .str "users")])]
    let srcs : Entries := [(.str "source.p.one.t", sourceNode "one" "raw" "t")]
    tables.Nodup ∧ sectionNodes usersAndRaw "nodes" = .ok nodes ∧
    sectionNodes usersAndRaw "sources" = .ok srcs ∧
    (chain usersAndRaw tables).stop = none ∧ (tablesOf (chain usersAndRaw tables)).Nodup ∧
      ∀ t ∈ tables, t ∉ tablesOf (chain usersAndRaw tables) ↔
        Dotless t ∧ isAlias nodes t = false ∧ ∀ e ∈ srcs, ¬ Covers e.2 t := by
  intro tables nodes srcs
  have hl : tables.Nodup := by decide
  refine ⟨hl, rfl, rfl, (@chain_settles_iff usersAndRaw tables nodes srcs hl rfl rfl).mpr
    ⟨?_, ?_, ?_, ?_⟩⟩
  · intro e he
    rw [List.mem_singleton.mp he]
    exact ⟨_, rfl⟩
  · intro _ e he
    rw [List.mem_singleton.mp he]
    exact ⟨_, rfl⟩
  · decide +kernel
  · intro t ht hd hnamed
    -- only `x` has no dot, and it is neither named nor covered
    have hx : t = "x" := by
      rcases List.mem_cons.mp ht with rfl | ht
      · exact absurd (by decide) hd
      rcases List.mem_cons.mp ht with rfl | ht
      · exact absurd (by decide) hd
      rcases List.mem_cons.mp ht with rfl | ht
      · exact absurd (by decide) hd
      exact List.mem_singleton.mp ht
    subst hx
    rcases hnamed with hn | ⟨e, he, names, hnames, hcov⟩
    · exact absurd hn (by decide +kernel)
    · rw [List.mem_singleton.mp he] at hnames
      cases (show sourceNames (sourceNode "one" "raw" "t") =
        .ok [.str "db", .str "raw", .str "t"] from rfl).symm.trans hnames
      have := hcov "x" (by decide)
      simp at this

def twoSources : Value :=
  .record [("sources", .record [("source.p.one.t", sourceNode "one" "raw" "t"),
    ("source.p.two.t", sourceNode "two" "raw" "t")])]

/-- **A table that two sources cover breaks the chain off**, after it has been handed on once. -/
theorem chain_twoSources :
    (chain twoSources ["raw.t"]).stop = some .missingKey ∧
    tablesOf (chain twoSources ["raw.t"]) = ["raw.t"] :=
  ⟨rfl, rfl⟩

end ProjectLint.TableNames
