import ProjectLint.Proofs.Yaml.Rebuilding

/-!
# Rewording

To reword a value is to rebuild it with a new description at some of its mappings, which are told by
their places; all else is kept: the other fields, the order of the keys, the other parts.  Changing
the description at one place is a rewording (`changeAt_eq_reword`), one rewording after another is a
rewording (`reword_reword`), and what counts of a rewording is what it says at mappings
(`reword_congr`).  So a whole series of changes is **one rewording**, in which the last word counts.
-/

namespace ProjectLint.Yaml

/-! ### Rewordings -/

def worded (description : Option String) (entries : Entries) : Entries :=
  match description with
  | some d => Entries.put entries "description" (.str d)
  | none => entries

instance rewords : Rebuilds (Option String) where
  items _ items := items
  entries := worded

variable {v : Value} {g : Place → Option String} {n : Nat} {key : String}

theorem reword_seq (g : Place → Option String) (items : List Value) :
    rebuild g (.seq items) = .seq (rebuildItems g 0 items) := by
  rw [rebuild]
  rfl

theorem reword_map (g : Place → Option String) (entries : Entries) :
    rebuild g (.map entries) = .map (worded (g []) (rebuildEntries g 0 entries)) := by
  rw [rebuild]
  rfl

theorem get?_rebuildEntries_scalar (g : Place → Option String) {entries : Entries} {s : Scalar}
    (h : Entries.get? entries key = some (.scalar s)) :
    Entries.get? (rebuildEntries g 0 entries) key = some (.scalar s) := by
  rw [get?_eq_valueAt?, Option.bind_eq_some_iff] at h
  obtain ⟨n, hn, hs⟩ := h
  rw [get?_rebuildEntries, hn, Option.bind_some, hs, Option.map_some, rebuild]

/-- Two rewordings are the same if at every mapping they say the same, or the one says what is
written there already and the other says nothing. -/
theorem reword_congr (v : Value) (g h : Place → Option String)
    (heq : ∀ place entries, valueAt? v place = some (.map entries) →
      h place = g place ∨ g place = none ∧
        ∃ d, h place = some d ∧ Entries.get? entries "description" = some (.str d)) :
    rebuild h v = rebuild g v := by
  refine rebuild_congr v h g (fun _ _ _ _ => rfl) fun p entries hp => ?_
  rcases heq p entries hp with hsame | ⟨hnone, d, hd, hdesc⟩
  · rw [hsame]
  · rw [hnone, hd]
    exact Entries.insert_of_find? (get?_rebuildEntries_scalar _ hdesc)

theorem reword_none (v : Value) : rebuild (fun _ => (none : Option String)) v = v :=
  rebuild_eq_self (fun _ _ => rfl) fun _ _ => rfl

/-! ### One rewording after another -/

theorem rebuildEntries_put (g : Place → Option String) (key d : String) :
    ∀ (entries : Entries) (n : Nat), rebuildEntries g n (Entries.put entries key (.str d)) =
      Entries.put (rebuildEntries g n entries) key (.str d) := by
  intro entries
  induction entries with
  | nil =>
    intro n
    rw [Entries.put, Entries.insert, rebuildEntries, rebuildEntries, rebuildEntries, rebuild]
    rfl
  | cons e entries ih =>
    intro n
    obtain ⟨k, v⟩ := e
    rw [Entries.put, Entries.insert, rebuildEntries, Entries.put, Entries.insert]
    split
    · rw [rebuildEntries, rebuild]
    · rw [rebuildEntries]
      exact congrArg _ (ih (n + 1))

theorem worded_worded (x y : Option String) (entries : Entries) :
    worded y (worded x entries) = worded (y.or x) entries := by
  cases y with
  | none => cases x <;> rfl
  | some d =>
    cases x with
    | none => rfl
    | some c => exact Entries.insert_insert (by simp [Scalar.same]) _ _ entries

theorem rebuildEntries_worded (g : Place → Option String) (x : Option String) (entries : Entries)
    (n : Nat) : rebuildEntries g n (worded x entries) = worded x (rebuildEntries g n entries) := by
  cases x with
  | none => rfl
  | some d => exact rebuildEntries_put g "description" d entries n

/-- **One rewording after another is a rewording**, in which the later word counts. -/
theorem reword_reword : ∀ (v : Value) (g h : Place → Option String),
    rebuild h (rebuild g v) = rebuild (fun q => (h q).or (g q)) v := by
  intro v
  induction v using Value.induct with
  | seq items ih =>
    intro g h
    rw [reword_seq, reword_seq, reword_seq, Value.seq.injEq]
    refine List.ext_getElem? fun i => ?_
    rw [getElem?_rebuildItems, getElem?_rebuildItems, getElem?_rebuildItems, Nat.zero_add]
    cases hv : items[i]? with
    | none => rfl
    | some v => simp only [Option.map_some, ih v (List.mem_of_getElem? hv)]
  | map entries ih =>
    intro g h
    rw [reword_map, reword_map, reword_map, Value.map.injEq, rebuildEntries_worded, worded_worded]
    congr 1
    refine List.ext_getElem? fun i => ?_
    rw [getElem?_rebuildEntries, getElem?_rebuildEntries, getElem?_rebuildEntries, Nat.zero_add]
    cases he : entries[i]? with
    | none => rfl
    | some e => simp only [Option.map_some, ih e (List.mem_of_getElem? he)]
  | pair first second ih₁ ih₂ =>
    intro g h
    rw [rebuild, rebuild, rebuild, ih₁, ih₂]
  | scalar s => intro g h; rw [rebuild, rebuild, rebuild]
  | set members => intro g h; rw [rebuild, rebuild, rebuild]
  | enclosing shape => intro g h; rw [rebuild, rebuild, rebuild]

/-! ### Changes at places -/

theorem putField_reword (g : Place → Option String) (d : String) (v : Value) :
    Document.putField "description" (.str d) (rebuild g v) =
      rebuild (Function.update g [] (some d)) v := by
  cases v with
  | map entries =>
    rw [reword_map, reword_map, rebuildEntries_update, Function.update_self]
    exact congrArg Value.map (worded_worded (g []) (some d) _)
  | seq items =>
    rw [reword_seq, reword_seq, rebuildItems_update]
    rfl
  | pair first second =>
    have hbelow : ∀ n q, Function.update g [] (some d) (n :: q) = g (n :: q) :=
      fun n q => Function.update_of_ne (List.cons_ne_nil n q) _ _
    simp only [rebuild, hbelow]
    rfl
  | scalar s => rw [rebuild, rebuild]; rfl
  | set members => rw [rebuild, rebuild]; rfl
  | enclosing shape => rw [rebuild, rebuild]; rfl

/-- **A change of one description is a rewording.** -/
theorem changeAt_eq_reword (d : String) (place : Place) (v : Value) :
    changeAt (Document.putField "description" (.str d)) v place =
      rebuild (Function.update (fun _ => none) place (some d)) v := by
  cases hplace : valueAt? v place with
  | none =>
    have hnothing : rebuild (Function.update (fun _ => none) place (some d)) v =
        rebuild (fun _ => (none : Option String)) v := by
      refine reword_congr v _ _ fun p entries hp => .inl (Function.update_of_ne ?_ _ _)
      rintro rfl
      rw [hplace] at hp
      cases hp
    rw [hnothing, reword_none]
    refine changeAt_eq_self fun w hw => ?_
    rw [hplace] at hw
    cases hw
  | some w =>
    have hadds : Adds (none : Option String) :=
      ⟨⟨[], fun xs => (List.append_nil xs).symm⟩, ⟨[], fun es => (List.append_nil es).symm⟩⟩
    have hchange := changeAt_rebuild (fun _ => hadds) hplace (putField_reword _ d w)
    rwa [reword_none] at hchange

def wordingAt (places : List Place) (d : String) : Place → Option String :=
  fun q => if q ∈ places then some d else none

theorem foldl_changeAt (d : String) : ∀ (places : List Place) (v : Value),
    places.foldl (fun v p => changeAt (Document.putField "description" (.str d)) v p) v =
      rebuild (wordingAt places d) v := by
  intro places
  induction places with
  | nil => intro v; exact (reword_none v).symm
  | cons place places ih =>
    intro v
    rw [List.foldl_cons, ih, changeAt_eq_reword, reword_reword]
    congr 1
    funext q
    by_cases hmem : q ∈ places
    · simp [wordingAt, hmem]
    · by_cases hq : q = place
      · subst hq
        simp [wordingAt, hmem]
      · simp [wordingAt, hmem, hq]

/-! ### Fields of a reworded mapping -/

/-- **A rewording keeps the other fields in their places.** -/
theorem fieldIndex?_reword (g : Place → Option String) (hkey : key ≠ "description") (v : Value) :
    Document.fieldIndex? (rebuild g v) key = Document.fieldIndex? v key := by
  cases v with
  | map entries =>
    rw [reword_map, ← fieldIndex?_rebuildEntries g entries key]
    cases g [] with
    | none => rfl
    | some d =>
      refine Entries.findIdx?_insert ?_ _
      simpa [Scalar.same] using Ne.symm hkey
  | seq items => rw [rebuild]; rfl
  | pair first second => rw [rebuild]; rfl
  | scalar s => rw [rebuild]
  | set members => rw [rebuild]
  | enclosing shape => rw [rebuild]

theorem fieldIndex?_of_reword {entries : Entries}
    (h : Document.fieldIndex? (rebuild g (.map entries)) "description" = some n)
    (hlt : n < entries.length) : Document.fieldIndex? (.map entries) "description" = some n := by
  rw [reword_map] at h
  rw [← fieldIndex?_rebuildEntries g]
  cases hg : g [] with
  | none =>
    rw [hg] at h
    exact h
  | some d =>
    rw [hg, worded, Entries.put, Document.fieldIndex?,
      Entries.findIdx?_insert_self (by simp [Scalar.same])] at h
    rw [Document.fieldIndex?]
    cases hidx : (rebuildEntries g 0 entries).findIdx? fun e => e.1.same (.str "description") with
    | some i =>
      rw [hidx] at h
      exact h
    | none =>
      rw [hidx, Option.getD_none, length_rebuildEntries] at h
      have := Option.some.inj h
      omega

def InDescription (g : Place → Option String) (v : Value) (place : Place) : Prop :=
  ∃ p n rest entries, place = p ++ n :: rest ∧ g p ≠ none ∧ valueAt? v p = some (.map entries) ∧
    Document.fieldIndex? (.map entries) "description" = some n

/-- **What is no description stays at its place**, with the rewording of what it holds. -/
theorem valueAt?_reword {place : Place} {w : Value} (hout : ¬ InDescription g v place)
    (h : valueAt? v place = some w) :
    valueAt? (rebuild g v) place = some (rebuild (fun q => g (place ++ q)) w) := by
  refine valueAt?_rebuild place v g (fun p n rest hplace =>
    ⟨fun _ _ _ _ _ => rfl, fun entries hp es hkeys hlt => ?_⟩) h
  show (worded (g p) es)[n]? = es[n]?
  cases hg : g p with
  | none => rfl
  | some text =>
    refine Entries.getElem?_insert _ (fun hn => hout ?_) hlt
    have hindex : Document.fieldIndex? (.map entries) "description" = some n := by
      rw [fieldIndex?_eq_map_fst, ← hkeys, ← fieldIndex?_eq_map_fst]
      exact hn
    exact ⟨p, n, rest, entries, hplace, hg ▸ Option.some_ne_none text, hp, hindex⟩

theorem valueAt?_field_reword (g : Place → Option String) (hkey : key ≠ "description")
    (h : Document.fieldIndex? v key = some n) :
    valueAt? (rebuild g v) [n] = (valueAt? v [n]).map (rebuild fun q => g (n :: q)) := by
  obtain ⟨entries, e, rfl, he, hname⟩ := valueAt?_field h
  have hvalue : valueAt? (.map entries) [n] = some e.2 := by rw [valueAt?_map he, valueAt?]
  have hout : ¬ InDescription g (.map entries) [n] := by
    rintro ⟨p, m, rest, fields, hplace, -, hp, hm⟩
    cases p with
    | cons k p => simp at hplace
    | nil =>
      obtain ⟨rfl, -⟩ := List.cons.inj hplace
      cases hp
      obtain ⟨_, e', hfields, he', hname'⟩ := valueAt?_field hm
      cases hfields
      obtain rfl := Option.some.inj (he.symm.trans he')
      exact hkey (Scalar.str.inj (hname.symm.trans hname'))
  rw [hvalue, valueAt?_reword hout hvalue]
  rfl

theorem get?_reword (g : Place → Option String) (hkey : key ≠ "description") {entries : Entries}
    {s : Scalar} (h : Entries.get? entries key = some (.scalar s)) :
    Entries.get? (worded (g []) (rebuildEntries g 0 entries)) key = some (.scalar s) := by
  rw [get?_eq_valueAt?, Option.bind_eq_some_iff] at h
  obtain ⟨n, hn, hs⟩ := h
  rw [get?_eq_valueAt?, ← reword_map, fieldIndex?_reword g hkey, hn, Option.bind_some,
    valueAt?_field_reword g hkey hn, hs, Option.map_some, rebuild]

/-- The description of a reworded mapping: the new one, or else the old one with its own parts
reworded. -/
theorem get?_description_reword (g : Place → Option String) (entries : Entries) :
    Entries.get? (worded (g []) (rebuildEntries g 0 entries)) "description" =
      match g [] with
      | some d => some (.str d)
      | none => (Document.fieldIndex? (.map entries) "description").bind fun n =>
          (valueAt? (.map entries) [n]).map (rebuild fun q => g (n :: q)) := by
  cases g [] with
  | some d => exact Entries.find?_insert (by simp [Scalar.same]) _ _
  | none => exact get?_rebuildEntries g entries "description"

/-- **The keys stay, in their order**; at most a description comes behind them. -/
theorem keys_reword (g : Place → Option String) (entries : Entries) : ∃ entries',
    rebuild g (.map entries) = .map entries' ∧ (entries'.map (·.1) = entries.map (·.1) ∨
      g [] ≠ none ∧ entries'.map (·.1) = entries.map (·.1) ++ [.str "description"]) := by
  refine ⟨_, reword_map g entries, ?_⟩
  cases hg : g [] with
  | none => exact .inl (map_fst_rebuildEntries g entries 0)
  | some text =>
    rw [worded, Entries.put, Entries.map_fst_insert, map_fst_rebuildEntries g entries 0]
    split
    · exact .inl rfl
    · exact .inr ⟨Option.some_ne_none text, rfl⟩

end ProjectLint.Yaml
