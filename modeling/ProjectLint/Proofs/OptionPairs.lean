import Mathlib.Data.List.Forall2
import Mathlib.Data.List.Induction
import Mathlib.Data.List.TakeWhile
import ProjectLint.Hooks
import ProjectLint.Proofs.Entries
import ProjectLint.Proofs.Outcomes

/-!
# Pairs on a command line

A word of the form `KEY=VALUE` writes a pair: the key is what stands before the first equals sign,
without the blanks around it, and the value is all that stands behind it (`Writes`).  A list of
pairs is gathered into a mapping, in which a key has the place of its first pair and the value of
its last one (`Gathers`).  One pair more is one step of this (`Gathers.put`), so **words are read as
the mapping that their pairs gather to**, and reading breaks off just if one of them has no equals
sign.  `pairsOf_contract` adds that a mapping of texts, written pair by pair, is read back as it
was.
-/

namespace ProjectLint

/-! ### Cutting and trimming -/

namespace Text

variable {d : Char} {cs : List Char}

theorem cutList_of_notMem (h : d ∉ cs) : cutList d cs = (cs, none) := by
  have hall : cs.takeWhile (· ≠ d) = cs := by
    rw [List.takeWhile_eq_self_iff]
    exact fun c hc => decide_eq_true fun he => h (he ▸ hc)
  simp only [cutList, hall, List.drop_length]

theorem cutList_append_cons {before : List Char} (h : d ∉ before) (after : List Char) :
    cutList d (before ++ d :: after) = (before, some after) := by
  have hall : ∀ c ∈ before, decide (c ≠ d) = true :=
    fun c hc => decide_eq_true fun he => h (he ▸ hc)
  have hbefore : (before ++ d :: after).takeWhile (· ≠ d) = before := by
    rw [List.takeWhile_append_of_pos hall, List.takeWhile_cons_of_neg (by simp), List.append_nil]
  simp only [cutList, hbefore, List.drop_left]

/-- The characters neither begin nor end with a blank. -/
def Bare (cs : List Char) : Prop :=
  (∀ c ∈ cs.head?, isBlank c = false) ∧ ∀ c ∈ cs.getLast?, isBlank c = false

theorem bare_iff : (cs.head?.all (!isBlank ·) && cs.getLast?.all (!isBlank ·)) = true ↔
    Bare cs := by
  rw [Bool.and_eq_true, Option.all_eq_true, Option.all_eq_true]
  simp only [Bool.not_eq_true']
  rfl

instance (cs : List Char) : Decidable (Bare cs) := decidable_of_iff _ bare_iff

/-- What is left of characters without the blanks around them. -/
structure Trims (cs core : List Char) : Prop where
  bare : Bare core
  around : ∃ front back, cs = front ++ core ++ back ∧ (∀ c ∈ front, isBlank c = true) ∧
    ∀ c ∈ back, isBlank c = true

theorem exists_dropWhile_isBlank (cs : List Char) : ∃ front, cs = front ++ cs.dropWhile isBlank ∧
    (∀ c ∈ front, isBlank c = true) ∧ ∀ c, (cs.dropWhile isBlank).head? = some c →
      isBlank c = false := by
  refine ⟨cs.takeWhile isBlank, List.takeWhile_append_dropWhile.symm,
    fun c => List.mem_takeWhile_imp, fun c hc => ?_⟩
  have hhead := List.head?_dropWhile_not isBlank cs
  rwa [hc] at hhead

theorem trims_trimList (cs : List Char) : Trims cs (trimList cs) := by
  obtain ⟨front, hfront, hblank, hhead⟩ := exists_dropWhile_isBlank cs
  obtain ⟨back, hback, hblank', hlast⟩ := exists_dropWhile_isBlank (cs.dropWhile isBlank).reverse
  have hcore : cs.dropWhile isBlank = trimList cs ++ back.reverse := by
    rw [← List.reverse_reverse (cs.dropWhile isBlank), hback, List.reverse_append]
    rfl
  refine ⟨⟨fun c hc => hhead c ?_, fun c hc => hlast c ?_⟩, front, back.reverse, ?_, hblank,
    fun c hc => hblank' c (List.mem_reverse.mp hc)⟩
  · rw [hcore, List.head?_append, hc, Option.some_or]
  · rwa [trimList, trimWhere, List.getLast?_reverse] at hc
  · rw [List.append_assoc, ← hcore, ← hfront]

theorem dropWhile_isBlank_of_head (h : ∀ c ∈ cs.head?, isBlank c = false) :
    cs.dropWhile isBlank = cs := by
  cases cs with
  | nil => rfl
  | cons c cs => rw [List.dropWhile_cons, h c rfl]; rfl

theorem trimList_of_bare (h : Bare cs) : trimList cs = cs := by
  have hlast : ∀ c ∈ cs.reverse.head?, isBlank c = false := List.head?_reverse ▸ h.2
  rw [trimList, trimWhere, dropWhile_isBlank_of_head h.1, dropWhile_isBlank_of_head hlast,
    List.reverse_reverse]

end Text

namespace Options

open Text

variable {word : String} {words : List String} {pair : String × String}
    {pairs mapping : List (String × String)}
  {es : Entries} {p : Parameter}

/-! ### Words -/

/-- The key of a pair is trimmed and its value is not. -/
structure Writes (word : String) (pair : String × String) : Prop where
  split : ∃ before, word.toList = before ++ '=' :: pair.2.toList ∧ '=' ∉ before ∧
    Trims before pair.1.toList

/-- The form in which a pair is written. -/
def written (pair : String × String) : String := pair.1 ++ "=" ++ pair.2

theorem pairOf_of_notMem (h : '=' ∉ word.toList) : pairOf word = .error .outOfRange := by
  rw [pairOf, cutList_of_notMem h]

/-- **A word is read as a pair that it writes.** -/
theorem exists_pairOf (h : '=' ∈ word.toList) : ∃ pair, pairOf word = .ok pair ∧
    Writes word pair := by
  obtain ⟨before, after, hword, hbefore⟩ := List.eq_append_cons_of_mem h
  refine ⟨_, by rw [pairOf, hword, cutList_append_cons hbefore], before, ?_, hbefore, ?_⟩
  · rw [hword, String.toList_ofList]
  · rw [String.toList_ofList]
    exact trims_trimList before

theorem pairOf_written (hkey : '=' ∉ pair.1.toList) (hbare : Bare pair.1.toList) :
    pairOf (written pair) = .ok pair := by
  have hlist : (written pair).toList = pair.1.toList ++ '=' :: pair.2.toList := by
    simp [written, String.toList_append]
  rw [pairOf, hlist, cutList_append_cons hkey]
  show Except.ok (String.ofList (trimList pair.1.toList), String.ofList pair.2.toList) = _
  rw [trimList_of_bare hbare, String.ofList_toList, String.ofList_toList]

/-! ### Gathering pairs -/

/-- The mapping of a list of pairs: keys in the order in which they first came, each with the value
of its last pair. -/
structure Gathers (pairs : List (String × String)) (es : Entries) : Prop where
  keys : es.map (·.1) = (pairs.map (·.1)).eraseDups.map .str
  last : ∀ key, es.get? key = (pairs.filter fun p => p.1 == key).getLast?.map fun p => .str p.2

/-- **One pair more** is put into its place. -/
theorem Gathers.put (h : Gathers pairs es) (pair : String × String) :
    Gathers (pairs ++ [pair]) (Entries.put es pair.1 (.str pair.2)) where
  keys := by
    have hold : Entries.contains es (.str pair.1) = true ↔ pair.1 ∈ pairs.map (·.1) := by
      rw [Entries.contains_str, h.keys, List.mem_map_of_injective fun _ _ =>
        Scalar.str.inj, List.mem_eraseDups]
    rw [Entries.put, Entries.map_fst_insert, List.map_append, List.eraseDups_append, h.keys]
    split
    · rename_i hkey
      have hnone : ([pair].map (·.1)).removeAll (pairs.map (·.1)) = [] := by
        simpa [List.removeAll] using hold.mp hkey
      rw [hnone, List.eraseDups_nil, List.append_nil]
    · rename_i hkey
      have hnew : ([pair].map (·.1)).removeAll (pairs.map (·.1)) = [pair.1] := by
        simpa [List.removeAll] using mt hold.mpr hkey
      rw [hnew, List.map_append]
      rfl
  last key := by
    rw [List.filter_append, List.getLast?_append]
    by_cases hkey : pair.1 = key
    · subst hkey
      rw [Entries.get?_put_self]
      simp
    · rw [Entries.get?_put_of_ne hkey, h.last]
      simp [hkey]

/-! ### Reading words -/

theorem pairsOf_concat (words : List String) (word : String) : pairsOf (words ++ [word]) =
    pairsOf words >>= fun es => (pairOf word).map fun p => Entries.put es p.1 (.str p.2) := by
  rw [pairsOf, List.foldlM_append]
  refine bind_congr fun es => ?_
  rw [List.foldlM_cons]
  exact bind_pure _

/-- **Words are read one after another**, and their pairs are gathered. -/
theorem exists_gathers (h : ∀ w ∈ words, '=' ∈ w.toList) :
    ∃ pairs es, List.Forall₂ Writes words pairs ∧ Gathers pairs es ∧ pairsOf words = .ok es := by
  induction words using List.reverseRecOn with
  | nil => exact ⟨[], [], .nil, ⟨rfl, fun _ => rfl⟩, rfl⟩
  | append_singleton words word ih =>
    obtain ⟨hwords, hword⟩ := List.forall_mem_append.mp h
    obtain ⟨pairs, es, hwrites, hgathers, hread⟩ := ih hwords
    obtain ⟨pair, hpair, hwrite⟩ := exists_pairOf (hword word List.mem_cons_self)
    refine ⟨pairs ++ [pair], _, List.rel_append hwrites (.cons hwrite .nil), hgathers.put pair, ?_⟩
    rw [pairsOf_concat, hread, hpair]
    rfl

/-- **When reading breaks off.** -/
theorem pairsOf_eq_error_iff : pairsOf words = .error .outOfRange ↔
    ∃ w ∈ words, '=' ∉ w.toList := by
  constructor
  · intro h
    by_contra hnone
    obtain ⟨_, _, -, -, hread⟩ :=
      exists_gathers fun w hw => by_contra fun hnot => hnone ⟨w, hw, hnot⟩
    rw [hread] at h
    cases h
  · induction words using List.reverseRecOn with
    | nil => rintro ⟨w, hw, -⟩; cases hw
    | append_singleton words word ih =>
      rintro ⟨w, hw, hnot⟩
      rw [pairsOf_concat]
      by_cases hall : ∀ w ∈ words, '=' ∈ w.toList
      · -- then it is the last word
        obtain hw := (List.mem_append.mp hw).resolve_left fun hw => hnot (hall w hw)
        obtain ⟨_, _, -, -, hread⟩ := exists_gathers hall
        rw [hread, ← List.mem_singleton.mp hw, pairOf_of_notMem hnot]
        rfl
      · rw [ih (by simpa using hall)]
        rfl

/-- A mapping from texts to texts. -/
def textEntries (pairs : List (String × String)) : Entries :=
  pairs.map fun p => (.str p.1, .str p.2)

/-- **A mapping that is written is read back.** -/
theorem pairsOf_written (hnodup : (mapping.map (·.1)).Nodup)
    (hkeys : ∀ e ∈ mapping, '=' ∉ e.1.toList ∧ Bare e.1.toList) :
    pairsOf (mapping.map written) = .ok (textEntries mapping) := by
  induction mapping using List.reverseRecOn with
  | nil => rfl
  | append_singleton mapping e ih =>
    obtain ⟨hmapping, he⟩ := List.forall_mem_append.mp hkeys
    obtain ⟨hequals, hbare⟩ := he e List.mem_cons_self
    rw [List.map_append, List.nodup_append] at hnodup
    have hnew : Entries.contains (textEntries mapping) (.str e.1) = false := by
      rw [Bool.eq_false_iff, ne_eq, Entries.contains_str, textEntries, List.map_map]
      intro hmem
      obtain ⟨f, hf, hkey⟩ := List.mem_map.mp hmem
      exact hnodup.2.2 _ (List.mem_map_of_mem hf) _ List.mem_cons_self (Scalar.str.inj hkey)
    rw [List.map_append, List.map_singleton, pairsOf_concat, ih hnodup.1 hmapping, ok_bind,
      pairOf_written hequals hbare, ok_map, Entries.put, Entries.insert_of_not_contains _ hnew,
        textEntries, textEntries,
      List.map_append]
    rfl

/-! ### Options that hold pairs -/

/-- An option for pairs that allows all words and goes with all other options. -/
structure TakesPairs (p : Parameter) : Prop where
  reading : p.reading = .pairs
  choices : p.choices = []
  rivals : p.rivals = []

theorem Arguments.find?_set (a : Arguments) (name other : String) (v : Value) :
    (a.set name v).values.find? (fun e => e.1 == other) =
      (a.values.find? fun e => e.1 == other).map fun e => if e.1 == name then (name, v) else e := by
  rw [Arguments.set, List.find?_map]
  congr 2
  funext e
  rw [Function.comp_apply]
  split
  · rename_i hname
    rw [beq_iff_eq.mp hname]
  · rfl

theorem Arguments.value_set_self {a : Arguments} {name : String} (h : name ∈ a.values.map (·.1))
    (v : Value) :
    (a.set name v).value name = v := by
  obtain ⟨e, he, hname⟩ := List.mem_map.mp h
  obtain ⟨found, hfound⟩ : ∃ found, a.values.find? (fun e => e.1 == name) = some found :=
    Option.isSome_iff_exists.mp (List.find?_isSome.mpr ⟨e, he, beq_iff_eq.mpr hname⟩)
  have hkey := List.find?_some hfound
  rw [Arguments.value, Arguments.find?_set, hfound, Option.map_some, if_pos hkey]
  rfl

theorem Arguments.value_set_of_ne {name other : String} (hne : other ≠ name) (a : Arguments)
    (v : Value) :
    (a.set name v).value other = a.value other := by
  rw [Arguments.value, Arguments.find?_set, Arguments.value]
  cases hfind : a.values.find? fun e => e.1 == other with
  | none => rfl
  | some found =>
    have hkey := List.find?_some hfind
    rw [Option.map_some, if_neg (by rw [beq_iff_eq.mp hkey]; simpa using hne)]

theorem wordValues_of_takesPairs (hp : TakesPairs p) (words : List String) :
    wordValues p words = .ok (words.map .str) := by
  have hvalues :
      words.mapM (fun w => if p.reading == .integer then integerWord p w else .ok (.str w)) =
        .ok (words.map .str) := by
    refine mapM_eq_ok_map fun w _ => ?_
    rw [hp.reading]
    rfl
  have hchoices : ∀ words : List String, words.forM (checkChoice p) = .ok () := by
    intro words
    induction words with
    | nil => rfl
    | cons w words ih =>
      have hw : checkChoice p w = .ok () := by
        rw [checkChoice, hp.choices]
        rfl
      show (checkChoice p w >>= fun _ => words.forM (checkChoice p)) = _
      rw [hw, ok_bind, ih]
  rw [wordValues, hvalues, ok_bind, hchoices]
  rfl

theorem take_pairs (hp : TakesPairs p) (words : List String) (s : Progress) :
    take p words s = (asFault ((pairsOf words).map .map)).map fun v =>
      { s with arguments := s.arguments.set p.name v, seen := p.name :: s.seen } := by
  rw [take, wordValues_of_takesPairs hp, ok_bind, hp.rivals, hp.reading]
  cases pairsOf words <;> rfl

/-- **What is taken for an option is kept under its name**, and nothing is if a word cannot be
read. -/
structure Keeps (p : Parameter) (words : List String) (s : Progress) : Prop where
  held : ∀ es, pairsOf words = .ok es → ∃ s', take p words s = .ok s' ∧
    s'.arguments.value p.name = .map es ∧
    ∀ other, other ≠ p.name → s'.arguments.value other = s.arguments.value other
  refused : ∀ f, pairsOf words = .error f → take p words s = .error (.fault f)

theorem keeps_of_takesPairs (hp : TakesPairs p) (words : List String) {s : Progress}
    (hplace : p.name ∈ s.arguments.values.map (·.1)) : Keeps p words s where
  held es hes := by
    refine ⟨_, by rw [take_pairs hp, hes]; rfl, Arguments.value_set_self hplace _,
      fun other hne => ?_⟩
    exact Arguments.value_set_of_ne hne _ _
  refused f hf := by
    rw [take_pairs hp, hf]
    rfl

/-- **Pairs are read as a mapping.**  Reading breaks off just if a word has no equals sign.
Otherwise each word writes a pair, and what is read are these pairs gathered: the keys in the order
in which they first came, each with the value of its last pair.  A mapping whose keys have no equals
sign and no blanks around them is read back from the words that write its pairs.  An option for
pairs holds what was read. -/
theorem pairsOf_contract (words : List String) :
    (pairsOf words = .error .outOfRange ↔ ∃ w ∈ words, '=' ∉ w.toList) ∧
    ((∀ w ∈ words, '=' ∈ w.toList) → ∃ pairs es, List.Forall₂ Writes words pairs ∧
      Gathers pairs es ∧ pairsOf words = .ok es) ∧
    (∀ mapping : List (String × String), (mapping.map (·.1)).Nodup →
      (∀ e ∈ mapping, '=' ∉ e.1.toList ∧ Bare e.1.toList) →
        pairsOf (mapping.map written) = .ok (textEntries mapping)) ∧
    ∀ (p : Parameter) (s : Progress), TakesPairs p → p.name ∈ s.arguments.values.map (·.1) →
      Keeps p words s := by
  exact ⟨pairsOf_eq_error_iff, exists_gathers, fun _ => pairsOf_written,
    fun p s hp => keeps_of_takesPairs hp words⟩

theorem takesPairs_testPairs : TakesPairs Hooks.testPairs := ⟨rfl, rfl, rfl⟩

def countWords : List String := ["unique =1=2", "\tnot_null=", "unique= 3"]

/-- The second count of the first key takes the first one's place, and a value may hold equals signs
and blanks. -/
theorem pairsOf_contract_countWords :
    (∀ w ∈ countWords, '=' ∈ w.toList) ∧
    (∃ pairs es, List.Forall₂ Writes countWords pairs ∧ Gathers pairs es ∧
      pairsOf countWords = .ok es) ∧
    pairsOf ["b=x=1", "=", "a= "] = .ok (textEntries [("b", "x=1"), ("", ""), ("a", " ")]) ∧
    Keeps Hooks.testPairs countWords (start ⟨true, [Hooks.testPairs]⟩) := by
  have hall : ∀ w ∈ countWords, '=' ∈ w.toList := by decide
  obtain ⟨-, hread, hback, hkeeps⟩ := pairsOf_contract countWords
  exact ⟨hall, hread hall, hback [("b", "x=1"), ("", ""), ("a", " ")] (by decide) (by decide),
    hkeeps _ _ takesPairs_testPairs (by decide)⟩

example : pairsOf ["unique =1=2", "\tnot_null=", "unique= 3"] =
    .ok [(.str "unique", .str " 3"), (.str "not_null", .str "")] := rfl

end Options

end ProjectLint
