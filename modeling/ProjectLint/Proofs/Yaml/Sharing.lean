import ProjectLint.Proofs.Yaml.Numbers
import ProjectLint.Yaml.Document

/-!
# Shared parts of a document

The marks of a document say which node stands at which place.  A node that stands at several places
was built several times, each time with other fuel and at another depth, and neither shows in the
value (`agree_build`).  Since nodes with one number are one node, **the places that share a number
hold one value** (`coherent_of_read`), unless one of them stands inside of itself.
-/

namespace ProjectLint.Yaml

/-! ### Buildings that agree -/

def Agree {α : Type} (x y : Building α) : Prop := ∀ a b, x = .ok a → y = .ok b → a = b

namespace Agree

variable {α : Type}

theorem refl (x : Building α) : Agree x x := fun _ _ ha hb => Except.ok.inj (ha.symm.trans hb)

theorem error (f : DeepFault) (y : Building α) : Agree (.error f) y := fun _ _ ha => nomatch ha

variable {β : Type}

theorem bind {x y : Building α} {f g : α → Building β} (h : Agree x y)
    (hf : ∀ a, Agree (f a) (g a)) :
    Agree (x >>= f) (y >>= g) := by
  intro b b' hb hb'
  obtain ⟨a, hx, hfa⟩ := bind_eq_ok_iff.mp hb
  obtain ⟨a', hy, hga⟩ := bind_eq_ok_iff.mp hb'
  obtain rfl := h a a' hx hy
  exact hf a b b' hfa hga

theorem map {β : Type} {x y : Building α} (h : Agree x y) (f : α → β) :
    Agree (x.map f) (y.map f) := by
  intro b b' hb hb'
  obtain ⟨a, hx, rfl⟩ := map_eq_ok_iff.mp hb
  obtain ⟨a', hy, rfl⟩ := map_eq_ok_iff.mp hb'
  rw [h a a' hx hy]

theorem mapM {f g : α → Building β} (h : ∀ a, Agree (f a) (g a)) :
    ∀ l : List α, Agree (l.mapM f) (l.mapM g) := by
  intro l
  induction l with
  | nil => exact refl _
  | cons a l ih =>
    rw [List.mapM_cons, List.mapM_cons]
    exact (h a).bind fun b => ih.bind fun bs => refl _

theorem filterMapM {f g : α → Building (Option β)} (h : ∀ a, Agree (f a) (g a)) : ∀ l : List α,
    Agree (l.filterMapM f) (l.filterMapM g) := by
  intro l
  induction l with
  | nil => exact refl _
  | cons a l ih =>
    rw [List.filterMapM_cons, List.filterMapM_cons]
    refine (h a).bind fun b => ?_
    cases b with
    | none => exact ih
    | some b => exact ih.bind fun bs => refl _

end Agree

theorem both_eq_ok_iff {x : Building α} {y : Building β} {p : α × β} :
    both x y = .ok p ↔ x = .ok p.1 ∧ y = .ok p.2 := by
  cases x with
  | error e => cases y <;> simp [both]
  | ok a =>
    cases y with
    | error e => simp [both]
    | ok b => simp [both, Prod.ext_iff]

/-- A list of buildings gives a list of results, one for each. -/
theorem sequence_eq_ok_iff : ∀ {xs : List (Building α)} {as : List α}, sequence xs = .ok as ↔
    xs = as.map .ok := by
  intro xs
  induction xs with
  | nil =>
    intro as
    cases as with
    | nil => simp [sequence]
    | cons a as => simp [sequence]
  | cons x xs ih =>
    intro as
    rw [sequence, map_eq_ok_iff]
    constructor
    · rintro ⟨p, hp, rfl⟩
      obtain ⟨hx, hxs⟩ := both_eq_ok_iff.mp hp
      rw [hx, ih.mp hxs, List.map_cons]
    · intro h
      cases as with
      | nil => cases h
      | cons a as =>
        rw [List.map_cons, List.cons.injEq] at h
        exact ⟨(a, as), both_eq_ok_iff.mpr ⟨h.1, ih.mpr h.2⟩, rfl⟩

theorem Agree.both {x x' : Building α} {y y' : Building β} (h : Agree x x') (h' : Agree y y') :
    Agree (Yaml.both x y) (Yaml.both x' y') := by
  intro p q hp hq
  obtain ⟨hx, hy⟩ := both_eq_ok_iff.mp hp
  obtain ⟨hx', hy'⟩ := both_eq_ok_iff.mp hq
  exact Prod.ext (h _ _ hx hx') (h' _ _ hy hy')

theorem Agree.sequence {f g : α → Building β} (h : ∀ a, Agree (f a) (g a)) : ∀ l : List α,
    Agree (Yaml.sequence (l.map f)) (Yaml.sequence (l.map g)) := by
  intro l
  induction l with
  | nil => exact refl _
  | cons a l ih => exact ((h a).both ih).map _

/-! ### Fuel and depth do not show -/

theorem agree_flatten_broughtIn : ∀ (fuel fuel' depth depth' : Nat),
    (∀ entries, Agree (flatten depth fuel entries) (flatten depth' fuel' entries)) ∧
      ∀ source, Agree (broughtIn depth fuel source) (broughtIn depth' fuel' source) := by
  intro fuel
  induction fuel with
  | zero =>
    intro fuel' depth depth'
    refine ⟨fun entries a b ha => ?_, fun source a b ha => ?_⟩
    · rw [flatten] at ha; cases ha
    · rw [broughtIn] at ha; cases ha
  | succ fuel ih =>
    intro fuel' depth depth'
    cases fuel' with
    | zero =>
      refine ⟨fun entries a b _ hb => ?_, fun source a b _ hb => ?_⟩
      · rw [flatten] at hb; cases hb
      · rw [broughtIn] at hb; cases hb
    | succ fuel' =>
      obtain ⟨hflatten, hbrought⟩ := ih fuel' depth depth'
      constructor
      · intro entries
        rw [flatten, flatten]
        refine (Agree.filterMapM (fun e => ?_) entries).bind fun merged => Agree.refl _
        obtain ⟨k, v⟩ := e
        dsimp only
        split
        · exact (hbrought v).map some
        · exact Agree.refl _
      · intro source
        unfold broughtIn
        split
        · exact hflatten _
        · exact Agree.refl _
        · refine (Agree.mapM (fun item => ?_) _).bind fun lists => Agree.refl _
          split
          · exact hflatten _
          · exact Agree.refl _
          · intro a b ha; cases ha
        · intro a b ha; cases ha

theorem agree_scalarText : ∀ (fuel fuel' depth depth' : Nat) (node : YamlNode),
    Agree (scalarText depth fuel node) (scalarText depth' fuel' node) := by
  intro fuel
  induction fuel with
  | zero => intro fuel' depth depth' node a b ha; cases ha
  | succ fuel ih =>
    intro fuel' depth depth' node
    cases fuel' with
    | zero => intro a b _ hb; cases hb
    | succ fuel' =>
      cases node with
      | scalar id tag text => exact Agree.refl _
      | seq id tag items => intro a b ha; cases ha
      | map id tag entries =>
        rw [scalarText, scalarText]
        split
        · exact ih fuel' depth depth' _
        · intro a b ha; cases ha
      | enclosing id tag shape => intro a b ha; cases ha

theorem agree_intValue (depth depth' : Nat) (text : String) :
    Agree (intValue depth text) (intValue depth' text) := by
  unfold intValue
  dsimp only
  split
  · exact Agree.error _ _
  · split
    · exact Agree.refl _
    · exact Agree.error _ _

theorem agree_floatValue (depth depth' : Nat) (text : String) :
    Agree (floatValue depth text) (floatValue depth' text) := by
  unfold floatValue
  dsimp only
  split
  · exact Agree.error _ _
  · split
    · exact Agree.refl _
    · exact Agree.error _ _

theorem agree_boolValue (depth depth' : Nat) (text : String) :
    Agree (boolValue depth text) (boolValue depth' text) := by
  unfold boolValue
  dsimp only
  split
  · exact Agree.refl _
  · split
    · exact Agree.refl _
    · exact Agree.error _ _

theorem agree_timeValue (depth depth' : Nat) (text : String) :
    Agree (timeValue depth text) (timeValue depth' text) := by
  unfold timeValue
  split
  · exact Agree.error _ _
  · split
    · exact Agree.refl _
    · exact Agree.error _ _
  · dsimp only
    split
    · exact Agree.refl _
    · exact Agree.error _ _

theorem agree_binaryValue (depth depth' : Nat) (text : String) :
    Agree (binaryValue depth text) (binaryValue depth' text) := by
  unfold binaryValue
  split
  · exact Agree.error _ _
  · split
    · exact Agree.refl _
    · exact Agree.error _ _

theorem agree_scalarValue (depth depth' : Nat) (tag : Tag) (text : String) :
    Agree (scalarValue depth tag text) (scalarValue depth' tag text) := by
  unfold scalarValue
  split
  · exact Agree.refl _
  · exact agree_boolValue depth depth' text
  · exact agree_intValue depth depth' text
  · exact agree_floatValue depth depth' text
  · exact Agree.refl _
  · exact agree_timeValue depth depth' text
  · exact agree_binaryValue depth depth' text
  · exact Agree.error _ _

/-! ### The forms of a node -/

/-- A key and its value, built. -/
def buildEntry (fuel depth : Nat) (entry : YamlNode × YamlNode) : Building (Scalar × Built) :=
  match if (asKey entry.1).tag.isCollection then meaningless (depth + 1)
    else build fuel (depth + 1) (asKey entry.1) with
  | .error f => .error f
  | .ok kb =>
    match keyOf (depth + 1) kb with
    | .error f => .error f
    | .ok key => (build fuel (depth + 1) entry.2).map fun b => (key, b)

def buildEntries (fuel depth : Nat) (entries : List (YamlNode × YamlNode)) :
    Building (List (Scalar × Built)) := do
  let flat ← flatten (depth + 1) (fuel + 1) entries
  let pairs ← sequence (flat.map (buildEntry fuel depth))
  return pairs.foldl (fun acc (p : Scalar × Built) => insertBuilt p.1 p.2 acc) []

/-- A mapping with one entry, built as a pair. -/
def buildPair (fuel depth : Nat) (node : YamlNode) : Building Built :=
  match node with
  | .map _ _ [(k, v)] =>
    (both (build fuel (depth + 1) k) (build fuel (depth + 1) v)).map fun (kb, vb) =>
      (⟨.pair kb.value vb.value, under 0 kb ++ under 1 vb⟩ : Built)
  | _ => meaningless (depth + 1)

def scalarMarks (id : Nat) : Value → List (Place × Nat)
  | .scalar (.date _) => [([], id)]
  | .scalar (.moment _) => [([], id)]
  | _ => []

/-- **The forms of a node**, with the value that each is given. -/
inductive Form : YamlNode → Prop
  | scalar (n : YamlNode)
      (eq : ∀ fuel depth, build (fuel + 1) depth n = (do
        let text ← scalarText depth (fuel + 1) n
        let value ← scalarValue depth n.tag text
        return ⟨value, scalarMarks n.id value⟩)) : Form n
  | items (id : Nat) (nodes : List YamlNode)
      (eq : ∀ fuel depth, build (fuel + 1) depth (.seq id .seq nodes) = (do
        let built ← sequence (nodes.map (build fuel (depth + 1)))
        return ⟨.seq (built.map (·.value)), ([], id) :: underAll 0 built⟩)) :
      Form (.seq id .seq nodes)
  | entries (id : Nat) (entries : List (YamlNode × YamlNode))
      (eq : ∀ fuel depth, build (fuel + 1) depth (.map id .map entries) = (do
        let built ← buildEntries fuel depth entries
        return ⟨.map (built.map fun e => (e.1, e.2.value)),
          ([], id) :: underAll 0 (built.map (·.2))⟩)) :
      Form (.map id .map entries)
  | members (id : Nat) (entries : List (YamlNode × YamlNode))
      (eq : ∀ fuel depth, build (fuel + 1) depth (.map id .set entries) = (do
        let built ← buildEntries fuel depth entries
        return ⟨.set (built.map (·.1)), [([], id)]⟩)) : Form (.map id .set entries)
  | pairs (id : Nat) (tag : Tag) (nodes : List YamlNode)
      (eq : ∀ fuel depth, build (fuel + 1) depth (.seq id tag nodes) = (do
        let built ← sequence (nodes.map (buildPair fuel depth))
        return ⟨.seq (built.map (·.value)), ([], id) :: underAll 0 built⟩)) : Form
          (.seq id tag nodes)
  | inside (id : Nat) (tag : Tag) (shape shape' : Shape)
      (eq : ∀ fuel depth, build (fuel + 1) depth (.enclosing id tag shape) = .ok ⟨.enclosing shape',
        [([], id)]⟩) :
      Form (.enclosing id tag shape)
  | senseless (n : YamlNode)
      (eq : ∀ fuel depth, build (fuel + 1) depth n = meaningless (depth + 1)) : Form n

theorem YamlNode.form (n : YamlNode) : Form n := by
  cases n with
  | scalar id tag text =>
    cases tag <;> first | exact .scalar _ fun _ _ => rfl | exact .senseless _ fun _ _ => rfl
  | seq id tag items =>
    cases tag <;>
      first
        | exact .items _ _ fun _ _ => rfl
        | exact .pairs _ _ _ fun _ _ => rfl
        | exact .scalar _ fun _ _ => rfl
        | exact .senseless _ fun _ _ => rfl
  | map id tag entries =>
    cases tag <;>
      first
        | exact .entries _ _ fun _ _ => rfl
        | exact .members _ _ fun _ _ => rfl
        | exact .scalar _ fun _ _ => rfl
        | exact .senseless _ fun _ _ => rfl
  | enclosing id tag shape =>
    cases tag <;> cases shape <;>
      first
        | exact .inside _ _ _ _ fun _ _ => rfl
        | exact .scalar _ fun _ _ => rfl
        | exact .senseless _ fun _ _ => rfl

theorem agree_buildEntry {fuel fuel' : Nat}
    (h : ∀ depth depth' n, Agree (build fuel depth n) (build fuel' depth' n))
    (depth depth' : Nat) (entry : YamlNode × YamlNode) :
    Agree (buildEntry fuel depth entry) (buildEntry fuel' depth' entry) := by
  intro a b ha hb
  unfold buildEntry at ha hb
  by_cases hkey : (asKey entry.1).tag.isCollection = true
  · rw [if_pos hkey] at ha
    cases ha
  · rw [if_neg hkey] at ha hb
    cases hk : build fuel (depth + 1) (asKey entry.1) with
    | error f => rw [hk] at ha; cases ha
    | ok kb =>
      cases hk' : build fuel' (depth' + 1) (asKey entry.1) with
      | error f => rw [hk'] at hb; cases hb
      | ok kb' =>
        obtain rfl := h _ _ _ kb kb' hk hk'
        rw [hk] at ha
        rw [hk'] at hb
        cases hs : kb.value with
        | scalar key =>
          simp only [keyOf, hs] at ha hb
          exact (h _ _ entry.2).map _ a b ha hb
        | seq items => simp [keyOf, hs, meaningless] at ha
        | map entries => simp [keyOf, hs, meaningless] at ha
        | set members => simp [keyOf, hs, meaningless] at ha
        | pair a b => simp [keyOf, hs, meaningless] at ha
        | enclosing shape => simp [keyOf, hs, meaningless] at ha

theorem agree_buildEntries {fuel fuel' : Nat}
    (h : ∀ depth depth' n, Agree (build fuel depth n) (build fuel' depth' n))
    (depth depth' : Nat) (entries : List (YamlNode × YamlNode)) :
    Agree (buildEntries fuel depth entries) (buildEntries fuel' depth' entries) := by
  unfold buildEntries
  refine ((agree_flatten_broughtIn _ _ _ _).1 entries).bind fun flat => ?_
  exact (Agree.sequence (agree_buildEntry h depth depth') flat).bind fun pairs => Agree.refl _

theorem agree_buildPair {fuel fuel' : Nat}
    (h : ∀ depth depth' n, Agree (build fuel depth n) (build fuel' depth' n))
    (depth depth' : Nat) (n : YamlNode) :
    Agree (buildPair fuel depth n) (buildPair fuel' depth' n) := by
  unfold buildPair
  split
  · exact ((h _ _ _).both (h _ _ _)).map _
  · exact Agree.error _ _

/-- **A node has one value**, with whatever fuel and at whatever depth it is built. -/
theorem agree_build : ∀ (fuel fuel' depth depth' : Nat) (n : YamlNode),
    Agree (build fuel depth n) (build fuel' depth' n) := by
  intro fuel
  induction fuel with
  | zero => intro fuel' depth depth' n; exact Agree.error _ _
  | succ fuel ih =>
    intro fuel' depth depth' n
    cases fuel' with
    | zero => intro a b _ hb; cases hb
    | succ fuel' =>
      cases n.form with
      | scalar n eq =>
        rw [eq, eq]
        refine (agree_scalarText _ _ _ _ n).bind fun text => ?_
        exact (agree_scalarValue _ _ _ text).bind fun value => Agree.refl _
      | items id nodes eq =>
        rw [eq, eq]
        exact (Agree.sequence (ih fuel' _ _) nodes).bind fun built => Agree.refl _
      | entries id entries eq =>
        rw [eq, eq]
        exact (agree_buildEntries (ih fuel') depth depth' entries).bind fun built => Agree.refl _
      | members id entries eq =>
        rw [eq, eq]
        exact (agree_buildEntries (ih fuel') depth depth' entries).bind fun built => Agree.refl _
      | pairs id tag nodes eq =>
        rw [eq, eq]
        exact (Agree.sequence (agree_buildPair (ih fuel') depth depth') nodes).bind fun built =>
          Agree.refl _
      | inside id tag shape shape' eq =>
        rw [eq, eq]
        exact Agree.refl _
      | senseless n eq =>
        rw [eq]
        exact Agree.error _ _

end ProjectLint.Yaml

namespace ProjectLint

def Value.isPlain : Value → Bool
  | .scalar .null => true
  | .scalar (.str _) => true
  | _ => false

def Value.isEnclosing : Value → Bool
  | .enclosing _ => true
  | _ => false

theorem Value.eq_of_isPlain {v : Value} (h : v.isPlain = true) : v = .null ∨ ∃ s, v = .str s := by
  cases v with
  | scalar a =>
    cases a with
    | null => exact .inl rfl
    | str s => exact .inr ⟨s, rfl⟩
    | _ => cases h
  | _ => cases h

theorem Value.eq_of_isEnclosing {v : Value} (h : v.isEnclosing = true) :
    ∃ shape, v = .enclosing shape := by
  cases v with
  | enclosing shape => exact ⟨shape, rfl⟩
  | _ => cases h

end ProjectLint

namespace ProjectLint.Yaml

/-! ### Marks -/

open YamlNode

def Given (n : YamlNode) (v : Value) : Prop :=
  ∃ fuel depth b, build fuel depth n = .ok b ∧ b.value = v

variable {v : Value} {d : Document} {n root : YamlNode} {b : Built}

theorem Given.unique {v' : Value} (h : Given n v) (h' : Given n v') : v = v' := by
  obtain ⟨fuel, depth, b, hb, rfl⟩ := h
  obtain ⟨fuel', depth', b', hb', rfl⟩ := h'
  rw [agree_build fuel fuel' depth depth' n b b' hb hb']

theorem Given.isEnclosing (h : Given n v) (hn : n.isEnclosing = true) : v.isEnclosing = true := by
  obtain ⟨fuel, depth, b, hb, rfl⟩ := h
  cases fuel with
  | zero => cases hb
  | succ fuel =>
    cases n.form with
    | scalar n eq =>
      cases n with
      | enclosing id tag shape => rw [eq] at hb; cases hb
      | scalar id tag text => cases hn
      | seq id tag items => cases hn
      | map id tag entries => cases hn
    | items id nodes eq => cases hn
    | entries id entries eq => cases hn
    | members id entries eq => cases hn
    | pairs id tag nodes eq => cases hn
    | inside id tag shape shape' eq => rw [eq] at hb; cases hb; rfl
    | senseless n eq => rw [eq] at hb; cases hb

def Sound (root : YamlNode) (v : Value) (marks : List (Place × Nat)) : Prop :=
  ∀ m ∈ marks, ∃ n x, Occurs n root ∧ n.id = m.2 ∧ valueAt? v m.1 = some x ∧ Given n x ∧
    x.isPlain = false

theorem Sound.nil (root : YamlNode) (v : Value) : Sound root v [] := fun _ hm => nomatch hm

theorem Sound.self {fuel depth : Nat} (h : build fuel depth root = .ok b)
    (hplain : b.value.isPlain = false) :
    Sound root b.value [([], root.id)] := by
  intro m hm
  obtain rfl := List.mem_singleton.mp hm
  exact ⟨root, b.value, .self root, rfl, by rw [valueAt?], ⟨fuel, depth, b, h, rfl⟩, hplain⟩

theorem Sound.append {marks marks' : List (Place × Nat)} (h : Sound root v marks)
    (h' : Sound root v marks') :
    Sound root v (marks ++ marks') := by
  exact List.forall_mem_append.mpr ⟨h, h'⟩

theorem Sound.under {i : Nat} (h : Sound n b.value b.marks) (hn : Occurs n root)
    (hat : ∀ place, valueAt? v (i :: place) = valueAt? b.value place) :
    Sound root v (Yaml.under i b) := by
  intro m hm
  obtain ⟨m', hm', rfl⟩ := List.mem_map.mp hm
  obtain ⟨k, x, hk, hid, hx, hgiven, hplain⟩ := h m' hm'
  exact ⟨k, x, hk.trans hn, hid, (hat m'.1).trans hx, hgiven, hplain⟩

theorem Sound.underAll : ∀ {built : List Built} {start : Nat},
    (∀ i b, built[i]? = some b → ∃ n, Occurs n root ∧ Sound n b.value b.marks ∧
      ∀ place, valueAt? v ((start + i) :: place) = valueAt? b.value place) →
    Sound root v (Yaml.underAll start built) := by
  intro built
  induction built with
  | nil => intro start _; exact Sound.nil root v
  | cons b built ih =>
    intro start h
    obtain ⟨n, hn, hsound, hat⟩ := h 0 b rfl
    refine (hsound.under hn hat).append (ih fun i b' hb' => ?_)
    obtain ⟨n', hn', hsound', hat'⟩ := h (i + 1) b' hb'
    exact ⟨n', hn', hsound', fun place => by rw [Nat.add_right_comm]; exact hat' place⟩

/-! ### Merged entries -/

/-- What a merge brings in stands in the node that it names. -/
theorem occurs_of_flatten : ∀ (fuel depth : Nat),
    (∀ entries flat, flatten depth fuel entries = .ok flat →
      ∀ e ∈ flat, ∀ id tag, Occurs e.2 (.map id tag entries)) ∧
    ∀ source flat, broughtIn depth fuel source = .ok flat → ∀ e ∈ flat, Occurs e.2 source := by
  intro fuel
  induction fuel with
  | zero =>
    intro depth
    exact ⟨fun _ _ h => (nomatch h), fun _ _ h => nomatch h⟩
  | succ fuel ih =>
    intro depth
    obtain ⟨hflatten, hbrought⟩ := ih depth
    constructor
    · intro entries flat h e he id tag
      rw [flatten] at h
      obtain ⟨merged, hmerged, h⟩ := bind_eq_ok_iff.mp h
      cases h
      rcases List.mem_append.mp he with he | he
      · obtain ⟨part, hpart, he⟩ := List.mem_flatten.mp he
        obtain ⟨⟨k, v⟩, hkv, hfrom⟩ := mem_of_filterMapM hmerged part hpart
        dsimp only at hfrom
        split at hfrom
        · obtain ⟨part', hv, heq⟩ := map_eq_ok_iff.mp hfrom
          cases heq
          exact .value hkv (hbrought v part hv e he)
        · cases hfrom
      · exact .value (List.mem_of_mem_filter he) (.self e.2)
    · intro source flat h e he
      cases source with
      | scalar id tag text => cases h
      | map id tag entries => exact hflatten entries flat h e he id tag
      | enclosing id tag shape =>
        cases shape with
        | map => cases h; cases he
        | seq => cases h
        | set => cases h
      | seq id tag items =>
        rw [broughtIn] at h
        obtain ⟨lists, hlists, h⟩ := bind_eq_ok_iff.mp h
        cases h
        obtain ⟨part, hpart, he⟩ := List.mem_flatten.mp he
        obtain ⟨item, hitem, hfrom⟩ := mem_of_mapM hlists part (List.mem_reverse.mp hpart)
        refine .item hitem ?_
        cases item with
        | scalar id tag text => cases hfrom
        | seq id tag items => cases hfrom
        | map id tag entries => exact hflatten entries part hfrom e he id tag
        | enclosing id tag shape =>
          cases shape with
          | map => cases hfrom; cases he
          | seq => cases hfrom
          | set => cases hfrom

theorem mem_of_mem_insertBuilt {key : Scalar} :
    ∀ {acc : List (Scalar × Built)} {e : Scalar × Built},
    e ∈ insertBuilt key b acc → e.2 = b ∨ ∃ e' ∈ acc, e'.2 = e.2 := by
  intro acc
  induction acc with
  | nil =>
    intro e he
    exact .inl (by rw [List.mem_singleton.mp he])
  | cons entry acc ih =>
    intro e he
    obtain ⟨k, old⟩ := entry
    rw [insertBuilt] at he
    split at he
    · rcases List.mem_cons.mp he with rfl | he
      · exact .inl rfl
      · exact .inr ⟨e, List.mem_cons_of_mem _ he, rfl⟩
    · rcases List.mem_cons.mp he with rfl | he
      · exact .inr ⟨_, List.mem_cons_self, rfl⟩
      · rcases ih he with heq | ⟨e', he', heq⟩
        · exact .inl heq
        · exact .inr ⟨e', List.mem_cons_of_mem _ he', heq⟩

theorem mem_of_mem_foldl_insertBuilt : ∀ {pairs acc : List (Scalar × Built)} {e : Scalar × Built},
    e ∈ pairs.foldl (fun acc (p : Scalar × Built) => insertBuilt p.1 p.2 acc) acc →
      (∃ p ∈ pairs, p.2 = e.2) ∨ ∃ p ∈ acc, p.2 = e.2 := by
  intro pairs
  induction pairs with
  | nil => intro acc e he; exact .inr ⟨e, he, rfl⟩
  | cons p pairs ih =>
    intro acc e he
    rcases ih he with ⟨p', hp', heq⟩ | ⟨p', hp', heq⟩
    · exact .inl ⟨p', List.mem_cons_of_mem _ hp', heq⟩
    · rcases mem_of_mem_insertBuilt hp' with hb | ⟨p'', hp'', heq'⟩
      · exact .inl ⟨p, List.mem_cons_self, hb.symm.trans heq⟩
      · exact .inr ⟨p'', hp'', heq'.trans heq⟩

theorem build_of_buildEntry {fuel depth : Nat} {entry : YamlNode × YamlNode} {p : Scalar × Built}
    (h : buildEntry fuel depth entry = .ok p) : build fuel (depth + 1) entry.2 = .ok p.2 := by
  unfold buildEntry at h
  split at h
  · cases h
  · split at h
    · cases h
    · obtain ⟨b, hb, rfl⟩ := map_eq_ok_iff.mp h
      exact hb

/-- The values of a mapping were built of nodes that occur in it. -/
theorem occurs_of_buildEntries {fuel depth id : Nat} {tag : Tag}
    {entries : List (YamlNode × YamlNode)}
    {built : List (Scalar × Built)} (h : buildEntries fuel depth entries = .ok built) :
    ∀ e ∈ built, ∃ n, Occurs n (.map id tag entries) ∧ build fuel (depth + 1) n = .ok e.2 := by
  intro e he
  obtain ⟨flat, hflat, h⟩ := bind_eq_ok_iff.mp h
  obtain ⟨pairs, hpairs, h⟩ := bind_eq_ok_iff.mp h
  cases h
  rcases mem_of_mem_foldl_insertBuilt he with ⟨p, hp, heq⟩ | ⟨p, hp, -⟩
  · have hok : Except.ok p ∈ flat.map (buildEntry fuel depth) := by
      rw [sequence_eq_ok_iff.mp hpairs]
      exact List.mem_map_of_mem hp
    obtain ⟨entry, hentry, hbuild⟩ := List.mem_map.mp hok
    rw [← heq]
    exact ⟨entry.2, (occurs_of_flatten _ _).1 entries flat hflat entry hentry id tag,
      build_of_buildEntry hbuild⟩
  · cases hp

/-! ### Induction on what is built -/

def BuiltOf (P : YamlNode → Built → Prop) (root : YamlNode) (v : Value) (built : List Built) :
    Prop :=
  ∀ i b, built[i]? = some b → ∃ n, Occurs n root ∧ P n b ∧
    ∀ place, valueAt? v (i :: place) = valueAt? b.value place

section Induction

variable {P : YamlNode → Built → Prop}
  (pair : ∀ n b built, b.marks = underAll 0 built → BuiltOf P n b.value built → P n b)

theorem builtOf_seq {id : Nat} {tag : Tag} {nodes : List YamlNode} {f : YamlNode → Building Built}
    {built : List Built}
    (hf : ∀ n b, f n = .ok b → P n b) (h : sequence (nodes.map f) = .ok built) :
    BuiltOf P (.seq id tag nodes) (.seq (built.map (·.value))) built := by
  intro i b hb
  have hok : (nodes.map f)[i]? = some (.ok b) := by
    rw [sequence_eq_ok_iff.mp h, List.getElem?_map, hb]
    rfl
  rw [List.getElem?_map, Option.map_eq_some_iff] at hok
  obtain ⟨n, hn, hfn⟩ := hok
  refine ⟨n, .item (List.mem_of_getElem? hn) (.self n), hf n b hfn, fun place => ?_⟩
  rw [valueAt?, List.getElem?_map, hb]
  rfl

theorem builtOf_map {id fuel depth : Nat} {tag : Tag} {entries : List (YamlNode × YamlNode)}
    {built : List (Scalar × Built)} (hf : ∀ n b, build fuel (depth + 1) n = .ok b → P n b)
    (h : buildEntries fuel depth entries = .ok built) :
    BuiltOf P (.map id tag entries) (.map (built.map fun e => (e.1, e.2.value)))
      (built.map (·.2)) := by
  intro i b hb
  rw [List.getElem?_map, Option.map_eq_some_iff] at hb
  obtain ⟨e, he, rfl⟩ := hb
  obtain ⟨n, hn, hbuild⟩ := occurs_of_buildEntries h e (List.mem_of_getElem? he)
  refine ⟨n, hn, hf n e.2 hbuild, fun place => ?_⟩
  rw [valueAt?, List.getElem?_map, he]
  rfl

include pair in
theorem buildPair_induction {fuel depth : Nat} (hf : ∀ n b, build fuel (depth + 1) n = .ok b →
    P n b) {n : YamlNode} {b : Built} (h : buildPair fuel depth n = .ok b) : P n b := by
  unfold buildPair at h
  split at h
  · rename_i id tag k v
    obtain ⟨⟨kb, vb⟩, hp, rfl⟩ := map_eq_ok_iff.mp h
    obtain ⟨hk, hv⟩ := both_eq_ok_iff.mp hp
    refine pair _ _ [kb, vb] (by simp [underAll]) fun i b hb => ?_
    rcases i with _ | _ | i
    · cases hb
      exact ⟨k, .key List.mem_cons_self (.self k), hf _ _ hk, fun place => by rw [valueAt?]; rfl⟩
    · cases hb
      exact ⟨v, .value List.mem_cons_self (.self v), hf _ _ hv, fun place => by rw [valueAt?]; rfl⟩
    · cases hb
  · cases h

include pair in
/-- **Induction on what is built**: it has no parts with marks, or its marks are its own and those
of its parts.  What has a mark of its own is no text. -/
theorem build_induction
    (top : ∀ fuel depth n b, build fuel depth n = .ok b →
      b.marks = [] ∨ b.marks = [([], n.id)] ∧ b.value.isPlain = false → P n b)
    (whole : ∀ fuel depth n b built, build fuel depth n = .ok b → b.value.isPlain = false →
      b.marks = ([], n.id) :: underAll 0 built → BuiltOf P n b.value built → P n b) :
    ∀ (fuel depth : Nat) (n : YamlNode) (b : Built), build fuel depth n = .ok b → P n b := by
  intro fuel
  induction fuel with
  | zero => intro depth n b h; cases h
  | succ fuel ih =>
    intro depth n b h
    have hbuild := h
    cases n.form with
    | scalar n eq =>
      rw [eq] at h
      obtain ⟨text, -, h⟩ := bind_eq_ok_iff.mp h
      obtain ⟨value, -, h⟩ := bind_eq_ok_iff.mp h
      cases h
      refine top _ _ _ _ hbuild ?_
      dsimp only
      unfold scalarMarks
      split
      · exact .inr ⟨rfl, rfl⟩
      · exact .inr ⟨rfl, rfl⟩
      · exact .inl rfl
    | items id nodes eq =>
      rw [eq] at h
      obtain ⟨built, hbuilt, h⟩ := bind_eq_ok_iff.mp h
      cases h
      exact whole _ _ _ _ built hbuild rfl rfl (builtOf_seq (fun n b => ih _ n b) hbuilt)
    | entries id entries eq =>
      rw [eq] at h
      obtain ⟨built, hbuilt, h⟩ := bind_eq_ok_iff.mp h
      cases h
      exact whole _ _ _ _ _ hbuild rfl rfl (builtOf_map (fun n b => ih _ n b) hbuilt)
    | members id entries eq =>
      rw [eq] at h
      obtain ⟨built, hbuilt, h⟩ := bind_eq_ok_iff.mp h
      cases h
      exact top _ _ _ _ hbuild (.inr ⟨rfl, rfl⟩)
    | pairs id tag nodes eq =>
      rw [eq] at h
      obtain ⟨built, hbuilt, h⟩ := bind_eq_ok_iff.mp h
      cases h
      exact whole _ _ _ _ built hbuild rfl rfl
        (builtOf_seq (fun n b => buildPair_induction pair fun n b => ih _ n b) hbuilt)
    | inside id tag shape shape' eq =>
      rw [eq] at h
      cases h
      exact top _ _ _ _ hbuild (.inr ⟨rfl, rfl⟩)
    | senseless n eq =>
      rw [eq] at h
      cases h

end Induction

/-! ### Every mark is sound -/

/-- **Every mark is sound.** -/
theorem sound_build : ∀ (fuel depth : Nat) (n : YamlNode) (b : Built), build fuel depth n = .ok b →
    Sound n b.value b.marks := by
  have hparts : ∀ {n v built}, BuiltOf (fun n b => Sound n b.value b.marks) n v built →
      Sound n v (underAll 0 built) := by
    intro n v built h
    refine Sound.underAll fun i b hb => ?_
    rw [Nat.zero_add]
    exact h i b hb
  apply build_induction
  case pair =>
    intro n b built hmarks h
    rw [hmarks]
    exact hparts h
  case top =>
    intro fuel depth n b hbuild hmarks
    rcases hmarks with hmarks | ⟨hmarks, hplain⟩
    · rw [hmarks]
      exact Sound.nil _ _
    · rw [hmarks]
      exact Sound.self hbuild hplain
  case whole =>
    intro fuel depth n b built hbuild hplain hmarks h
    rw [hmarks]
    exact (Sound.self hbuild hplain).append (hparts h)

/-! ### Documents -/

/-- **What shared places have in common**: they are parts of the document other than texts, and
places with one number hold one value, or stand inside of it. -/
structure Document.Coherent (d : Document) : Prop where
  part : ∀ s ∈ d.shares, ∃ v, valueAt? d.root s.1 = some v ∧ v.isPlain = false
  same : ∀ s ∈ d.shares, ∀ s' ∈ d.shares, s.2 = s'.2 → ∀ v v', valueAt? d.root s.1 = some v →
    valueAt? d.root s'.1 = some v' → v = v' ∨ v.isEnclosing = true ∨ v'.isEnclosing = true

/-- A document that was read shares nothing, or was built of a node. -/
theorem read_cases {text : String} (h : Document.read text = .ok d) : d.shares = [] ∨
    ∃ n fuel depth b, nodeOf text = .ok (some n) ∧ build fuel depth n = .ok b ∧
      d = Document.ofBuilt b := by
  unfold Document.read at h
  split at h
  · cases h
  · cases h
    exact .inl rfl
  · rename_i n hn
    split at h
    · rename_i b hb
      cases h
      exact .inr ⟨n, _, _, b, hn, hb, rfl⟩
    · cases h

/-- **Every document that was read is coherent.** -/
theorem coherent_of_read {text : String} (h : Document.read text = .ok d) : d.Coherent := by
  rcases read_cases h with hnone | ⟨n, _, _, b, hn, hb, rfl⟩
  · have hno : ∀ s, s ∉ d.shares := by simp [hnone]
    exact ⟨fun s hs => absurd hs (hno s), fun s hs => absurd hs (hno s)⟩
  · have hsound := sound_build _ _ n b hb
    have hmem : ∀ s ∈ (Document.ofBuilt b).shares, s ∈ b.marks :=
      fun s hs => List.mem_of_mem_filter hs
    refine ⟨fun s hs => ?_, fun s hs s' hs' hid v v' hv hv' => ?_⟩
    · obtain ⟨k, x, -, -, hx, -, hplain⟩ := hsound s (hmem s hs)
      exact ⟨x, hx, hplain⟩
    · obtain ⟨k, x, hk, hkid, hx, hgiven, -⟩ := hsound s (hmem s hs)
      obtain ⟨k', x', hk', hkid', hx', hgiven', -⟩ := hsound s' (hmem s' hs')
      obtain rfl := Option.some.inj (hv.symm.trans hx)
      obtain rfl := Option.some.inj (hv'.symm.trans hx')
      rcases unique_of_nodeOf hn k k' hk hk' (by rw [hkid, hkid', hid]) with rfl | he | he
      · exact .inl (hgiven.unique hgiven')
      · exact .inr (.inl (hgiven.isEnclosing he))
      · exact .inr (.inr (hgiven'.isEnclosing he))

/-! ### Places that hold the same -/

theorem valueAt?_append : ∀ (p q : Place) (v : Value),
    valueAt? v (p ++ q) = (valueAt? v p).bind fun w => valueAt? w q := by
  intro p
  induction p with
  | nil => intro q v; simp [valueAt?]
  | cons n p ih =>
    intro q v
    cases v with
    | seq items =>
      rw [List.cons_append, valueAt?, valueAt?]
      cases items[n]? with
      | none => rfl
      | some w => exact ih q w
    | map entries =>
      rw [List.cons_append, valueAt?, valueAt?]
      cases entries[n]? with
      | none => rfl
      | some e => exact ih q e.2
    | pair first second =>
      rw [List.cons_append, valueAt?, valueAt?]
      by_cases h0 : n = 0
      · rw [if_pos h0, if_pos h0, ih]
      · rw [if_neg h0, if_neg h0]
        by_cases h1 : n = 1
        · rw [if_pos h1, if_pos h1, ih]
        · rw [if_neg h1, if_neg h1]
          rfl
    | scalar s => rfl
    | set members => rfl
    | enclosing shape => rfl

namespace Document

theorem mem_shares_of_shareAt? {place : Place} {id : Nat} (h : d.shareAt? place = some id) :
    (place, id) ∈ d.shares := by
  rw [shareAt?, Option.map_eq_some_iff] at h
  obtain ⟨s, hs, rfl⟩ := h
  have hplace : (s.1 == place) = true := by simpa using List.find?_some hs
  rw [← eq_of_beq hplace]
  exact List.mem_of_find?_eq_some hs

theorem mem_aliasesRev_self (d : Document) : ∀ rev : List Nat, rev.reverse ∈ d.aliasesRev rev := by
  intro rev
  induction rev with
  | nil => exact List.mem_singleton.mpr rfl
  | cons n above ih =>
    rw [aliasesRev]
    split
    · rename_i id hid
      refine List.mem_map.mpr ⟨_, List.mem_filter.mpr ⟨mem_shares_of_shareAt? hid, ?_⟩, rfl⟩
      exact beq_iff_eq.mpr rfl
    · rw [List.reverse_cons]
      exact List.mem_map.mpr ⟨_, ih, rfl⟩

theorem mem_aliases_self (d : Document) (place : Place) : place ∈ d.aliases place := by
  have h := d.mem_aliasesRev_self place.reverse
  rwa [List.reverse_reverse] at h

theorem aliasesRev_congr {d' : Document} (h : d.shares = d'.shares) : ∀ rev : List Nat,
    d.aliasesRev rev = d'.aliasesRev rev := by
  intro rev
  induction rev with
  | nil => rfl
  | cons n above ih => rw [aliasesRev, aliasesRev, shareAt?, shareAt?, h, ih]

theorem Coherent.value_of_mem_aliasesRev (hd : d.Coherent) : ∀ (rev : List Nat) (v : Value),
    valueAt? d.root rev.reverse = some v → v.isEnclosing = false →
      ∀ q ∈ d.aliasesRev rev, ∀ w, valueAt? d.root q = some w → w = v ∨ w.isEnclosing = true := by
  intro rev
  induction rev with
  | nil =>
    intro v hv _ q hq w hw
    rw [List.mem_singleton.mp hq] at hw
    exact .inl (Option.some.inj (hw.symm.trans hv))
  | cons n above ih =>
    intro v hv hopen q hq w hw
    rw [aliasesRev] at hq
    split at hq
    · rename_i id hid
      obtain ⟨s, hs, rfl⟩ := List.mem_map.mp hq
      obtain ⟨hs, hsid⟩ := List.mem_filter.mp hs
      rcases hd.same _ (mem_shares_of_shareAt? hid) s hs (eq_of_beq hsid).symm v w hv hw with heq
          | he | he
      · exact .inl heq.symm
      · rw [hopen] at he
        cases he
      · exact .inr he
    · obtain ⟨q', hq', rfl⟩ := List.mem_map.mp hq
      rw [List.reverse_cons, valueAt?_append, Option.bind_eq_some_iff] at hv
      obtain ⟨u, hu, hv⟩ := hv
      rw [valueAt?_append, Option.bind_eq_some_iff] at hw
      obtain ⟨u', hu', hw⟩ := hw
      have huopen : u.isEnclosing = false := by
        refine Bool.eq_false_iff.mpr fun he => ?_
        obtain ⟨shape, rfl⟩ := Value.eq_of_isEnclosing he
        cases hv
      rcases ih u hu huopen q' hq' u' hu' with rfl | he
      · exact .inl (Option.some.inj (hw.symm.trans hv))
      · obtain ⟨shape, rfl⟩ := Value.eq_of_isEnclosing he
        cases hw

/-- **Places that share a part hold one value**, or stand inside of it. -/
theorem Coherent.value_of_mem_aliases (hd : d.Coherent) {place q : Place} {w : Value}
    (hv : valueAt? d.root place = some v) (hopen : v.isEnclosing = false) (hq : q ∈ d.aliases place)
    (hw : valueAt? d.root q = some w) : w = v ∨ w.isEnclosing = true := by
  refine hd.value_of_mem_aliasesRev place.reverse v ?_ hopen q hq w hw
  rw [List.reverse_reverse]
  exact hv

end Document

end ProjectLint.Yaml
