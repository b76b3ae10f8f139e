import Mathlib.Data.List.Induction
import Mathlib.Data.List.Nodup
import ProjectLint.Proofs.Yaml.Siblings

/-!
# Classes of places

A node is built with the same marks wherever it stands, so below two places that share a node the
same parts are shared (`uniform_of_read`).  Hence the places that share with an item of a sequence
share with another item **all or none of them** (`mem_aliases_item_congr`), and a class has no place
twice (`nodup_aliases`).
-/

namespace ProjectLint.Yaml

open YamlNode (Occurs)

/-! ### The marks below a mark -/

theorem mem_underAll_iff {built : List Built} {start i : Nat} {q : Place} {id : Nat} :
    ((start + i) :: q, id) ∈ underAll start built ↔ ∃ b, built[i]? = some b ∧
      (q, id) ∈ b.marks := by
  constructor
  · intro h
    obtain ⟨j, b, r, hb, heq, hr⟩ := mem_underAll h
    obtain ⟨hij, rfl⟩ := List.cons.inj heq
    obtain rfl : i = j := by omega
    exact ⟨b, hb, hr⟩
  · rintro ⟨b, hb, hq⟩
    induction built generalizing start i with
    | nil => cases hb
    | cons b' built ih =>
      cases i with
      | zero =>
        cases hb
        exact List.mem_append_left _ (List.mem_map.mpr ⟨(q, id), hq, rfl⟩)
      | succ i =>
        have hrest := @ih (start + 1) i hb
        rw [Nat.add_right_comm] at hrest
        exact List.mem_append_right _ hrest

variable {built : List Built} {n : Nat}

def Rooted (root : YamlNode) (b : Built) : Prop :=
  ∀ m ∈ b.marks, ∃ n b', Occurs n root ∧ n.id = m.2 ∧ (∃ fuel depth, build fuel depth n = .ok b') ∧
    valueAt? b.value m.1 = some b'.value ∧ ∀ r id, (m.1 ++ r, id) ∈ b.marks ↔ (r, id) ∈ b'.marks

theorem BuiltOf.rooted {root : YamlNode} {b : Built} (h : BuiltOf Rooted root b.value built)
    (hmarks : ∀ i q id, (i :: q, id) ∈ b.marks ↔ (i :: q, id) ∈ underAll 0 built)
    (htop : ∀ id, ([], id) ∈ b.marks → id = root.id ∧ ∃ fuel depth, build fuel depth root = .ok b) :
    Rooted root b := by
  have hparts : ∀ i q id, (i :: q, id) ∈ b.marks ↔ ∃ part, built[i]? = some part ∧
      (q, id) ∈ part.marks := by
    intro i q id
    have hiff := @mem_underAll_iff built 0 i q id
    rw [Nat.zero_add] at hiff
    rw [hmarks, hiff]
  rintro ⟨p, id⟩ hm
  cases p with
  | nil =>
    obtain ⟨hid, hbuild⟩ := htop id hm
    exact ⟨root, b, .self root, hid.symm, hbuild, rfl, fun r x => Iff.rfl⟩
  | cons i q =>
    obtain ⟨part, hpart, hq⟩ := (hparts i q id).mp hm
    obtain ⟨k, hk, hrooted, hat⟩ := h i part hpart
    obtain ⟨n, b', hn, hid, hbuild, hvalue, hbelow⟩ := hrooted _ hq
    refine ⟨n, b', hn.trans hk, hid, hbuild, (hat q).trans hvalue, fun r x => ?_⟩
    rw [List.cons_append, hparts, ← hbelow r x]
    constructor
    · rintro ⟨part', hpart', hr⟩
      obtain rfl := Option.some.inj (hpart.symm.trans hpart')
      exact hr
    · exact fun hr => ⟨part, hpart, hr⟩

/-- **Below a mark are the marks of its node.** -/
theorem rooted_build : ∀ (fuel depth : Nat) (n : YamlNode) (b : Built), build fuel depth n = .ok b →
    Rooted n b := by
  apply build_induction
  case pair =>
    intro n b built hmarks hparts
    refine hparts.rooted (fun i q id => by rw [hmarks]) fun id hid => ?_
    rw [hmarks] at hid
    exact absurd hid nil_not_mem_underAll
  case top =>
    intro fuel depth n b hbuild hmarks m hm
    have hself : m = ([], n.id) := by
      rcases hmarks with hmarks | ⟨hmarks, -⟩
      · rw [hmarks] at hm
        cases hm
      · rw [hmarks] at hm
        exact List.mem_singleton.mp hm
    rw [hself]
    exact ⟨n, b, .self n, rfl, ⟨fuel, depth, hbuild⟩, rfl, fun r x => Iff.rfl⟩
  case whole =>
    intro fuel depth n b built hbuild _ hmarks hparts
    refine hparts.rooted (fun i q id => by rw [hmarks, List.mem_cons]; simp) fun id hid => ?_
    rw [hmarks] at hid
    rcases List.mem_cons.mp hid with heq | hid
    · exact ⟨congrArg Prod.snd heq, fuel, depth, hbuild⟩
    · exact absurd hid nil_not_mem_underAll

/-! ### Documents -/

namespace Document

/-- **What is shared below places that share**: the same parts, unless one of the places stands
inside of itself. -/
def Uniform (d : Document) : Prop :=
  ∀ s ∈ d.shares, ∀ s' ∈ d.shares, s.2 = s'.2 → ∀ v v', valueAt? d.root s.1 = some v →
    valueAt? d.root s'.1 = some v' → v.isEnclosing = false → v'.isEnclosing = false →
      ∀ r id, (s.1 ++ r, id) ∈ d.shares → (s'.1 ++ r, id) ∈ d.shares

end Document

theorem uniform_of_read {text : String} {d : Document} (h : Document.read text = .ok d) :
    d.Uniform := by
  rcases read_cases h with hnone | ⟨root, _, _, b, hroot, hb, rfl⟩
  · intro s hs
    rw [hnone] at hs
    cases hs
  · have hrooted := rooted_build _ _ root b hb
    intro s hs s' hs' hid v v' hv hv' hopen hopen' r id hr
    obtain ⟨n, c, hn, hnid, ⟨fuel, depth, hc⟩, hvalue, hbelow⟩ :=
      hrooted s (List.mem_of_mem_filter hs)
    obtain ⟨n', c', hn', hnid', ⟨fuel', depth', hc'⟩, hvalue', hbelow'⟩ :=
      hrooted s' (List.mem_of_mem_filter hs')
    obtain rfl := Option.some.inj (hv.symm.trans hvalue)
    obtain rfl := Option.some.inj (hv'.symm.trans hvalue')
    rcases unique_of_nodeOf hroot n n' hn hn' (by rw [hnid, hnid', hid]) with rfl | he | he
    · -- one node, so what was built has the same marks
      obtain rfl := agree_build _ _ _ _ n c c' hc hc'
      obtain ⟨hr, hrepeated⟩ := List.mem_filter.mp hr
      exact List.mem_filter.mpr ⟨(hbelow' r id).mpr ((hbelow r id).mp hr), hrepeated⟩
    · rw [Given.isEnclosing ⟨fuel, depth, c, hc, rfl⟩ he] at hopen
      cases hopen
    · rw [Given.isEnclosing ⟨fuel', depth', c', hc', rfl⟩ he] at hopen'
      cases hopen'

theorem isEnclosing_of_valueAt?_cons {v w : Value} {rest : Place}
    (h : valueAt? v (n :: rest) = some w) :
    v.isEnclosing = false := by
  cases v with
  | enclosing shape => cases h
  | seq items => rfl
  | map entries => rfl
  | pair first second => rfl
  | scalar s => rfl
  | set members => rfl

def Shut (v : Value) (place : Place) : Prop :=
  ∃ above below w, place = above ++ below ∧ valueAt? v above = some w ∧ w.isEnclosing = true

theorem Shut.append {v : Value} {place : Place} (h : Shut v place) (more : Place) :
    Shut v (place ++ more) := by
  obtain ⟨above, below, w, rfl, hw, he⟩ := h
  exact ⟨above, below ++ more, w, List.append_assoc _ _ _, hw, he⟩

theorem Shut.isEnclosing {v w : Value} {place : Place} (h : Shut v place)
    (hw : valueAt? v place = some w) :
    w.isEnclosing = true := by
  obtain ⟨above, below, u, rfl, hu, he⟩ := h
  rw [valueAt?_append, hu, Option.bind_some] at hw
  cases below with
  | nil =>
    rw [← Option.some.inj hw]
    exact he
  | cons n rest =>
    rw [isEnclosing_of_valueAt?_cons hw] at he
    cases he

namespace Document

variable {d : Document}

theorem aliases_concat (d : Document) (p : Place) (n : Nat) :
    d.aliases (p ++ [n]) = match d.shareAt? (p ++ [n]) with
      | some id => (d.shares.filter fun s => s.2 == id).map (·.1)
      | none => (d.aliases p).map (· ++ [n]) := by
  rw [aliases, List.reverse_append]
  show d.aliasesRev (n :: p.reverse) = _
  rw [aliasesRev, List.reverse_cons, List.reverse_reverse]
  rfl

theorem shareAt?_eq_some_iff (hd : OneEach d.shares) {p : Place} {id : Nat} :
    d.shareAt? p = some id ↔ (p, id) ∈ d.shares := by
  refine ⟨mem_shares_of_shareAt?, fun h => ?_⟩
  cases hshare : d.shareAt? p with
  | none =>
    rw [shareAt?, Option.map_eq_none_iff, List.find?_eq_none] at hshare
    exact absurd (beq_self_eq_true p) (hshare _ h)
  | some id' => rw [hd _ _ _ h (mem_shares_of_shareAt? hshare)]

theorem mem_filter_shares {q : Place} {id : Nat} :
    q ∈ (d.shares.filter fun s => s.2 == id).map (·.1) ↔ (q, id) ∈ d.shares := by
  constructor
  · intro h
    obtain ⟨s, hs, rfl⟩ := List.mem_map.mp h
    obtain ⟨hs, hid⟩ := List.mem_filter.mp hs
    rw [← eq_of_beq hid]
    exact hs
  · exact fun h => List.mem_map.mpr ⟨_, List.mem_filter.mpr ⟨h, beq_self_eq_true id⟩, rfl⟩

/-- **A class has no place twice.** -/
theorem nodup_aliases (h : (d.shares.map (·.1)).Nodup) (p : Place) : (d.aliases p).Nodup := by
  induction p using List.reverseRecOn with
  | nil => exact List.nodup_singleton _
  | append_singleton p n ih =>
    rw [aliases_concat]
    split
    · exact h.sublist (List.filter_sublist.map _)
    · exact ih.map (List.append_left_injective [n])

/-- **A place that shares with an open one holds the same value**, unless it leads into something
that stands inside of itself. -/
theorem Coherent.value_or_shut (hd : d.Coherent) {p q : Place} :
    ∀ {v : Value}, valueAt? d.root p = some v → v.isEnclosing = false → q ∈ d.aliases p →
      valueAt? d.root q = some v ∨ Shut d.root q := by
  induction p using List.reverseRecOn generalizing q with
  | nil =>
    intro v hv _ hq
    rw [List.mem_singleton.mp hq]
    exact .inl hv
  | append_singleton p n ih =>
    intro v hv hopen hq
    rw [aliases_concat] at hq
    split at hq
    · rename_i id hid
      have hq := mem_filter_shares.mp hq
      obtain ⟨w, hw, -⟩ := hd.part _ hq
      rcases hd.same _ (mem_shares_of_shareAt? hid) _ hq rfl v w hv hw with rfl | he | he
      · exact .inl hw
      · rw [hopen] at he
        cases he
      · exact .inr ⟨q, [], w, (List.append_nil q).symm, hw, he⟩
    · obtain ⟨q', hq', rfl⟩ := List.mem_map.mp hq
      rw [valueAt?_append, Option.bind_eq_some_iff] at hv
      obtain ⟨u, hu, hv⟩ := hv
      rcases ih hu (isEnclosing_of_valueAt?_cons hv) hq' with hu' | hshut
      · exact .inl (by rw [valueAt?_append, hu', Option.bind_some, hv])
      · exact .inr (hshut.append [n])

theorem Uniform.mem_shares (hd : d.Uniform) (hcoherent : d.Coherent) {p q : Place} :
    ∀ {v : Value} {r : Place}
    {id : Nat}, valueAt? d.root p = some v → v.isEnclosing = false → q ∈ d.aliases p → r ≠ [] →
      (q ++ r, id) ∈ d.shares → (p ++ r, id) ∈ d.shares := by
  induction p using List.reverseRecOn generalizing q with
  | nil =>
    intro v r id _ _ hq _ hr
    rw [List.mem_singleton.mp hq] at hr
    exact hr
  | append_singleton p n ih =>
    intro v r id hv hopen hq hne hr
    rw [aliases_concat] at hq
    split at hq
    · rename_i share hshare
      obtain ⟨w, hw, -⟩ := hcoherent.part _ hr
      dsimp only at hw
      rw [valueAt?_append, Option.bind_eq_some_iff] at hw
      obtain ⟨u, hu, hw⟩ := hw
      obtain ⟨m, r, rfl⟩ := List.exists_cons_of_ne_nil hne
      exact hd _ (mem_filter_shares.mp hq) _ (mem_shares_of_shareAt? hshare) rfl u v hu hv
        (isEnclosing_of_valueAt?_cons hw) hopen _ id hr
    · obtain ⟨q', hq', rfl⟩ := List.mem_map.mp hq
      rw [valueAt?_append, Option.bind_eq_some_iff] at hv
      obtain ⟨u, hu, hv⟩ := hv
      rw [List.append_assoc] at hr ⊢
      exact ih hu (isEnclosing_of_valueAt?_cons hv) hq' (by simp) hr

/-- **The places that share with an item share with another item all or none of them.** -/
theorem mem_aliases_item_congr (hone : OneEach d.shares) (hcoherent : d.Coherent) (hd : d.Uniform)
    {above q : Place}
    {v : Value} (hv : valueAt? d.root above = some v) (hopen : v.isEnclosing = false)
    (hq : q ∈ d.aliases (above ++ [n])) (m : Nat) :
    q ∈ d.aliases (above ++ [m]) ↔ above ++ [n] ∈ d.aliases (above ++ [m]) := by
  -- a part of a place that shares with the sequence has a number just if that of the sequence has
  have hlift : ∀ {q' k id}, q' ∈ d.aliases above → (q' ++ [k], id) ∈ d.shares →
      (above ++ [k], id) ∈ d.shares :=
    fun hq' hr => hd.mem_shares hcoherent hv hopen hq' (by simp) hr
  have hlast : ∀ {q' : Place} {k : Nat}, q' ++ [k] ∈ (d.aliases above).map (· ++ [m]) → k = m := by
    intro q' k h
    obtain ⟨q'', -, heq⟩ := List.mem_map.mp h
    exact (List.append_inj_right' heq rfl |> List.cons.inj).1.symm
  rw [aliases_concat] at hq
  rw [aliases_concat]
  cases hn : d.shareAt? (above ++ [n]) with
  | some id =>
    rw [hn] at hq
    have hq := mem_filter_shares.mp hq
    have hid := mem_shares_of_shareAt? hn
    cases hm : d.shareAt? (above ++ [m]) with
    | some id' =>
      dsimp only
      rw [mem_filter_shares, mem_filter_shares]
      constructor
      · intro hq'
        rw [hone _ _ _ hq' hq]
        exact hid
      · intro hid'
        rw [hone _ _ _ hid' hid]
        exact hq
    | none =>
      dsimp only
      refine ⟨fun hq' => ?_, fun hn' => ?_⟩
      · obtain ⟨q'', hq'', rfl⟩ := List.mem_map.mp hq'
        rw [(shareAt?_eq_some_iff hone).mpr (hlift hq'' hq)] at hm
        cases hm
      · rw [hlast hn', hm] at hn
        cases hn
  | none =>
    rw [hn] at hq
    obtain ⟨q', hq', rfl⟩ := List.mem_map.mp hq
    cases hm : d.shareAt? (above ++ [m]) with
    | some id' =>
      dsimp only
      rw [mem_filter_shares, mem_filter_shares]
      constructor
      · intro h
        rw [(shareAt?_eq_some_iff hone).mpr (hlift hq' h)] at hn
        cases hn
      · intro h
        rw [(shareAt?_eq_some_iff hone).mpr h] at hn
        cases hn
    | none =>
      dsimp only
      refine ⟨fun h => ?_, fun h => ?_⟩
      · rw [hlast h]
        exact List.mem_map_of_mem (d.mem_aliases_self above)
      · rw [hlast h]
        exact List.mem_map_of_mem hq'

theorem aliases_of_absent (hd : d.Coherent) {p : Place} (h : valueAt? d.root (p ++ [n]) = none) :
    d.aliases (p ++ [n]) = (d.aliases p).map (· ++ [n]) := by
  rw [aliases_concat]
  cases hshare : d.shareAt? (p ++ [n]) with
  | none => rfl
  | some id =>
    obtain ⟨w, hw, -⟩ := hd.part _ (mem_shares_of_shareAt? hshare)
    rw [h] at hw
    cases hw

/-- **No other place holds the part at a place**; one inside of the part itself does not count. -/
def Alone (d : Document) (p : Place) : Prop :=
  ∀ q ∈ d.aliases p, ∀ v, valueAt? d.root q = some v → v.isEnclosing = false → q = p

theorem aliases_of_shares_nil (h : d.shares = []) (p : Place) : d.aliases p = [p] := by
  induction p using List.reverseRecOn with
  | nil => rfl
  | append_singleton p n ih =>
    have hshare : d.shareAt? (p ++ [n]) = none := by
      rw [shareAt?, h]
      rfl
    rw [aliases_concat, hshare, ih]
    rfl

theorem alone_of_shares_nil (h : d.shares = []) (p : Place) : d.Alone p := by
  intro q hq _ _ _
  rw [aliases_of_shares_nil h] at hq
  exact List.mem_singleton.mp hq

end Document

end ProjectLint.Yaml
