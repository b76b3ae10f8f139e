import Mathlib.Logic.Relation
import ProjectLint.Checks.Contracts
import ProjectLint.Proofs.Entries
import ProjectLint.Proofs.Outcomes

/-!
# Required constraints

A required constraint is met by a constraint of the model that has all its keys, with equal values
(`Covers`); what else the model says does not matter.  The answer is found by walks that end early;
`hasConstraints_eq` puts them together: the answer is that **each required constraint is covered by
a declared one** (`Terms.Met`).

Less can be asked for, and more can be declared, step by step (`Terms.Eases`).  No step takes away
what a met constraint needs (`Terms.Eases.met`), so `constraints_met` says that constraints which
are met stay met.
-/

namespace ProjectLint

namespace Contracts

/-! ### One constraint -/

/-- **A constraint has all that a required one asks for**: every key, with an equal value. -/
def Covers (constraint required : Entries) : Prop :=
  ∀ e ∈ required, ∃ v, Entries.find? constraint e.1 = some v ∧ v.same e.2 = true

def covers (constraint required : Entries) : Bool :=
  required.all fun e => (Entries.find? constraint e.1).any fun v => v.same e.2

theorem covers_iff {constraint required : Entries} :
    covers constraint required = true ↔ Covers constraint required := by
  rw [covers, List.all_eq_true]
  simp only [Option.any_eq_true]
  rfl

theorem isMetBy_eq (constraint : Entries) : ∀ required : Entries,
    isMetBy (.map constraint) required = .ok (covers constraint required) := by
  intro required
  induction required with
  | nil => rfl
  | cons e rest ih =>
    obtain ⟨key, value⟩ := e
    have hin : (Value.scalar key).isIn (.map constraint) =
        .ok (Entries.find? constraint key).isSome := by
      rw [← Entries.contains_eq_isSome]
      rfl
    rw [isMetBy, hin, ok_bind, covers, List.all_cons, ih, ← covers]
    dsimp only
    cases Entries.find? constraint key with
    | none => rfl
    | some v =>
      rw [Option.any_some]
      cases hsame : v.same value <;> simp [hsame, pure, Except.pure, bind, Except.bind]

/-! ### All constraints -/

/-- Constraints that are required, and constraints that a model declares. -/
structure Terms where
  required : List Entries
  declared : List Entries

namespace Terms

/-- **Each required constraint is covered by a declared one.** -/
def Met (t : Terms) : Prop := ∀ r ∈ t.required, ∃ c ∈ t.declared, Covers c r

/-- The requirement as a value. -/
def asked (t : Terms) : Value := .seq (t.required.map .map)

/-- These are the constraints of a node; a node that has no constraints declares none. -/
def DeclaredBy (t : Terms) (node : Value) : Prop :=
  node.fieldD "constraints" (.seq []) = .ok (.seq (t.declared.map .map))

end Terms

theorem isMetByAny_eq (required : Entries) : ∀ declared : List Entries,
    isMetByAny (.map required) (declared.map .map) =
      .ok (declared.any fun c => covers c required) := by
  intro declared
  induction declared with
  | nil => rfl
  | cons c rest ih =>
    rw [List.map_cons, isMetByAny, constraintMet, Value.entries, ok_bind, isMetBy_eq, ok_bind,
      List.any_cons, ih]
    cases covers c required <;> rfl

theorem areMet_eq (declared : List Entries) : ∀ required : List Entries,
    areMet (.seq (declared.map .map)) (required.map .map) =
      .ok (required.all fun r => declared.any fun c => covers c r) := by
  intro required
  induction required with
  | nil => rfl
  | cons r rest ih =>
    rw [List.map_cons, areMet, Value.items, ok_bind, isMetByAny_eq, ok_bind, List.all_cons, ih]
    cases declared.any fun c => covers c r <;> rfl

/-- **The answer on the constraints of a node**: it is there, and it says whether all that is
required is declared. -/
theorem hasConstraints_eq {t : Terms} {node : Value} (h : t.DeclaredBy node) :
    ∃ met, hasConstraints t.asked node = .ok met ∧ (met = true ↔ t.Met) := by
  rw [hasConstraints, h, ok_bind, Terms.asked, Value.items, ok_bind, areMet_eq]
  refine ⟨_, rfl, ?_⟩
  simp only [List.all_eq_true, List.any_eq_true, covers_iff]
  rfl

theorem hasConstraints_eq_true_iff {t : Terms} {node : Value} (h : t.DeclaredBy node) :
    hasConstraints t.asked node = .ok true ↔ t.Met := by
  obtain ⟨met, hmet, hiff⟩ := hasConstraints_eq h
  rw [hmet, Except.ok.injEq, hiff]

/-! ### Asking for less, declaring more -/

namespace Terms

/-- **One step that asks for less or declares more**, or changes an order only. -/
inductive Eases : Terms → Terms → Prop
  /-- The model declares one more constraint. -/
  | declare (required declared : List Entries) (c : Entries) :
      Eases ⟨required, declared⟩ ⟨required, declared ++ [c]⟩
  /-- A constraint of the model gets a new key. -/
  | addKey (required before after : List Entries) {c : Entries} (key : Scalar) (value : Value)
      (hnew : c.contains key = false) :
      Eases ⟨required, before ++ c :: after⟩ ⟨required, before ++ c.insert key value :: after⟩
  | reorderDeclared (required : List Entries) {declared declared' : List Entries}
      (h : declared.Perm declared') :
      Eases ⟨required, declared⟩ ⟨required, declared'⟩
  | reorderRequired (declared : List Entries) {required required' : List Entries}
      (h : required.Perm required') :
      Eases ⟨required, declared⟩ ⟨required', declared⟩
  /-- A constraint is not required any more. -/
  | dropRequired (declared before after : List Entries) (r : Entries) :
      Eases ⟨before ++ r :: after, declared⟩ ⟨before ++ after, declared⟩
  /-- A key of a required constraint is not asked for any more. -/
  | dropKey (declared before after : List Entries) (front back : Entries) (e : Scalar × Value) :
      Eases ⟨before ++ (front ++ e :: back) :: after, declared⟩ ⟨before ++ (front ++ back) :: after,
        declared⟩

theorem Met.of_declared {required declared declared' : List Entries} (h : Met ⟨required, declared⟩)
    (hmore : ∀ c ∈ declared, ∃ c' ∈ declared', ∀ key v, Entries.find? c key = some v →
      Entries.find? c' key = some v) :
    Met ⟨required, declared'⟩ := by
  intro r hr
  obtain ⟨c, hc, hcovers⟩ := h r hr
  obtain ⟨c', hc', hkeys⟩ := hmore c hc
  refine ⟨c', hc', fun e he => ?_⟩
  obtain ⟨v, hv, hsame⟩ := hcovers e he
  exact ⟨v, hkeys e.1 v hv, hsame⟩

theorem Met.of_required {required required' declared : List Entries} (h : Met ⟨required, declared⟩)
    (hless : ∀ r' ∈ required', ∃ r ∈ required, r' ⊆ r) : Met ⟨required', declared⟩ := by
  intro r' hr'
  obtain ⟨r, hr, hsub⟩ := hless r' hr'
  obtain ⟨c, hc, hcovers⟩ := h r hr
  exact ⟨c, hc, fun e he => hcovers e (hsub he)⟩

/-- **A step keeps constraints met.** -/
theorem Eases.met {t t' : Terms} (hstep : t.Eases t') (h : t.Met) : t'.Met := by
  cases hstep with
  | declare required declared c =>
    exact h.of_declared fun d hd => ⟨d, List.mem_append_left _ hd, fun _ _ hv => hv⟩
  | addKey required before after key value hnew =>
    refine h.of_declared fun d hd => ?_
    rcases List.mem_append.mp hd with hd | hd
    · exact ⟨d, List.mem_append_left _ hd, fun _ _ hv => hv⟩
    rcases List.mem_cons.mp hd with rfl | hd
    · exact ⟨_, List.mem_append_right _ List.mem_cons_self, fun _ _ hv =>
        Entries.find?_insert_of_some value hnew hv⟩
    · exact ⟨d, List.mem_append_right _ (List.mem_cons_of_mem _ hd), fun _ _ hv => hv⟩
  | reorderDeclared required hperm =>
    exact h.of_declared fun d hd => ⟨d, hperm.mem_iff.mp hd, fun _ _ hv => hv⟩
  | reorderRequired declared hperm =>
    exact h.of_required fun r hr => ⟨r, hperm.mem_iff.mpr hr, List.Subset.refl r⟩
  | dropRequired declared before after r =>
    refine h.of_required fun r' hr' => ⟨r', ?_, List.Subset.refl r'⟩
    exact ((List.sublist_cons_self r after).append_left before).subset hr'
  | dropKey declared before after front back e =>
    refine h.of_required fun r' hr' => ?_
    rcases List.mem_append.mp hr' with hr' | hr'
    · exact ⟨r', List.mem_append_left _ hr', List.Subset.refl r'⟩
    rcases List.mem_cons.mp hr' with rfl | hr'
    · exact ⟨_, List.mem_append_right _ List.mem_cons_self,
        ((List.sublist_cons_self e back).append_left front).subset⟩
    · exact ⟨r', List.mem_append_right _ (List.mem_cons_of_mem _ hr'), List.Subset.refl r'⟩

/-- **Constraints that are met stay met**, however many steps are taken. -/
theorem met_of_reflTransGen {t t' : Terms} (hsteps : Relation.ReflTransGen Eases t t') (h : t.Met) :
    t'.Met := by
  induction hsteps with
  | refl => exact h
  | tail _ hstep ih => exact hstep.met ih

end Terms

/-- **When a node has the required constraints.**  If its constraints are mappings there is an
answer, which is yes just if each required constraint is covered by one of them: every key is there,
with an equal value.  So the answer stays yes when constraints or new keys are added to the node,
when either list is reordered, and when constraints or keys of them are no longer required, in any
number of steps. -/
theorem constraints_met {t : Terms} {node : Value} (h : t.DeclaredBy node) :
    (∃ met, hasConstraints t.asked node = .ok met ∧
      (met = true ↔ ∀ r ∈ t.required, ∃ c ∈ t.declared, ∀ e ∈ r,
        ∃ v, Entries.find? c e.1 = some v ∧ v.same e.2 = true)) ∧
    (hasConstraints t.asked node = .ok true → ∀ t' node', Relation.ReflTransGen Terms.Eases t t' →
      t'.DeclaredBy node' → hasConstraints t'.asked node' = .ok true) := by
  refine ⟨hasConstraints_eq h, fun hyes t' node' hsteps h' => ?_⟩
  exact (hasConstraints_eq_true_iff h').mpr
    (Terms.met_of_reflTransGen hsteps ((hasConstraints_eq_true_iff h).mp hyes))

/-! ### A key with two columns -/

def primaryKey (columns : List String) (more : Entries) : Entries :=
  (.str "type", .str "primary_key") :: (.str "columns", .strs columns) :: more

def constrained (declared : List Entries) : Value :=
  .record [("constraints", .seq (declared.map .map))]

/-- The key is required and declared.  It is found, and it is still found when the node names it,
has another constraint before it and the columns are no longer asked for. -/
theorem constraints_met_primaryKey :
    hasConstraints (.seq [.map (primaryKey ["a", "b"] [])])
      (constrained [primaryKey ["a", "b"] []]) = .ok true ∧
    hasConstraints (.seq [.map [(.str "type", .str "primary_key")]])
      (constrained [[(.str "type", .str "check")],
        primaryKey ["a", "b"] [(.str "name", .str "pk")]]) = .ok true := by
  have hdeclared : ∀ t : Terms, t.DeclaredBy (constrained t.declared) := fun _ => rfl
  have hyes : hasConstraints (.seq [.map (primaryKey ["a", "b"] [])])
      (constrained [primaryKey ["a", "b"] []]) = .ok true := rfl
  refine ⟨hyes, ?_⟩
  refine (constraints_met (hdeclared ⟨[primaryKey ["a", "b"] []], [primaryKey ["a", "b"] []]⟩)).2
    hyes ⟨[[(.str "type", .str "primary_key")]],
      [[(.str "type", .str "check")], primaryKey ["a", "b"] [(.str "name", .str "pk")]]⟩ _ ?_
        (hdeclared _)
  refine .head (.addKey _ [] [] (.str "name") (.str "pk") rfl) ?_
  refine .head (.declare _ _ [(.str "type", .str "check")]) ?_
  refine .head (.reorderDeclared _ (List.Perm.swap _ _ _)) ?_
  exact .single (.dropKey _ [] [] [(.str "type", .str "primary_key")] [] _)

end Contracts

end ProjectLint
