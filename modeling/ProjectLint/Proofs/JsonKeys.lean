import ProjectLint.Json.Reader
import ProjectLint.Proofs.Entries
import ProjectLint.Proofs.Outcomes
import ProjectLint.Value.Access

/-!
# Keys of objects that are read

A key that is repeated in the text of an object takes the place of the earlier one.  So **each key
stands once** in every mapping of a value that was read (`keysOnce_of_read`), and looking through
all entries for a key finds one at most.
-/

namespace ProjectLint

namespace Json

/-- **Each key stands once**, in all mappings of the value. -/
inductive KeysOnce : Value → Prop
  | scalar (s : Scalar) : KeysOnce (.scalar s)
  | seq {items : List Value} (hitems : ∀ v ∈ items, KeysOnce v) : KeysOnce (.seq items)
  | map {entries : Entries} (hkeys : (entries.map (·.1)).Nodup)
      (hvalues : ∀ e ∈ entries, KeysOnce e.2) :
      KeysOnce (.map entries)

theorem keysOnce_nil : KeysOnce (.map []) := .map List.nodup_nil fun _ he => (nomatch he)

variable {v : Value}

theorem keysOnce_of_word? {cur next : Cursor} (h : word? cur = some (v, next)) : KeysOnce v := by
  obtain ⟨w, hw, heq⟩ := Option.map_eq_some_iff.mp h
  have hin := List.mem_of_find?_eq_some hw
  obtain rfl : w.2 = v := congrArg Prod.fst heq
  simp only [List.mem_cons, List.not_mem_nil, or_false] at hin
  rcases hin with rfl | rfl | rfl | rfl | rfl | rfl
  all_goals exact .scalar _

theorem keysOnce_of_numeral {negative : Bool} {digits fraction : List Char} {exponent : Option Int}
    (h : numeral negative digits fraction exponent = .ok v) : KeysOnce v := by
  unfold numeral at h
  split at h
  · split at h
    · cases h
    · cases h
      exact .scalar _
  · cases h
    exact .scalar _

theorem keysOnce_of_number? {cur next : Cursor} (h : number? cur = some (.ok (v, next))) :
    KeysOnce v := by
  unfold number? at h
  simp only [Option.ite_none_left_eq_some, Option.some.injEq] at h
  obtain ⟨found, hfound, heq⟩ := map_eq_ok_iff.mp h.2
  cases heq
  exact keysOnce_of_numeral hfound

/-- What the parts of the reader give, at each bound on its depth. -/
structure Reads (fuel : Nat) : Prop where
  value : ∀ {cur next v}, readValue fuel cur = .ok (v, next) → KeysOnce v
  items : ∀ {cur next v acc}, (∀ x ∈ acc, KeysOnce x) → readItems fuel cur acc = .ok (v, next) →
    KeysOnce v
  members : ∀ {cur next v} {acc : Entries}, KeysOnce (.map acc) →
    readMembers fuel cur acc = .ok (v, next) → KeysOnce v

theorem keysOnce_put {acc : Entries} (h : KeysOnce (.map acc)) (key : String) (hv : KeysOnce v) :
    KeysOnce (.map (acc.put key v)) := by
  cases h with
  | map hkeys hvalues =>
    refine .map (Entries.nodup_put key v hkeys) fun e he => ?_
    rcases Entries.mem_put he with heq | he
    · rw [heq]
      exact hv
    · exact hvalues e he

theorem reads : ∀ fuel, Reads fuel := by
  intro fuel
  induction fuel with
  | zero =>
    refine ⟨fun h => ?_, fun _ h => ?_, fun _ h => ?_⟩
    · rw [readValue] at h
      cases h
    · rw [readItems] at h
      cases h
    · rw [readMembers] at h
      cases h
  | succ fuel ih =>
    refine ⟨fun h => ?_, fun hacc h => ?_, fun hacc h => ?_⟩
    · rw [readValue] at h
      split at h
      · split at h
        · cases h
        · cases h
          exact .scalar _
      · dsimp only at h
        split at h
        · cases h
          exact keysOnce_nil
        · exact ih.members keysOnce_nil h
      · dsimp only at h
        split at h
        · cases h
          exact .seq fun v hv => (nomatch hv)
        · refine ih.items (fun v hv => ?_) h
          cases hv
      · split at h
        · rename_i r hr
          cases h
          exact keysOnce_of_word? hr
        · split at h
          · rename_i r hr
            rw [h] at hr
            exact keysOnce_of_number? hr
          · cases h
    · rw [readItems] at h
      split at h
      · cases h
      · rename_i v next hv
        have hitems : ∀ x ∈ v :: _, KeysOnce x := List.forall_mem_cons.mpr ⟨ih.value hv, hacc⟩
        dsimp only at h
        split at h
        · cases h
          exact .seq fun x hx => hitems x (List.mem_reverse.mp hx)
        · exact ih.items hitems h
        · cases h
    · rw [readMembers] at h
      split at h
      · split at h
        · cases h
        · dsimp only at h
          split at h
          · split at h
            · cases h
            · rename_i hv
              have hput := fun key => keysOnce_put hacc key (ih.value hv)
              split at h
              · cases h
                exact hput _
              · exact ih.members (hput _) h
              · cases h
          · cases h
      · cases h

/-- **A value that was read has each key once.** -/
theorem keysOnce_of_read {text : String} (h : read text = .ok v) : KeysOnce v := by
  unfold read at h
  dsimp only at h
  split at h
  · rename_i found hfound
    cases h
    unfold readChars at hfound
    split at hfound
    · cases hfound
    · split at hfound
      · cases hfound
      · rename_i hvalue
        dsimp only at hfound
        split at hfound
        · cases hfound
          exact (reads _).value hvalue
        · cases hfound
  · cases h

end Json

end ProjectLint
