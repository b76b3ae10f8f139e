import Mathlib.Data.List.Nodup
import ProjectLint.Proofs.Texts

/-!
# Entries of a mapping

A value that is put under a key takes the place of the first entry with the key, or comes behind all
others (`insert_cases`).  What is found afterwards, under this key and under others, follows from
that.
-/

namespace ProjectLint.Entries

variable {es front : Entries} {key : Scalar} {x : Value}

theorem contains_eq_isSome (entries : Entries) (key : Scalar) :
    contains entries key = (find? entries key).isSome := by
  rw [contains, find?, Option.isSome_map, Bool.eq_iff_iff, List.any_eq_true, List.find?_isSome]

theorem contains_cons (e : Scalar × Value) (es : Entries) (key : Scalar) :
    contains (e :: es) key = (e.1.same key || contains es key) := List.any_cons

theorem insert_append (h : contains front key = false) (x : Value) (rest : Entries) :
    insert (front ++ rest) key x = front ++ insert rest key x := by
  induction front with
  | nil => rfl
  | cons e front ih =>
    rw [contains_cons, Bool.or_eq_false_iff] at h
    rw [List.cons_append, insert, if_neg (by simp [h.1]), ih h.2]
    rfl

theorem find?_append (h : contains front key = false) (rest : Entries) :
    find? (front ++ rest) key = find? rest key := by
  rw [contains, List.any_eq_false] at h
  rw [find?, List.find?_append, List.find?_eq_none.mpr fun e he => h e he, Option.none_or]
  rfl

theorem insert_of_not_contains (value : Value) (h : contains es key = false) :
    insert es key value = es ++ [(key, value)] := by
  rw [← List.append_nil es, insert_append h, List.append_nil]
  rfl

/-- **Where a value is put**: behind the others, or in the place of the first entry with the key. -/
theorem insert_cases (key : Scalar) (x : Value) (es : Entries) :
    contains es key = false ∧ insert es key x = es ++ [(key, x)] ∨
    ∃ front e back, es = front ++ e :: back ∧ contains front key = false ∧ e.1.same key = true ∧
      insert es key x = front ++ (e.1, x) :: back := by
  induction es with
  | nil => exact .inl ⟨rfl, rfl⟩
  | cons e es ih =>
    cases he : e.1.same key with
    | true => exact .inr ⟨[], e, es, rfl, rfl, he, by rw [insert, he]; rfl⟩
    | false =>
      rw [contains_cons, he, insert, he]
      rcases ih with ⟨hes, hput⟩ | ⟨front, f, back, rfl, hfront, hf, hput⟩
      · exact .inl ⟨hes, by rw [hput]; rfl⟩
      · exact .inr ⟨e :: front, f, back, rfl, by rw [contains_cons, he, hfront]; rfl, hf,
          by rw [hput]; rfl⟩

theorem insert_insert (hkey : key.same key = true) (x y : Value) (es : Entries) :
    insert (insert es key x) key y = insert es key y := by
  rcases insert_cases key x es with ⟨h, hput⟩ | ⟨front, e, back, rfl, h, he, hput⟩
  · rw [hput, insert_append h, insert_of_not_contains y h, insert, if_pos hkey]
  · rw [hput, insert_append h, insert_append h, insert, insert, if_pos he, if_pos he]

theorem insert_of_find? (hx : find? es key = some x) : insert es key x = es := by
  rcases insert_cases key x es with ⟨h, -⟩ | ⟨front, e, back, rfl, h, he, hput⟩
  · rw [contains_eq_isSome, hx] at h
    cases h
  · rw [find?_append h, find?, List.find?_cons, he] at hx
    rw [hput, ← Option.some.inj hx]

theorem find?_insert (hkey : key.same key = true) (x : Value) (es : Entries) :
    find? (insert es key x) key = some x := by
  rcases insert_cases key x es with ⟨h, hput⟩ | ⟨front, e, back, -, h, he, hput⟩
  · rw [hput, find?_append h, find?, List.find?_cons, hkey]
    rfl
  · rw [hput, find?_append h, find?, List.find?_cons, he]
    rfl

/-- **New keys leave the others as they are.** -/
theorem find?_insert_of_some {new : Scalar} (value : Value) (hnew : contains es new = false)
    (h : find? es key = some x) : find? (insert es new value) key = some x := by
  rw [insert_of_not_contains value hnew]
  obtain ⟨e, he, rfl⟩ := Option.map_eq_some_iff.mp h
  rw [find?, List.find?_append, he]
  rfl

/-- Other entries stay where they are. -/
theorem getElem?_insert (x : Value) : ∀ {es : Entries} {i : Nat},
    es.findIdx? (fun e => e.1.same key) ≠ some i → i < es.length →
      (insert es key x)[i]? = es[i]? := by
  intro es
  induction es with
  | nil => intro i _ h; cases h
  | cons e es ih =>
    intro i hi hlt
    obtain ⟨k, v⟩ := e
    rw [List.findIdx?_cons] at hi
    rw [insert]
    split
    · rename_i hk
      rw [if_pos hk] at hi
      cases i with
      | zero => exact absurd rfl hi
      | succ i => rfl
    · rename_i hk
      rw [if_neg hk] at hi
      cases i with
      | zero => rfl
      | succ i =>
        refine ih (fun h => hi ?_) (Nat.lt_of_succ_lt_succ hlt)
        rw [h]
        rfl

theorem map_fst_insert (key : Scalar) (x : Value) (es : Entries) :
    (insert es key x).map (·.1) =
      if contains es key then es.map (·.1) else es.map (·.1) ++ [key] := by
  rcases insert_cases key x es with ⟨h, hput⟩ | ⟨front, e, back, rfl, -, he, hput⟩
  · rw [hput, h, List.map_append]
    rfl
  · rw [hput, contains, List.any_append, List.any_cons, he, Bool.true_or, Bool.or_true,
      List.map_append, List.map_append]
    rfl

/-- A key is found where it was found before, or at the end. -/
theorem findIdx?_insert_self (hkey : key.same key = true) (x : Value) : ∀ es : Entries,
    (insert es key x).findIdx? (fun e => e.1.same key) =
      some ((es.findIdx? fun e => e.1.same key).getD es.length) := by
  intro es
  induction es with
  | nil => simp [insert, hkey]
  | cons e es ih =>
    obtain ⟨k, v⟩ := e
    rw [insert]
    split
    · rename_i hk
      simp [List.findIdx?_cons, hk]
    · rename_i hk
      rw [List.findIdx?_cons, List.findIdx?_cons, if_neg hk, if_neg hk, ih]
      cases es.findIdx? fun e => e.1.same key <;> rfl

theorem findIdx?_insert {other : Scalar} {x : Value} (hne : key.same other = false) (es : Entries) :
    (insert es key x).findIdx? (fun e => e.1.same other) = es.findIdx? fun e => e.1.same other := by
  have hkeys : ∀ es : Entries, es.findIdx? (fun e => e.1.same other) = (es.map (·.1)).findIdx?
      (·.same other) :=
    fun es => by rw [List.findIdx?_map]; rfl
  rw [hkeys, hkeys, map_fst_insert]
  split
  · rfl
  · simp [List.findIdx?_append, List.findIdx?_cons, hne]

/-- The value under a key stands where the key is found. -/
theorem find?_eq_findIdx? (key : Scalar) : ∀ es : Entries,
    find? es key = (es.findIdx? fun e => e.1.same key).bind fun n => es[n]?.map (·.2) := by
  intro es
  induction es with
  | nil => rfl
  | cons e es ih =>
    rw [find?, List.find?_cons, List.findIdx?_cons]
    cases he : e.1.same key with
    | true => rfl
    | false =>
      rw [if_neg (by simp), Option.bind_map]
      exact ih

theorem get?_insert_of_ne {other : String} (hne : key ≠ .str other) (x : Value) (es : Entries) :
    get? (insert es key x) other = get? es other := by
  have hother : ∀ {k : Scalar}, k ≠ .str other → k.same (.str other) = false :=
    fun h => Bool.eq_false_iff.mpr (mt (Scalar.same_str_iff _ other).mp h)
  rw [get?, get?, find?, find?]
  rcases insert_cases key x es with ⟨-, hput⟩ | ⟨front, e, back, rfl, -, he, hput⟩
  · rw [hput, List.find?_append, List.find?_cons, hother hne, List.find?_nil, Option.or_none]
  · -- a key that is the same as `key` is not the other one
    have hkey : e.1.same (.str other) = false :=
      hother fun h => hne ((Scalar.str_same_iff other key).mp (h ▸ he))
    rw [hput, List.find?_append, List.find?_append, List.find?_cons, List.find?_cons, hkey]

theorem get?_put_self (es : Entries) (key : String) (x : Value) :
    get? (put es key x) key = some x :=
  find?_insert (by simp [Scalar.same]) x es

theorem get?_put_of_ne {key other : String} (hne : key ≠ other) (es : Entries) (x : Value) :
    get? (put es key x) other = get? es other :=
  get?_insert_of_ne (fun h => hne (Scalar.str.inj h)) x es

theorem contains_str {key : String} : contains es (.str key) = true ↔ .str key ∈ es.map (·.1) := by
  rw [contains, List.any_eq_true, List.mem_map]
  simp only [Scalar.same_str_iff]

theorem mem_put {key : String} {e : Scalar × Value} (h : e ∈ put es key x) : e.2 = x ∨ e ∈ es := by
  rw [put] at h
  rcases insert_cases (.str key) x es with ⟨-, hput⟩ | ⟨front, f, back, rfl, -, -, hput⟩
  · rw [hput, List.mem_append, List.mem_singleton] at h
    rcases h with h | rfl
    · exact .inr h
    · exact .inl rfl
  · rw [hput, List.mem_append, List.mem_cons] at h
    rcases h with h | rfl | h
    · exact .inr (List.mem_append_left _ h)
    · exact .inl rfl
    · exact .inr (List.mem_append_right _ (List.mem_cons_of_mem f h))

theorem nodup_put (key : String) (x : Value) (h : (es.map (·.1)).Nodup) :
    ((put es key x).map (·.1)).Nodup := by
  rw [put, map_fst_insert]
  split
  · exact h
  · rename_i hnew
    rw [← List.concat_eq_append]
    exact List.Nodup.concat (mt contains_str.mpr hnew) h

end ProjectLint.Entries
