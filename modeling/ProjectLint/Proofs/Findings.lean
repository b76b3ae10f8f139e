import ProjectLint.Checks.Findings
import ProjectLint.Proofs.Outcomes

/-!
# Checks that come to an end

A check that gives a verdict has not broken off: all its items were supplied, each of them gave its
complaints, and the lines are these complaints one after another (`Findings.lines_of_bind`).  The
verdict says whether there are any (`Findings.verdict`).
-/

namespace ProjectLint

namespace Findings

theorem status_eq_one_iff (lines : List String) : status lines = 1 ↔ lines ≠ [] := by
  cases lines with
  | nil => exact ⟨fun h => (nomatch h), fun h => absurd rfl h⟩
  | cons line lines => exact ⟨fun _ => List.cons_ne_nil _ _, fun _ => rfl⟩

theorem status_eq_zero_or_one (lines : List String) : status lines = 0 ∨ status lines = 1 := by
  cases lines with
  | nil => exact .inl rfl
  | cons line lines => exact .inr rfl

theorem outcome_report (f : Findings) : f.report.outcome = f.toExcept.map status := by
  rw [report, Feed.toExcept]
  cases f.stop <;> rfl

/-- **A verdict is about lines**: the findings are complete, and the status is one if there are
any. -/
theorem verdict {f : Findings} {s : Status} (h : f.report.outcome = .ok s) :
    f.toExcept = .ok f.report.lines ∧ s = status f.report.lines := by
  cases hf : f.stop with
  | some fault =>
    rw [report, hf] at h
    cases h
  | none =>
    rw [report, hf] at h
    exact ⟨by rw [Feed.toExcept, hf]; rfl, (Except.ok.inj h).symm⟩

theorem toExcept_of (e : Except Fault (List String)) : (Findings.of e).toExcept = e := by
  cases e <;> rfl

/-- **The lines of a check** of items one by one are the complaints about each of them. -/
theorem lines_of_bind {α : Type} {items : Feed α} {complaints : α → Except Fault (List String)}
    {lines : List String}
    (h : (items.bind fun x => Findings.of (complaints x)).toExcept = .ok lines) :
    ∃ xs found, items.toExcept = .ok xs ∧ xs.mapM complaints = .ok found ∧
      lines = found.flatten := by
  obtain ⟨xs, hxs, h⟩ := Feed.toExcept_bind_eq_ok h
  rw [Feed.toExcept_flatMap, map_eq_ok_iff] at h
  obtain ⟨found, hfound, rfl⟩ := h
  simp only [toExcept_of] at hfound
  exact ⟨xs, found, hxs, hfound, rfl⟩

theorem ne_nil_iff_of_flatMap {α : Type} {f : α → Findings} {xs : List α} {lines : List String}
    {Bad : α → Prop} (h : (Feed.flatMap f xs).toExcept = .ok lines)
    (hbad : ∀ x ∈ xs, ∀ found, (f x).toExcept = .ok found → (found ≠ [] ↔ Bad x)) :
    lines ≠ [] ↔ ∃ x ∈ xs, Bad x := by
  rw [Feed.toExcept_flatMap] at h
  obtain ⟨found, hfound, rfl⟩ := map_eq_ok_iff.mp h
  rw [List.flatten_ne_nil_iff]
  constructor
  · rintro ⟨l, hl, hne⟩
    obtain ⟨x, hx, hfx⟩ := mem_of_mapM hfound l hl
    exact ⟨x, hx, (hbad x hx l hfx).mp hne⟩
  · rintro ⟨x, hx, hbad'⟩
    obtain ⟨l, hl, hfx⟩ := ok_of_mapM hfound x hx
    exact ⟨l, hl, (hbad x hx l hfx).mpr hbad'⟩

end Findings

end ProjectLint
