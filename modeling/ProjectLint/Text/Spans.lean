/-!
# Spans of code points

A property of characters is given by the spans of code points that have it, in increasing order.
-/

namespace ProjectLint.Text

/-- Does code point `n` lie in one of the spans? -/
def inSpans (spans : List (Nat × Nat)) (n : Nat) : Bool :=
  spans.any fun span => span.1 ≤ n && n ≤ span.2

theorem inSpans_eq_true_iff {spans : List (Nat × Nat)} {n : Nat} :
    inSpans spans n = true ↔ ∃ span ∈ spans, span.1 ≤ n ∧ n ≤ span.2 := by
  simp [inSpans]

end ProjectLint.Text
