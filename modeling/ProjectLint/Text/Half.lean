/-!
# Halves of characters

Some notations write a character beyond the first plane by two numbers, its halves. A half may also
stand alone, and then it is no character. It is kept in a text as the private character at the end
of the code space whose last four hexadecimal digits are its own, and shown by its own number.
-/

namespace ProjectLint.Text

def isHalf (n : Nat) : Bool := 0xD800 ≤ n && n < 0xE000

def charOf (n : Nat) : Char := if isHalf n then Char.ofNat (n + 0x100000) else Char.ofNat n

def codeOf (c : Char) : Nat := if isHalf (c.toNat - 0x100000) then c.toNat - 0x100000 else c.toNat

/-- The number of a half is shown again. -/
theorem codeOf_charOf_of_isHalf (n : Nat) (h : isHalf n = true) : codeOf (charOf n) = n := by
  have hb : 0xD800 ≤ n ∧ n < 0xE000 := by simpa [isHalf] using h
  have hv : (n + 0x100000).isValidChar := Or.inr ⟨by omega, by omega⟩
  have ht : (Char.ofNat (n + 0x100000)).toNat = n + 0x100000 := by
    rw [Char.ofNat, dif_pos hv]
    rfl
  simp [codeOf, charOf, h, ht]

end ProjectLint.Text
