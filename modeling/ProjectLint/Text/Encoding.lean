/-!
# Bytes and text

Files hold bytes; text is read from them as UTF-8 and lines may end in any of the three usual ways.
-/

namespace ProjectLint.Text

/-- Why bytes are no text: the bytes from `start` up to `stop` are at fault. -/
structure BadEncoding where
  start : Nat
  stop : Nat
  byte : Nat
  reason : String
deriving Repr, DecidableEq

/-- The length of a character by its first byte, with the range of its second byte. -/
def leadByte (b : Nat) : Option (Nat × Nat × Nat) :=
  if b < 0x80 then some (1, 0, 0)
  else if b < 0xC2 then none
  else if b < 0xE0 then some (2, 0x80, 0xBF)
  else if b = 0xE0 then some (3, 0xA0, 0xBF)
  else if b = 0xED then some (3, 0x80, 0x9F)
  else if b < 0xF0 then some (3, 0x80, 0xBF)
  else if b = 0xF0 then some (4, 0x90, 0xBF)
  else if b < 0xF4 then some (4, 0x80, 0xBF)
  else if b = 0xF4 then some (4, 0x80, 0x8F)
  else none

def continuing (low high : Nat) : Nat → List UInt8 → Nat
  | 0, _ => 0
  | _, [] => 0
  | n + 1, b :: rest =>
    if low ≤ b.toNat && b.toNat ≤ high then 1 + continuing 0x80 0xBF n rest else 0

/-- The first place where the bytes are no UTF-8. The count bounds the number of characters. -/
def findBad : Nat → Nat → List UInt8 → Option BadEncoding
  | 0, _, _ => none
  | _, _, [] => none
  | fuel + 1, pos, b :: rest =>
    match leadByte b.toNat with
    | none => some ⟨pos, pos + 1, b.toNat, "invalid start byte"⟩
    | some (length, low, high) =>
      let good := continuing low high (length - 1) rest
      if good = length - 1 then findBad fuel (pos + length) (rest.drop (length - 1))
      else if good = rest.length then some ⟨pos, pos + 1 + good, b.toNat, "unexpected end of data"⟩
      else some ⟨pos, pos + 1 + good, b.toNat, "invalid continuation byte"⟩

def decode (bytes : ByteArray) : Except BadEncoding String :=
  match String.fromUTF8? bytes with
  | some s => .ok s
  | none =>
    .error ((findBad bytes.size 0 bytes.toList).getD ⟨0, 1, 0, "invalid start byte"⟩)

def unifyLines : List Char → List Char
  | [] => []
  | '\r' :: '\n' :: rest => '\n' :: unifyLines rest
  | '\r' :: rest => '\n' :: unifyLines rest
  | c :: rest => c :: unifyLines rest

def unifyNewlines (s : String) : String :=
  if '\r' ∈ s.toList then String.ofList (unifyLines s.toList) else s

end ProjectLint.Text
