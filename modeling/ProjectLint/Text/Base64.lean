/-!
# Base 64

Four digits of six bits make three bytes. The last group may lack one or two digits if as many
padding marks follow it, and nothing behind them is read. Characters that are neither digits nor
padding marks are passed over.
-/

namespace ProjectLint.Text.Base64

def digit? (c : Char) : Option Nat :=
  if 'A' ≤ c && c ≤ 'Z' then some (c.toNat - 'A'.toNat)
  else if 'a' ≤ c && c ≤ 'z' then some (c.toNat - 'a'.toNat + 26)
  else if '0' ≤ c && c ≤ '9' then some (c.toNat - '0'.toNat + 52)
  else if c == '+' then some 62
  else if c == '/' then some 63
  else none

def groupBytes : List Nat → List UInt8
  | [b, a] => [(a * 4 + b / 16).toUInt8]
  | [c, b, a] => [(a * 4 + b / 16).toUInt8, (b % 16 * 16 + c / 4).toUInt8]
  | [d, c, b, a] =>
    [(a * 4 + b / 16).toUInt8, (b % 16 * 16 + c / 4).toUInt8, (c % 4 * 64 + d).toUInt8]
  | _ => []

/-- Reads on with a group that is not full, and with the padding marks since its last digit. A group
that is neither full nor padded at the end is an error. -/
def decodeFrom : List Char → List Nat → Nat → Option (List UInt8)
  | [], group, _ => if group.isEmpty then some [] else none
  | c :: rest, group, pads =>
    if c == '=' then
      if group.length < 2 then decodeFrom rest group pads
      else if group.length + pads + 1 < 4 then decodeFrom rest group (pads + 1)
      else some (groupBytes group)
    else
      match digit? c with
      | none => decodeFrom rest group pads
      | some n =>
        if group.length < 3 then decodeFrom rest (n :: group) 0
        else (decodeFrom rest [] 0).map (groupBytes (n :: group) ++ ·)

def decode (cs : List Char) : Option (List UInt8) := decodeFrom cs [] 0

def char (n : Nat) : Char :=
  if n < 26 then Char.ofNat (n + 'A'.toNat)
  else if n < 52 then Char.ofNat (n - 26 + 'a'.toNat)
  else if n < 62 then Char.ofNat (n - 52 + '0'.toNat)
  else if n == 62 then '+'
  else '/'

/-- The text of bytes, padded to whole groups. -/
def encode : List UInt8 → List Char
  | a :: b :: c :: rest =>
    let n := a.toNat * 65536 + b.toNat * 256 + c.toNat
    char (n / 262144) :: char (n / 4096 % 64) :: char (n / 64 % 64) ::
      char (n % 64) :: encode rest
  | [a, b] =>
    let n := a.toNat * 65536 + b.toNat * 256
    [char (n / 262144), char (n / 4096 % 64), char (n / 64 % 64), '=']
  | [a] =>
    let n := a.toNat * 65536
    [char (n / 262144), char (n / 4096 % 64), '=', '=']
  | [] => []

end ProjectLint.Text.Base64
