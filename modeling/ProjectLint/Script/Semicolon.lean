import ProjectLint.Report

/-!
# Semicolons

A script must not end with a semicolon. Line ends behind it do not count. An open file is looked at
from its end: byte by byte over the line ends, and back to the byte before them.
-/

namespace ProjectLint.Script

def isLineEnd (b : UInt8) : Bool := b == 10 || b == 13

def dropLineEnds (bytes : List UInt8) : List UInt8 := (bytes.reverse.dropWhile isLineEnd).reverse

def semicolon : UInt8 := 59

/-- Does the last byte that is no line end close a statement? -/
def endsInSemicolon (bytes : List UInt8) : Bool := (dropLineEnds bytes).getLast? == some semicolon

/-- Takes the semicolon off with all behind it; a script that does not end in one is kept. -/
def dropSemicolon (bytes : List UInt8) : List UInt8 :=
  if endsInSemicolon bytes then (dropLineEnds bytes).dropLast else bytes

/-! ### Open files -/

/-- A file that is open for reading and writing, with the position of the next byte to be read. -/
structure Handle where
  bytes : List UInt8
  position : Nat
deriving DecidableEq, Repr

namespace Handle

/-- A file that was just opened. -/
def opened (bytes : List UInt8) : Handle := ⟨bytes, 0⟩

def goTo (h : Handle) (position : Int) : Except Fault Handle :=
  if position < 0 then .error (.badValue "[Errno 22] Invalid argument")
  else .ok { h with position := position.toNat }

/-- Goes to a position that is counted from the end. -/
def seekFromEnd (h : Handle) (offset : Int) : Except Fault Handle :=
  h.goTo (h.bytes.length + offset)

def seek (h : Handle) (offset : Int) : Except Fault Handle := h.goTo (h.position + offset)

/-- Reads a byte, if there is one, and goes behind it. -/
def read (h : Handle) : Option UInt8 × Handle :=
  match h.bytes[h.position]? with
  | some b => (some b, { h with position := h.position + 1 })
  | none => (none, h)

def truncate (h : Handle) : Handle := { h with bytes := h.bytes.take h.position }

theorem position_seek_read {h h' : Handle} (hseek : h.seek (-2) = .ok h') :
    h'.read.2.position < h.position := by
  simp only [seek, goTo] at hseek
  split at hseek
  · cases hseek
  · cases hseek
    simp only [read]
    split <;> dsimp only <;> omega

/-- Goes back from a byte that was read as long as it is a line end, and gives the byte that is
none; where the file starts with a line end that one is given. -/
def skipLineEnds (h : Handle) (last : Option UInt8) : Except Fault (Option UInt8 × Handle) :=
  if last.any isLineEnd then
    if h.position = 1 then .ok (last, h)
    else
      match _ : h.seek (-2) with
      | .error fault => .error fault
      | .ok h' => skipLineEnds h'.read.2 h'.read.1
  else .ok (last, h)
termination_by h.position
decreasing_by exact position_seek_read (by assumption)

/-- Looks for a semicolon at the end of the file, and cuts the file off before it if it is to be
taken off. The status is one if there is a semicolon. Only in an empty file there is no last byte to
go to. -/
def checkSemicolon (h : Handle) (takeOff : Bool) : Except Fault (Status × Handle) :=
  match h.seekFromEnd (-1) with
  | .error _ => .ok (0, h)
  | .ok h => do
    let (last, h) ← skipLineEnds h.read.2 h.read.1
    if last == some semicolon then
      if takeOff then
        let h ← h.seek (-1)
        return (1, h.truncate)
      return (1, h)
    return (0, h)

end Handle

end ProjectLint.Script
