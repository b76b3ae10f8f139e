import ProjectLint.Fault
import ProjectLint.Text.Casing

/-!
# Spacing of scripts

Brackets are set off by spaces, so that they become words of their own; and the words of a script
are seen each with the one before and the one after.
-/

namespace ProjectLint.Script

def setOff (apart : Char → Bool) (script : String) : String :=
  String.ofList (script.toList.flatMap fun c => if apart c then [' ', c, ' '] else [c])

def spaceParentheses (script : String) : String := setOff (fun c => c == '(' || c == ')') script

def spaceBraces (script : String) : String := setOff (fun c => c == '\x7b' || c == '\x7d') script

/-- Replaces every pair of one character; pairs are found from left to right and do not overlap. -/
def replacePairs (c : Char) (instead : List Char) : List Char → List Char
  | a :: b :: rest =>
    if a == c && b == c then instead ++ replacePairs c instead rest
    else a :: replacePairs c instead (b :: rest)
  | cs => cs

def spaceCalls (script : String) : String :=
  let opened := replacePairs '\x7b' ['\x7b', '\x7b', ' '] script.toList
  String.ofList (replacePairs '\x7d' [' ', '\x7d', '\x7d'] opened)

/-- A word with its neighbours. -/
structure Neighbours where
  previous : Option String
  current : String
  next : Option String

def neighboursFrom (previous : Option String) : String → List String → List Neighbours
  | current, [] => [⟨previous, current, none⟩]
  | current, next :: rest =>
    ⟨previous, current, some next⟩ :: neighboursFrom (some current) next rest

def neighbours (words : List String) : Except Fault (List Neighbours) :=
  match words.map Text.lower with
  | [] => .error .endedEarly
  | word :: rest => .ok (neighboursFrom none word rest)

end ProjectLint.Script
