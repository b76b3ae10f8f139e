/-!
# Comments in scripts

Comments are cut out of a script. Of a block comment only the inside goes: the text between its
opening and the first closing mark. A line comment goes with the blanks before it, up to the end of
the line.
-/

namespace ProjectLint.Script

def closesBlock : List Char → Bool
  | '#' :: '}' :: _ => true
  | '*' :: rest => (rest.dropWhile (· == '*')).head? == some '/'
  | _ => false

def opensBlock : List Char → Bool
  | '*' :: '/' :: _ => true
  | '#' :: '{' :: _ => true
  | _ => false

def insideLength? : List Char → Option Nat
  | [] => none
  | _ :: rest => if closesBlock rest then some 1 else (insideLength? rest).map (· + 1)

def isIndent (c : Char) : Bool := c == ' ' || c == '\t'

def lineCommentLength (cs : List Char) : Nat :=
  match cs.dropWhile isIndent with
  | '-' :: '-' :: _ => (cs.takeWhile (· != '\n')).length
  | _ => 0

def cutLength (before ahead : List Char) : Nat :=
  match if opensBlock before then insideLength? ahead else none with
  | some n => n
  | none => lineCommentLength ahead

/-- Walks through a script. The first argument counts the characters still to be cut. -/
def cutComments : Nat → List Char → List Char → List Char
  | _, _, [] => []
  | skip + 1, before, c :: rest => cutComments skip (c :: before) rest
  | 0, before, c :: rest =>
    match cutLength before (c :: rest) with
    | 0 => c :: cutComments 0 (c :: before) rest
    | n + 1 => cutComments n (c :: before) rest

/-- The script without its comments. -/
def withoutComments (script : String) : String := String.ofList (cutComments 0 [] script.toList)

end ProjectLint.Script
