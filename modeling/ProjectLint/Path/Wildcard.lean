/-!
# Wildcards

Patterns for one name of a path: a star stands for any characters, a question mark for one, and
brackets for one out of a set.
-/

namespace ProjectLint.Wildcard

inductive Piece where
  | any
  | one
  | char (c : Char)
  | oneOf (negated : Bool) (ranges : List (Char × Char))
deriving DecidableEq, Repr

/-- The characters of a bracket as ranges; a dash between two characters spans them, and a span that
runs backwards is empty. -/
def rangesOf : List Char → List (Char × Char)
  | a :: '-' :: b :: rest => if a ≤ b then (a, b) :: rangesOf rest else rangesOf rest
  | a :: rest => (a, a) :: rangesOf rest
  | [] => []

/-- The content of a bracket that opens here, and what follows it. The first character belongs to
the content even if it is a closing bracket, after a leading exclamation mark too. -/
def bracket? (cs : List Char) : Option (List Char × List Char) :=
  let (lead, cs) := match cs with
    | '!' :: rest => (['!'], rest)
    | _ => ([], cs)
  let (first, cs) := match cs with
    | ']' :: rest => ([']'], rest)
    | _ => ([], cs)
  let body := cs.takeWhile (· != ']')
  match cs.drop body.length with
  | [] => none
  | _ :: after => some (lead ++ first ++ body, after)

def bracketPiece : List Char → Piece
  | '!' :: [] => .one
  | '!' :: body => .oneOf true (rangesOf body)
  | body => .oneOf false (rangesOf body)

def parse : Nat → List Char → List Piece
  | 0, _ => []
  | _, [] => []
  | fuel + 1, c :: rest =>
    if c == '*' then .any :: parse fuel rest
    else if c == '?' then .one :: parse fuel rest
    else if c == '[' then
      match bracket? rest with
      | some (body, after) => bracketPiece body :: parse fuel after
      | none => .char '[' :: parse fuel rest
    else .char c :: parse fuel rest

def Piece.matchesChar (p : Piece) (c : Char) : Bool :=
  match p with
  | .any => true
  | .one => true
  | .char d => c == d
  | .oneOf negated ranges => (ranges.any fun r => r.1 ≤ c && c ≤ r.2) != negated

def matchPieces : List Piece → List Char → Bool
  | [], cs => cs.isEmpty
  | .any :: rest, cs => (List.range (cs.length + 1)).any fun n => matchPieces rest (cs.drop n)
  | _ :: _, [] => false
  | p :: rest, c :: cs => p.matchesChar c && matchPieces rest cs

def fits (pattern name : String) : Bool :=
  matchPieces (parse pattern.length pattern.toList) name.toList

def isWild (pattern : String) : Bool :=
  pattern.toList.any fun c => c == '*' || c == '?' || c == '['

end ProjectLint.Wildcard
