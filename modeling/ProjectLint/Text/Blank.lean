import ProjectLint.Text.Spans

/-!
# Blank characters

The characters that are trimmed from the ends of a text and that separate its words.
-/

namespace ProjectLint.Text

/-- Controls that separate, the space, and the spaces and separators of Unicode. -/
def blankSpans : List (Nat × Nat) := [
    (9, 13), (28, 32), (133, 133), (160, 160), (5760, 5760), (8192, 8202), (8232, 8233),
    (8239, 8239), (8287, 8287), (12288, 12288)]

def isBlank (c : Char) : Bool := inSpans blankSpans c.toNat

def trimWhere (drops : Char → Bool) (cs : List Char) : List Char :=
  ((cs.dropWhile drops).reverse.dropWhile drops).reverse

def trimList (cs : List Char) : List Char := trimWhere isBlank cs

def trim (s : String) : String := String.ofList (trimList s.toList)

/-- The maximal runs of characters that are not blank. -/
def wordsList (cs : List Char) : List (List Char) :=
  go cs []
where
  go : List Char → List Char → List (List Char)
    | [], acc => if acc.isEmpty then [] else [acc.reverse]
    | c :: rest, acc =>
      if isBlank c then
        if acc.isEmpty then go rest [] else acc.reverse :: go rest []
      else go rest (c :: acc)

def words (s : String) : List String := (wordsList s.toList).map String.ofList

end ProjectLint.Text
