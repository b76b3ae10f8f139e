/-!
# Pieces of text

Cutting a text at every occurrence of a character, joining and replacing.
-/

namespace ProjectLint.Text

/-- The pieces between the occurrences of a character: one more than there are occurrences. -/
def splitList (divider : Char) : List Char → List (List Char)
  | [] => [[]]
  | c :: rest =>
    if c = divider then [] :: splitList divider rest
    else
      match splitList divider rest with
      | [] => [[c]]
      | piece :: pieces => (c :: piece) :: pieces

def split (divider : Char) (s : String) : List String :=
  (splitList divider s.toList).map String.ofList

theorem splitList_ne_nil (divider : Char) (cs : List Char) : splitList divider cs ≠ [] := by
  cases cs with
  | nil => simp [splitList]
  | cons c rest =>
    rw [splitList]
    split
    · simp
    · split <;> simp

/-- The text before the first occurrence of a character, and the text after it if there is one. -/
def cutList (divider : Char) (cs : List Char) : List Char × Option (List Char) :=
  let before := cs.takeWhile (· ≠ divider)
  match cs.drop before.length with
  | [] => (before, none)
  | _ :: after => (before, some after)

def occursIn (part : List Char) : List Char → Bool
  | [] => part.isEmpty
  | c :: rest => part.isPrefixOf (c :: rest) || occursIn part rest

def contains (text part : String) : Bool := occursIn part.toList text.toList

end ProjectLint.Text
