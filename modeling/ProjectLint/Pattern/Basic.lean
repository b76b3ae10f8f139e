import ProjectLint.Text.Blank
import ProjectLint.Text.Casing
import ProjectLint.Text.Digit
import ProjectLint.Text.Half
import ProjectLint.Text.Word

/-!
# Patterns

Regular expressions with groups, look-around and references to what a group matched. The tree of a
pattern has its options settled: whether case counts, what a dot takes in, where lines begin.
-/

namespace ProjectLint

namespace Pattern

inductive CharKind where
  | digit
  | blank
  | word
deriving DecidableEq, Repr

/-- A member of a character class. -/
inductive ClassItem where
  | one (c : Char)
  | range (first last : Char)
  | kind (k : CharKind) (negated ascii : Bool)
deriving DecidableEq, Repr

/-- Which letters count as the same: equal ones, ASCII letters that differ in case only, or letters
of any script that do. -/
inductive CaseRule where
  | exact
  | ascii
  | full
deriving DecidableEq, Repr

/-- A test of one character. -/
inductive CharTest where
  | any
  | notNewline
  | oneOf (negated : Bool) (rule : CaseRule) (items : List ClassItem)
deriving DecidableEq, Repr

inductive Anchor where
  | start
  | lineStart
  /-- The end, or before a newline at the end. -/
  | finish
  | lineEnd
  | veryEnd
  | edge (ascii : Bool)
  /-- No edge of a word; an empty text has no such place. -/
  | noEdge (ascii : Bool)
deriving DecidableEq, Repr

end Pattern

/-- The tree of a regular expression. -/
inductive Pattern where
  | empty
  | char (test : Pattern.CharTest)
  | cat (a b : Pattern)
  | alt (a b : Pattern)
  | group (number : Nat) (p : Pattern)
  | again (number : Nat) (rule : Pattern.CaseRule)
  | times (least : Nat) (most : Option Nat) (lazy : Bool) (p : Pattern)
  | anchor (a : Pattern.Anchor)
  | lookAhead (negated : Bool) (p : Pattern)
  | lookBehind (negated : Bool) (width : Nat) (p : Pattern)
  /-- Matches once and does not reconsider. -/
  | atomic (p : Pattern)
  | ifGroup (number : Nat) (yes no : Pattern)
deriving Repr

namespace Pattern

/-! ### Characters -/

def CharKind.holds (k : CharKind) (ascii : Bool) (c : Char) : Bool :=
  match k with
  | .digit => if ascii then c.isDigit else Text.isDecimalDigit c
  | .blank => if ascii then c.toNat < 128 && Text.isBlank c && c.toNat != 0x1C && c.toNat != 0x1D &&
      c.toNat != 0x1E && c.toNat != 0x1F else Text.isBlank c
  | .word => if ascii then c.isAlphanum || c == '_' else Text.isWordChar c

def kin : List (List Nat) :=
  [[0x69, 0x131], [0x73, 0x17F], [0xB5, 0x3BC], [0x345, 0x3B9, 0x1FBE], [0x390, 0x1FD3],
   [0x3B0, 0x1FE3], [0x3B2, 0x3D0], [0x3B5, 0x3F5], [0x3B8, 0x3D1], [0x3BA, 0x3F0],
   [0x3C0, 0x3D6], [0x3C1, 0x3F1], [0x3C2, 0x3C3], [0x3C6, 0x3D5], [0x432, 0x1C80],
   [0x434, 0x1C81], [0x43E, 0x1C82], [0x441, 0x1C83],
   [0x442, 0x1C84, 0x1C85], [0x44A, 0x1C86], [0x463, 0x1C87], [0x1C88, 0xA64B], [0x1E61, 0x1E9B],
   [0xFB05, 0xFB06]]

def foldChar (c : Char) : Char := if c == 'İ' then 'i' else Text.lowerChar c

def kinOf (c : Char) : List Char :=
  let small := foldChar c
  match kin.find? (·.contains small.toNat) with
  | some family => family.map Char.ofNat
  | none => [small]

def sameLetter (a b : Char) : Bool := (kinOf a).contains (foldChar b)

def formsOf (c : Char) : List Char := c :: (kinOf c).flatMap fun d => [d, Text.upperChar d]

/-- Are two characters the same under a rule? -/
def CaseRule.same (rule : CaseRule) (a b : Char) : Bool :=
  match rule with
  | .exact => a == b
  | .ascii => a.toLower == b.toLower
  | .full => sameLetter a b

def CaseRule.forms (rule : CaseRule) (c : Char) : List Char :=
  match rule with
  | .exact => [c]
  | .ascii => [c, c.toLower, c.toUpper]
  | .full => formsOf c

def CaseRule.fold (rule : CaseRule) (c : Char) : Char :=
  match rule with
  | .exact => c
  | .ascii => c.toLower
  | .full => foldChar c

def ClassItem.holds (rule : CaseRule) (c : Char) : ClassItem → Bool
  | .one d => rule.same d c
  | .range a b => (rule.forms c).any fun d => a ≤ d && d ≤ b
  | .kind k negated ascii => k.holds ascii c != negated

def CharTest.holds (c : Char) : CharTest → Bool
  | .any => true
  | .notNewline => c != '\n'
  | .oneOf negated rule items => (items.any (·.holds rule c)) != negated

/-! ### Width -/

/-- The least number of characters that a match takes, and the greatest if there is one. -/
abbrev Width := Nat × Option Nat

def Width.add (a b : Width) : Width := (a.1 + b.1, a.2.bind fun x => b.2.map (x + ·))

def Width.either (a b : Width) : Width := (min a.1 b.1, a.2.bind fun x => b.2.map (max x))

def Width.times (w : Width) (least : Nat) (most : Option Nat) : Width :=
  (least * w.1, if w.2 == some 0 then some 0 else most.bind fun k => w.2.map (k * ·))

/-- The width of a pattern, where those of the groups it refers to are given. -/
def width (groups : Nat → Width) : Pattern → Width
  | .empty => (0, some 0)
  | .char _ => (1, some 1)
  | .cat a b => (a.width groups).add (b.width groups)
  | .alt a b => (a.width groups).either (b.width groups)
  | .group _ p => p.width groups
  | .again n _ => groups n
  | .times least most _ p => (p.width groups).times least most
  | .anchor _ => (0, some 0)
  | .lookAhead _ _ => (0, some 0)
  | .lookBehind _ _ _ => (0, some 0)
  | .atomic p => p.width groups
  | .ifGroup _ a b => (a.width groups).either (b.width groups)

/-- Is there a repetition in a pattern? -/
def repeats : Pattern → Bool
  | .times _ _ _ _ => true
  | .cat a b => a.repeats || b.repeats
  | .alt a b => a.repeats || b.repeats
  | .group _ p => p.repeats
  | .lookAhead _ p => p.repeats
  | .lookBehind _ _ p => p.repeats
  | .atomic p => p.repeats
  | .ifGroup _ a b => a.repeats || b.repeats
  | .empty => false
  | .char _ => false
  | .again _ _ => false
  | .anchor _ => false

end Pattern

end ProjectLint
