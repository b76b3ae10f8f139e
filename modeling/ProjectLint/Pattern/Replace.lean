import ProjectLint.Pattern.Matcher
import ProjectLint.Pattern.Parser

/-!
# Replacing matches

Every match of a pattern, up to a given number, is replaced by a template, in which a backslash with
a number or name stands for what a group matched.
-/

namespace ProjectLint.Pattern

inductive TemplatePart where
  | text (c : Char)
  | group (n : Nat)
deriving DecidableEq, Repr

def groupPart (c : Compiled) (n : Nat) : Except Fault TemplatePart :=
  if n > c.groupCount then .error .badPattern else .ok (.group n)

def namedPart (c : Compiled) (name : String) : Except Fault TemplatePart :=
  if isIdentifier name then
    match c.names.find? fun k => k.1 == name with
    | some (_, n) => .ok (.group n)
    | none => .error .outOfRange
  else
    match Text.integer? name with
    | some n => if n < 0 then .error .badPattern else groupPart c n.toNat
    | none => .error .badPattern

def template (c : Compiled) : Nat → List Char → Except Fault (List TemplatePart)
  | 0, _ => .ok []
  | _, [] => .ok []
  | fuel + 1, '\\' :: rest =>
    match rest with
    | [] => .error .badPattern
    | 'g' :: '<' :: more =>
      let name := more.takeWhile (· != '>')
      if name.isEmpty || name.length == more.length then .error .badPattern
      else do
        let part ← namedPart c (String.ofList name)
        return part :: (← template c fuel (more.drop (name.length + 1)))
    | 'g' :: _ => .error .badPattern
    | '0' :: more => do
      let digits := (more.take 2).takeWhile isOctalDigit
      return .text (Char.ofNat (octalOf digits)) :: (← template c fuel (more.drop digits.length))
    | d :: more =>
      if d.isDigit then
        match more with
        | e :: f :: after =>
          if isOctalDigit d && isOctalDigit e && isOctalDigit f then
            let n := octalOf [d, e, f]
            if n > 0xFF then .error .badPattern
            else do return .text (Char.ofNat n) :: (← template c fuel after)
          else if e.isDigit then do
            return (← groupPart c (Json.digitsValue [d, e])) :: (← template c fuel (f :: after))
          else do return (← groupPart c (Json.digitsValue [d])) :: (← template c fuel more)
        | [e] =>
          if e.isDigit then do return [← groupPart c (Json.digitsValue [d, e])]
          else do return (← groupPart c (Json.digitsValue [d])) :: (← template c fuel more)
        | [] => do return [← groupPart c (Json.digitsValue [d])]
      else
        match plainEscape? d with
        | some e => do return .text e :: (← template c fuel more)
        | none =>
          if d.isAlpha then .error .badPattern
          else do return .text '\\' :: .text d :: (← template c fuel more)
  | fuel + 1, ch :: rest => do return .text ch :: (← template c fuel rest)

def fill (parts : List TemplatePart) (whole : List Char) (s : Spot) : List Char :=
  parts.flatMap fun part =>
    match part with
    | .text c => [c]
    | .group 0 => whole
    | .group n => (s.group? n).getD []

/-- The next match at or behind a spot; at the spot itself it must move on if `advance` says so. -/
def nextMatch (p : Pattern) : Nat → Bool → Spot → Option (Spot × Spot)
  | 0, _, _ => none
  | fuel + 1, advance, s =>
    match p.run s fun t => if advance && t.left == s.left then none else some t with
    | some t => some (s, t)
    | none =>
      match s.next with
      | some (_, next) => nextMatch p fuel false { next with groups := [] }
      | none => none

/-- Replaces at most `count` matches from a spot on. -/
def replaceFrom (p : Pattern) (parts : List TemplatePart) : Nat → Bool → Spot → List Char
  | 0, _, s => s.ahead
  | count + 1, advance, s =>
    match nextMatch p (s.left + 1) advance s with
    | none => s.ahead
    | some (b, e) =>
      s.upTo b ++ fill parts (b.upTo e) e ++
        replaceFrom p parts count (b.left == e.left) { e with groups := [] }

/-- Replaces the first `count` matches of a pattern. -/
def replace (pattern replacement : String) (count : Nat) (text : String) : Except Fault String := do
  let c ← compile pattern false
  let parts ← template c (replacement.length + 1) replacement.toList
  return String.ofList (replaceFrom c.pattern parts count false (.start text.toList))

end ProjectLint.Pattern
