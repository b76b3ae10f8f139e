import ProjectLint.Pattern.Basic

/-!
# Matching

A pattern is matched at a spot of a text and goes on with what is to follow: the first way in which
both succeed is taken. A repetition prefers more or fewer rounds, and once the least number of
rounds is reached it takes another one only if the last one moved on.
-/

namespace ProjectLint.Pattern

/-- A spot in a text: the characters before it, nearest first, those after it, and what groups
matched. -/
structure Spot where
  behind : List Char
  ahead : List Char
  groups : List (Nat × List Char)

namespace Spot

def start (text : List Char) : Spot := ⟨[], text, []⟩

def next (s : Spot) : Option (Char × Spot) :=
  match s.ahead with
  | [] => none
  | c :: rest => some (c, { s with behind := c :: s.behind, ahead := rest })

def skip (s : Spot) : Nat → Spot
  | 0 => s
  | n + 1 =>
    match s.ahead with
    | [] => s
    | c :: rest => skip { s with behind := c :: s.behind, ahead := rest } n

def back? (s : Spot) : Nat → Option Spot
  | 0 => some s
  | n + 1 =>
    match s.behind with
    | [] => none
    | c :: rest => back? { s with behind := rest, ahead := c :: s.ahead } n

def left (s : Spot) : Nat := s.ahead.length

def upTo (s t : Spot) : List Char := s.ahead.take (s.left - t.left)

def group? (s : Spot) (n : Nat) : Option (List Char) := (s.groups.find? fun g => g.1 == n).map (·.2)

end Spot

def Anchor.holds (s : Spot) : Anchor → Bool
  | .start => s.behind.isEmpty
  | .lineStart => s.behind.isEmpty || s.behind.head? == some '\n'
  | .finish => s.ahead.isEmpty || s.ahead == ['\n']
  | .lineEnd => s.ahead.isEmpty || s.ahead.head? == some '\n'
  | .veryEnd => s.ahead.isEmpty
  | .edge ascii => isEdge ascii
  | .noEdge ascii => !isEdge ascii && !(s.behind.isEmpty && s.ahead.isEmpty)
where
  isEdge (ascii : Bool) : Bool :=
    let word := fun (c : Option Char) =>
      match c with
      | some c => CharKind.word.holds ascii c
      | none => false
    word s.behind.head? != word s.ahead.head?

/-- What is to follow a match. -/
abbrev Rest := Spot → Option Spot

/-- Rounds of a repetition. `last` is how much was left when the last free round began. -/
def rounds (body : Spot → Rest → Option Spot) (least : Nat) (most : Option Nat) (lazy : Bool) :
    Nat → Nat → Option Nat → Spot → Rest → Option Spot
  | 0, _, _, _, _ => none
  | fuel + 1, count, last, s, k =>
    if count < least then body s fun t => rounds body least most lazy fuel (count + 1) last t k
    else
      let mayGoOn := (match most with
        | some m => count < m
        | none => true) && last != some s.left
      let goOn : Unit → Option Spot := fun _ =>
        if mayGoOn then
          body s fun t => rounds body least most lazy fuel (count + 1) (some s.left) t k
        else none
      if lazy then (k s).orElse goOn
      else (goOn ()).orElse fun _ => k s

def expectText (rule : CaseRule) (text : List Char) (s : Spot) : Option Spot :=
  let here := s.ahead.take text.length
  if here.map rule.fold == text.map rule.fold then some (s.skip text.length) else none

/-- Matches a pattern at a spot and goes on with `k`. -/
def run : Pattern → Spot → Rest → Option Spot
  | .empty, s, k => k s
  | .char test, s, k =>
    match s.next with
    | some (c, t) => if test.holds c then k t else none
    | none => none
  | .cat a b, s, k => run a s fun t => run b t k
  | .alt a b, s, k => (run a s k).orElse fun _ => run b s k
  | .group n p, s, k => run p s fun t => k { t with groups := (n, s.upTo t) :: t.groups }
  | .again n rule, s, k =>
    match s.group? n with
    | some text => (expectText rule text s).bind k
    | none => none
  | .times least most lazy p, s, k =>
    rounds (run p) least most lazy (least + s.left + 2) 0 none s k
  | .anchor a, s, k => if a.holds s then k s else none
  | .lookAhead negated p, s, k =>
    match run p s some with
    | some t => if negated then none else k { s with groups := t.groups }
    | none => if negated then k s else none
  | .lookBehind negated width p, s, k =>
    match (s.back? width).bind fun b => run p b some with
    | some t => if negated then none else k { s with groups := t.groups }
    | none => if negated then k s else none
  | .atomic p, s, k => (run p s some).bind k
  | .ifGroup n yes no, s, k => if (s.group? n).isSome then run yes s k else run no s k

def matchAt (p : Pattern) (s : Spot) : Option Spot := p.run s some

def matchesStart (p : Pattern) (text : String) : Bool := (p.matchAt (.start text.toList)).isSome

/-- The first match at or behind a spot: where it begins and ends. -/
def searchFrom (p : Pattern) : Nat → Spot → Option (Spot × Spot)
  | 0, _ => none
  | fuel + 1, s =>
    match p.matchAt s with
    | some t => some (s, t)
    | none =>
      match s.next with
      | some (_, next) => searchFrom p fuel { next with groups := [] }
      | none => none

def occursIn (p : Pattern) (text : String) : Bool :=
  let s := Spot.start text.toList
  (p.searchFrom (s.left + 1) s).isSome

end ProjectLint.Pattern
