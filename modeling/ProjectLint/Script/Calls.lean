import ProjectLint.Text.Blank

/-!
# Calls in scripts

A script names the models and sources it reads from by calls in double braces. The argument of a
call reaches to the last closing parenthesis of the line that is followed by closing braces.
-/

namespace ProjectLint.Script

inductive Callee where
  | ref
  | source
deriving DecidableEq, Repr

structure Call where
  callee : Callee
  argument : List Char
deriving DecidableEq, Repr

def after? (text : String) (cs : List Char) : Option (List Char) :=
  if text.toList.isPrefixOf cs then some (cs.drop text.length) else none

def closing? (cs : List Char) : Option (List Char) := after? "\x7d\x7d" (cs.dropWhile Text.isBlank)

/-- The argument up to the last parenthesis that closes the call, and the rest after the call. -/
def argument? : List Char → Option (List Char × List Char)
  | [] => none
  | c :: rest =>
    match if c == '\n' then none else argument? rest with
    | some (argument, left) => some (c :: argument, left)
    | none => if c == ')' then (closing? rest).map fun left => ([], left) else none

def callee? (cs : List Char) : Option (Callee × List Char) :=
  match after? "source" cs with
  | some rest => some (.source, rest)
  | none => (after? "ref" cs).map fun rest => (.ref, rest)

def call? (cs : List Char) : Option (Call × List Char) := do
  let inside ← after? "\x7b\x7b" cs
  let (callee, rest) ← callee? (inside.dropWhile Text.isBlank)
  let rest ← after? "(" (rest.dropWhile Text.isBlank)
  let (argument, left) ← argument? rest
  return (⟨callee, argument⟩, left)

/-- The calls of a script, which do not overlap. The first argument counts the characters that
belong to the call found last. -/
def callsFrom : Nat → List Char → List Call
  | _, [] => []
  | skip + 1, _ :: rest => callsFrom skip rest
  | 0, c :: rest =>
    match call? (c :: rest) with
    | some (call, left) => call :: callsFrom (rest.length - left.length) rest
    | none => callsFrom 0 rest

def calls (script : String) : List Call := callsFrom 0 script.toList

def Call.plain (c : Call) : List Char :=
  Text.trimList ((c.argument.filter (· != '\'')).filter (· != '"'))

end ProjectLint.Script
