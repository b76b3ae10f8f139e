import ProjectLint.Path.Wildcard
import ProjectLint.Tree

/-!
# Searching the tree

Finds the paths below the working directory that fit a pattern of parts. Two stars stand for any
number of directories.
-/

namespace ProjectLint.Search

inductive Part where
  | anyDepth
  | up
  | wild (pattern : String)
  | name (name : String)
  /-- Stands at the end of a pattern that ends in a slash. -/
  | here
deriving DecidableEq, Repr

def hasTwoStars : List Char → Bool
  | '*' :: '*' :: _ => true
  | _ :: rest => hasTwoStars rest
  | [] => false

def Part.ofString (part : String) : Except Fault Part :=
  if part.isEmpty then .ok .here
  else if part == "**" then .ok .anyDepth
  else if part == ".." then .ok .up
  else if hasTwoStars part.toList then
    .error (.badValue "Invalid pattern: '**' can only be an entire path component")
  else if Wildcard.isWild part then .ok (.wild part)
  else .ok (.name part)

def parse (pattern : String) : Except Fault (List Part) :=
  let path := Path.ofString pattern
  if pattern.isEmpty then .error (.badValue "Unacceptable pattern: ''")
  else if path.root != .relative then .error .unsupported
  else
    let last := if pattern.toList.getLast? == some '/' then [""] else []
    (path.parts ++ last).mapM Part.ofString

def dirPlace? (t : Tree) (found : List String) : Option (List String) :=
  match t.follow ("/".intercalate ("." :: found)) with
  | .dir place => some place
  | _ => none

/-- Directories below `found`, itself first, in the order of the tree. The bound counts levels. -/
def descend (t : Tree) : Nat → List String → List (List String)
  | 0, found => [found]
  | fuel + 1, found =>
    let below := match dirPlace? t found with
      | none => []
      | some place => (t.children place).filterMap fun (child : String × Node) =>
          match child.2 with
          | .dir => some (found ++ [child.1])
          | .file _ => none
    found :: below.flatMap (descend t fuel)

/-- The paths that continue `found` by the parts of a pattern. -/
def select (t : Tree) : List Part → List String → List (List String)
  | [], found => [found]
  | .here :: _, found => [found]
  | .anyDepth :: rest, found =>
    ((descend t t.nodes.length found).flatMap fun start => select t rest start).eraseDups
  | .up :: rest, found => select t rest (found ++ [".."])
  | .name name :: rest, found =>
    let next := found ++ [name]
    let path := "/".intercalate ("." :: next)
    if (if rest.isEmpty then t.exists? path else t.isDir path) then select t rest next else []
  | .wild pattern :: rest, found =>
    match dirPlace? t found with
    | none => []
    | some place => (t.children place).flatMap fun (child : String × Node) =>
      let isDir := match child.2 with
        | .dir => true
        | .file _ => false
      if (rest.isEmpty || isDir) && Wildcard.fits pattern child.1 then
        select t rest (found ++ [child.1])
      else []

/-- The paths of the tree that fit a pattern. -/
def paths (t : Tree) (pattern : String) : Except Fault (List Path) :=
  (parse pattern).map fun parts => (select t parts []).map fun found => ⟨.relative, found⟩

end ProjectLint.Search
