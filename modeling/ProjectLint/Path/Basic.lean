import ProjectLint.Text.Split

/-!
# Paths

A path is a list of parts under a root, with empty parts and single dots left out. Double dots stay,
since what they lead to depends on the tree.
-/

namespace ProjectLint

/-- The slashes that a path starts with: none, one, or exactly two. -/
inductive Root where
  | relative
  | absolute
  | network
deriving DecidableEq, Repr

structure Path where
  root : Root
  parts : List String
deriving DecidableEq, Repr

namespace Path

def pieces (s : String) : List String := Text.split '/' s

def rootOf : List Char → Root
  | '/' :: '/' :: '/' :: _ => .absolute
  | '/' :: '/' :: _ => .network
  | '/' :: _ => .absolute
  | _ => .relative

def ofString (s : String) : Path :=
  ⟨rootOf s.toList, (pieces s).filter fun part => !part.isEmpty && part != "."⟩

def Root.text : Root → String
  | .relative => ""
  | .absolute => "/"
  | .network => "//"

/-- The path as text; the empty path is a single dot. -/
def text (p : Path) : String :=
  let body := Root.text p.root ++ "/".intercalate p.parts
  if body.isEmpty then "." else body

/-- The last part. -/
def name (p : Path) : String := p.parts.getLast?.getD ""

def splitName (name : List Char) : List Char × List Char :=
  let ending := (name.reverse.takeWhile (· != '.')).reverse
  let before := name.take (name.length - ending.length - 1)
  if ending.length == name.length || ending.isEmpty || before.isEmpty then (name, [])
  else (before, '.' :: ending)

/-- The last part without its suffix. -/
def stem (p : Path) : String := String.ofList (splitName p.name.toList).1

/-- The end of the last part from its last dot on. -/
def suffix (p : Path) : String := String.ofList (splitName p.name.toList).2

def isEmpty (p : Path) : Bool := p.root == .relative && p.parts.isEmpty

def components (p : Path) : List String :=
  if p.root == .relative then p.parts else Root.text p.root :: p.parts

def withSuffix (p : Path) (suffix : String) : Path :=
  { p with parts := p.parts.dropLast ++ [p.stem ++ suffix] }

def parent (p : Path) : Path := { p with parts := p.parts.dropLast }

def ascent (p : Path) : List Path :=
  (List.range p.parts.length).map fun n => { p with parts := p.parts.take (n + 1) }

def child (p : Path) (part : String) : Path := { p with parts := p.parts ++ [part] }

def tail (p : Path) : Path :=
  if p.root == .relative then { p with parts := p.parts.drop 1 } else ⟨.relative, p.parts⟩

end Path

def stemOf (path : String) : String := (Path.ofString path).stem

end ProjectLint
