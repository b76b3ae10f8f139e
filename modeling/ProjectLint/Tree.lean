import ProjectLint.Fault
import ProjectLint.Path.Basic

/-!
# The working directory

A tree of files and directories. A path is followed part by part from the top: each part but the
last must be a directory. Reading gives text with line ends unified.
-/

namespace ProjectLint

inductive Node where
  | file (content : ByteArray)
  | dir

/-- Files and directories under their lists of names, the directories above a file among them. -/
structure Tree where
  nodes : List (List String × Node)

namespace Tree

def empty : Tree := ⟨[]⟩

def node? (t : Tree) (place : List String) : Option Node :=
  (t.nodes.find? fun n => n.1 == place).map (·.2)

def isDirPlace (t : Tree) (place : List String) : Bool :=
  place.isEmpty || (match t.node? place with
    | some .dir => true
    | _ => false)

def putNode (t : Tree) (place : List String) (node : Node) : Tree :=
  if t.nodes.any fun n => n.1 == place then
    ⟨t.nodes.map fun n => if n.1 == place then (place, node) else n⟩
  else ⟨t.nodes ++ [(place, node)]⟩

def addDir (t : Tree) (place : List String) : Tree :=
  ((List.range place.length).map fun n => place.take (n + 1)).foldl
    (fun t above => if (t.node? above).isSome then t else t.putNode above .dir) t

def addFile (t : Tree) (place : List String) (content : ByteArray) : Tree :=
  (t.addDir place.dropLast).putNode place (.file content)

def remove (t : Tree) (place : List String) : Tree :=
  ⟨t.nodes.filter fun n => !(place.isPrefixOf n.1)⟩

/-! ### Following paths -/

/-- Where a path leads. -/
inductive Target where
  | file (place : List String) (content : ByteArray)
  | dir (place : List String)
  /-- A directory above the working directory, or elsewhere on the machine. -/
  | outside
  /-- Nothing yet, but its directory is there. -/
  | absent (place : List String)
  | noDirectory
  | throughFile

/-- Takes one step from a target that has to be a directory. -/
def step (t : Tree) (part : String) : Target → Target
  | .dir place =>
    if part.isEmpty || part == "." then .dir place
    else if part == ".." then (if place.isEmpty then .outside else .dir place.dropLast)
    else
      let next := place ++ [part]
      match t.node? next with
      | some (.file content) => .file next content
      | some .dir => .dir next
      | none => .absent next
  | .outside => if part.isEmpty || part == "." || part == ".." then .outside else .noDirectory
  | .file _ _ => .throughFile
  | .absent place => if part.isEmpty then .absent place else .noDirectory
  | .noDirectory => .noDirectory
  | .throughFile => .throughFile

/-- Where a path text leads. A slash at the end asks for a directory. -/
def follow (t : Tree) (path : String) : Target :=
  if path.isEmpty then .noDirectory
  else
    let start := if Path.rootOf path.toList == .relative then Target.dir [] else .outside
    (Path.pieces path).foldl (fun target part => t.step part target) start

def exists? (t : Tree) (path : String) : Bool :=
  match t.follow path with
  | .file _ _ | .dir _ | .outside => true
  | _ => false

def isDir (t : Tree) (path : String) : Bool :=
  match t.follow path with
  | .dir _ | .outside => true
  | _ => false

/-- The bytes of a file. -/
def readBytes (t : Tree) (path : String) : Except Fault ByteArray :=
  match t.follow path with
  | .file _ content => .ok content
  | .dir _ | .outside => .error (.isADirectory path)
  | .throughFile => .error (.notADirectory path)
  | .absent _ | .noDirectory => .error (.noSuchFile path)

/-- The text of a file. -/
def readText (t : Tree) (path : String) : Except Fault String :=
  match t.readBytes path with
  | .error f => .error f
  | .ok bytes =>
    match Text.decode bytes with
    | .ok s => .ok (Text.unifyNewlines s)
    | .error cause => .error (.badEncoding cause)

def writeBytes (t : Tree) (path : String) (content : ByteArray) : Except Fault Tree :=
  match t.follow path with
  | .file place _ => .ok (t.putNode place (.file content))
  | .absent place => .ok (t.putNode place (.file content))
  | .dir _ | .outside => .error (.isADirectory path)
  | .throughFile => .error (.notADirectory path)
  | .noDirectory => .error (.noSuchFile path)

def writeText (t : Tree) (path : String) (text : String) : Except Fault Tree :=
  t.writeBytes path text.toUTF8

def children (t : Tree) (place : List String) : List (String × Node) :=
  t.nodes.filterMap fun (p, node) =>
    match p.getLast? with
    | some name => if p.dropLast == place then some (name, node) else none
    | none => none

end Tree

end ProjectLint
