import ProjectLint.Hooks

/-!
# The command line

The first word names a hook, and the others are its command line. The hook works on the files of the
current directory as they are when it starts; afterwards the files that it changed are written. A
program that a hook asks for is not started: the hook then ends as if there were none.
-/

namespace ProjectLint.CommandLine

/-- All files and directories below a directory, with their bytes. -/
partial def readBelow (above : List String) (entries : Array IO.FS.DirEntry) (t : Tree) : IO Tree :=
  entries.foldlM (fun t entry => do
    let place := above ++ [entry.fileName]
    if ← entry.path.isDir then readBelow place (← entry.path.readDir) (t.addDir place)
    else return t.addFile place (← IO.FS.readBinFile entry.path)) t

def readTree : IO Tree := do
  readBelow [] (← (← IO.currentDir).readDir) Tree.empty

/-- Writes what differs from one tree to another. -/
def writeChanges (before after : Tree) : IO Unit :=
  after.nodes.forM fun (place, node) =>
    match node, before.node? place with
    | .dir, none => IO.FS.createDirAll ("/".intercalate place)
    | .file new, some (.file old) => do
      if new != old then IO.FS.writeBinFile ("/".intercalate place) new
    | .file new, _ => IO.FS.writeBinFile ("/".intercalate place) new
    | _, _ => pure ()

def exitCode : Ending → UInt32
  | .status s => s.toNat.toUInt32
  | .help => 0
  | .usage _ => 2
  | .fault _ => 1

def complaint? (hook : String) : Ending → Option String
  | .usage text => some (hook ++ ": error: " ++ text)
  | .fault f => some (hook ++ ": " ++ (if f.message.isEmpty then "broke off" else f.message))
  | _ => none

/-- Runs a hook on the current directory. -/
def run (hook : String) (words : List String) : IO UInt32 := do
  let tree ← readTree
  match Hooks.run? hook { tree } words with
  | none =>
    IO.eprintln ("There is no hook " ++ hook ++ ".")
    return 2
  | some outcome =>
    outcome.lines.forM IO.println
    writeChanges tree outcome.tree
    (complaint? hook outcome.ending).forM IO.eprintln
    return exitCode outcome.ending

end ProjectLint.CommandLine

def main (words : List String) : IO UInt32 :=
  match words with
  | [] => do
    IO.eprintln "Please name a hook."
    return 2
  | hook :: rest => ProjectLint.CommandLine.run hook rest
