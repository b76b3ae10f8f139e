import ProjectLint.Edit
import ProjectLint.Script.Semicolon

/-!
# Taking semicolons off

A script that ends in a semicolon is cut before it. One semicolon is taken off at a time.
-/

namespace ProjectLint.Semicolons

/-- Takes the semicolon off one file. -/
def removeFrom (status : Status) (path : String) : Edit Status := do
  let bytes ← Edit.ask fun t => t.readBytes path
  let (found, file) ← Edit.ofExcept ((Script.Handle.opened bytes.toList).checkSemicolon true)
  if found != 0 then
    Edit.change fun t => t.writeBytes path ⟨file.bytes.toArray⟩
    Edit.say ("Replacing semicolon in " ++ path ++ ".")
    return found
  else return status

/-- Takes a semicolon off every file that ends in one. -/
def remove (paths : List String) : Edit Status := Edit.foldl removeFrom 0 paths

end ProjectLint.Semicolons
