import ProjectLint.Text.Encoding
import ProjectLint.Text.Quoted

/-!
# Faults

Why a run ends before its work is done. A fault is a cause; `Fault.message` words those whose text
reaches the reader of a report.
-/

namespace ProjectLint

/-- The layer of document reading at which a text stops being a document. -/
inductive DocumentLayer where
  | characters
  | tokens
  | grammar
  | references
  | meaning
deriving DecidableEq, Repr

inductive Fault where
  /-- A field or operation was asked of a value that has none of that name. -/
  | noSuchField
  /-- A value is of a kind that the operation does not take. -/
  | wrongKind
  | missingKey
  | outOfRange
  /-- A number is too large for what it is to become. -/
  | tooLarge
  | badValue (reason : String)
  | noSuchFile (path : String)
  | isADirectory (path : String)
  | notADirectory (path : String)
  | alreadyExists (path : String)
  | badEncoding (cause : Text.BadEncoding)
  /-- A JSON text goes wrong at a place, given by line, column and offset. -/
  | badJson (problem : String) (line column offset : Nat)
  | badDocument (layer : DocumentLayer)
  | badPattern
  | badSettings (message : String)
  /-- A project file could not be loaded for the reason given. -/
  | unloadable (reason : String)
  /-- A started program ended with another code than the expected one. -/
  | commandFailed (command : List String) (expected actual : Int) (output : String)
      (errors : ByteArray)
  | unsupported
  /-- A sequence of words ended where one more was needed. -/
  | endedEarly
  /-- The usage event could not be delivered. -/
  | undelivered (reason : String)

namespace Fault

def encodingMessage (cause : Text.BadEncoding) : String :=
  if cause.stop = cause.start + 1 then
    s!"'utf-8' codec can't decode byte 0x{Text.hex 2 cause.byte} " ++
      s!"in position {cause.start}: {cause.reason}"
  else
    s!"'utf-8' codec can't decode bytes in position {cause.start}-{cause.stop - 1}: {cause.reason}"

/-- The text of a fault, where it has one that is shown. -/
def message : Fault → String
  | .noSuchFile path => "[Errno 2] No such file or directory: " ++ Text.quoted path
  | .isADirectory path => "[Errno 21] Is a directory: " ++ Text.quoted path
  | .notADirectory path => "[Errno 20] Not a directory: " ++ Text.quoted path
  | .alreadyExists path => "[Errno 17] File exists: " ++ Text.quoted path
  | .badEncoding cause => encodingMessage cause
  | .badJson problem line column offset =>
    s!"{problem}: line {line} column {column} (char {offset})"
  | .badValue reason => reason
  | .badSettings text => text
  | .unloadable reason => reason
  | .undelivered reason => reason
  | _ => ""

end Fault

end ProjectLint
