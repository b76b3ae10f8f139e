import ProjectLint.Report
import ProjectLint.Value.Access

/-!
# Usage events

After a run an event says which hook was used and how it ended, unless the settings switch that off.
What the manifest knows about itself is added to the event; a status of zero or one is then worded,
and the hook goes by its name without the ending.
-/

namespace ProjectLint

structure Event where
  token : String
  user : Value
  name : String
  properties : Entries

namespace Tracking

def testToken : String := "34ffa16dc37f248c18ad6d1b9ea9c3a8"

def liveToken : String := "3fa3db873f6950d10bd770a49c57e33e"

def token (settings isTest : Value) : Except Fault String := do
  let asked ← settings.fieldD "is-test" (.bool false)
  return if asked.truthy || isTest.truthy then testToken else liveToken

/-- What the settings say about switching events off. -/
def disabling (settings : Value) : Except Fault Value :=
  settings.fieldD "disable-tracking" (.bool false)

/-- Words a status of zero or one. -/
def wordStatus (properties : Entries) : Entries :=
  match Entries.get? properties "status" with
  | some status =>
    if status.same (.int 0) then Entries.put properties "status" (.str "Success")
    else if status.same (.int 1) then Entries.put properties "status" (.str "Fail")
    else properties
  | none => properties

def withoutEnding (name : List Char) : List Char :=
  let base := (name.reverse.takeWhile (· != '/')).reverse
  let ending := (base.reverse.takeWhile (· != '.')).reverse
  let before := base.take (base.length - ending.length - 1)
  if ending.length == base.length || before.all (· == '.') then name
  else name.take (name.length - ending.length - 1)

def shortenHookName (properties : Entries) : Except Fault Entries :=
  match Entries.get? properties "hook_name" with
  | none => .ok properties
  | some .null => .ok properties
  | some (.str name) =>
    .ok (Entries.put properties "hook_name" (.str (String.ofList (withoutEnding name.toList))))
  | some _ => .error .wrongKind

def merged (properties : Entries) (metadata : Value) : Except Fault Entries :=
  match metadata with
  | .null => .ok properties
  | .map more => .ok (Entries.update properties more)
  | _ => .error .noSuchField

def eventOf (token name : String) (properties : Entries) (manifest : Value) :
    Except Fault Event := do
  let metadata ← manifest.field "metadata"
  let all ← merged properties metadata
  match metadata with
  | .null => return ⟨token, .null, name, all⟩
  | _ => return ⟨token, ← metadata.field "user_id", name, ← shortenHookName (wordStatus all)⟩

/-- Delivers an event, unless that is switched off. A failed delivery is told and ends the run. -/
def deliver (failure : Option String) (settings isTest : Value) (name : String)
    (properties : Entries) (manifest : Value) : Report (List Event) := do
  let mark ← token settings isTest
  if (← disabling settings).truthy then return []
  let event ← eventOf mark name properties manifest
  match failure with
  | none => return [event]
  | some reason =>
    Report.say ("Mixpanel Error: " ++ reason)
    Report.fail (.undelivered reason)

end Tracking

end ProjectLint
