import ProjectLint.Checks.Scripts
import ProjectLint.Commands
import ProjectLint.Edit
import ProjectLint.Options.Reader
import ProjectLint.Project.Artifact
import ProjectLint.Tracking

/-!
# Hooks

A hook is a check, a fix or a command with a command line of its own. A run of a hook reads its
command line, loads what the hook needs, does the work, and records one event at the end. Whatever
ends a run early ends it without an event.
-/

namespace ProjectLint

/-- What a run depends on besides its command line. -/
structure World where
  tree : Tree
  /-- What the started program gives back; nothing if it cannot be found. -/
  reply : Option Commands.Reply := none
  /-- Why events cannot be delivered, if they cannot. -/
  undelivered : Option String := none
  scans : Scripts.TableScans := []
  /-- How long the work takes. -/
  elapsed : Value := .float 0.0

inductive Ending where
  | status (s : Status)
  | help
  | usage (complaint : String)
  | fault (f : Fault)

/-- All that a run leaves behind. -/
structure Outcome where
  ending : Ending
  lines : List String
  events : List Event
  commands : List (List String)
  tree : Tree

/-- What the work of a hook is done with. -/
structure Job where
  arguments : Options.Arguments
  manifest : Value
  catalog : Value
  scans : Scripts.TableScans

/-- Which files a job is about. -/
def Job.request (j : Job) : Request :=
  ⟨j.arguments.files, j.arguments.text "--exclude", j.arguments.flag "--include-disabled"⟩

/-- Why a hook does not start its work: it prints a line and fails, or complains about its command
line. -/
inductive Stop where
  | quit (line : String)
  | usage (complaint : String)

structure Hook where
  name : String
  /-- How events describe the hook; a hook without a description records none. -/
  description : Option String
  parameters : List Options.Parameter
  /-- Looks at the arguments before anything is loaded. -/
  before : Options.Arguments → Option Stop
  /-- What is loaded, in this order. -/
  loads : List Artifact
  /-- The work, if the arguments allow it. -/
  plan : Options.Arguments → Except Stop (Job → Edit Status)

namespace Hook

open Options (Parameter CommandLine Arguments Refusal)

def usualParameters : List Parameter := [
  .text "--manifest" Artifact.manifest.usualPath,
  .text "--config" Settings.defaultPath,
  .switch "--is_test",
  .text "--exclude" "",
  .switch "--include-disabled"]

def commandLine (h : Hook) : CommandLine := ⟨true, usualParameters ++ h.parameters⟩

/-- Where a run stands when its work can start. -/
structure Ready where
  arguments : Arguments
  job : Job
  work : Job → Edit Status

/-- How a run ends before its work starts. -/
structure Refused where
  ending : Ending
  lines : List String

def Refused.ofRefusal : Refusal → Refused
  | .help => ⟨.help, []⟩
  | .usage complaint => ⟨.usage complaint, []⟩
  | .fault f => ⟨.fault f, []⟩

def Refused.ofStop : Stop → Refused
  | .quit line => ⟨.status 1, [line]⟩
  | .usage complaint => ⟨.usage complaint, []⟩

/-- Loads an artifact into a job; one that cannot be loaded ends the run with a line. -/
def loadInto (t : Tree) (settings : Value) (job : Job) (a : Artifact) : Except Refused Job :=
  match a.load t job.arguments settings with
  | .ok v =>
    match a with
    | .manifest => .ok { job with manifest := v }
    | .catalog => .ok { job with catalog := v }
  | .error (.unloadable reason) =>
    .error ⟨.status 1, ["Unable to load " ++ a.name ++ " file (" ++ reason ++ ")"]⟩
  | .error f => .error ⟨.fault f, []⟩

def orRefuse {α ε : Type} (refuse : ε → Refused) : Except ε α → Except Refused α
  | .ok a => .ok a
  | .error e => .error (refuse e)

/-- Reads the command line and loads what the hook needs. -/
def prepare (h : Hook) (w : World) (words : List String) : Except Refused Ready := do
  let arguments ← orRefuse .ofRefusal (Options.read h.commandLine words)
  match h.before arguments with
  | some stop => throw (.ofStop stop)
  | none =>
    let settings ← orRefuse (fun f => ⟨.fault f, []⟩)
        (Settings.load w.tree (arguments.text "--config"))
    let job ← h.loads.foldlM (loadInto w.tree settings) ⟨arguments, .null, .null, w.scans⟩
    let work ← orRefuse .ofStop (h.plan arguments)
    return ⟨arguments, job, work⟩

def eventProperties (h : Hook) (description : String) (w : World) (arguments : Arguments)
    (status : Status) : Entries :=
  [(.str "hook_name", .str (h.name ++ ".py")), (.str "description", .str description),
    (.str "status", .int status), (.str "execution_time", w.elapsed),
    (.str "is_pytest", arguments.value "--is_test")]

def record (h : Hook) (w : World) (t : Tree) (ready : Ready) (status : Status) :
    Report (List Event) :=
  match h.description with
  | none => return []
  | some description => do
    let settings ← Settings.load t (ready.arguments.text "--config")
    Tracking.deliver w.undelivered settings (ready.arguments.value "--is_test") "Hook Executed"
      (h.eventProperties description w ready.arguments status) ready.job.manifest

/-- Does the work and records the event. -/
def finish (h : Hook) (w : World) (ready : Ready) : Outcome :=
  let done := ready.work ready.job w.tree
  match done.outcome with
  | .error f => ⟨.fault f, done.lines, [], [], done.tree⟩
  | .ok status =>
    let recorded := h.record w done.tree ready status
    match recorded.outcome with
    | .ok events => ⟨.status status, done.lines ++ recorded.lines, events, [], done.tree⟩
    | .error f => ⟨.fault f, done.lines ++ recorded.lines, [], [], done.tree⟩

/-- Runs a hook. -/
def run (h : Hook) (w : World) (words : List String) : Outcome :=
  match h.prepare w words with
  | .error refused => ⟨refused.ending, refused.lines, [], [], w.tree⟩
  | .ok ready => h.finish w ready

/-! ### Plans -/

def always (work : Job → Edit Status) : Arguments → Except Stop (Job → Edit Status) :=
  fun _ => .ok work

def looking (look : Tree → Job → Report Status) : Job → Edit Status :=
  fun j => Edit.ofReport fun t => look t j

def finding (find : Tree → Job → Findings) : Job → Edit Status :=
  looking fun t j => (find t j).report

end Hook

/-! ### Hooks that start a command -/

/-- A hook that starts a command. -/
structure CommandHook where
  name : String
  command : Commands.Command

namespace CommandHook

open Options (Parameter CommandLine Arguments)

def flagParameters : List Parameter := [.list "--global-flags", .list "--cmd-flags"]

def modelParameters : List Parameter := [
  .text "--model-prefix" "", .text "--model-postfix" "", .list "--models"]

def commandLine (h : CommandHook) : CommandLine :=
  ⟨h.command.takesModels,
    flagParameters ++ (if h.command.takesModels then modelParameters else []) ++
      [.text "--config" Settings.defaultPath]⟩

def request (a : Arguments) : Commands.Request :=
  ⟨a.files, a.texts "--global-flags", a.texts "--cmd-flags", a.text "--model-prefix",
    a.text "--model-postfix", a.texts "--models"⟩

/-- Runs the command of a hook. -/
def run (h : CommandHook) (w : World) (words : List String) : Outcome :=
  match Options.read h.commandLine words with
  | .error refusal =>
    let refused := Hook.Refused.ofRefusal refusal
    ⟨refused.ending, refused.lines, [], [], w.tree⟩
  | .ok arguments =>
    match Settings.load w.tree (arguments.text "--config") >>=
        Commands.commandLine h.command (request arguments) with
    | .error f => ⟨.fault f, [], [], [], w.tree⟩
    | .ok command =>
      let started := Commands.start w.reply command
      match started.report.outcome with
      | .ok status => ⟨.status status, started.report.lines, [], started.commands, w.tree⟩
      | .error f => ⟨.fault f, started.report.lines, [], started.commands, w.tree⟩

end CommandHook

end ProjectLint
