import ProjectLint.Options.Basic
import ProjectLint.Path.Basic
import ProjectLint.Report

/-!
# Commands

Some hooks hand their work to the `dbt` program. This module builds its command lines and reads its
replies. Since a plus sign stands for a dash in the flags that are handed on, the flags can be given
as words.
-/

namespace ProjectLint.Commands

/-- What a started program gives back. -/
structure Reply where
  output : String
  errors : String
  code : Int

/-- The commands that can be started. -/
inductive Command where
  | clean
  | compile
  | deps
  | docs
  | parse
  | run
  | test
deriving DecidableEq, Repr

def Command.words : Command → List String
  | .clean => ["clean"]
  | .compile => ["compile"]
  | .deps => ["deps"]
  | .docs => ["docs", "generate"]
  | .parse => ["parse"]
  | .run => ["run"]
  | .test => ["test"]

def Command.takesModels : Command → Bool
  | .compile | .run | .test => true
  | _ => false

def flags (given : List String) : List String :=
  (given.filter fun f => !f.isEmpty).map fun f =>
    String.ofList (f.toList.map fun c => if c == '+' then '-' else c)

def withProjectDir (command : List Value) (commandFlags : List String) (dir : Value) : List Value :=
  if dir.truthy && !commandFlags.contains "--project-dir" then
    command ++ [.str "--project-dir", dir]
  else command

def modelNames (paths : List String) (before after : String) : List String :=
  paths.map fun p => before ++ stemOf p ++ after

/-- What a command line is built from. -/
structure Request where
  paths : List String := []
  globalFlags : List String := []
  commandFlags : List String := []
  before : String := ""
  after : String := ""
  models : List String := []

/-- The models of a command: those that are named, or else those of the files. -/
def Request.choice (r : Request) : List String :=
  if r.models.isEmpty then modelNames r.paths r.before r.after else r.models

/-- The command line. -/
def commandLine (c : Command) (r : Request) (settings : Value) : Except Fault (List Value) := do
  let commandFlags := flags r.commandFlags
  let dir ← settings.field "dbt-project-dir"
  let chosen := if c.takesModels then "-m" :: r.choice else []
  let words := "dbt" :: flags r.globalFlags ++ c.words ++ chosen ++ commandFlags
  return withProjectDir (words.map .str) commandFlags dir

def startedWords (command : List String) : List String := command.filter fun w => !w.isEmpty

/-- The output of a program that must end with the expected code, if one is expected. -/
def output (reply : Option Reply) (command : List String) (expected : Option Int) :
    Except Fault String :=
  match reply with
  | none => .error (.noSuchFile (command.headD ""))
  | some r =>
    match expected with
    | none => .ok r.output
    | some code =>
      if r.code == code then .ok r.output
      else .error (.commandFailed command code r.code r.output r.errors.toUTF8)

/-- What came of a command: a report, and the commands that were started. -/
structure Started where
  report : Report Status
  commands : List (List String)

/-- Starts a command and prints its output; it fails if the program does. -/
def start (reply : Option Reply) (command : List Value) : Started :=
  match joinValues " " command, command.mapM Value.textOnly with
  | .ok line, .ok words =>
    let started := startedWords words
    let report : Report Status := do
      Report.say ("Executing cmd: `" ++ line ++ "`")
      match output reply started (some 0) with
      | .ok text =>
        Report.say text
        return 0
      | .error (.commandFailed _ _ _ text _) =>
        Report.say text
        return 1
      | .error f => Report.fail f
    ⟨report, [started]⟩
  | .error f, _ => ⟨Report.fail f, []⟩
  | _, .error f => ⟨Report.fail f, []⟩

end ProjectLint.Commands
