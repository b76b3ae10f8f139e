import ProjectLint.Json.Reader
import ProjectLint.Text.Number
import ProjectLint.Value.Access

/-!
# Options of a command line

A command line takes options, each under a name with two dashes, and possibly file names. An option
says how many words it takes and what they stand for. What was given is kept as values under the
option names.
-/

namespace ProjectLint.Options

/-- How many words follow an option. -/
inductive Arity where
  | none
  | one
  | some
  | any
deriving DecidableEq, Repr

/-- What the words of an option stand for. -/
inductive Reading where
  | words
  | integer
  /-- Words of the form `KEY=VALUE`. -/
  | pairs
  | json
  /-- The option is on when it is given. -/
  | switch
  | help
deriving DecidableEq, Repr

structure Parameter where
  name : String
  /-- Another, shorter name. -/
  short : List String := []
  arity : Arity := .one
  reading : Reading := .words
  initial : Value := .null
  required : Bool := false
  /-- The words that are allowed, if not all are. -/
  choices : List String := []
  /-- Options that must not be given together with this one. -/
  rivals : List String := []

namespace Parameter

def spellings (p : Parameter) : List String := p.short ++ [p.name]

/-- The parameter as it is named in complaints. -/
def label (p : Parameter) : String := "/".intercalate p.spellings

/-- An option with one word and a default. -/
def text (name default : String) : Parameter :=
  ⟨name, [], .one, .words, .str default, false, [], []⟩

def needed (name : String) : Parameter := ⟨name, [], .one, .words, .null, true, [], []⟩

def integer (name : String) (default : Value) : Parameter :=
  ⟨name, [], .one, .integer, default, false, [], []⟩

def switch (name : String) : Parameter := ⟨name, [], .none, .switch, .bool false, false, [], []⟩

def list (name : String) : Parameter := ⟨name, [], .any, .words, .null, false, [], []⟩

def neededList (name : String) : Parameter := ⟨name, [], .some, .words, .null, true, [], []⟩

def rivalList (name rival : String) : Parameter :=
  ⟨name, [], .some, .words, .null, false, [], [rival]⟩

def help : Parameter := ⟨"--help", ["-h"], .none, .help, .null, false, [], []⟩

end Parameter

structure CommandLine where
  takesFiles : Bool
  parameters : List Parameter

namespace CommandLine

/-- All parameters, with the one that asks for help. -/
def all (c : CommandLine) : List Parameter := .help :: c.parameters

def spellings (c : CommandLine) : List (String × Parameter) :=
  c.all.flatMap fun p => p.spellings.map fun s => (s, p)

end CommandLine

/-- Why a command line is not followed. -/
inductive Refusal where
  | help
  | usage (complaint : String)
  | fault (f : Fault)

/-! ### Values of options -/

def pairOf (word : String) : Except Fault (String × String) :=
  match Text.cutList '=' word.toList with
  | (key, some value) => .ok (String.ofList (Text.trimList key), String.ofList value)
  | (_, none) => .error .outOfRange

/-- The mapping that words of the form `KEY=VALUE` write; of equal keys the last one counts. -/
def pairsOf (words : List String) : Except Fault Entries :=
  words.foldlM (fun entries word =>
    (pairOf word).map fun p => Entries.put entries p.1 (.str p.2)) []

def jsonOf (text : String) : Except Fault Value :=
  if text.isEmpty then .ok (.map []) else Json.read text

/-- What was given on a command line: the files, and a value under each option name. -/
structure Arguments where
  files : List String
  values : List (String × Value)

namespace Arguments

def value (a : Arguments) (name : String) : Value :=
  ((a.values.find? fun v => v.1 == name).map (·.2)).getD .null

def set (a : Arguments) (name : String) (v : Value) : Arguments :=
  { a with values := a.values.map fun e => if e.1 == name then (name, v) else e }

def text (a : Arguments) (name : String) : String :=
  match a.value name with
  | .str s => s
  | _ => ""

def flag (a : Arguments) (name : String) : Bool :=
  match a.value name with
  | .bool b => b
  | _ => false

def int? (a : Arguments) (name : String) : Option Int :=
  match a.value name with
  | .int n => some n
  | _ => none

def texts? (a : Arguments) (name : String) : Option (List String) :=
  match a.value name with
  | .seq items => some (items.filterMap fun v => match v with | .str s => some s | _ => none)
  | _ => none

def texts (a : Arguments) (name : String) : List String := (a.texts? name).getD []

def pairs (a : Arguments) (name : String) : List (String × String) :=
  match a.value name with
  | .map entries => entries.filterMap fun e =>
      match e with
      | (.str k, .str v) => some (k, v)
      | _ => none
  | _ => []

end Arguments

end ProjectLint.Options
