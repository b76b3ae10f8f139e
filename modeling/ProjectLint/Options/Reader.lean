import ProjectLint.Options.Basic

/-!
# Reading a command line

Each word is an option, the divider `--`, or plain; all words after the divider are plain. An option
may be written by any beginning of its name that fits no other name, and its word may be attached by
an equals sign. Then the words are taken from left to right: an option takes the plain words it
needs, and the first run of other plain words holds the file names. A second such run is not
understood.
-/

namespace ProjectLint.Options

inductive Word where
  | plain (text : String)
  | divider
  | given (parameter : Parameter) (spelling : String) (attached : Option String)
  /-- Looks like an option, but is none. -/
  | unknown (text : String)

namespace Word

def isOption : Word → Bool
  | .given .. | .unknown _ => true
  | _ => false

def isPlain : Word → Bool
  | .plain _ => true
  | _ => false

def text : Word → String
  | .plain s => s
  | .divider => "--"
  | .given _ s _ => s
  | .unknown s => s

end Word

/-! ### Kinds of words -/

/-- A dash and a decimal number. -/
def isNegativeNumber (cs : List Char) : Bool :=
  match cs with
  | '-' :: rest =>
    let rest := if rest.getLast? == some '\n' then rest.dropLast else rest
    let whole := rest.takeWhile Text.isDecimalDigit
    match rest.drop whole.length with
    | [] => !whole.isEmpty
    | '.' :: fraction => !fraction.isEmpty && fraction.all Text.isDecimalDigit
    | _ => false
  | _ => false

/-- The options that a word may stand for, when it is no full name of one. -/
def candidates (c : CommandLine) (word : String) : List (Parameter × String × Option String) :=
  match word.toList with
  | '-' :: '-' :: _ =>
    let (start, attached) := Text.cutList '=' word.toList
    c.spellings.filterMap fun (spelling, p) =>
      if start.isPrefixOf spelling.toList then some (p, spelling, attached.map String.ofList)
      else none
  | cs =>
    c.spellings.filterMap fun (spelling, p) =>
      if spelling.toList == cs.take 2 then some (p, spelling, some (String.ofList (cs.drop 2)))
      else if cs.isPrefixOf spelling.toList then some (p, spelling, none)
      else none

def named? (c : CommandLine) (name : String) : Option Parameter :=
  (c.spellings.find? fun s => s.1 == name).map (·.2)

/-- The kind of a word before the divider. -/
def classify (c : CommandLine) (word : String) : Except Refusal Word :=
  match word.toList with
  | '-' :: _ :: _ =>
    match named? c word with
    | some p => .ok (.given p word none)
    | none =>
      let (start, attached) := Text.cutList '=' word.toList
      match attached, named? c (String.ofList start) with
      | some after, some p =>
        let glued := if start.length == 2 then '=' :: after else after
        .ok (.given p (String.ofList start) (some (String.ofList glued)))
      | _, _ =>
        match candidates c word with
        | [(p, spelling, attached)] => .ok (.given p spelling attached)
        | [] =>
          if isNegativeNumber word.toList || word.toList.contains ' ' then .ok (.plain word)
          else .ok (.unknown word)
        | several =>
          .error (.usage ("ambiguous option: " ++ word ++ " could match " ++
            ", ".intercalate (several.map fun (_, spelling, _) => spelling)))
  | _ => .ok (.plain word)

def classifyAll (c : CommandLine) : List String → Except Refusal (List Word)
  | [] => .ok []
  | word :: rest =>
    if word == "--" then .ok (.divider :: rest.map .plain)
    else do
      let w ← classify c word
      return w :: (← classifyAll c rest)

/-! ### Taking options -/

/-- What has been taken so far. -/
structure Progress where
  arguments : Arguments
  seen : List String
  filesTaken : Bool
  /-- Words that nothing takes. -/
  extra : List String

def complain {α : Type} (p : Parameter) (problem : String) : Except Refusal α :=
  .error (.usage ("argument " ++ p.label ++ ": " ++ problem))

def needs (p : Parameter) : String :=
  match p.arity with
  | .one => "expected one argument"
  | _ => "expected at least one argument"

/-- The plain words that an option takes from those that follow it. -/
def taken (p : Parameter) (rest : List Word) : Except Refusal (List String) :=
  let run := (rest.takeWhile Word.isPlain).map Word.text
  match p.arity, run with
  | .none, _ => .ok []
  | .one, word :: _ => .ok [word]
  | .some, _ :: _ => .ok run
  | .any, _ => .ok run
  | _, [] => complain p (needs p)

def ignored {α : Type} (p : Parameter) (attached : List Char) : Except Refusal α :=
  complain p ("ignored explicit argument " ++ Text.quoted (String.ofList attached))

/-- Checks what is written right behind a switch of one letter: the switch may be repeated, but
neither a dash nor an equals sign may follow. -/
def checkTail (p : Parameter) (letter : Char) : List Char → Except Refusal Unit
  | [] => .ok ()
  | c :: rest =>
    if c == '=' then ignored p rest
    else if c == '-' then ignored p (c :: rest)
    else if c == letter then checkTail p letter rest
    else .ok ()

def takenAttached (p : Parameter) (spelling attached : String) : Except Refusal (List String) :=
  match p.arity, spelling.toList with
  | .none, ['-', letter] => (checkTail p letter attached.toList).map fun _ => []
  | .none, _ => ignored p attached.toList
  | _, _ => .ok [attached]

def integerWord (p : Parameter) (word : String) : Except Refusal Value :=
  match Text.integer? word with
  | some n => .ok (.int n)
  | none => complain p ("invalid int value: " ++ Text.quoted word)

def checkChoice (p : Parameter) (word : String) : Except Refusal Unit :=
  if p.choices.isEmpty || p.choices.contains word then .ok ()
  else complain p ("invalid choice: " ++ Text.quoted word ++ " (choose from " ++
    ", ".intercalate (p.choices.map Text.quoted) ++ ")")

def asFault {α : Type} : Except Fault α → Except Refusal α
  | .ok a => .ok a
  | .error f => .error (.fault f)

def wordValues (p : Parameter) (words : List String) : Except Refusal (List Value) := do
  let values ← words.mapM fun w => if p.reading == .integer then integerWord p w else .ok (.str w)
  words.forM (checkChoice p)
  return values

def wordsValue (p : Parameter) (values : List Value) : Value :=
  match p.arity, values with
  | .one, [v] => v
  | _, _ => .seq values

/-- Takes an option with its words. -/
def take (p : Parameter) (words : List String) (s : Progress) : Except Refusal Progress := do
  let values ← wordValues p words
  match p.rivals.find? s.seen.contains with
  | some rival => complain p ("not allowed with argument " ++ rival)
  | none =>
    let value ← match p.reading with
      | .help => .error .help
      | .switch => .ok (.bool true)
      | .pairs => asFault ((pairsOf words).map .map)
      | .json => asFault (jsonOf (words.headD ""))
      | _ => .ok (wordsValue p values)
    return { s with arguments := s.arguments.set p.name value, seen := p.name :: s.seen }

def takeRun (c : CommandLine) (run : List Word) (s : Progress) : Progress :=
  if c.takesFiles && !s.filesTaken then
    { s with
      arguments := { s.arguments with files := (run.map Word.text).erase "--" }
      filesTaken := true }
  else { s with extra := s.extra ++ run.map Word.text }

/-- Takes all words. The first argument bounds the number of steps. -/
def takeAll (c : CommandLine) : Nat → List Word → Progress → Except Refusal Progress
  | 0, _, s => .ok s
  | fuel + 1, words, s =>
    match words with
    | [] => .ok s
    | .unknown text :: rest => takeAll c fuel rest { s with extra := s.extra ++ [text] }
    | .given p spelling (some attached) :: rest => do
      let given ← takenAttached p spelling attached
      takeAll c fuel rest (← take p given s)
    | .given p _ none :: rest => do
      let given ← taken p rest
      takeAll c fuel (rest.drop given.length) (← take p given s)
    | words =>
      takeAll c fuel (words.dropWhile fun w => !w.isOption)
        (takeRun c (words.takeWhile fun w => !w.isOption) s)

def start (c : CommandLine) : Progress :=
  ⟨⟨[], c.all.map fun p => (p.name, p.initial)⟩, [], false, []⟩

/-- Reads the words of a command line. -/
def read (c : CommandLine) (words : List String) : Except Refusal Arguments := do
  let kinds ← classifyAll c words
  let s ← takeAll c (words.length + 1) kinds (start c)
  let missing := c.all.filter fun p => p.required && !s.seen.contains p.name
  if !missing.isEmpty then
    throw (.usage ("the following arguments are required: " ++
      ", ".intercalate (missing.map Parameter.label)))
  if !s.extra.isEmpty then
    throw (.usage ("unrecognized arguments: " ++ " ".intercalate s.extra))
  return s.arguments

end ProjectLint.Options
