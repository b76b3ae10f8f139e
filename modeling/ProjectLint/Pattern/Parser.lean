import ProjectLint.Fault
import ProjectLint.Json.Reader
import ProjectLint.Pattern.Basic
import ProjectLint.Text.Number

/-!
# Reading patterns

The usual notation of regular expressions. Whatever is not well formed, or refers to a group that is
not there, is a bad pattern.
-/

namespace ProjectLint.Pattern

structure Options where
  ignoreCase : Bool := false
  multiline : Bool := false
  dotAll : Bool := false
  verbose : Bool := false
  ascii : Bool := false
  /-- Are the characters of all scripts asked for? They are meant unless ASCII is asked for. -/
  allScripts : Bool := false
  /-- Is repetition ruled out? -/
  single : Bool := false

def Options.caseRule (o : Options) : CaseRule :=
  if !o.ignoreCase then .exact else if o.ascii then .ascii else .full

/-- What is read so far: the text ahead and the groups. -/
structure Reading where
  ahead : List Char
  options : Options
  groupCount : Nat
  names : List (String × Nat)
  openGroups : List Nat
  /-- The widths of the groups that are closed. -/
  widths : List (Nat × Width)
  /-- In a look-behind, the number of groups when it began. -/
  behindGroups : Option Nat
  /-- Group numbers that conditions ask for. -/
  asked : List Nat

abbrev Reader := StateT Reading (Except Fault)

def bad {α : Type} : Reader α := throw .badPattern

namespace Reader

def peek : Reader (Option Char) := return (← get).ahead.head?

def drop (n : Nat) : Reader Unit := modify fun r => { r with ahead := r.ahead.drop n }

def take : Reader (Option Char) := do
  let c ← peek
  drop 1
  return c

def accept (c : Char) : Reader Bool := do
  if (← peek) == some c then
    drop 1
    return true
  else return false

def takeWhile (f : Char → Bool) (most : Nat) : Reader (List Char) := do
  let cs := ((← get).ahead.take most).takeWhile f
  drop cs.length
  return cs

def untilChar (c : Char) : Reader String := do
  let cs := (← get).ahead.takeWhile (· != c)
  drop cs.length
  if (← accept c) && !cs.isEmpty then return String.ofList cs else bad

end Reader

open Reader

def isIdentifier (s : String) : Bool :=
  match s.toList with
  | [] => false
  | c :: rest => (Text.isWordChar c && !Text.isDecimalDigit c) && rest.all Text.isWordChar

def hexOf (cs : List Char) : Nat := cs.foldl (fun n c => 16 * n + (Json.hexDigit? c).getD 0) 0

def isHexDigit (c : Char) : Bool := (Json.hexDigit? c).isSome

def isOctalDigit (c : Char) : Bool := '0' ≤ c && c ≤ '7'

def octalOf (cs : List Char) : Nat := cs.foldl (fun n c => 8 * n + (c.toNat - '0'.toNat)) 0

/-- Escapes that stand for one character anywhere. -/
def plainEscape? : Char → Option Char
  | 'a' => some '\x07'
  | 'b' => some '\x08'
  | 'f' => some '\x0c'
  | 'n' => some '\n'
  | 'r' => some '\r'
  | 't' => some '\t'
  | 'v' => some '\x0b'
  | '\\' => some '\\'
  | _ => none

def kindEscape? : Char → Option (CharKind × Bool)
  | 'd' => some (.digit, false)
  | 'D' => some (.digit, true)
  | 's' => some (.blank, false)
  | 'S' => some (.blank, true)
  | 'w' => some (.word, false)
  | 'W' => some (.word, true)
  | _ => none

/-- A character written by its number in hexadecimal. -/
def codeEscape (c : Char) : Reader (Option Char) := do
  let length? :=
    if c == 'x' then some 2 else if c == 'u' then some 4 else if c == 'U' then some 8 else none
  match length? with
  | none => return none
  | some n =>
    let digits ← Reader.takeWhile isHexDigit n
    if digits.length != n || hexOf digits ≥ 0x110000 then bad
    else return some (Text.charOf (hexOf digits))

/-- An escape inside a character class. -/
def classEscape (c : Char) : Reader ClassItem := do
  let ascii := (← get).options.ascii
  match plainEscape? c with
  | some e => return .one e
  | none =>
    match kindEscape? c with
    | some (k, negated) => return .kind k negated ascii
    | none =>
      match ← codeEscape c with
      | some e => return .one e
      | none =>
        if isOctalDigit c then
          let more ← Reader.takeWhile isOctalDigit 2
          let n := octalOf (c :: more)
          if n > 0xFF then bad else return .one (Char.ofNat n)
        else if c.isDigit || c.isAlpha then bad
        else return .one c

def classAtom (c : Char) : Reader ClassItem := do
  if c == '\\' then
    match ← take with
    | some e => classEscape e
    | none => bad
  else return .one c

/-- The members of a class, up to its bracket. -/
def classItems : Nat → List ClassItem → Reader (List ClassItem)
  | 0, _ => bad
  | fuel + 1, acc => do
    match ← take with
    | none => bad
    | some c =>
      if c == ']' && !acc.isEmpty then return acc.reverse
      else
        let first ← classAtom c
        if ← accept '-' then
          match ← take with
          | none => bad
          | some ']' => return (.one '-' :: first :: acc).reverse
          | some d =>
            match first, ← classAtom d with
            | .one a, .one b => if b < a then bad else classItems fuel (.range a b :: acc)
            | _, _ => bad
        else classItems fuel (first :: acc)

/-- A pattern as the grammar sees it: anchors and repetitions cannot be repeated. -/
inductive Item where
  | plain (p : Pattern)
  | anchor (p : Pattern)
  | repeated (p : Pattern)

def Item.pattern : Item → Pattern
  | .plain p => p
  | .anchor p => p
  | .repeated p => p

def joinItems : List Item → Pattern
  | [] => .empty
  | item :: rest => rest.foldl (fun p i => .cat i.pattern p) item.pattern

def Reading.isClosed (r : Reading) (n : Nat) : Bool := n ≤ r.groupCount && !r.openGroups.contains n

def Reading.allows (r : Reading) (n : Nat) : Bool :=
  match r.behindGroups with
  | some m => r.isClosed n && n ≤ m
  | none => true

def reference (n : Nat) : Reader Pattern := do
  let r ← get
  if r.isClosed n && r.allows n then return .again n r.options.caseRule else bad

/-- An escape outside of a class. -/
def escape (c : Char) : Reader Item := do
  let o := (← get).options
  let literal := fun (c : Char) => Item.plain (.char (.oneOf false o.caseRule [.one c]))
  match c with
  | 'A' => return .anchor (.anchor .start)
  | 'Z' => return .anchor (.anchor .veryEnd)
  | 'b' => return .anchor (.anchor (.edge o.ascii))
  | 'B' => return .anchor (.anchor (.noEdge o.ascii))
  | _ =>
    match kindEscape? c with
    | some (k, negated) => return .plain (.char (.oneOf false .exact [.kind k negated o.ascii]))
    | none =>
      match plainEscape? c with
      | some e => return literal e
      | none =>
        match ← codeEscape c with
        | some e => return literal e
        | none =>
          if c == '0' then
            let more ← Reader.takeWhile isOctalDigit 2
            return literal (Char.ofNat (octalOf more))
          else if c.isDigit then
            let second ← Reader.takeWhile Char.isDigit 1
            match second with
            | [d] =>
              if isOctalDigit c && isOctalDigit d then
                match ← Reader.takeWhile isOctalDigit 1 with
                | [e] =>
                  let n := octalOf [c, d, e]
                  if n > 0xFF then bad else return literal (Char.ofNat n)
                | _ => return .plain (← reference (Json.digitsValue [c, d]))
              else return .plain (← reference (Json.digitsValue [c, d]))
            | _ => return .plain (← reference (Json.digitsValue [c]))
          else if c.isAlpha then bad
          else return literal c

/-- The counts of a repetition in braces; `none` if the brace is an ordinary character. -/
def braceCounts : Reader (Option (Nat × Option Nat)) := do
  let before ← get
  if before.ahead.head? == some '\x7d' then return none
  else
    let low ← Reader.takeWhile Char.isDigit before.ahead.length
    let comma ← accept ','
    let high ← if comma then Reader.takeWhile Char.isDigit before.ahead.length else pure low
    if ← accept '\x7d' then
      let least := if low.isEmpty then 0 else Json.digitsValue low
      let most := if high.isEmpty then none else some (Json.digitsValue high)
      match most with
      | some m => if m < least then bad else return some (least, most)
      | none => return some (least, most)
    else
      set before
      return none

/-- Option letters to switch on and, behind a dash, off. -/
structure Switches where
  on : List Char
  off : List Char
  /-- Do they hold for the whole pattern? -/
  whole : Bool

/-- Letters that go together: letters for the script exclude each other and stay on, repetition is
ruled out for the whole pattern only, and nothing is switched on and off. -/
def Switches.agree (s : Switches) : Bool :=
  !(s.on.contains 'a' && s.on.contains 'u') && (s.whole || !s.on.contains 't') &&
    !(s.off.any fun c => c == 'a' || c == 'u' || c == 't' || s.on.contains c)

/-- The letters of a pair of parentheses, from the one given on. -/
def switches : Nat → Bool → Switches → Char → Reader Switches
  | 0, _, _, _ => bad
  | fuel + 1, on, s, c => do
    if c == ')' && on && !s.on.isEmpty then return { s with whole := true }
    else if c == ':' && !(if on then s.on else s.off).isEmpty then return s
    else if c != '-' && !"imsxaut".toList.contains c || c == '-' && !on then bad
    else
      let next :=
        if c == '-' then s else if on then { s with on := c :: s.on }
        else { s with off := c :: s.off }
      match ← take with
      | some d => switches fuel (on && c != '-') next d
      | none => bad

/-- The options with switches set. -/
def Options.apply (o : Options) (s : Switches) : Options :=
  let set := fun (c : Char) (old : Bool) => (old || s.on.contains c) && !s.off.contains c
  { ignoreCase := set 'i' o.ignoreCase
    multiline := set 'm' o.multiline
    dotAll := set 's' o.dotAll
    verbose := set 'x' o.verbose
    ascii := if s.whole then set 'a' o.ascii else set 'a' (o.ascii && !s.on.contains 'u')
    allScripts := if s.whole then set 'u' o.allScripts else o.allScripts
    single := set 't' o.single }

def isVerboseBlank (c : Char) : Bool :=
  c == ' ' || c == '\t' || c == '\n' || c == '\r' || c == '\x0b' || c == '\x0c'

def setOptions (o : Options) : Reader Unit := modify fun r => { r with options := o }

def openGroup (name : Option String) : Reader Nat := do
  let r ← get
  let n := r.groupCount + 1
  match name with
  | some name => if r.names.any fun k => k.1 == name then bad
  | none => pure ()
  set { r with
    groupCount := n
    openGroups := n :: r.openGroups
    names := match name with
      | some name => r.names ++ [(name, n)]
      | none => r.names }
  return n

def Reading.widthOf (r : Reading) (n : Nat) : Width :=
  ((r.widths.find? fun w => w.1 == n).map (·.2)).getD (0, none)

def closeGroup (n : Nat) (p : Pattern) : Reader Unit :=
  modify fun r => { r with
    openGroups := r.openGroups.filter (· != n)
    widths := (n, p.width r.widthOf) :: r.widths }

def closing : Reader Unit := do
  if ← accept ')' then return () else bad

mutual

/-- Alternatives. -/
def alternatives : Nat → Bool → Reader Pattern
  | 0, _ => bad
  | fuel + 1, top => do
    let first ← sequence fuel top []
    if ← accept '|' then
      let rest ← moreAlternatives fuel
      return .alt first rest
    else return first

def moreAlternatives : Nat → Reader Pattern
  | 0 => bad
  | fuel + 1 => do
    let first ← sequence fuel false []
    if ← accept '|' then
      let rest ← moreAlternatives fuel
      return .alt first rest
    else return first

/-- Items up to a bar, a closing parenthesis or the end. -/
def sequence : Nat → Bool → List Item → Reader Pattern
  | 0, _, _ => bad
  | fuel + 1, top, acc => do
    match ← peek with
    | none => return joinItems acc
    | some c =>
      if c == '|' || c == ')' then return joinItems acc
      else
        drop 1
        let o := (← get).options
        if o.verbose && isVerboseBlank c then sequence fuel top acc
        else if o.verbose && c == '#' then
          let comment := (← get).ahead.takeWhile (· != '\n')
          drop (comment.length + 1)
          sequence fuel top acc
        else if c == '\\' then
          match ← take with
          | none => bad
          | some e => sequence fuel top ((← escape e) :: acc)
        else if c == '[' then
          let negated ← accept '^'
          let items ← classItems fuel []
          sequence fuel top (.plain (.char (.oneOf negated o.caseRule items)) :: acc)
        else if c == '.' then
          sequence fuel top (.plain (.char (if o.dotAll then .any else .notNewline)) :: acc)
        else if c == '^' then
          sequence fuel top (.anchor (.anchor (if o.multiline then .lineStart else .start)) :: acc)
        else if c == '$' then
          sequence fuel top (.anchor (.anchor (if o.multiline then .lineEnd else .finish)) :: acc)
        else if c == '*' then repetition fuel top acc 0 none
        else if c == '+' then repetition fuel top acc 1 none
        else if c == '?' then repetition fuel top acc 0 (some 1)
        else if c == '\x7b' then
          match ← braceCounts with
          | some (least, most) => repetition fuel top acc least most
          | none => sequence fuel top (.plain (.char (.oneOf false o.caseRule [.one c])) :: acc)
        else if c == '(' then parenthesis fuel top acc
        else sequence fuel top (.plain (.char (.oneOf false o.caseRule [.one c])) :: acc)

/-- A repetition of the last item. -/
def repetition : Nat → Bool → List Item → Nat → Option Nat → Reader Pattern
  | 0, _, _, _, _ => bad
  | fuel + 1, top, acc, least, most => do
    match acc with
    | .plain p :: rest =>
      if ← accept '?' then sequence fuel top (.repeated (.times least most true p) :: rest)
      else if ← accept '+' then
        sequence fuel top (.repeated (.atomic (.times least most false p)) :: rest)
      else sequence fuel top (.repeated (.times least most false p) :: rest)
    | _ => bad

/-- What stands in parentheses. -/
def parenthesis : Nat → Bool → List Item → Reader Pattern
  | 0, _, _ => bad
  | fuel + 1, top, acc => do
    if ← accept '?' then
      match ← take with
      | some 'P' =>
        if ← accept '<' then
          let name ← untilChar '>'
          if isIdentifier name then capture fuel top acc (some name) else bad
        else if ← accept '=' then
          let name ← untilChar ')'
          match (← get).names.find? fun k => k.1 == name with
          | some (_, n) => sequence fuel top (.plain (← reference n) :: acc)
          | none => bad
        else bad
      | some ':' =>
        let o := (← get).options
        let p ← alternatives fuel false
        setOptions o
        closing
        sequence fuel top (.plain p :: acc)
      | some '#' =>
        let comment := (← get).ahead.takeWhile (· != ')')
        drop comment.length
        closing
        sequence fuel top acc
      | some '=' =>
        let p ← alternatives fuel false
        closing
        sequence fuel top (.plain (.lookAhead false p) :: acc)
      | some '!' =>
        let p ← alternatives fuel false
        closing
        sequence fuel top (.plain (.lookAhead true p) :: acc)
      | some '<' =>
        match ← take with
        | some '=' => behindGroup fuel top acc false
        | some '!' => behindGroup fuel top acc true
        | _ => bad
      | some '>' =>
        let p ← alternatives fuel false
        closing
        sequence fuel top (.plain (.atomic p) :: acc)
      | some '(' => condition fuel top acc
      | some c =>
        let o := (← get).options
        let s ← switches fuel true ⟨[], [], false⟩ c
        if !s.agree then bad
        else if s.whole then
          if !top || !acc.isEmpty then bad
          else
            setOptions (o.apply s)
            sequence fuel top acc
        else
          setOptions (o.apply s)
          let p ← alternatives fuel false
          setOptions o
          closing
          sequence fuel top (.plain p :: acc)
      | none => bad
    else capture fuel top acc none

def capture : Nat → Bool → List Item → Option String → Reader Pattern
  | 0, _, _, _ => bad
  | fuel + 1, top, acc, name => do
    let n ← openGroup name
    let p ← alternatives fuel false
    closing
    closeGroup n p
    sequence fuel top (.plain (.group n p) :: acc)

/-- A look-behind takes a fixed number of characters. -/
def behindGroup : Nat → Bool → List Item → Bool → Reader Pattern
  | 0, _, _, _ => bad
  | fuel + 1, top, acc, negated => do
    let outer := (← get).behindGroups
    modify fun r => { r with behindGroups := some (outer.getD r.groupCount) }
    let p ← alternatives fuel false
    modify fun r => { r with behindGroups := outer }
    closing
    match p.width (← get).widthOf with
    | (n, some m) =>
      if n == m then sequence fuel top (.plain (.lookBehind negated n p) :: acc) else bad
    | _ => bad

/-- A choice by whether a group has matched. -/
def condition : Nat → Bool → List Item → Reader Pattern
  | 0, _, _ => bad
  | fuel + 1, top, acc => do
    let name ← untilChar ')'
    let n ←
      if isIdentifier name then
        match (← get).names.find? fun k => k.1 == name with
        | some (_, n) => pure n
        | none => bad
      else
        match Text.integer? name with
        | some n => if n ≤ 0 then bad else pure n.toNat
        | none => bad
    if !(← get).allows n then bad
    modify fun r => { r with asked := n :: r.asked }
    let yes ← sequence fuel false []
    let no ← if ← accept '|' then sequence fuel false [] else pure .empty
    closing
    sequence fuel top (.plain (.ifGroup n yes no) :: acc)

end

/-- A pattern and how many groups it has, with their names. -/
structure Compiled where
  pattern : Pattern
  groupCount : Nat
  names : List (String × Nat)

def compile (text : String) (ignoreCase : Bool) : Except Fault Compiled := do
  let start : Reading := ⟨text.toList, { ignoreCase := ignoreCase }, 0, [], [], [], none, []⟩
  let fuel := 4 * text.length + 8
  let (p, r) ← (alternatives fuel true).run start
  if r.options.ascii && r.options.allScripts then
    throw (.badValue "ASCII and UNICODE flags are incompatible")
  if !r.ahead.isEmpty || r.asked.any (· > r.groupCount) then throw .badPattern
  if r.options.single && p.repeats then throw .badPattern
  return ⟨p, r.groupCount, r.names⟩

end ProjectLint.Pattern
