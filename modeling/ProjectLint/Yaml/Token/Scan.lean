import ProjectLint.Yaml.Token.Scalar

/-!
# Scanning a document text

The text is cut into tokens from left to right. Indentation opens and closes block collections, and
a scalar on one line may turn out to be a key when a colon follows: then a key mark is put before
it, so until that is settled the token is only a candidate. When the text goes wrong, the tokens
handed on are those before the first open candidate.
-/

namespace ProjectLint.Yaml

/-- A token that may turn out to be a key. -/
structure Candidate where
  number : Nat
  required : Bool
  index : Nat
  line : Nat
  column : Nat

structure Scanner where
  pos : Position
  flowLevel : Nat
  indent : Int
  indents : List Int
  keyAllowed : Bool
  /-- Candidates by flow level. -/
  candidates : List (Nat × Candidate)
  tokens : Array Token
  done : Bool

namespace Scanner

def start (text : List Char) : Scanner :=
  ⟨Position.start text, 0, -1, [], true, [], #[.streamStart], false⟩

def push (s : Scanner) (t : Token) : Scanner := { s with tokens := s.tokens.push t }

/-! ### Candidates for keys -/

def dropStale (s : Scanner) : Scan Scanner :=
  let stale := fun (k : Nat × Candidate) => k.2.line != s.pos.line || s.pos.index - k.2.index > 1024
  if s.candidates.any fun k => stale k && k.2.required then badToken
  else .ok { s with candidates := s.candidates.filter fun k => !stale k }

def removeCandidate (s : Scanner) : Scan Scanner :=
  if s.candidates.any fun k => k.1 == s.flowLevel && k.2.required then badToken
  else .ok { s with candidates := s.candidates.filter fun k => k.1 != s.flowLevel }

def saveCandidate (s : Scanner) : Scan Scanner :=
  if s.keyAllowed then do
    let required := s.flowLevel == 0 && s.indent == s.pos.column
    let s ← s.removeCandidate
    let key : Candidate := ⟨s.tokens.size, required, s.pos.index, s.pos.line, s.pos.column⟩
    return { s with candidates := s.candidates ++ [(s.flowLevel, key)] }
  else .ok s

/-- Tokens that are settled: those before the first candidate. -/
def settled (s : Scanner) : Nat :=
  s.candidates.foldl (fun least k => min least k.2.number) s.tokens.size

/-! ### Indentation -/

/-- Closes the block collections that are indented deeper than `column`. -/
def unwind (s : Scanner) (column : Int) : Scanner :=
  if s.flowLevel != 0 then s
  else go s.indents s
where
  go : List Int → Scanner → Scanner
    | [], s => s
    | outer :: rest, s =>
      if s.indent > column then
        go rest { s with indent := outer, indents := rest, tokens := s.tokens.push .blockEnd }
      else s

def open? (s : Scanner) (column : Nat) : Option Scanner :=
  if s.indent < column then some { s with indents := s.indent :: s.indents, indent := column }
  else none

def openWith (s : Scanner) (column : Nat) (t : Token) : Scanner :=
  match s.open? column with
  | some s => s.push t
  | none => s

/-! ### Marks -/

/-- Passes blanks, comments and line breaks; a new line allows a key again. -/
def toNextToken : Nat → Scanner → Scanner
  | 0, s => s
  | fuel + 1, s =>
    let p := s.pos.skipSpaces
    let p := if p.peek == some '#' then (p.takeWhile fun c => !isBreak c).2 else p
    match p.lineBreak with
    | (some _, next) =>
      toNextToken fuel { s with pos := next, keyAllowed := s.keyAllowed || s.flowLevel == 0 }
    | (none, _) => { s with pos := p }

def fetchStreamEnd (s : Scanner) : Scan Scanner := do
  let s ← (s.unwind (-1)).removeCandidate
  return { s with
    keyAllowed := false
    candidates := []
    tokens := s.tokens.push .streamEnd
    done := true }

def fetchMarker (s : Scanner) (t : Token) : Scan Scanner := do
  let s ← (s.unwind (-1)).removeCandidate
  return { s with keyAllowed := false, pos := s.pos.skip 3, tokens := s.tokens.push t }

def fetchFlowStart (s : Scanner) (t : Token) : Scan Scanner := do
  let s ← s.saveCandidate
  return { s with flowLevel := s.flowLevel + 1, keyAllowed := true, pos := s.pos.next,
                  tokens := s.tokens.push t }

def fetchFlowEnd (s : Scanner) (t : Token) : Scan Scanner := do
  let s ← s.removeCandidate
  return { s with flowLevel := s.flowLevel - 1, keyAllowed := false, pos := s.pos.next,
                  tokens := s.tokens.push t }

def fetchFlowEntry (s : Scanner) : Scan Scanner := do
  let s ← s.removeCandidate
  return { s with keyAllowed := true, pos := s.pos.next, tokens := s.tokens.push .flowEntry }

def fetchBlockEntry (s : Scanner) : Scan Scanner := do
  let s ←
    if s.flowLevel == 0 then
      if s.keyAllowed then pure (s.openWith s.pos.column .blockSequenceStart) else badToken
    else pure s
  let s ← s.removeCandidate
  return { s with keyAllowed := true, pos := s.pos.next, tokens := s.tokens.push .blockEntry }

def fetchKey (s : Scanner) : Scan Scanner := do
  let s ←
    if s.flowLevel == 0 then
      if s.keyAllowed then pure (s.openWith s.pos.column .blockMappingStart) else badToken
    else pure s
  let s ← s.removeCandidate
  return { s with keyAllowed := s.flowLevel == 0, pos := s.pos.next, tokens := s.tokens.push .key }

def insertToken (s : Scanner) (n : Nat) (t : Token) : Scanner :=
  { s with tokens := s.tokens.insertIdxIfInBounds n t }

/-- A colon makes a key of the candidate on its level, or gives a value to an empty or marked
key. -/
def fetchValue (s : Scanner) : Scan Scanner := do
  let s ←
    match s.candidates.find? fun k => k.1 == s.flowLevel with
    | some (_, key) => do
      let s := { s with candidates := s.candidates.filter fun k => k.1 != s.flowLevel }
      let s := s.insertToken key.number .key
      let s :=
        if s.flowLevel == 0 then
          match s.open? key.column with
          | some s => s.insertToken key.number .blockMappingStart
          | none => s
        else s
      pure { s with keyAllowed := false }
    | none => do
      let s ←
        if s.flowLevel == 0 then
          if s.keyAllowed then pure (s.openWith s.pos.column .blockMappingStart) else badToken
        else pure s
      let s := { s with keyAllowed := s.flowLevel == 0 }
      s.removeCandidate
  return { s with pos := s.pos.next, tokens := s.tokens.push .value }

/-! ### Names, tags and directives -/

def scanName (p : Position) : Scan (String × Position) :=
  let (name, p) := p.takeWhile isNameChar
  if name.isEmpty then badToken else .ok (String.ofList name, p)

def scanAnchor (p : Position) : Scan (String × Position) := do
  let (name, p) ← scanName p.next
  let ends := match p.peek with
    | some c => "?:,]\x7d%@\x60".toList.contains c
    | none => true
  if endsWord p.peek || ends then return (name, p) else badToken

/-- Escaped bytes of a tag. -/
def uriEscapes : Nat → Position → List UInt8 → Scan (List UInt8 × Position)
  | 0, p, acc => .ok (acc.reverse, p)
  | fuel + 1, p, acc =>
    if p.peek == some '%' then
      match hexAhead? p.next.ahead 2 with
      | some n => uriEscapes fuel (p.skip 3) (n.toUInt8 :: acc)
      | none => badToken
    else .ok (acc.reverse, p)

def uriChars : Nat → Position → List Char → Scan (List Char × Position)
  | 0, p, acc => .ok (acc.reverse, p)
  | fuel + 1, p, acc =>
    match p.peek with
    | some c =>
      if c == '%' then
        match uriEscapes (fuel + 1) p [] with
        | .error f => .error f
        | .ok (bytes, p) =>
          match String.fromUTF8? (ByteArray.mk bytes.toArray) with
          | some s => uriChars fuel p (s.toList.reverse ++ acc)
          | none => badToken
      else if isUriChar c then uriChars fuel p.next (c :: acc)
      else .ok (acc.reverse, p)
    | none => .ok (acc.reverse, p)

def scanUri (p : Position) : Scan (String × Position) := do
  let (chars, p) ← uriChars (p.ahead.length + 1) p []
  if chars.isEmpty then badToken else return (String.ofList chars, p)

def scanHandle (p : Position) : Scan (String × Position) :=
  if p.peek != some '!' then badToken
  else if p.peekAt 1 == some ' ' then .ok ("!", p.next)
  else
    let (name, q) := p.next.takeWhile isNameChar
    if q.peek == some '!' then .ok (String.ofList ('!' :: name ++ ['!']), q.next) else badToken

def scanTag (p : Position) : Scan (Token × Position) := do
  let (handle, suffix, p) ←
    if p.peekAt 1 == some '<' then do
      let (uri, p) ← scanUri (p.skip 2)
      if p.peek == some '>' then pure (none, uri, p.next) else badToken
    else if endsWord (p.peekAt 1) then pure (none, "!", p.next)
    else do
      let word := (p.next.ahead).takeWhile fun c => !(c == ' ' || isBreak c)
      let (handle, p) ← if word.contains '!' then scanHandle p else pure ("!", p.next)
      let (uri, p) ← scanUri p
      pure (some handle, uri, p)
  if endsOrSpace p.peek then return (.tag handle suffix, p) else badToken

def scanNumber (p : Position) : Scan (Nat × Position) :=
  let (digits, q) := p.takeWhile Json.isAsciiDigit
  if digits.isEmpty then badToken else .ok (Json.digitsValue digits, q)

def scanDirective (p : Position) : Scan (Token × Position) := do
  let (name, p) ← scanName p.next
  if !endsOrSpace p.peek then badToken
  else
    let (token, p) ←
      if name == "YAML" then do
        let (major, p) ← scanNumber p.skipSpaces
        if p.peek != some '.' then badToken
        else
          let (minor, p) ← scanNumber p.next
          if endsOrSpace p.peek then pure (Token.directive name (some (major, minor)) none, p)
          else badToken
      else if name == "TAG" then do
        let (handle, p) ← scanHandle p.skipSpaces
        if p.peek != some ' ' then badToken
        else
          let (uri, p) ← scanUri p.skipSpaces
          if endsOrSpace p.peek then pure (Token.directive name none (some (handle, uri)), p)
          else badToken
      else pure (Token.directive name none none, (p.takeWhile fun c => !isBreak c).2)
    let p ← p.ignoreLine
    return (token, p)

def fetchDirective (s : Scanner) : Scan Scanner := do
  let s ← (s.unwind (-1)).removeCandidate
  let (token, p) ← scanDirective s.pos
  return { s with keyAllowed := false, pos := p, tokens := s.tokens.push token }

/-! ### Tokens that may be keys -/

def fetchName (s : Scanner) (token : String → Token) : Scan Scanner := do
  let s ← s.saveCandidate
  let (name, p) ← scanAnchor s.pos
  return { s with keyAllowed := false, pos := p, tokens := s.tokens.push (token name) }

def fetchTag (s : Scanner) : Scan Scanner := do
  let s ← s.saveCandidate
  let (token, p) ← scanTag s.pos
  return { s with keyAllowed := false, pos := p, tokens := s.tokens.push token }

def fetchQuoted (s : Scanner) : Scan Scanner := do
  let s ← s.saveCandidate
  let (token, p) ← scanQuoted s.pos
  return { s with keyAllowed := false, pos := p, tokens := s.tokens.push token }

def fetchPlain (s : Scanner) : Scan Scanner := do
  let s ← s.saveCandidate
  let (token, ended, p) := scanPlain (s.flowLevel != 0) s.indent s.pos
  return { s with keyAllowed := ended, pos := p, tokens := s.tokens.push token }

def fetchBlock (s : Scanner) (folded : Bool) : Scan Scanner := do
  let s ← s.removeCandidate
  let (token, p) ← scanBlock folded s.indent s.pos
  return { s with keyAllowed := true, pos := p, tokens := s.tokens.push token }

def startsPlain (s : Scanner) (c : Char) : Bool :=
  let mark := "-?:,[]\x7b\x7d#&*!|>'\"%@\x60".toList.contains c
  (!mark && !endsWord (some c)) ||
    (!endsWord (s.pos.peekAt 1) && (c == '-' || (s.flowLevel == 0 && (c == '?' || c == ':'))))

/-- Fetches the next token, or more than one where blocks are closed or opened. -/
def fetch (s : Scanner) : Scan Scanner := do
  let s :=
    if s.pos.index == 0 && s.pos.peek == some '\ufeff' then { s with pos := s.pos.next } else s
  let s ← (toNextToken (s.pos.ahead.length + 1) s).dropStale
  let s := s.unwind s.pos.column
  let flow := s.flowLevel != 0
  match s.pos.peek with
  | none => s.fetchStreamEnd
  | some c =>
    let spaced := endsWord (s.pos.peekAt 1)
    if c == '%' && s.pos.column == 0 then s.fetchDirective
    else if s.pos.column == 0 && s.pos.atMarker '-' then s.fetchMarker .documentStart
    else if s.pos.column == 0 && s.pos.atMarker '.' then s.fetchMarker .documentEnd
    else if c == '[' then s.fetchFlowStart .flowSequenceStart
    else if c == '\x7b' then s.fetchFlowStart .flowMappingStart
    else if c == ']' then s.fetchFlowEnd .flowSequenceEnd
    else if c == '\x7d' then s.fetchFlowEnd .flowMappingEnd
    else if c == ',' then s.fetchFlowEntry
    else if c == '-' && spaced then s.fetchBlockEntry
    else if c == '?' && (flow || spaced) then s.fetchKey
    else if c == ':' && (flow || spaced) then s.fetchValue
    else if c == '*' then s.fetchName .alias
    else if c == '&' then s.fetchName .anchor
    else if c == '!' then s.fetchTag
    else if c == '|' && !flow then s.fetchBlock false
    else if c == '>' && !flow then s.fetchBlock true
    else if c == '\'' || c == '"' then s.fetchQuoted
    else if s.startsPlain c then s.fetchPlain
    else badToken

/-- Fetches until the text ends or goes wrong. -/
def run : Nat → Scanner → List Token × Option Fault
  | 0, s => (s.tokens.toList, none)
  | fuel + 1, s =>
    if s.done then (s.tokens.toList, none)
    else
      match s.fetch with
      | .error f => (s.tokens.toList.take s.settled, some f)
      | .ok next =>
        if next.done then (next.tokens.toList, none)
        else
          match next.dropStale with
          | .error f => (s.tokens.toList.take s.settled, some f)
          | .ok next => run fuel next

end Scanner

def tokensOf (text : String) : List Token × Option Fault :=
  let cs := text.toList
  if cs.all isAllowed then (Scanner.start cs).run (cs.length + 2)
  else ([], some (.badDocument .characters))

end ProjectLint.Yaml
