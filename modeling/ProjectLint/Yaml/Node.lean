import ProjectLint.Yaml.Tag
import ProjectLint.Yaml.Token.Scan

/-!
# Nodes of a document

Tokens are put together to a tree of tagged nodes. Every node has a number of its own; an alias
stands for the node that its anchor named, with the same number. An alias inside the node that its
anchor names says only which node that is. The grammar looks at one token at a time, so a fault of
the text shows only when the grammar asks for the token behind it.
-/

namespace ProjectLint.Yaml

inductive YamlNode where
  | scalar (id : Nat) (tag : Tag) (text : String)
  | seq (id : Nat) (tag : Tag) (items : List YamlNode)
  | map (id : Nat) (tag : Tag) (entries : List (YamlNode × YamlNode))
  /-- A collection that this very place stands in. -/
  | enclosing (id : Nat) (tag : Tag) (shape : Shape)

instance : Inhabited YamlNode := ⟨.scalar 0 .null ""⟩

/-- Tokens that stand ahead, and what has been learned so far. -/
structure Parse where
  ahead : List Token
  /-- Why the tokens end too soon, if they do. -/
  fault : Option Fault
  handles : List (String × String)
  anchors : List (String × YamlNode)
  /-- Anchors of collections that are still being read. -/
  openAnchors : List (String × YamlNode)
  nextId : Nat

abbrev Parsing := StateT Parse (Except Fault)

def badGrammar {α : Type} : Parsing α := throw (.badDocument .grammar)
def badReference {α : Type} : Parsing α := throw (.badDocument .references)

namespace Parsing

def peek : Parsing Token := do
  let s ← get
  match s.ahead with
  | t :: _ => return t
  | [] => throw (s.fault.getD (.badDocument .tokens))

def advance : Parsing Unit := modify fun s => { s with ahead := s.ahead.drop 1 }

def freshId : Parsing Nat := do
  let s ← get
  set { s with nextId := s.nextId + 1 }
  return s.nextId

def defaultHandles : List (String × String) := [("!", "!"), ("!!", Tag.domain)]

/-! ### Properties of a node -/

/-- The anchor and tag before a node, in either order. -/
def properties : Parsing (Option String × Option (Option String × String)) := do
  match ← peek with
  | .anchor name =>
    advance
    match ← peek with
    | .tag handle suffix => advance; return (some name, some (handle, suffix))
    | _ => return (some name, none)
  | .tag handle suffix =>
    advance
    match ← peek with
    | .anchor name => advance; return (some name, some (handle, suffix))
    | _ => return (none, some (handle, suffix))
  | _ => return (none, none)

def expandTag : Option (Option String × String) → Parsing (Option String)
  | none => return none
  | some (none, suffix) => return some suffix
  | some (some handle, suffix) => do
    match (← get).handles.find? fun h => h.1 == handle with
    | some (_, lead) => return some (lead ++ suffix)
    | none => badGrammar

def checkAnchor : Option String → Parsing Unit
  | none => return ()
  | some name => do
    let s ← get
    if (s.anchors ++ s.openAnchors).any fun a => a.1 == name then badReference

/-- The number of a collection whose content is about to be read. -/
def openCollection (anchor : Option String) (tag : Tag) (shape : Shape) : Parsing Nat := do
  checkAnchor anchor
  let id ← freshId
  match anchor with
  | none => return id
  | some name =>
    modify fun s => { s with openAnchors := (name, .enclosing id tag shape) :: s.openAnchors }
    return id

def bindAnchor (name : Option String) (node : YamlNode) : Parsing Unit :=
  match name with
  | none => return ()
  | some name => modify fun s =>
      { s with
        anchors := (name, node) :: s.anchors
        openAnchors := s.openAnchors.filter (·.1 != name) }

def resolveAlias (name : String) : Parsing YamlNode := do
  let s ← get
  match (s.anchors ++ s.openAnchors).find? fun a => a.1 == name with
  | some (_, node) => return node
  | none => badReference

def emptyScalar : Parsing YamlNode := return .scalar (← freshId) .null ""

def scalarTag (tag : Option String) (plain : Bool) (text : String) : Tag :=
  match tag with
  | none => if plain then implicitTag text else .str
  | some "!" => implicitTag text
  | some name => Tag.ofName name

def collectionTag (tag : Option String) (usual : Tag) : Tag :=
  match tag with
  | none => usual
  | some "!" => usual
  | some name => Tag.ofName name

/-! ### The grammar -/

mutual

/-- A node. In a block it may be a block collection, and under a key also a sequence that is not
indented. -/
def node : Nat → Bool → Bool → Parsing YamlNode
  | 0, _, _ => badGrammar
  | fuel + 1, block, indentless => do
    match ← peek with
    | .alias name => advance; resolveAlias name
    | _ =>
      let (anchor, tagToken) ← properties
      let tag ← expandTag tagToken
      match ← peek with
      | .blockEntry =>
        if indentless then do
          let tag := collectionTag tag .seq
          let id ← openCollection anchor tag .seq
          let items ← indentlessItems fuel []
          let result := YamlNode.seq id tag items
          bindAnchor anchor result
          return result
        else emptyNode anchor tag
      | .scalar text plain => do
        advance
        checkAnchor anchor
        let result := YamlNode.scalar (← freshId) (scalarTag tag plain text) text
        bindAnchor anchor result
        return result
      | .flowSequenceStart => do
        let tag := collectionTag tag .seq
        let id ← openCollection anchor tag .seq
        advance
        let items ← flowItems fuel true []
        let result := YamlNode.seq id tag items
        bindAnchor anchor result
        return result
      | .flowMappingStart => do
        let tag := collectionTag tag .map
        let id ← openCollection anchor tag .map
        advance
        let entries ← flowEntries fuel true []
        let result := YamlNode.map id tag entries
        bindAnchor anchor result
        return result
      | .blockSequenceStart =>
        if block then do
          let tag := collectionTag tag .seq
          let id ← openCollection anchor tag .seq
          advance
          let items ← blockItems fuel []
          let result := YamlNode.seq id tag items
          bindAnchor anchor result
          return result
        else emptyNode anchor tag
      | .blockMappingStart =>
        if block then do
          let tag := collectionTag tag .map
          let id ← openCollection anchor tag .map
          advance
          let entries ← blockEntries fuel []
          let result := YamlNode.map id tag entries
          bindAnchor anchor result
          return result
        else emptyNode anchor tag
      | _ => emptyNode anchor tag

/-- A node without content is an empty scalar if it has an anchor or a tag, and an error
otherwise. -/
def emptyNode (anchor : Option String) (tag : Option String) : Parsing YamlNode := do
  if anchor.isNone && tag.isNone then badGrammar
  else
    checkAnchor anchor
    let tag := match tag with
      | none => implicitTag ""
      | some "!" => implicitTag ""
      | some name => Tag.ofName name
    let result := YamlNode.scalar (← freshId) tag ""
    bindAnchor anchor result
    return result

def blockItems : Nat → List YamlNode → Parsing (List YamlNode)
  | 0, _ => badGrammar
  | fuel + 1, acc => do
    match ← peek with
    | .blockEntry =>
      advance
      match ← peek with
      | .blockEntry | .blockEnd => blockItems fuel ((← emptyScalar) :: acc)
      | _ => blockItems fuel ((← node fuel true false) :: acc)
    | .blockEnd => advance; return acc.reverse
    | _ => badGrammar

def indentlessItems : Nat → List YamlNode → Parsing (List YamlNode)
  | 0, _ => badGrammar
  | fuel + 1, acc => do
    match ← peek with
    | .blockEntry =>
      advance
      match ← peek with
      | .blockEntry | .key | .value | .blockEnd => indentlessItems fuel ((← emptyScalar) :: acc)
      | _ => indentlessItems fuel ((← node fuel true false) :: acc)
    | _ => return acc.reverse

def blockEntries : Nat → List (YamlNode × YamlNode) → Parsing (List (YamlNode × YamlNode))
  | 0, _ => badGrammar
  | fuel + 1, acc => do
    match ← peek with
    | .key =>
      advance
      let key ←
        match ← peek with
        | .key | .value | .blockEnd => emptyScalar
        | _ => node fuel true true
      let value ←
        match ← peek with
        | .value => do
          advance
          match ← peek with
          | .key | .value | .blockEnd => emptyScalar
          | _ => node fuel true true
        | _ => emptyScalar
      blockEntries fuel ((key, value) :: acc)
    | .value =>
      badGrammar
    | .blockEnd => advance; return acc.reverse
    | _ => badGrammar

def flowItems : Nat → Bool → List YamlNode → Parsing (List YamlNode)
  | 0, _, _ => badGrammar
  | fuel + 1, first, acc => do
    match ← peek with
    | .flowSequenceEnd => advance; return acc.reverse
    | t =>
      if !first && t != .flowEntry then badGrammar
      else
        if !first then advance
        match ← peek with
        | .key => do
          let id ← freshId
          advance
          let key ←
            match ← peek with
            | .value | .flowEntry | .flowSequenceEnd => emptyScalar
            | _ => node fuel false false
          let value ←
            match ← peek with
            | .value => do
              advance
              match ← peek with
              | .flowEntry | .flowSequenceEnd => emptyScalar
              | _ => node fuel false false
            | _ => emptyScalar
          flowItems fuel false (YamlNode.map id .map [(key, value)] :: acc)
        | .flowSequenceEnd => advance; return acc.reverse
        | _ => flowItems fuel false ((← node fuel false false) :: acc)

def flowEntries : Nat → Bool → List (YamlNode × YamlNode) → Parsing (List (YamlNode × YamlNode))
  | 0, _, _ => badGrammar
  | fuel + 1, first, acc => do
    match ← peek with
    | .flowMappingEnd => advance; return acc.reverse
    | t =>
      if !first && t != .flowEntry then badGrammar
      else
        if !first then advance
        match ← peek with
        | .key => do
          advance
          let key ←
            match ← peek with
            | .value | .flowEntry | .flowMappingEnd => emptyScalar
            | _ => node fuel false false
          let value ←
            match ← peek with
            | .value => do
              advance
              match ← peek with
              | .flowEntry | .flowMappingEnd => emptyScalar
              | _ => node fuel false false
            | _ => emptyScalar
          flowEntries fuel false ((key, value) :: acc)
        | .flowMappingEnd => advance; return acc.reverse
        | _ => do
          let key ← node fuel false false
          flowEntries fuel false ((key, ← emptyScalar) :: acc)

end

/-! ### Documents -/

/-- Directives before a document: at most one version, which must be 1, and handles without
repetition. -/
def directives : Nat → Bool → List (String × String) → Parsing (List (String × String))
  | 0, _, handles => return handles
  | fuel + 1, versioned, handles => do
    match ← peek with
    | .directive _ version handle =>
      advance
      match version, handle with
      | some (major, _), _ =>
        if versioned || major != 1 then badGrammar else directives fuel true handles
      | none, some h =>
        if handles.any fun k => k.1 == h.1 then badGrammar
        else directives fuel versioned (handles ++ [h])
      | none, none => directives fuel versioned handles
    | _ => return handles

def skipDocumentEnds : Nat → Parsing Unit
  | 0 => return ()
  | fuel + 1 => do
    match ← peek with
    | .documentEnd => advance; skipDocumentEnds fuel
    | _ => return ()

/-- The start of a further document; `false` at the end of the stream. -/
def explicitStart (fuel : Nat) : Parsing Bool := do
  skipDocumentEnds fuel
  match ← peek with
  | .streamEnd => return false
  | _ =>
    let given ← directives fuel false []
    let usual := defaultHandles.filter fun d => !given.any fun g => g.1 == d.1
    modify fun s => { s with handles := given ++ usual }
    match ← peek with
    | .documentStart => advance; return true
    | _ => badGrammar

/-- The node of the only document, if there is one. -/
def single (fuel : Nat) : Parsing (Option YamlNode) := do
  advance
  let root ←
    match ← peek with
    | .directive _ _ _ | .documentStart | .streamEnd => do
      if ← explicitStart fuel then
        match ← peek with
        | .directive _ _ _ | .documentStart | .documentEnd | .streamEnd => some <$> emptyScalar
        | _ => some <$> node fuel true false
      else return none
    | _ => some <$> node fuel true false
  match ← peek with
  | .documentEnd => advance
  | _ => pure ()
  if ← explicitStart fuel then badReference else return root

end Parsing

def nodeOf (text : String) : Except Fault (Option YamlNode) :=
  let (tokens, fault) := tokensOf text
  let fuel := 2 * tokens.length + 4
  (Parsing.single fuel |>.run' ⟨tokens, fault, Parsing.defaultHandles, [], [], 0⟩)

end ProjectLint.Yaml
