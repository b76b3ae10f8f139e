import ProjectLint.Project.Files
import ProjectLint.Settings

/-!
# Property files

A property file describes models, macros, sources and exposures in sections of these names. Entries
are supplied file by file, so that those before a bad file or a bad entry are still seen.
-/

namespace ProjectLint

/-- The description of a model or macro in a property file. -/
structure PropertyEntry where
  name : Scalar
  file : Path
  body : Value

/-- A table of a source, as a property file describes it. -/
structure SourceTable where
  source : Value
  table : Value
  file : Path
  sourceBody : Value
  tableBody : Value

/-- What is known of a source table by name: the two names with a dot between. -/
def SourceTable.label (s : SourceTable) : String := s.source.text ++ "." ++ s.table.text

def sectionItems (document : Value) (part : String) : Except Fault (List Value) := do
  (← document.fieldD part (.seq [])).items

/-- Which entries are asked for by name. -/
inductive Wanted where
  | all
  | named (names : List String)

def Wanted.admits (w : Wanted) (name : Scalar) : Bool :=
  match w with
  | .all => true
  | .named names => names.any fun n => name.same (.str n)

/-- The entry of an item, if it is a mapping with a name that is asked for. -/
def described? (file : Path) (wanted : Wanted) (item : Value) :
    Except Fault (Option PropertyEntry) :=
  match item with
  | .map fields =>
    match Entries.get? fields "name" with
    | none => .ok none
    | some name =>
      if name.truthy then do
        let key ← name.key?
        return if wanted.admits key then some ⟨key, file, item⟩ else none
      else .ok none
  | _ => .ok none

def entriesOfFile (t : Tree) (part : String) (wanted : Wanted) (file : Path) : Feed PropertyEntry :=
  .ofExcept do
    let document ← t.readProperties file.text
    return .filterMapE (described? file wanted) (← sectionItems document.root part)

def modelEntries (t : Tree) (files : List Path) (wanted : Wanted) : Feed PropertyEntry :=
  Feed.flatMap (entriesOfFile t "models" wanted) files

def macroEntries (t : Tree) (files : List Path) (wanted : Wanted) : Feed PropertyEntry :=
  Feed.flatMap (entriesOfFile t "macros" wanted) files

/-! ### Sources -/

def tableOf (file : Path) (name body : Value) (table : Value) :
    Except Fault (Option SourceTable) := do
  return some ⟨name, ← table.field "name", file, body, table⟩

/-- The tables of a source. Those of a source that has been seen before under another alias are not
listed again. -/
def tablesOf (file : Path) (withDisabled seen : Bool) (source : Value) : Feed SourceTable :=
  .ofExcept do
    let enabled ← if withDisabled then pure true else isEnabled source
    if !enabled then return .empty
    let name ← source.field "name"
    let fields ← source.entries
    let tables := if seen then .seq [] else (Entries.get? fields "tables").getD (.seq [])
    return .filterMapE (tableOf file name (.map (Entries.erase fields "tables"))) (← tables.items)

def seenBefore (document : Yaml.Document) (place : Yaml.Place) (earlier : List Nat)
    (above : Yaml.Place) : Bool :=
  match document.shareAt? place with
  | none => false
  | some id => earlier.any fun n => document.shareAt? (above ++ [n]) == some id

/-- The source tables of a document. -/
def tablesOfDocument (file : Path) (withDisabled : Bool) (document : Yaml.Document) :
    Feed SourceTable :=
  .ofExcept do
    let sources ← sectionItems document.root "sources"
    let above := (Yaml.Document.fieldIndex? document.root "sources").toList
    return Feed.flatMap (fun (n : Nat × Value) =>
      tablesOf file withDisabled
        (seenBefore document (above ++ [n.1]) (List.range n.1) above) n.2)
      ((List.range sources.length).zip sources)

def tablesOfFile (t : Tree) (withDisabled : Bool) (file : Path) : Feed SourceTable :=
  .ofExcept do return tablesOfDocument file withDisabled (← t.readProperties file.text)

/-- The source tables that property files describe. -/
def sourceTables (t : Tree) (withDisabled : Bool) (paths : List String) : Feed SourceTable :=
  Feed.flatMap (fun path => tablesOfFile t withDisabled (Path.ofString path)) paths

/-! ### Exposures -/

def exposureOf (file : Path) (item : Value) : Except Fault (Option Resource) := do
  return some ⟨← item.field "name", file.stem, item⟩

def exposuresOfFile (t : Tree) (file : Path) : Feed Resource :=
  .ofExcept do
    let document ← t.readProperties file.text
    return .filterMapE (exposureOf file) (← sectionItems document.root "exposures")

def exposures (t : Tree) (paths : List String) : Feed Resource :=
  Feed.flatMap (fun path => exposuresOfFile t (Path.ofString path)) paths

end ProjectLint
