import ProjectLint.Checks.Casing
import ProjectLint.Proofs.Findings
import ProjectLint.Proofs.Texts

/-!
# Databases and schemas in the catalog

An object has an address in the manifest and one in the catalog, each made of a database and a
schema.  A catalog object without meta data counts as one without an address when the two are
compared, but what is shown of it is asked of the meta data itself.  So **the check breaks off just
if an object without meta data has an address in the manifest**, and `casing_verdict` gives the
verdict and the lines in all other cases.
-/

namespace ProjectLint

theorem Value.same_null_iff (v : Value) : v.same .null = true ↔ v = .null := by
  cases v with
  | scalar s => cases s <;> simp [Value.same, Scalar.same, Scalar.isNumber]
  | _ => simp [Value.same]

namespace Casing

/-! ### Addresses -/

/-- Where an object is kept. -/
structure Address where
  database : Value
  schema : Value

namespace Address

/-- The address that a mapping tells. -/
def of (fields : Value) : Address := ⟨valueUnder fields "database", valueUnder fields "schema"⟩

/-- The two have a different database or a different schema. -/
def differs (a b : Address) : Bool := !a.database.same b.database || !a.schema.same b.schema

/-- What is said about two addresses that differ: the databases, with the schemas if these differ
too. -/
def message (declared recorded : Address) : String :=
  if declared.schema.same recorded.schema then line declared.database.text recorded.database.text
  else line (declared.database.text ++ "." ++ declared.schema.text)
    (recorded.database.text ++ "." ++ recorded.schema.text)

end Address

/-- The meta data of a catalog object. -/
def metadata? (node : Value) : Option Value := (node.field? "metadata").toOption.join

/-- The address of a catalog object, which is that of its meta data if it has any. -/
def recorded (node : Value) : Address := .of ((metadata? node).getD (.map []))

/-- A catalog object whose meta data, where it has any, are a mapping. -/
def IsCatalogObject (node : Value) : Prop :=
  IsMapping node ∧ ∀ data, metadata? node = some data → IsMapping data

/-- **Nothing can be shown of the object in the catalog**, although the manifest has an address for
it. -/
def Unshown (node catalogNode : Value) : Prop :=
  metadata? catalogNode = none ∧ (valueUnder node "database" ≠ .null ∨
    valueUnder node "schema" ≠ .null)

/-! ### One object -/

theorem catalogField_eq {node : Value} (h : IsCatalogObject node) (key : String) :
    catalogField node key = .ok (valueUnder ((metadata? node).getD (.map [])) key) := by
  obtain ⟨⟨fields, rfl⟩, hdata⟩ := h
  have hmap : IsMapping ((metadata? (.map fields)).getD (.map [])) := by
    cases hd : metadata? (.map fields) with
    | none => exact ⟨[], rfl⟩
    | some data => exact hdata data hd
  exact hmap.field_eq key

theorem field_metadata (fields : Entries) :
    (Value.map fields).field "metadata" = .ok ((metadata? (.map fields)).getD .null) := rfl

theorem shownField_of_some {node data : Value} (h : IsCatalogObject node)
    (hdata : metadata? node = some data)
    (key : String) : shownField node key = .ok (valueUnder data key) := by
  have hmap := h.2 data hdata
  obtain ⟨⟨fields, rfl⟩, -⟩ := h
  rw [shownField, field_metadata, hdata, ok_bind]
  exact hmap.field_eq key

theorem shownField_of_none {node : Value} (h : IsCatalogObject node) (hdata : metadata? node = none)
    (key : String) :
    shownField node key = .error .noSuchField := by
  obtain ⟨⟨fields, rfl⟩, -⟩ := h
  rw [shownField, field_metadata, hdata]
  rfl

section

variable {node catalogNode : Value} (hnode : IsMapping node)
    (hcatalog : IsCatalogObject catalogNode)

include hnode hcatalog

/-- **What is said about an object**: a message if the two addresses differ. -/
theorem objectLine_eq (hshown : ¬ Unshown node catalogNode) :
    objectLine node catalogNode = .ok (if (Address.of node).differs (recorded catalogNode)
      then some ((Address.of node).message (recorded catalogNode)) else none) := by
  cases hdata : metadata? catalogNode with
  | some data =>
    have hrecorded : recorded catalogNode = .of data := by rw [recorded, hdata, Option.getD_some]
    rw [objectLine, hrecorded]
    simp only [hnode.field_eq, catalogField_eq hcatalog, shownField_of_some hcatalog hdata, ok_bind,
      hdata, Option.getD_some, Address.differs, Address.message, Address.of]
    by_cases hdatabase : (valueUnder node "database").same (valueUnder data "database") = true <;>
      by_cases hschema : (valueUnder node "schema").same (valueUnder data "schema") = true <;>
        simp [hdatabase, hschema, pure, Except.pure]
  | none =>
    -- there is no address on either side
    obtain ⟨hdatabase, hschema⟩ : valueUnder node "database" = .null ∧
        valueUnder node "schema" = .null := by
      by_contra hsome
      exact hshown ⟨hdata, by rwa [← not_and_or]⟩
    have hrecorded : recorded catalogNode = .of (.map []) := by
      rw [recorded, hdata, Option.getD_none]
    rw [objectLine, hrecorded, Address.of, hdatabase, hschema]
    simp only [hnode.field_eq, catalogField_eq hcatalog, hdata, hdatabase, hschema]
    rfl

theorem objectLine_of_unshown (h : Unshown node catalogNode) :
    objectLine node catalogNode = .error .noSuchField := by
  obtain ⟨hdata, hsome⟩ := h
  have hnone : ∀ key, valueUnder ((metadata? catalogNode).getD (.map [])) key = .null := by
    intro key
    rw [hdata]
    rfl
  rw [objectLine]
  simp only [hnode.field_eq, catalogField_eq hcatalog, shownField_of_none hcatalog hdata, ok_bind,
    error_bind, hnone]
  cases hdatabase : (valueUnder node "database").same .null with
  | false => rfl
  | true =>
    have hschema : (valueUnder node "schema").same .null = false := by
      rw [← Bool.not_eq_true, Value.same_null_iff]
      rcases hsome with hne | hne
      · exact absurd ((Value.same_null_iff _).mp hdatabase) hne
      · exact hne
    rw [hschema]
    rfl

theorem objectLine_returns_iff : (∃ said, objectLine node catalogNode = .ok said) ↔
    ¬ Unshown node catalogNode := by
  constructor
  · rintro ⟨said, hsaid⟩ hunshown
    rw [objectLine_of_unshown hnode hcatalog hunshown] at hsaid
    cases hsaid
  · intro hshown
    exact ⟨_, objectLine_eq hnode hcatalog hshown⟩

end

/-! ### All objects -/

def ListedIn (part : String) (manifest catalog node catalogNode : Value) : Prop :=
  ∃ nodes catalogNodes id, manifest.field? part = .ok (some (.map nodes)) ∧
    catalog.field? part = .ok (some (.map catalogNodes)) ∧ (id, node) ∈ nodes ∧
    Entries.find? catalogNodes id = some catalogNode

/-- **An object that both list**, as a node or as a source. -/
def Shared (manifest catalog node catalogNode : Value) : Prop :=
  ∃ part ∈ ["nodes", "sources"], ListedIn part manifest catalog node catalogNode

/-- A mapping whose nodes and sources, where it has them, are mappings of objects. -/
structure Sectioned (IsObject : Value → Prop) (project : Value) : Prop where
  mapping : IsMapping project
  part : ∀ part ∈ ["nodes", "sources"], ∀ v, project.field? part = .ok (some v) →
    ∃ objects, v = .map objects ∧ ∀ e ∈ objects, IsObject e.2

def objectsIn (project : Value) (part : String) : Entries :=
  match (project.field? part).toOption.join with
  | some (.map objects) => objects
  | _ => []

def pairs (nodes catalogNodes : Entries) : List (Value × Value) :=
  nodes.filterMap fun e => (Entries.find? catalogNodes e.1).map fun node => (e.2, node)

theorem matching_eq (nodes catalogNodes : Entries) :
    matching (.map nodes) (.map catalogNodes) = .ok (pairs nodes catalogNodes) := by
  have hwalk : (nodes.mapM fun e => do
      return (Entries.find? (← (Value.map catalogNodes).entries) e.1).map fun node => (e.2, node) :
        Except Fault (List (Option (Value × Value)))) =
      .ok (nodes.map fun e => (Entries.find? catalogNodes e.1).map fun node => (e.2, node)) :=
    mapM_eq_ok_map fun e _ => rfl
  rw [matching, Value.entries, ok_bind, hwalk, ok_bind, List.filterMap_map]
  rfl

variable {part : String}

theorem Sectioned.part_eq {IsObject : Value → Prop} {project : Value}
    (h : Sectioned IsObject project) (hpart : part ∈ ["nodes", "sources"]) :
    project.fieldD part (.map []) = .ok (.map (objectsIn project part)) := by
  obtain ⟨fields, rfl⟩ := h.mapping
  rw [Value.fieldD, objectsIn]
  cases hfield : Entries.get? fields part with
  | none => simp [Value.field?, hfield, Except.toOption]
  | some v =>
    obtain ⟨objects, rfl, -⟩ := h.part part hpart v (by rw [Value.field?, hfield])
    simp [Value.field?, hfield, Except.toOption]

theorem objectsIn_eq {project : Value} {objects : Entries}
    (h : project.field? part = .ok (some (.map objects))) :
    objectsIn project part = objects := by
  rw [objectsIn, h]
  rfl

theorem field?_of_objectsIn {project : Value} (h : objectsIn project part ≠ []) :
    project.field? part = .ok (some (.map (objectsIn project part))) := by
  unfold objectsIn at h ⊢
  split at h
  · rename_i objects hjoin
    cases hfield : project.field? part with
    | error fault =>
      rw [hfield] at hjoin
      cases hjoin
    | ok found =>
      rw [hfield] at hjoin
      rw [show found = some (.map objects) from hjoin]
  · exact absurd rfl h

theorem mem_pairs_iff {manifest catalog : Value} {p : Value × Value} :
    p ∈ pairs (objectsIn manifest part) (objectsIn catalog part) ↔
      ListedIn part manifest catalog p.1 p.2 := by
  rw [pairs, List.mem_filterMap]
  constructor
  · rintro ⟨e, he, hfound⟩
    obtain ⟨node, hnode, rfl⟩ := Option.map_eq_some_iff.mp hfound
    have hcatalog : objectsIn catalog part ≠ [] := by
      intro hnil
      rw [hnil] at hnode
      cases hnode
    exact ⟨_, _, e.1, field?_of_objectsIn (List.ne_nil_of_mem he), field?_of_objectsIn hcatalog, he,
      hnode⟩
  · rintro ⟨nodes, catalogNodes, id, hnodes, hcatalog, he, hfound⟩
    rw [objectsIn_eq hnodes, objectsIn_eq hcatalog]
    exact ⟨_, he, Option.map_eq_some_iff.mpr ⟨p.2, hfound, rfl⟩⟩

def sharedPairs (manifest catalog : Value) : List (Value × Value) :=
  ["nodes", "sources"].flatMap fun part => pairs (objectsIn manifest part) (objectsIn catalog part)

theorem mem_sharedPairs_iff {manifest catalog : Value} {p : Value × Value} :
    p ∈ sharedPairs manifest catalog ↔ Shared manifest catalog p.1 p.2 := by
  rw [sharedPairs, List.mem_flatMap]
  simp only [mem_pairs_iff]
  rfl

theorem differences_append (l l' : List (Value × Value)) :
    differences (l ++ l') = do return (← differences l) ++ (← differences l') := by
  rw [differences, differences, differences, List.mapM_append]
  cases l.mapM fun p => objectLine p.1 p.2 with
  | error fault => rfl
  | ok found =>
    cases l'.mapM fun p => objectLine p.1 p.2 with
    | error fault => rfl
    | ok found' => exact congrArg Except.ok (List.filterMap_append ..)

def headed (lines : List String) : List String :=
  if lines.isEmpty then [] else "Found casing inconsistencies:" :: lines

section

variable {manifest catalog : Value} (hmanifest : Sectioned IsMapping manifest)
  (hcatalog : Sectioned IsCatalogObject catalog)

include hmanifest hcatalog

theorem isObject_of_shared {node catalogNode : Value}
    (h : Shared manifest catalog node catalogNode) :
    IsMapping node ∧ IsCatalogObject catalogNode := by
  obtain ⟨part, hpart, nodes, catalogNodes, id, hnodes, hcatalogNodes, he, hfound⟩ := h
  obtain ⟨_, hmap, hobjects⟩ := hmanifest.part part hpart _ hnodes
  cases hmap
  obtain ⟨_, hmap, hcatalogObjects⟩ := hcatalog.part part hpart _ hcatalogNodes
  cases hmap
  obtain ⟨e, he', rfl⟩ := Option.map_eq_some_iff.mp hfound
  exact ⟨hobjects _ he, hcatalogObjects e (List.mem_of_find?_eq_some he')⟩

/-- **The check goes through all pairs** and puts the distinct messages under a heading. -/
theorem toExcept_check :
    (check manifest catalog).toExcept =
      (differences (sharedPairs manifest catalog)).map fun lines => headed lines.eraseDups := by
  have hpairs : sharedPairs manifest catalog = pairs (objectsIn manifest "nodes")
      (objectsIn catalog "nodes") ++
      pairs (objectsIn manifest "sources") (objectsIn catalog "sources") := by
    rw [sharedPairs, List.flatMap_cons, List.flatMap_cons, List.flatMap_nil, List.append_nil]
  rw [check, Findings.toExcept_of, hpairs, differences_append]
  dsimp only
  rw [hcatalog.part_eq (by simp), ok_bind, hmanifest.part_eq (by simp), ok_bind, matching_eq,
    ok_bind, hcatalog.part_eq (by simp), ok_bind, hmanifest.part_eq (by simp), ok_bind, matching_eq,
      ok_bind]
  cases differences (pairs (objectsIn manifest "nodes") (objectsIn catalog "nodes")) with
  | error fault => rfl
  | ok found =>
    cases differences (pairs (objectsIn manifest "sources") (objectsIn catalog "sources")) with
    | error fault => rfl
    | ok found' => rfl

/-- **When all pairs can be gone through**, and what is found then. -/
theorem differences_returns_iff :
    (∃ lines, differences (sharedPairs manifest catalog) = .ok lines) ↔
    ∀ node catalogNode, Shared manifest catalog node catalogNode → ¬ Unshown node catalogNode := by
  have hiff : (∃ lines, differences (sharedPairs manifest catalog) = .ok lines) ↔
      ∃ found, (sharedPairs manifest catalog).mapM (fun p => objectLine p.1 p.2) = .ok found := by
    rw [differences]
    cases (sharedPairs manifest catalog).mapM fun p => objectLine p.1 p.2 <;>
      simp [pure, Except.pure]
  rw [hiff, mapM_returns_iff, Prod.forall]
  refine forall₂_congr fun node catalogNode => ?_
  rw [mem_sharedPairs_iff]
  refine forall_congr' fun hshared => ?_
  obtain ⟨hnode, hobject⟩ := isObject_of_shared hmanifest hcatalog hshared
  exact objectLine_returns_iff hnode hobject

theorem mem_differences_iff {lines : List String}
    (h : differences (sharedPairs manifest catalog) = .ok lines)
    {line : String} : line ∈ lines ↔ ∃ node catalogNode, Shared manifest catalog node catalogNode ∧
      (Address.of node).differs (recorded catalogNode) = true ∧
      line = (Address.of node).message (recorded catalogNode) := by
  have hshown := (differences_returns_iff hmanifest hcatalog).mp ⟨lines, h⟩
  obtain ⟨found, hfound, h⟩ := bind_eq_ok_iff.mp h
  cases h
  have hsaid : line ∈ found.filterMap id ↔
      ∃ node catalogNode, Shared manifest catalog node catalogNode ∧
        objectLine node catalogNode = .ok (some line) := by
    rw [List.mem_filterMap]
    simp only [id_eq, exists_eq_right, mem_mapM_iff hfound, Prod.exists, mem_sharedPairs_iff]
  rw [hsaid]
  refine exists₂_congr fun node catalogNode => and_congr_right fun hshared => ?_
  obtain ⟨hnode, hobject⟩ := isObject_of_shared hmanifest hcatalog hshared
  rw [objectLine_eq hnode hobject (hshown node catalogNode hshared)]
  cases (Address.of node).differs (recorded catalogNode) <;> simp [eq_comm]

end

/-- **The verdict on databases and schemas.**  The check breaks off just if an object that both list
has no meta data in the catalog while the manifest has a database or a schema for it.  If it comes
to an end, it fails just if an object that both list has different databases or different schemas.
Then it prints a heading and the distinct messages, each once; as a message depends on the two
addresses only, objects with the same addresses share their line. -/
theorem casing_verdict {manifest catalog : Value} (hmanifest : Sectioned IsMapping manifest)
    (hcatalog : Sectioned IsCatalogObject catalog) :
    ((∃ fault, (check manifest catalog).report.outcome = .error fault) ↔
      ∃ node catalogNode, Shared manifest catalog node catalogNode ∧ metadata? catalogNode = none ∧
        (valueUnder node "database" ≠ .null ∨ valueUnder node "schema" ≠ .null)) ∧
    ∀ s, (check manifest catalog).report.outcome = .ok s → (s = 0 ∨ s = 1) ∧
      (s = 1 ↔ ∃ node catalogNode, Shared manifest catalog node catalogNode ∧
        (Address.of node).differs (recorded catalogNode) = true) ∧
      (s = 0 → (check manifest catalog).report.lines = []) ∧
      (s = 1 → ∃ messages,
        (check manifest catalog).report.lines = "Found casing inconsistencies:" :: messages ∧
        messages.Nodup ∧ ∀ line, line ∈ messages ↔
          ∃ node catalogNode, Shared manifest catalog node catalogNode ∧
            (Address.of node).differs (recorded catalogNode) = true ∧
            line = (Address.of node).message (recorded catalogNode)) := by
  have hcheck := toExcept_check hmanifest hcatalog
  constructor
  · have hreturns : (∃ s, (check manifest catalog).report.outcome = .ok s) ↔
        ∃ lines, differences (sharedPairs manifest catalog) = .ok lines := by
      rw [Findings.outcome_report, hcheck]
      cases differences (sharedPairs manifest catalog) <;> simp [Except.map]
    rw [exists_error_iff, hreturns, differences_returns_iff hmanifest hcatalog]
    push Not
    rfl
  · intro s hs
    obtain ⟨hlines, rfl⟩ := Findings.verdict hs
    obtain ⟨found, hfound, hprinted⟩ := map_eq_ok_iff.mp (hcheck.symm.trans hlines)
    rw [← hprinted]
    have hmem := @mem_differences_iff _ _ hmanifest hcatalog found hfound
    have hfails : Findings.status (headed found.eraseDups) = 1 ↔ found ≠ [] := by
      rw [Findings.status_eq_one_iff]
      cases found <;> simp [headed, List.eraseDups_cons]
    refine ⟨Findings.status_eq_zero_or_one _, ?_, fun hpasses => ?_, fun hfailed => ?_⟩
    · rw [hfails]
      constructor
      · intro hne
        obtain ⟨line, hline⟩ := List.exists_mem_of_ne_nil _ hne
        obtain ⟨node, catalogNode, hshared, hdiffers, -⟩ := hmem.mp hline
        exact ⟨node, catalogNode, hshared, hdiffers⟩
      · rintro ⟨node, catalogNode, hshared, hdiffers⟩
        exact List.ne_nil_of_mem (hmem.mpr ⟨node, catalogNode, hshared, hdiffers, rfl⟩)
    · have hnil : ¬ found ≠ [] := by
        rw [← hfails, hpasses]
        decide
      rw [not_not.mp hnil]
      rfl
    · have hne : found.eraseDups ≠ [] := by
        obtain ⟨line, hline⟩ := List.exists_mem_of_ne_nil _ (hfails.mp hfailed)
        exact List.ne_nil_of_mem (List.mem_eraseDups.mpr hline)
      refine ⟨found.eraseDups, ?_, nodup_eraseDups found, fun line => ?_⟩
      · rw [headed, if_neg (by simpa using hne)]
      · rw [List.mem_eraseDups, hmem]

/-! ### A node and two sources -/

def project (nodes sources : List (String × Value)) : Value :=
  .record [("nodes", .record nodes), ("sources", .record sources)]

theorem sectioned_project {IsObject : Value → Prop} {nodes sources : List (String × Value)}
    (h : ∀ e ∈ nodes ++ sources, IsObject e.2) : Sectioned IsObject (project nodes sources) := by
  have hobjects : ∀ l : List (String × Value), (∀ e ∈ l, IsObject e.2) →
      ∃ objects, Value.record l = .map objects ∧ ∀ e ∈ objects, IsObject e.2 := by
    intro l hl
    refine ⟨_, rfl, fun e he => ?_⟩
    obtain ⟨x, hx, rfl⟩ := List.mem_map.mp he
    exact hl x hx
  refine ⟨⟨_, rfl⟩, fun part hpart v hv => ?_⟩
  rcases List.mem_cons.mp hpart with rfl | hpart
  · cases hv
    exact hobjects nodes fun e he => h e (List.mem_append_left _ he)
  · obtain rfl := List.mem_singleton.mp hpart
    cases hv
    exact hobjects sources fun e he => h e (List.mem_append_right _ he)

def capital (schema : String) : Value := .record [("database", .str "DB"), ("schema", .str schema)]

def small : Value := .record [("metadata", .record [("database", .str "db"), ("schema", .str "s")])]

def capitals : Value := project [("m", capital "s")] [("a", capital "s"), ("b", capital "S")]

theorem sectioned_capitals : Sectioned IsMapping capitals :=
  sectioned_project fun e he => by
    simp only [List.cons_append, List.nil_append, List.mem_cons, List.not_mem_nil, or_false] at he
    rcases he with rfl | rfl | rfl <;> exact ⟨_, rfl⟩

def catalogWith (sources : List (String × Value)) : Value := project [("m", small)] sources

theorem isCatalogObject_small : IsCatalogObject small :=
  ⟨⟨_, rfl⟩, fun _ hdata => ⟨_, (Option.some.inj hdata).symm⟩⟩

theorem sectioned_catalogWith {sources : List (String × Value)}
    (h : ∀ e ∈ sources, IsCatalogObject e.2) :
    Sectioned IsCatalogObject (catalogWith sources) :=
  sectioned_project fun e he => by
    rcases List.mem_cons.mp he with rfl | he
    · exact isCatalogObject_small
    · exact h e he

/-- The node and the first source differ in the same way, so there are two messages about three
objects.  Where a source is listed without meta data the check breaks off. -/
theorem casing_verdict_capitals :
    ((check capitals (catalogWith [("a", small), ("b", small)])).report.outcome = .ok 1 ∧
      ∃ messages, (check capitals (catalogWith [("a", small), ("b", small)])).report.lines =
          "Found casing inconsistencies:" :: messages ∧ messages.Nodup ∧ messages.length = 2 ∧
        (Address.of (capital "s")).message (recorded small) ∈ messages) ∧
    ∃ fault, (check capitals (catalogWith [("b", .record [])])).report.outcome = .error fault := by
  have hshared : Shared capitals (catalogWith [("a", small), ("b", small)]) (capital "s") small :=
    ⟨"nodes", by simp, _, _, .str "m", rfl, rfl, List.mem_cons_self, rfl⟩
  have hbare : Shared capitals (catalogWith [("b", .record [])]) (capital "S") (.record []) :=
    ⟨"sources", by simp, _, _, .str "b", rfl, rfl, List.mem_cons_of_mem _ List.mem_cons_self, rfl⟩
  have hfull : Sectioned IsCatalogObject (catalogWith [("a", small), ("b", small)]) :=
    sectioned_catalogWith fun e he => by
      simp only [List.mem_cons, List.not_mem_nil, or_false] at he
      rcases he with rfl | rfl <;> exact isCatalogObject_small
  have hempty : Sectioned IsCatalogObject (catalogWith [("b", .record [])]) :=
    sectioned_catalogWith fun e he => by
      obtain rfl := List.mem_singleton.mp he
      exact ⟨⟨_, rfl⟩, fun _ hdata => by cases hdata⟩
  have houtcome : (check capitals (catalogWith [("a", small), ("b", small)])).report.outcome =
      .ok 1 := rfl
  obtain ⟨-, -, -, hlines⟩ := (casing_verdict sectioned_capitals hfull).2 1 houtcome
  obtain ⟨messages, hmessages, hnodup, hmem⟩ := hlines rfl
  refine ⟨⟨houtcome, messages, hmessages, hnodup, ?_, (hmem _).mpr ⟨_, _, hshared, rfl, rfl⟩⟩, ?_⟩
  · have hlength : (check capitals (catalogWith [("a", small), ("b", small)])).report.lines.length =
        3 := by
      decide +kernel
    rw [hmessages, List.length_cons] at hlength
    exact Nat.succ.inj hlength
  · have hdatabase : valueUnder (capital "S") "database" = .str "DB" := rfl
    exact (casing_verdict sectioned_capitals hempty).1.mpr ⟨_, _, hbare, rfl,
      .inl (by simp [hdatabase])⟩

end Casing

end ProjectLint
