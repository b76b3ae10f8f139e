import Mathlib.Data.List.Basic
import ProjectLint.Checks.Contracts
import ProjectLint.Checks.Descriptions
import ProjectLint.Proofs.Outcomes

/-!
# Models in scope

Which models are out of scope is decided twice.  Scripts are passed over by their stems, if an
ephemeral node or a node that is listed as disabled has such a name; nodes are passed over by their
own settings.  The two agree but for two kinds of nodes: a **versioned** ephemeral node, whose
script is named by more than the last part of its id, and a node that is **disabled but not listed
so** (`leftOut_iff_overlooked`).  `kept_stem_has_model_iff` says that these are the only ways in
which a script is kept and has nodes, but no model, and what the checks make of it that want a model
for every script.
-/

namespace ProjectLint

/-! ### Nodes -/

/-- The node is not built at all. -/
def Ephemeral (node : Value) : Prop := isMaterialized node "ephemeral" = .ok true

def Disabled (node : Value) : Prop := isEnabled node = .ok false

/-- The node is no model in scope, whatever its name. -/
def LeftOut (withDisabled : Bool) (node : Value) : Prop :=
  Ephemeral node ∨ withDisabled = false ∧ Disabled node

/-- A node of a model that comes from the file with the given stem. -/
def ModelNode (stem : String) (entry : Scalar × Value) : Prop :=
  ∃ id, entry.1 = .str id ∧ firstPart (idParts id) = "model" ∧
    modelFilename (idParts id) entry.2 = .ok stem

def Versioned (entry : Scalar × Value) : Prop :=
  ∃ id version, entry.1 = .str id ∧ entry.2.field "version" = .ok version ∧ version.truthy = true ∧
    lastPart (idParts id) = "v" ++ version.text

/-- The id of the node is no text, or is nothing but a version, so that no file name comes from
it. -/
def Nameless (entry : Scalar × Value) : Prop :=
  (∀ id, entry.1 ≠ .str id) ∨ ∃ id version, entry.1 = .str id ∧
    entry.2.field "version" = .ok version ∧
    version.truthy = true ∧ idParts id = ["v" ++ version.text]

theorem idParts_ne_nil (id : String) : idParts id ≠ [] := by
  intro h
  exact Text.splitList_ne_nil '.' id.toList (List.map_eq_nil_iff.mp h)

variable {b : Bool} {manifest : Value} {kept : FileMap} {nodes : Entries}

theorem mapping_of_materialized {node : Value} {how : String}
    (h : isMaterialized node how = .ok b) :
    ∃ fields settings, node = .map fields ∧ node.fieldD "config" (.map []) =
      .ok (.map settings) := by
  obtain ⟨value, h, -⟩ := map_eq_ok_iff.mp h
  obtain ⟨config, hconfig, hfield⟩ := bind_eq_ok_iff.mp h
  obtain ⟨fields, rfl⟩ := isMapping_of_fieldD hconfig
  obtain ⟨settings, rfl⟩ := isMapping_of_fieldD hfield
  exact ⟨fields, settings, rfl, hconfig⟩

theorem field_map (fields : Entries) (key : String) : ∃ v, (Value.map fields).field key = .ok v :=
  ⟨_, rfl⟩

theorem enabled_of_materialized {node : Value} {how : String}
    (h : isMaterialized node how = .ok b) :
    ∃ on, isEnabled node = .ok on := by
  obtain ⟨fields, settings, -, hconfig⟩ := mapping_of_materialized h
  exact ⟨_, by rw [isEnabled, hconfig]; rfl⟩

/-! ### File names -/

/-- **The file name of a node**: from the last two parts of the id if it ends in the version, and
else its last part. -/
theorem modelFilename_cases (fields : Entries) (id : String) :
    (∃ version name, (Value.map fields).field "version" = .ok version ∧ version.truthy = true ∧
      lastPart (idParts id) = "v" ++ version.text ∧
      modelFilename (idParts id) (.map fields) = .ok (name ++ "_v" ++ version.text)) ∨
    (∃ version, (Value.map fields).field "version" = .ok version ∧ version.truthy = true ∧
      idParts id = ["v" ++ version.text] ∧
        modelFilename (idParts id) (.map fields) = .error .outOfRange) ∨
    (¬ Versioned (.str id, .map fields) ∧ modelFilename (idParts id) (.map fields) =
      .ok (lastPart (idParts id))) := by
  obtain ⟨version, hversion⟩ := field_map fields "version"
  rw [modelFilename, hversion, ok_bind]
  by_cases hv : version.truthy = true ∧ lastPart (idParts id) = "v" ++ version.text
  · rw [if_pos (by simpa using hv)]
    cases hlast : (idParts id).dropLast.getLast? with
    | some name => exact .inl ⟨version, name, rfl, hv.1, hv.2, rfl⟩
    | none =>
      refine .inr (.inl ⟨version, rfl, hv.1, ?_, rfl⟩)
      have hsplit := List.dropLast_concat_getLast (idParts_ne_nil id)
      rw [List.getLast?_eq_none_iff.mp hlast] at hsplit
      have hone : lastPart (idParts id) = (idParts id).getLast (idParts_ne_nil id) := by
        rw [lastPart, List.getLast?_eq_some_getLast (idParts_ne_nil id)]
        rfl
      rw [← hv.2, hone]
      exact hsplit.symm
  · rw [if_neg (by simpa using hv)]
    refine .inr (.inr ⟨?_, rfl⟩)
    rintro ⟨id', version', hid, hversion', htruthy, hlast⟩
    cases hid
    obtain rfl := Except.ok.inj (hversion.symm.trans hversion')
    exact hv ⟨htruthy, hlast⟩

section

variable {fields : Entries} {id : String}

theorem exists_filename (h : ¬ Nameless (.str id, .map fields)) :
    ∃ filename, modelFilename (idParts id) (.map fields) = .ok filename := by
  rcases modelFilename_cases fields id with ⟨version, name, -, -, -, hname⟩
      | ⟨version, hversion, htruthy, hparts, -⟩ |
    ⟨-, hname⟩
  · exact ⟨_, hname⟩
  · exact absurd (.inr ⟨id, version, rfl, hversion, htruthy, hparts⟩) h
  · exact ⟨_, hname⟩

theorem filename_error (h : Nameless (.str id, .map fields)) :
    modelFilename (idParts id) (.map fields) = .error .outOfRange := by
  rcases h with h | ⟨id', version, hid, hversion, htruthy, hparts⟩
  · exact absurd rfl (h id)
  · cases hid
    have hversion : (Value.map fields).field "version" = .ok version := hversion
    rw [modelFilename, hversion, hparts, ok_bind, if_pos (by simp [lastPart, htruthy])]
    rfl

/-- **The stem of a model node is the last part of its id just if the id does not end in the
version.** -/
theorem lastPart_eq_iff {stem : String} (h : modelFilename (idParts id) (.map fields) = .ok stem) :
    lastPart (idParts id) = stem ↔ ¬ Versioned (.str id, .map fields) := by
  rcases modelFilename_cases fields id with ⟨version, name, hversion, htruthy, hlast, hname⟩
      | ⟨-, -, -, -, hname⟩ |
    ⟨hplain, hname⟩
  · obtain rfl := Except.ok.inj (h.symm.trans hname)
    constructor
    · intro heq
      -- the stem is longer, by the name and the stroke before the version
      have hlength := congrArg String.length (hlast.symm.trans heq)
      simp only [String.length_append] at hlength
      have hv : ("v" : String).length = 1 := rfl
      have huv : ("_v" : String).length = 2 := rfl
      omega
    · intro hplain
      exact absurd ⟨id, version, rfl, hversion, htruthy, hlast⟩ hplain
  · rw [hname] at h
    cases h
  · obtain rfl := Except.ok.inj (h.symm.trans hname)
    exact ⟨fun _ => hplain, fun _ => rfl⟩

end

/-! ### Models of a manifest -/

theorem mapping_of_modelFilename {parts : List String} {node : Value} {filename : String}
    (h : modelFilename parts node = .ok filename) : ∃ fields, node = .map fields := by
  obtain ⟨version, hversion, -⟩ := bind_eq_ok_iff.mp h
  cases node with
  | map fields => exact ⟨fields, rfl⟩
  | _ => cases hversion

def modelUnder? (entry : Scalar × Value) : Except Fault (Option Model) := do
  let id ← idText entry.1
  let filename ← modelFilename (idParts id) entry.2
  if firstPart (idParts id) == "model" then return some ⟨id, ← entry.2.field "name", filename,
    entry.2⟩
  return none

def modelInScope? (withDisabled : Bool) (entry : Scalar × Value) : Except Fault (Option Model) := do
  if ← isMaterialized entry.2 "ephemeral" then return none
  if !withDisabled then
    if !(← isEnabled entry.2) then return none
  modelUnder? entry

theorem model?_eq (names : List String) (withDisabled : Bool) (entry : Scalar × Value) :
    model? names ⟨false, withDisabled⟩ entry =
      (modelInScope? withDisabled entry).map
        (Option.filter fun m => names.contains m.filename) := by
  have hunder : (do
      let id ← idText entry.1
      let filename ← modelFilename (idParts id) entry.2
      if names.contains filename && firstPart (idParts id) == "model" then
        return some ⟨id, ← entry.2.field "name", filename, entry.2⟩
      return none) =
      (modelUnder? entry).map (Option.filter fun m => names.contains m.filename) := by
    rw [modelUnder?]
    cases idText entry.1 with
    | error fault => rfl
    | ok id =>
      rw [ok_bind, ok_bind]
      cases hfilename : modelFilename (idParts id) entry.2 with
      | error fault => rfl
      | ok filename =>
        obtain ⟨fields, hfields⟩ := mapping_of_modelFilename hfilename
        obtain ⟨name, hname⟩ := field_map fields "name"
        rw [ok_bind, ok_bind, hfields, hname]
        cases firstPart (idParts id) == "model" with
        | false => rw [Bool.and_false]; rfl
        | true =>
          rw [Bool.and_true]
          change _ = Except.ok (Option.filter _ (some _))
          rw [Option.filter_some]
          split <;> rfl
  rw [model?, modelInScope?]
  cases isMaterialized entry.2 "ephemeral" with
  | error fault => rfl
  | ok ephemeral =>
    cases ephemeral with
    | true => rfl
    | false =>
      cases withDisabled with
      | true => exact hunder
      | false =>
        cases isEnabled entry.2 with
        | error fault => rfl
        | ok enabled =>
          cases enabled with
          | true => exact hunder
          | false => rfl

theorem modelInScope?_of_leftOut {withDisabled : Bool} {entry : Scalar × Value}
    (hb : isMaterialized entry.2 "ephemeral" = .ok b) (h : LeftOut withDisabled entry.2) :
    modelInScope? withDisabled entry = .ok none := by
  rw [modelInScope?]
  rcases h with hephemeral | ⟨rfl, hdisabled⟩
  · rw [hephemeral]
    rfl
  · rw [hb, hdisabled]
    cases b <;> rfl

theorem modelInScope?_of_not_leftOut {withDisabled : Bool} {entry : Scalar × Value}
    (hb : isMaterialized entry.2 "ephemeral" = .ok b) (h : ¬ LeftOut withDisabled entry.2) :
    modelInScope? withDisabled entry = modelUnder? entry := by
  obtain ⟨on, hon⟩ := enabled_of_materialized hb
  rw [modelInScope?, hb, hon]
  cases b with
  | true => exact absurd (.inl hb) h
  | false =>
    cases withDisabled with
    | true => rfl
    | false =>
      cases on with
      | true => rfl
      | false => exact absurd (.inr ⟨rfl, hon⟩) h

/-- **The model of a mapping**: there is no telling if it has no name, and else there is one if the
id is of a model. -/
theorem modelUnder?_cases (key : Scalar) (fields : Entries) :
    (Nameless (key, .map fields) ∧ ∃ fault, modelUnder? (key, .map fields) = .error fault) ∨
    (¬ Nameless (key, .map fields) ∧ ∃ id name filename, key = .str id ∧
      modelFilename (idParts id) (.map fields) = .ok filename ∧ modelUnder? (key, .map fields) =
        .ok (if firstPart (idParts id) = "model" then some ⟨id, name, filename, .map fields⟩
          else none)) := by
  cases key with
  | str id =>
    have hunder : modelUnder? (.str id, .map fields) = do
        let filename ← modelFilename (idParts id) (.map fields)
        if firstPart (idParts id) == "model" then
          return some ⟨id, ← (Value.map fields).field "name", filename, .map fields⟩
        return none := rfl
    by_cases hname : Nameless (.str id, .map fields)
    · refine .inl ⟨hname, .outOfRange, ?_⟩
      rw [hunder, filename_error hname, error_bind]
    · obtain ⟨filename, hfilename⟩ := exists_filename hname
      obtain ⟨name, hfield⟩ := field_map fields "name"
      refine .inr ⟨hname, id, name, filename, rfl, hfilename, ?_⟩
      rw [hunder, hfilename, ok_bind, hfield]
      by_cases hkind : firstPart (idParts id) = "model"
      · rw [if_pos hkind, if_pos (by simpa using hkind)]
        rfl
      · rw [if_neg hkind, if_neg (by simpa using hkind)]
        rfl
  | _ => exact .inl ⟨.inl (fun id h => nomatch h), _, rfl⟩

/-- **What becomes of a node**: it is left out, it has no name, or it is a model if its stem is
asked for. -/
theorem model?_cases (names : List String) (withDisabled : Bool) {entry : Scalar × Value}
    (hb : isMaterialized entry.2 "ephemeral" = .ok b) :
    (LeftOut withDisabled entry.2 ∧ model? names ⟨false, withDisabled⟩ entry = .ok none) ∨
    (¬ LeftOut withDisabled entry.2 ∧ Nameless entry ∧
      ∃ fault, model? names ⟨false, withDisabled⟩ entry = .error fault) ∨
    (¬ LeftOut withDisabled entry.2 ∧ ¬ Nameless entry ∧ ∃ id name filename, entry.1 = .str id ∧
      modelFilename (idParts id) entry.2 = .ok filename ∧
      model? names ⟨false, withDisabled⟩ entry =
        .ok (if filename ∈ names ∧ firstPart (idParts id) = "model" then
          some ⟨id, name, filename, entry.2⟩ else none)) := by
  rw [model?_eq]
  by_cases hout : LeftOut withDisabled entry.2
  · rw [modelInScope?_of_leftOut hb hout]
    exact .inl ⟨hout, rfl⟩
  · rw [modelInScope?_of_not_leftOut hb hout]
    obtain ⟨fields, -, hfields, -⟩ := mapping_of_materialized hb
    obtain ⟨key, node⟩ := entry
    obtain rfl : node = .map fields := hfields
    rcases modelUnder?_cases key fields with ⟨hname, fault, herror⟩
        | ⟨hname, id, name, filename, hid, hfilename, hok⟩
    · rw [herror]
      exact .inr (.inl ⟨hout, hname, fault, rfl⟩)
    · refine .inr (.inr ⟨hout, hname, id, name, filename, hid, hfilename, ?_⟩)
      rw [hok, ok_map, Except.ok.injEq]
      by_cases hkind : firstPart (idParts id) = "model"
      · simp [hkind, Option.filter_some]
      · simp [hkind]

section

variable {names : List String} {withDisabled : Bool} {entry : Scalar × Value} {b : Bool}
  (hb : isMaterialized entry.2 "ephemeral" = .ok b)

include hb

theorem model?_ok_iff :
    (∃ y, model? names ⟨false, withDisabled⟩ entry = .ok y) ↔
      (Nameless entry → LeftOut withDisabled entry.2) := by
  rcases model?_cases names withDisabled hb with ⟨hout, heq⟩ | ⟨hout, hname, fault, heq⟩ |
    ⟨hout, hname, id, name, filename, -, -, heq⟩
  · exact ⟨fun _ _ => hout, fun _ => ⟨none, heq⟩⟩
  · constructor
    · rintro ⟨y, hy⟩
      rw [heq] at hy
      cases hy
    · exact fun h => absurd (h hname) hout
  · exact ⟨fun _ hno => absurd hno hname, fun _ => ⟨_, heq⟩⟩

theorem modelNode_of_model? {m : Model}
    (h : model? names ⟨false, withDisabled⟩ entry = .ok (some m)) :
    m.filename ∈ names ∧ ModelNode m.filename entry ∧ ¬ LeftOut withDisabled entry.2 ∧
    m.node = entry.2 := by
  rcases model?_cases names withDisabled hb with ⟨-, heq⟩ | ⟨-, -, fault, heq⟩ |
    ⟨hout, -, id, name, filename, hid, hfilename, heq⟩
  · rw [heq] at h
    cases h
  · rw [heq] at h
    cases h
  · rw [heq] at h
    by_cases hin : filename ∈ names ∧ firstPart (idParts id) = "model"
    · rw [if_pos hin] at h
      cases h
      exact ⟨hin.1, ⟨id, hid, hin.2, hfilename⟩, hout, rfl⟩
    · rw [if_neg hin] at h
      cases h

theorem model?_of_modelNode {stem : String} (hstem : stem ∈ names) (hnode : ModelNode stem entry)
    (hout : ¬ LeftOut withDisabled entry.2) :
    ∃ m, model? names ⟨false, withDisabled⟩ entry = .ok (some m) ∧ m.filename = stem ∧
      m.node = entry.2 := by
  obtain ⟨id, hid, hkind, hfilename⟩ := hnode
  rcases model?_cases names withDisabled hb with ⟨hout', -⟩ | ⟨-, hname, -⟩ |
    ⟨-, -, id', name, filename, hid', hfilename', heq⟩
  · exact absurd hout' hout
  · obtain ⟨fields, -, hfields, -⟩ := mapping_of_materialized hb
    obtain ⟨key, node⟩ := entry
    obtain rfl : node = .map fields := hfields
    obtain rfl : key = .str id := hid
    have herror : modelFilename (idParts id) (Value.map fields) = .error .outOfRange :=
      filename_error hname
    rw [herror] at hfilename
    cases hfilename
  · rw [hid] at hid'
    cases hid'
    obtain rfl := Except.ok.inj (hfilename.symm.trans hfilename')
    rw [if_pos ⟨hstem, hkind⟩] at heq
    exact ⟨_, heq, rfl, rfl⟩

end

section

variable {manifest : Value} {nodes : Entries} {names : List String} {withDisabled : Bool}
  (hnodes : sectionNodes manifest "nodes" = .ok nodes)

include hnodes

theorem models_eq (scope : Scope) : models manifest names scope =
    .filterMapE (model? names scope) nodes := by
  rw [models, hnodes]
  rfl

variable (hbuilt : ∀ e ∈ nodes, ∃ b, isMaterialized e.2 "ephemeral" = .ok b)

include hbuilt

/-- **The models with a stem**: they come from the nodes with the stem that are not left out, up to
the first node that is not left out and has no name. -/
theorem exists_mem_models_iff {stem : String} {P : Value → Prop} :
    (∃ m ∈ (models manifest names ⟨false, withDisabled⟩).items, m.filename = stem ∧ P m.node) ↔
      stem ∈ names ∧ ∃ before e after, nodes = before ++ e :: after ∧ ModelNode stem e ∧
        ¬ LeftOut withDisabled e.2 ∧ P e.2 ∧ ∀ x ∈ before, Nameless x →
          LeftOut withDisabled x.2 := by
  rw [models_eq hnodes]
  constructor
  · rintro ⟨m, hm, rfl, hP⟩
    obtain ⟨before, e, after, rfl, heq, hbefore⟩ := Feed.mem_items_filterMapE.mp hm
    obtain ⟨b, hb⟩ := hbuilt e (by simp)
    obtain ⟨hin, hnode, hout, hbody⟩ := modelNode_of_model? hb heq
    refine ⟨hin, before, e, after, rfl, hnode, hout, hbody ▸ hP, fun x hx => ?_⟩
    obtain ⟨b', hb'⟩ := hbuilt x (by simp [hx])
    exact (model?_ok_iff hb').mp (hbefore x hx)
  · rintro ⟨hin, before, e, after, rfl, hnode, hout, hP, hbefore⟩
    obtain ⟨b, hb⟩ := hbuilt e (by simp)
    obtain ⟨m, heq, hstem, hbody⟩ := model?_of_modelNode hb hin hnode hout
    refine ⟨m, Feed.mem_items_filterMapE.mpr ⟨before, e, after, rfl, heq, fun x hx => ?_⟩, hstem,
      hbody ▸ hP⟩
    obtain ⟨b', hb'⟩ := hbuilt x (by simp [hx])
    exact (model?_ok_iff hb').mpr (hbefore x hx)

theorem exists_mem_models_iff_of_ok {ms : List Model} {stem : String} {P : Value → Prop}
    (hms : (models manifest names ⟨false, withDisabled⟩).toExcept = .ok ms) :
    (∃ m ∈ ms, m.filename = stem ∧ P m.node) ↔
      stem ∈ names ∧ ∃ e ∈ nodes, ModelNode stem e ∧ ¬ LeftOut withDisabled e.2 ∧ P e.2 := by
  have hitems : (models manifest names ⟨false, withDisabled⟩).items = ms := by
    rw [Feed.toExcept] at hms
    split at hms
    · cases hms
    · exact Except.ok.inj hms
  have hall : ∀ x ∈ nodes, Nameless x → LeftOut withDisabled x.2 := by
    intro x hx
    rw [models_eq hnodes, Feed.toExcept_filterMapE, map_eq_ok_iff] at hms
    obtain ⟨found, hfound, -⟩ := hms
    obtain ⟨y, -, hy⟩ := ok_of_mapM hfound x hx
    obtain ⟨b, hb⟩ := hbuilt x hx
    exact (model?_ok_iff hb).mp ⟨y, hy⟩
  rw [← hitems, exists_mem_models_iff hnodes hbuilt]
  constructor
  · rintro ⟨hin, before, e, after, rfl, hnode, hout, hP, -⟩
    exact ⟨hin, e, by simp, hnode, hout, hP⟩
  · rintro ⟨hin, e, he, hnode, hout, hP⟩
    obtain ⟨before, after, heq⟩ := List.append_of_mem he
    exact ⟨hin, before, e, after, heq, hnode, hout, hP, fun x hx => hall x (by rw [heq]; simp [hx])⟩

end

/-! ### Scripts that are kept -/

/-- The names of the nodes of a kind that are built in a way: all nodes are looked at, and all such
names are listed. -/
theorem mem_namesBuilt {kind how : String} : ∀ {nodes : Entries} {names : List String},
    namesBuilt kind how nodes = .ok names → ∀ e ∈ nodes, ∃ b, isMaterialized e.2 how = .ok b ∧
      (b = true → ∀ id, e.1 = .str id → firstPart (idParts id) = kind →
        lastPart (idParts id) ∈ names) := by
  intro nodes
  induction nodes with
  | nil => intro names _ e he; cases he
  | cons entry nodes ih =>
    obtain ⟨id, node⟩ := entry
    intro names h e he
    rw [namesBuilt] at h
    obtain ⟨b, hb, h⟩ := bind_eq_ok_iff.mp h
    obtain ⟨name, rest, hname, hrest, rfl⟩ :
        ∃ name rest, (b = true → nameOfKind? kind id = .ok name) ∧
        namesBuilt kind how nodes = .ok rest ∧ name.toList ++ rest = names := by
      cases b with
      | true =>
        obtain ⟨name, hname, h⟩ := bind_eq_ok_iff.mp h
        obtain ⟨rest, hrest, h⟩ := bind_eq_ok_iff.mp h
        exact ⟨name, rest, fun _ => hname, hrest, Except.ok.inj h⟩
      | false =>
        obtain ⟨name, -, h⟩ := bind_eq_ok_iff.mp h
        obtain ⟨rest, hrest, h⟩ := bind_eq_ok_iff.mp h
        exact ⟨name, rest, fun hfalse => (nomatch hfalse), hrest, Except.ok.inj h⟩
    rcases List.mem_cons.mp he with rfl | he
    · refine ⟨b, hb, fun htrue id' hid hkind => ?_⟩
      obtain rfl : id = .str id' := hid
      have hlast : nameOfKind? kind (.str id') = .ok (some (lastPart (idParts id'))) := by
        rw [nameOfKind?, idText, ok_bind]
        simp only [hkind, beq_self_eq_true, if_true]
        rfl
      obtain rfl := Except.ok.inj ((hname htrue).symm.trans hlast)
      exact List.mem_append_left _ (by simp)
    · obtain ⟨b', hb', hlisted⟩ := ih hrest e he
      exact ⟨b', hb', fun htrue id' hid hkind =>
        List.mem_append_right _ (hlisted htrue id' hid hkind)⟩

/-- The node is left out, but its stem may be kept: it is ephemeral and versioned, or disabled here
and not in the list of disabled nodes. -/
def Overlooked (withDisabled : Bool) (entry : Scalar × Value) : Prop :=
  Ephemeral entry.2 ∧ Versioned entry ∨ withDisabled = false ∧ Disabled entry.2

section

variable {manifest : Value} {withDisabled : Bool} {paths : List String} {kept : FileMap}
    {nodes : Entries}
  (hkept : modelFiles manifest withDisabled paths = .ok kept)
    (hnodes : sectionNodes manifest "nodes" = .ok nodes)

include hkept hnodes

theorem ephemeral_of_modelFiles :
    ∃ ephemeral, namesBuilt "model" "ephemeral" nodes = .ok ephemeral ∧
    ∀ stem ∈ kept.stems, stem ∉ ephemeral := by
  rw [modelFiles, ephemeralNames, hnodes, ok_bind] at hkept
  obtain ⟨ephemeral, hephemeral, hkept⟩ := bind_eq_ok_iff.mp hkept
  obtain ⟨ofMacros, -, hkept⟩ := bind_eq_ok_iff.mp hkept
  obtain ⟨disabled, -, hkept⟩ := bind_eq_ok_iff.mp hkept
  cases hkept
  refine ⟨ephemeral, hephemeral, fun stem hstem => ?_⟩
  obtain ⟨f, hf, rfl⟩ := List.mem_map.mp hstem
  have hpass := (List.mem_filter.mp hf).2
  simp only [Bool.and_eq_true, Bool.not_eq_true'] at hpass
  simpa using hpass.1.2

theorem materialized_of_modelFiles : ∀ e ∈ nodes, ∃ b, isMaterialized e.2 "ephemeral" = .ok b := by
  obtain ⟨ephemeral, hephemeral, -⟩ := ephemeral_of_modelFiles hkept hnodes
  intro e he
  obtain ⟨b, hb, -⟩ := mem_namesBuilt hephemeral e he
  exact ⟨b, hb⟩

/-- **Where the stem is kept, only the overlooked nodes are left out.** -/
theorem leftOut_iff_overlooked {stem : String} (hstem : stem ∈ kept.stems) {e : Scalar × Value}
    (he : e ∈ nodes)
    (hnode : ModelNode stem e) : LeftOut withDisabled e.2 ↔ Overlooked withDisabled e := by
  obtain ⟨ephemeral, hephemeral, hnot⟩ := ephemeral_of_modelFiles hkept hnodes
  obtain ⟨b, hb, hlisted⟩ := mem_namesBuilt hephemeral e he
  obtain ⟨id, hid, hkind, hfilename⟩ := hnode
  obtain ⟨fields, -, hfields, -⟩ := mapping_of_materialized hb
  obtain ⟨key, node⟩ := e
  obtain rfl : node = .map fields := hfields
  obtain rfl : key = .str id := hid
  have hversioned : Ephemeral (.map fields) → Versioned (.str id, .map fields) := by
    intro heph
    have htrue : b = true := Except.ok.inj (hb.symm.trans heph)
    by_contra hplain
    have hlast := (lastPart_eq_iff hfilename).mpr hplain
    exact hnot stem hstem (hlast ▸ hlisted htrue id rfl hkind)
  constructor
  · rintro (heph | hdisabled)
    · exact .inl ⟨heph, hversioned heph⟩
    · exact .inr hdisabled
  · rintro (⟨heph, -⟩ | hdisabled)
    · exact .inl heph
    · exact .inr hdisabled

end

/-! ### What checks report -/

/-- Some node of the manifest is that of a model from the file with the stem. -/
def HasNode (nodes : Entries) (stem : String) : Prop := ∃ e ∈ nodes, ModelNode stem e

/-- A node in scope is that of a model from the file with the stem, and passes a test. -/
def HasModel (withDisabled : Bool) (nodes : Entries) (stem : String) (test : Value → Prop) : Prop :=
  ∃ e ∈ nodes, ModelNode stem e ∧ ¬ LeftOut withDisabled e.2 ∧ test e.2

/-- **When reports are sound.**  Let a check report the scripts that are kept, not spared, and have
no model that passes a test.  It reports no script all of whose nodes are left out, just if every
script that is kept and not spared and has a node has one that is not overlooked. -/
theorem sound_iff {withDisabled : Bool} {paths : List String}
    (hkept : modelFiles manifest withDisabled paths = .ok kept)
    (hnodes : sectionNodes manifest "nodes" = .ok nodes)
    {reported spared : String → Prop} {test : Value → Prop}
    (hreported : ∀ stem, reported stem ↔ stem ∈ kept.stems ∧ ¬ spared stem ∧
      ¬ HasModel withDisabled nodes stem test) :
    (∀ stem, reported stem → HasNode nodes stem → HasModel withDisabled nodes stem fun _ => True) ↔
      ∀ stem ∈ kept.stems, ¬ spared stem → HasNode nodes stem →
        ∃ e ∈ nodes, ModelNode stem e ∧ ¬ Overlooked withDisabled e := by
  constructor
  · intro hsound stem hstem hno hhas
    by_contra hnone
    -- every node of the stem is left out, so none passes the test and the stem is reported
    have hall : ∀ e ∈ nodes, ModelNode stem e → LeftOut withDisabled e.2 := by
      intro e he hnode
      by_contra hout
      exact hnone ⟨e, he, hnode, fun h =>
        hout ((leftOut_iff_overlooked hkept hnodes hstem he hnode).mpr h)⟩
    have hmem : reported stem := by
      refine (hreported stem).mpr ⟨hstem, hno, ?_⟩
      rintro ⟨e, he, hnode, hout, -⟩
      exact hout (hall e he hnode)
    obtain ⟨e, he, hnode, hout, -⟩ := hsound stem hmem hhas
    exact hout (hall e he hnode)
  · intro hgood stem hmem hhas
    obtain ⟨hstem, hno, -⟩ := (hreported stem).mp hmem
    obtain ⟨e, he, hnode, hover⟩ := hgood stem hstem hno hhas
    exact ⟨e, he, hnode, fun h => hover ((leftOut_iff_overlooked hkept hnodes hstem he hnode).mp h),
      trivial⟩

theorem mem_stems_filter {files : FileMap} {p : String → Bool} {stem : String} :
    stem ∈ FileMap.stems (files.filter fun f => p f.1) ↔ stem ∈ files.stems ∧ p stem = true := by
  simp only [FileMap.stems, List.mem_map, List.mem_filter]
  constructor
  · rintro ⟨f, ⟨hf, hp⟩, rfl⟩
    exact ⟨⟨f, hf, rfl⟩, hp⟩
  · rintro ⟨⟨f, hf, rfl⟩, hp⟩
    exact ⟨f, ⟨hf, hp⟩, rfl⟩

/-- **The scripts that are reported to have no properties**: those that are kept, are no snapshots,
and have no model that is described in a property file. -/
theorem mem_withoutProperties_iff {r : Request} {missing : FileMap} {snapshots : List String}
    (hkept : r.givenModelFiles manifest = .ok kept)
    (hnodes : sectionNodes manifest "nodes" = .ok nodes)
    (hsnapshots : snapshotNames manifest = .ok snapshots)
    (hmissing : Contracts.withoutProperties manifest r = .ok missing) (stem : String) :
    stem ∈ missing.stems ↔ stem ∈ kept.stems ∧ ¬ stem ∈ snapshots ∧
      ¬ HasModel r.withDisabled nodes stem fun node =>
      ∃ patch, node.field "patch_path" = .ok patch ∧ patch.truthy = true := by
  rw [Contracts.withoutProperties, hkept, ok_bind, hsnapshots, ok_bind] at hmissing
  obtain ⟨described, hdescribed, hmissing⟩ := bind_eq_ok_iff.mp hmissing
  cases hmissing
  obtain ⟨ms, hms, hmem⟩ := Feed.mem_of_toExcept_bind
    (g := fun (m : Model) (patch : Value) => if patch.truthy then [m.filename] else []) hdescribed
  have hbuilt := materialized_of_modelFiles hkept hnodes
  have hdesc : stem ∈ described ↔
      stem ∈ FileMap.stems (kept.filter fun f => !snapshots.contains f.1) ∧
      HasModel r.withDisabled nodes stem fun node =>
        ∃ patch, node.field "patch_path" = .ok patch ∧ patch.truthy = true := by
    rw [hmem, HasModel, ← exists_mem_models_iff_of_ok hnodes hbuilt hms
      (P := fun node => ∃ patch, node.field "patch_path" = .ok patch ∧ patch.truthy = true)]
    constructor
    · rintro ⟨m, hm, patch, hpatch, hin⟩
      split at hin
      · rename_i htruthy
        exact ⟨m, hm, (List.mem_singleton.mp hin).symm, patch, hpatch, htruthy⟩
      · cases hin
    · rintro ⟨m, hm, rfl, patch, hpatch, htruthy⟩
      exact ⟨m, hm, patch, hpatch, by rw [if_pos htruthy]; exact List.mem_singleton.mpr rfl⟩
  rw [mem_stems_filter (p := fun s => !described.contains s),
    mem_stems_filter (p := fun s => !snapshots.contains s)]
  rw [mem_stems_filter (p := fun s => !snapshots.contains s)] at hdesc
  simp only [Bool.not_eq_true', List.contains_eq_mem, decide_eq_false_iff_not] at hdesc ⊢
  rw [hdesc]
  constructor
  · rintro ⟨⟨hstem, hno⟩, hnone⟩
    exact ⟨hstem, hno, fun h => hnone ⟨⟨hstem, hno⟩, h⟩⟩
  · rintro ⟨hstem, hno, hnone⟩
    exact ⟨⟨hstem, hno⟩, fun h => hnone h.2⟩

/-- The stem is among some names. -/
def Among (names : List Scalar) (stem : String) : Prop := names.any (·.same (.str stem)) = true

/-- **The names of described models** are the stems of nodes in scope that are described. -/
theorem among_describedNames_iff {r : Request} {paths : List String}
    (hkept : modelFiles manifest r.withDisabled paths = .ok kept)
    (hnodes : sectionNodes manifest "nodes" = .ok nodes)
    {described : List Scalar} (hdescribed : Descriptions.describedNames Model.node
      (fun m => .str m.filename) (r.modelsIn manifest kept) = .ok described) (stem : String) :
    Among described stem ↔ stem ∈ kept.stems ∧
      HasModel r.withDisabled nodes stem fun node => Descriptions.isDescribed node = .ok true := by
  obtain ⟨ms, hms, hmem⟩ := Feed.mem_of_toExcept_bind
    (g := fun (m : Model) (told : Bool) => if told then [Scalar.str m.filename] else []) hdescribed
  have hbuilt := materialized_of_modelFiles hkept hnodes
  rw [HasModel, ← exists_mem_models_iff_of_ok hnodes hbuilt hms
    (P := fun node => Descriptions.isDescribed node = .ok true), Among, List.any_eq_true]
  constructor
  · rintro ⟨name, hname, hsame⟩
    obtain ⟨m, hm, told, htold, hin⟩ := (hmem name).mp hname
    cases told with
    | false => cases hin
    | true =>
      obtain rfl := List.mem_singleton.mp hin
      exact ⟨m, hm, by simpa [Scalar.same] using hsame, htold⟩
  · rintro ⟨m, hm, rfl, htold⟩
    exact ⟨.str m.filename, (hmem _).mpr ⟨m, hm, true, htold, List.mem_singleton.mpr rfl⟩,
      by simp [Scalar.same]⟩

theorem among_append (names names' : List Scalar) (stem : String) :
    Among (names ++ names') stem ↔ Among names stem ∨ Among names' stem := by
  simp only [Among, List.any_append, Bool.or_eq_true]

/-- **When a script that is kept has a model.**  A stem that is kept and has a node of a model in
the manifest also has a model in scope just if one of its nodes is not overlooked, and no node in
scope without a name comes before it.  And no script all of whose nodes are left out is reported to
have no properties, or no description, just if every script that may be reported and has a node has
one that is not overlooked. -/
theorem kept_stem_has_model_iff {manifest : Value} {r : Request} {kept : FileMap} {nodes : Entries}
    (hkept : r.givenModelFiles manifest = .ok kept)
    (hnodes : sectionNodes manifest "nodes" = .ok nodes) :
    (∀ stem ∈ kept.stems,
      ((HasNode nodes stem → ∃ m ∈ (models manifest [stem] r.scope).items, m.filename = stem) ↔
        (HasNode nodes stem → ∃ before e after, nodes = before ++ e :: after ∧ ModelNode stem e ∧
          ¬ Overlooked r.withDisabled e ∧ ∀ x ∈ before, Nameless x → LeftOut r.withDisabled x.2))) ∧
    (∀ snapshots missing, snapshotNames manifest = .ok snapshots →
      Contracts.withoutProperties manifest r = .ok missing →
        ((∀ stem, stem ∈ missing.stems → HasNode nodes stem →
            HasModel r.withDisabled nodes stem fun _ => True) ↔
          ∀ stem ∈ kept.stems, ¬ stem ∈ snapshots → HasNode nodes stem →
            ∃ e ∈ nodes, ModelNode stem e ∧ ¬ Overlooked r.withDisabled e)) ∧
    ∀ t paths files inModels inEntries,
      relatedFiles t manifest false propertySuffixes r.exclude r.paths = .ok paths →
      modelFiles manifest r.withDisabled paths = .ok files →
      Descriptions.describedNames Model.node (fun m => .str m.filename)
        (r.modelsIn manifest files) = .ok inModels →
      Descriptions.describedNames PropertyEntry.body PropertyEntry.name
        (modelEntries t (propertyFiles paths).files (.named files.stems)) = .ok inEntries →
        (Descriptions.checkModels t manifest r).toExcept =
          .ok (Descriptions.undescribedLines files (inModels ++ inEntries)) ∧
        ((∀ stem, stem ∈ files.stems ∧ ¬ Among (inModels ++ inEntries) stem → HasNode nodes stem →
            HasModel r.withDisabled nodes stem fun _ => True) ↔
          ∀ stem ∈ files.stems, ¬ Among inEntries stem → HasNode nodes stem →
            ∃ e ∈ nodes, ModelNode stem e ∧ ¬ Overlooked r.withDisabled e) := by
  refine ⟨fun stem hstem => imp_congr_right fun _ => ?_, ?_, ?_⟩
  · have hbuilt := materialized_of_modelFiles hkept hnodes
    have hmodels : (∃ m ∈ (models manifest [stem] ⟨false, r.withDisabled⟩).items,
        m.filename = stem ∧ True) ↔ _ :=
      exists_mem_models_iff hnodes hbuilt (P := fun _ => True)
    simp only [and_true, true_and, List.mem_singleton] at hmodels
    refine hmodels.trans ?_
    constructor
    · rintro ⟨before, e, after, heq, hnode, hout, hbefore⟩
      have he : e ∈ nodes := by rw [heq]; simp
      exact ⟨before, e, after, heq, hnode, fun h =>
        hout ((leftOut_iff_overlooked hkept hnodes hstem he hnode).mpr h),
        hbefore⟩
    · rintro ⟨before, e, after, heq, hnode, hover, hbefore⟩
      have he : e ∈ nodes := by rw [heq]; simp
      exact ⟨before, e, after, heq, hnode, fun h =>
        hover ((leftOut_iff_overlooked hkept hnodes hstem he hnode).mp h),
        hbefore⟩
  · intro snapshots missing hsnapshots hmissing
    exact sound_iff hkept hnodes (mem_withoutProperties_iff hkept hnodes hsnapshots hmissing)
  · intro t paths files inModels inEntries hpaths hfiles hmodels hentries
    constructor
    · rw [Descriptions.checkModels, hpaths, ok_bind, hfiles, ok_bind, hmodels, ok_bind, hentries]
      rfl
    · have hreported : ∀ stem, stem ∈ files.stems ∧ ¬ Among (inModels ++ inEntries) stem ↔
          stem ∈ files.stems ∧ ¬ Among inEntries stem ∧
            ¬ HasModel r.withDisabled nodes stem fun node =>
              Descriptions.isDescribed node = .ok true := by
        intro stem
        rw [among_append, among_describedNames_iff hfiles hnodes hmodels]
        constructor
        · rintro ⟨hstem, hno⟩
          exact ⟨hstem, fun h => hno (.inr h), fun h => hno (.inl ⟨hstem, h⟩)⟩
        · rintro ⟨hstem, hno, hnone⟩
          exact ⟨hstem, fun h => h.elim (fun h => hnone h.2) hno⟩
      exact sound_iff hfiles hnodes hreported

/-! ### Three nodes -/

def describedNode (name : String) (settings : List (String × Value))
    (version : List (String × Value)) : Value :=
  .record ([("name", .str name), ("patch_path", .str "p://models.yml"),
    ("config", .record settings)] ++ version)

def fooEntry : Scalar × Value :=
  (.str "model.p.foo.v2", describedNode "foo" [("materialized", .str "ephemeral")]
    [("version", .int 2)])

def barEntry : Scalar × Value :=
  (.str "model.p.bar", describedNode "bar" [("enabled", .bool false)] [])

def bazEntry : Scalar × Value :=
  (.str "model.p.baz.v1", describedNode "baz" [("materialized", .str "table")]
    [("version", .int 1)])

def threeNodes : Value := .map [(.str "nodes", .map [fooEntry, barEntry, bazEntry])]

def threeScripts : Request := { paths := ["foo_v2.sql", "bar.sql", "baz_v1.sql"] }

def keptScripts : FileMap :=
  [("foo_v2", ⟨.relative, ["foo_v2.sql"]⟩), ("bar", ⟨.relative, ["bar.sql"]⟩),
    ("baz_v1", ⟨.relative, ["baz_v1.sql"]⟩)]

/-- The script of the model in scope has its model, and is not reported. -/
theorem model_of_baz : threeScripts.givenModelFiles threeNodes = .ok keptScripts ∧
    "baz_v1" ∈ keptScripts.stems ∧
    sectionNodes threeNodes "nodes" = .ok [fooEntry, barEntry, bazEntry] ∧
    HasNode [fooEntry, barEntry, bazEntry] "baz_v1" ∧
    ∃ m ∈ (models threeNodes ["baz_v1"] threeScripts.scope).items, m.filename = "baz_v1" := by
  have hkept : threeScripts.givenModelFiles threeNodes = .ok keptScripts := rfl
  have hnodes : sectionNodes threeNodes "nodes" = .ok [fooEntry, barEntry, bazEntry] := rfl
  have hmem : "baz_v1" ∈ keptScripts.stems := by decide
  have hnode : ModelNode "baz_v1" bazEntry := ⟨"model.p.baz.v1", rfl, rfl, rfl⟩
  have hhas : HasNode [fooEntry, barEntry, bazEntry] "baz_v1" := ⟨bazEntry, by simp, hnode⟩
  have hscope : ¬ Overlooked false bazEntry := by
    have hbuilt : isMaterialized bazEntry.2 "ephemeral" = .ok false := rfl
    have hon : isEnabled bazEntry.2 = .ok true := rfl
    rintro (⟨h, -⟩ | ⟨-, h⟩)
    · rw [Ephemeral, hbuilt] at h
      cases h
    · rw [Disabled, hon] at h
      cases h
  refine ⟨hkept, hmem, hnodes, hhas, ((kept_stem_has_model_iff hkept hnodes).1 "baz_v1" hmem).mpr
    (fun _ => ?_) hhas⟩
  refine ⟨[fooEntry, barEntry], bazEntry, [], rfl, hnode, hscope, fun x hx _ => ?_⟩
  rcases List.mem_pair.mp hx with rfl | rfl
  · exact .inl rfl
  · exact .inr ⟨rfl, rfl⟩

/-- **Two scripts are kept without a model.**  Both have a node in the manifest, but one is
ephemeral under a versioned id and the other is disabled without being listed so; and both are
reported to have no properties. -/
theorem no_model_of_foo_and_bar : threeScripts.givenModelFiles threeNodes = .ok keptScripts ∧
    sectionNodes threeNodes "nodes" = .ok [fooEntry, barEntry, bazEntry] ∧
    (∀ stem ∈ ["foo_v2", "bar"], stem ∈ keptScripts.stems ∧
      HasNode [fooEntry, barEntry, bazEntry] stem ∧
        (models threeNodes [stem] threeScripts.scope).items = []) ∧
    ∃ missing, Contracts.withoutProperties threeNodes threeScripts = .ok missing ∧
      missing.stems = ["foo_v2", "bar"] := by
  refine ⟨rfl, rfl, fun stem hstem => ?_, keptScripts.take 2, rfl, rfl⟩
  rcases List.mem_pair.mp hstem with rfl | rfl
  · exact ⟨by decide, ⟨fooEntry, by simp, "model.p.foo.v2", rfl, rfl, rfl⟩, rfl⟩
  · exact ⟨by decide, ⟨barEntry, by simp, "model.p.bar", rfl, rfl, rfl⟩, rfl⟩

end ProjectLint
