import ProjectLint.Proofs.Lineage
import ProjectLint.Proofs.ModelScope
import ProjectLint.Proofs.Search

/-!
# Which files are related

To the given files those are added that belong to the same nodes: the property file of a script, and
the scripts of a property file.  A node is taken for that of a given file by a look at the texts
alone (`Side.Touches`): the path of a script has to hold that of the node somewhere, and the name of
a property file is looked for in that of the node after the first component of the given path is
dropped, which may leave nothing to look for.  So a node may be taken for that of a file with a
longer name, and the nodes of all property files for those of one at the top.  `added_related_iff`
says that, but for paths that hold wildcards, this is the only way in which a file is added that is
not related.
-/

namespace ProjectLint

/-! ### What nodes say -/

/-- The two kinds of files that belong together. -/
inductive Side where
  | script
  | properties
deriving DecidableEq, Repr

/-- The kind of a file, told by its suffix. -/
def sideOf? (path : String) : Option Side :=
  let suffix := Text.lower (Path.ofString path).suffix
  if suffix == ".sql" then some .script
  else if suffix == ".yml" || suffix == ".yaml" then some .properties
  else none

def textAt? (node : Value) (key : String) : Option String :=
  match node.field key with
  | .ok (.str s) => some s
  | _ => none

def patchOf? (node : Value) : Option String :=
  (textAt? node "patch_path").bind fun patch => (withoutProject patch).toOption

/-- A search that succeeds gives a file. -/
def Gives (search : Except Fault (List String)) (file : String) : Prop :=
  ∃ found, search = .ok found ∧ file ∈ found

namespace Side

def own? : Side → Value → Option String
  | .script, node => textAt? node "path"
  | .properties, node => patchOf? node

def other? : Side → Value → Option String
  | .script, node => patchOf? node
  | .properties, node => textAt? node "original_file_path"

/-- **A file belongs to a node together with a given one**: both end in what the node says about
them. -/
def Belongs (side : Side) (path : String) (node : Value) (file : String) : Prop :=
  ∃ own other, side.own? node = some own ∧ side.other? node = some other ∧ EndsIn path own ∧
    EndsIn file other

/-! ### What nodes add -/

def lookedFor (properties : String) : String :=
  "/".intercalate ((Path.ofString properties).components.drop 1)

def Touches : Side → String → Value → Prop
  | .script, path, node =>
    ∃ own, textAt? node "path" = some own ∧ own ≠ "" ∧ Text.contains path own = true
  | .properties, path, node =>
    (∃ patch, node.field "patch_path" = .ok patch ∧ patch.truthy = true ∧
      (Value.str (lookedFor path)).isIn patch = .ok true) ∧
    ∃ script, textAt? node "original_file_path" = some script ∧
      Text.contains (Text.lower script) ".sql" = true

/-- A node adds a file: it is taken for that of the given one, and the file is found where it looks
for it. -/
def Adds (side : Side) (t : Tree) (path : String) (node : Value) (file : String) : Prop :=
  side.Touches path node ∧ ∃ other, side.other? node = some other ∧ Gives (filesAt t other) file

/-- The given file does not end in the path by which the node knows its own one, or the node looks
for the other file by a pattern. -/
def Overreaches (side : Side) (path : String) (node : Value) : Prop :=
  (¬ ∃ own, side.own? node = some own ∧ EndsIn path own) ∨ ∃ other, side.other? node = some other ∧
    ¬ Literal other

variable {node : Value} {file : String}

/-- **What a node adds belongs to it, unless it overreaches.** -/
theorem Adds.belongs {side : Side} {t : Tree} {path : String} (h : side.Adds t path node file)
    (hreach : ¬ side.Overreaches path node) : side.Belongs path node file := by
  obtain ⟨-, other, hother, found, hfound, hfile⟩ := h
  rw [Overreaches, not_or, not_not] at hreach
  obtain ⟨⟨own, hown, hends⟩, hliteral⟩ := hreach
  have hother' : Literal other := by
    by_contra hnot
    exact hliteral ⟨other, hother, hnot⟩
  exact ⟨own, other, hown, hother, hends, endsIn_of_mem_filesAt hother' hfound hfile⟩

def find : Side → Tree → String → Value → Except Fault (List String)
  | .script => propertyFilesOf
  | .properties => scriptFilesOf

end Side

theorem fieldD_eq_ok_iff {v default x : Value} {key : String} (hne : x ≠ default) :
    v.fieldD key default = .ok x ↔ v.field? key = .ok (some x) := by
  rw [Value.fieldD, map_eq_ok_iff]
  constructor
  · rintro ⟨opt, hopt, hget⟩
    cases opt with
    | none => exact absurd hget.symm hne
    | some y => rw [hopt, ← hget, Option.getD_some]
  · exact fun h => ⟨some x, h, rfl⟩

theorem textAt?_eq_some {key s : String} : textAt? node key = some s ↔
    node.field key = .ok (.str s) := by
  unfold textAt?
  split
  · rename_i s' h
    rw [h]
    simp
  · rename_i h
    simp only [reduceCtorEq, false_iff]
    exact h s

theorem textOnly_eq_ok {v : Value} {s : String} (h : v.textOnly = .ok s) : v = .str s := by
  unfold Value.textOnly at h
  split at h
  · rw [Except.ok.inj h]
  · cases h

theorem patchOf?_eq_some {other : String} : patchOf? node = some other ↔
    ∃ patch, node.field "patch_path" = .ok (.str patch) ∧ (Value.str patch).truthy = true ∧
      withoutProject patch = .ok other := by
  rw [patchOf?, Option.bind_eq_some_iff]
  refine exists_congr fun patch => ?_
  rw [textAt?_eq_some]
  refine and_congr_right fun _ => ?_
  constructor
  · intro h
    refine ⟨?_, eq_ok_of_toOption h⟩
    by_contra hempty
    have hnil : patch = "" := by simpa [Value.truthy] using hempty
    rw [hnil] at h
    cases h
  · rintro ⟨-, h⟩
    rw [h]
    rfl

theorem ne_empty_of_sql {script : String} (h : Text.contains (Text.lower script) ".sql" = true) :
    script ≠ "" :=
  fun hempty => absurd (hempty ▸ h) (by decide +kernel)

theorem truthy_str {s : String} : (Value.str s).truthy = true ↔ s ≠ "" := by
  simp [Value.truthy]

section

variable {file : String}

theorem gives_bind {α : Type} {x : Except Fault α} {f : α → Except Fault (List String)} :
    Gives (x >>= f) file ↔ ∃ a, x = .ok a ∧ Gives (f a) file := by
  cases x with
  | error fault => simp [Gives]
  | ok a => simp

theorem gives_guard {b : Bool} {search : Except Fault (List String)} :
    Gives (if !b then pure [] else search) file ↔ b = true ∧ Gives search file := by
  cases b with
  | true => simp
  | false => simp [Gives, pure, Except.pure]

variable {t : Tree} {path : String} {node : Value}

theorem gives_propertyFilesOf : Gives (propertyFilesOf t path node) file ↔
    Side.script.Adds t path node file := by
  simp only [propertyFilesOf, gives_bind, gives_guard]
  constructor
  · rintro ⟨own, hown, hfull, text, htext, hheld, patch, hpatch, hpatched, s, hs, other, hother,
      hfile⟩
    rw [textOnly_eq_ok htext] at hown hfull
    rw [textOnly_eq_ok hs] at hpatch hpatched
    exact ⟨⟨text, textAt?_eq_some.mpr hown, truthy_str.mp hfull, hheld⟩, other,
      patchOf?_eq_some.mpr ⟨s, hpatch, hpatched, hother⟩, hfile⟩
  · rintro ⟨⟨text, htext, hne, hheld⟩, other, hother, hfile⟩
    obtain ⟨s, hs, hpatched, hother⟩ := patchOf?_eq_some.mp hother
    exact ⟨_, textAt?_eq_some.mp htext, truthy_str.mpr hne, text, rfl, hheld, _, hs, hpatched, s,
      rfl, other, hother, hfile⟩

theorem gives_scriptFilesOf : Gives (scriptFilesOf t path node) file ↔
    Side.properties.Adds t path node file := by
  simp only [scriptFilesOf, gives_bind, gives_guard]
  constructor
  · rintro ⟨patch, hpatch, hfull, held, hheld, rfl, v, hv, script, hscript, hsql, hfile⟩
    rw [str?_eq_ok hscript] at hv
    have hlisted : textAt? node "original_file_path" = some script := by
      rw [fieldD_eq_ok_iff (by simpa using ne_empty_of_sql hsql)] at hv
      exact textAt?_eq_some.mpr ((fieldD_eq_ok_iff (by simp)).mpr hv)
    exact ⟨⟨⟨patch, hpatch, hfull, hheld⟩, script, hlisted, hsql⟩, script, hlisted, hfile⟩
  · rintro ⟨⟨⟨patch, hpatch, hfull, hheld⟩, script, hscript, hsql⟩, other, hother, hfile⟩
    obtain rfl : script = other := Option.some.inj (hscript.symm.trans hother)
    have hlisted : node.fieldD "original_file_path" (.str "") = .ok (.str script) := by
      rw [fieldD_eq_ok_iff (by simpa using ne_empty_of_sql hsql)]
      exact (fieldD_eq_ok_iff (by simp)).mp (textAt?_eq_some.mp hscript)
    exact ⟨patch, hpatch, hfull, true, hheld, rfl, _, hlisted, script, rfl, hsql, hfile⟩

theorem Side.gives_find {side : Side} : Gives (side.find t path node) file ↔
    side.Adds t path node file := by
  cases side with
  | script => exact gives_propertyFilesOf
  | properties => exact gives_scriptFilesOf

end

/-! ### All nodes and all paths -/

/-- The nodes of a manifest. -/
def nodesOf (manifest : Value) : Entries := (sectionNodes manifest "nodes").toOption.getD []

/-- A given path adds a file through a node that is built. -/
def Added (t : Tree) (manifest : Value) (path file : String) : Prop :=
  ∃ side, sideOf? path = some side ∧ ∃ e ∈ nodesOf manifest, ¬ Ephemeral e.2 ∧
    side.Adds t path e.2 file

/-- **A file is related to a given path**: both belong to one node that is built. -/
def Related (manifest : Value) (path file : String) : Prop :=
  ∃ side, sideOf? path = some side ∧ ∃ e ∈ nodesOf manifest, ¬ Ephemeral e.2 ∧
    side.Belongs path e.2 file

/-- What becomes of one node: it is passed over, or gives its files. -/
theorem fromNodes_cons_eq_ok {find : Value → Except Fault (List String)} {withEphemeral : Bool}
    {key : Scalar} {nodes : Entries} {files : List String}
    (h : fromNodes find withEphemeral ((key, node) :: nodes) = .ok files) :
    ∃ found rest,
      (¬ (withEphemeral = true ∨ ¬ Ephemeral node) ∧ found = [] ∨
        (withEphemeral = true ∨ ¬ Ephemeral node) ∧ find node = .ok found) ∧
      fromNodes find withEphemeral nodes = .ok rest ∧ files = found ++ rest := by
  obtain ⟨passed, hpassed, h⟩ : ∃ passed, (passed = false ↔ withEphemeral = true ∨
      ¬ Ephemeral node) ∧
      (if passed then fromNodes find withEphemeral nodes else do
        let found ← find node
        return found ++ (← fromNodes find withEphemeral nodes)) = .ok files := by
    rw [fromNodes] at h
    cases withEphemeral with
    | true => exact ⟨false, by simp, h⟩
    | false =>
      obtain ⟨passed, hbuilt, h⟩ := bind_eq_ok_iff.mp h
      refine ⟨passed, by simp [Ephemeral, hbuilt], ?_⟩
      cases passed with
      | false => exact h
      | true =>
        obtain ⟨nothing, hnothing, h⟩ := bind_eq_ok_iff.mp h
        cases hnothing
        obtain ⟨rest, hrest, h⟩ := bind_eq_ok_iff.mp h
        exact hrest.trans h
  cases passed with
  | true =>
    exact ⟨[], files, .inl ⟨fun hscope => Bool.noConfusion (hpassed.mpr hscope), rfl⟩, h, rfl⟩
  | false =>
    obtain ⟨found, hfound, h⟩ := bind_eq_ok_iff.mp h
    obtain ⟨rest, hrest, h⟩ := bind_eq_ok_iff.mp h
    exact ⟨found, rest, .inr ⟨hpassed.mp rfl, hfound⟩, hrest, (Except.ok.inj h).symm⟩

/-- **The files that nodes add** are those that each of them gives, but for the ones that are passed
over. -/
theorem mem_fromNodes {find : Value → Except Fault (List String)} {withEphemeral : Bool} :
    ∀ {nodes : Entries} {files : List String}, fromNodes find withEphemeral nodes = .ok files →
      (file ∈ files ↔ ∃ e ∈ nodes, (withEphemeral = true ∨ ¬ Ephemeral e.2) ∧
        Gives (find e.2) file) := by
  intro nodes
  induction nodes with
  | nil =>
    intro files h
    cases h
    simp
  | cons e nodes ih =>
    intro files h
    obtain ⟨found, rest, hnode, hrest, rfl⟩ := fromNodes_cons_eq_ok h
    have hfound : file ∈ found ↔ (withEphemeral = true ∨ ¬ Ephemeral e.2) ∧
        Gives (find e.2) file := by
      rcases hnode with ⟨hscope, rfl⟩ | ⟨hscope, hfind⟩
      · simp [hscope]
      · simp [hscope, Gives, hfind]
    rw [List.mem_append, hfound, ih hrest]
    simp only [List.mem_cons, exists_eq_or_imp]

/-- **The files related to one path** are those that it adds. -/
theorem mem_relatedTo {t : Tree} {manifest nodes : Value}
    (hnodes : manifest.fieldD "nodes" (.map []) = .ok nodes) {path : String} {files : List String}
    (h : relatedTo t nodes false (scriptSuffixes ++ propertySuffixes) path = .ok files)
    {file : String} :
    file ∈ files ↔ Added t manifest path file := by
  have hmem : ∀ side : Side, sideOf? path = some side →
      (nodes.entries >>= fun entries => fromNodes (side.find t path) false entries) = .ok files →
        (file ∈ files ↔ Added t manifest path file) := by
    intro side hside h
    obtain ⟨entries, hentries, h⟩ := bind_eq_ok_iff.mp h
    have hall : nodesOf manifest = entries := by
      rw [nodesOf, sectionNodes, hnodes, ok_bind, hentries]
      rfl
    rw [mem_fromNodes h, Added, hside, hall]
    simp only [Option.some.injEq, exists_eq_left', Bool.false_eq_true, false_or, Side.gives_find]
  have hyml : (scriptSuffixes ++ propertySuffixes).contains ".yml" = true := by decide
  have hsql : (scriptSuffixes ++ propertySuffixes).contains ".sql" = true := by decide
  rw [relatedTo] at h
  simp only [hyml, hsql, Bool.true_or, Bool.and_true] at h
  split at h
  · rename_i hsuffix
    exact hmem .script (by rw [sideOf?, if_pos hsuffix]) h
  split at h
  · rename_i hscript hsuffix
    exact hmem .properties (by rw [sideOf?, if_neg hscript, if_pos hsuffix]) h
  · rename_i hscript hproperties
    cases h
    simp [Added, sideOf?, hscript, hproperties]

theorem entries_of_not_truthy {v : Value} (h : ¬ v.truthy = true) :
    v.entries.toOption.getD [] = [] := by
  cases v with
  | map entries =>
    obtain rfl : entries = [] := by simpa [Value.truthy] using h
    rfl
  | _ => rfl

/-- **The files to look at** are the given ones and those that they add. -/
theorem mem_relatedFiles {t : Tree} {manifest : Value} {paths files : List String}
    (h : relatedFiles t manifest false (scriptSuffixes ++ propertySuffixes) "" paths = .ok files) :
    file ∈ files ↔ file ∈ paths ∨ ∃ path ∈ paths, Added t manifest path file := by
  obtain ⟨all, hall, h⟩ := bind_eq_ok_iff.mp h
  obtain rfl : all = files := Except.ok.inj h
  obtain ⟨nodes, hnodes, hall⟩ := bind_eq_ok_iff.mp hall
  split at hall
  · obtain ⟨added, hadded, hall⟩ := bind_eq_ok_iff.mp hall
    cases hall
    rw [List.mem_eraseDups, List.mem_append, List.mem_flatten]
    refine or_congr_right ⟨?_, ?_⟩
    · rintro ⟨found, hfound, hfile⟩
      obtain ⟨path, hpath, hrelated⟩ := mem_of_mapM hadded found hfound
      exact ⟨path, hpath, (mem_relatedTo hnodes hrelated).mp hfile⟩
    · rintro ⟨path, hpath, hfile⟩
      obtain ⟨found, hfound, hrelated⟩ := ok_of_mapM hadded path hpath
      exact ⟨found, hfound, (mem_relatedTo hnodes hrelated).mpr hfile⟩
  · rename_i hnone
    obtain ⟨added, hadded, hall⟩ := bind_eq_ok_iff.mp hall
    cases hadded
    cases hall
    rw [List.mem_eraseDups, List.flatten_nil, List.append_nil]
    refine ⟨.inl, ?_⟩
    rintro (hfile | ⟨path, -, side, -, e, he, -⟩)
    · exact hfile
    · rw [nodesOf, sectionNodes, hnodes, ok_bind, entries_of_not_truthy hnone] at he
      cases he

/-- **When only related files are added.**  The files to look at are the given ones and those that
they add through some node.  All files that are added are related to the path that adds them, just
if each file that an overreaching node adds is related to the path through another node. -/
theorem added_related_iff {t : Tree} {manifest : Value} {paths files : List String}
    (h : relatedFiles t manifest false (scriptSuffixes ++ propertySuffixes) "" paths = .ok files) :
    (∀ file, file ∈ files ↔ file ∈ paths ∨ ∃ path ∈ paths, Added t manifest path file) ∧
    ((∀ path ∈ paths, ∀ file, Added t manifest path file → Related manifest path file) ↔
      ∀ path ∈ paths, ∀ side, sideOf? path = some side → ∀ e ∈ nodesOf manifest, ¬ Ephemeral e.2 →
        side.Overreaches path e.2 → ∀ file, side.Adds t path e.2 file →
          Related manifest path file) := by
  refine ⟨fun file => mem_relatedFiles h, ?_, ?_⟩
  · intro hall path hpath side hside e he hbuilt _ file hadds
    exact hall path hpath file ⟨side, hside, e, he, hbuilt, hadds⟩
  · rintro hall path hpath file ⟨side, hside, e, he, hbuilt, hadds⟩
    by_cases hreach : side.Overreaches path e.2
    · exact hall path hpath side hside e he hbuilt hreach file hadds
    · exact ⟨side, hside, e, he, hbuilt, hadds.belongs hreach⟩

/-! ### A shop with two scripts -/

def ordersNode : Value :=
  .record [("path", .str "orders.sql"), ("original_file_path", .str "models/orders.sql"),
    ("patch_path", .str "shop://models/orders.yml")]

def shop : Value := .record [("nodes", .record [("model.shop.orders", ordersNode)])]

def shopFiles : Tree := ⟨[(["models"], .dir), (["models", "orders.sql"], .file .empty),
  (["models", "orders.yml"], .file .empty), (["models", "big_orders.sql"], .file .empty),
  (["sources.yml"], .file .empty)]⟩

theorem nodesOf_shop : nodesOf shop = [(.str "model.shop.orders", ordersNode)] := rfl

theorem not_ephemeral_ordersNode : ¬ Ephemeral ordersNode := by
  have hbuilt : isMaterialized ordersNode "ephemeral" = .ok false := rfl
  rw [Ephemeral, hbuilt]
  intro h
  cases h

/-- The script of the model brings its property file along, and that is related to it. -/
theorem related_orders :
    relatedFiles shopFiles shop false (scriptSuffixes ++ propertySuffixes) ""
      ["models/orders.sql"] = .ok ["models/orders.sql", "models/orders.yml"] ∧
    Added shopFiles shop "models/orders.sql" "models/orders.yml" ∧
    ∀ file, Added shopFiles shop "models/orders.sql" file →
      Related shop "models/orders.sql" file := by
  have hfiles : relatedFiles shopFiles shop false (scriptSuffixes ++ propertySuffixes) ""
      ["models/orders.sql"] = .ok ["models/orders.sql", "models/orders.yml"] :=
    eq_ok_of_toOption (by decide +kernel)
  obtain ⟨hmem, hiff⟩ := added_related_iff hfiles
  have hadded : Added shopFiles shop "models/orders.sql" "models/orders.yml" := by
    obtain hgiven | ⟨path, hpath, hadded⟩ := (hmem "models/orders.yml").mp (by simp)
    · exact absurd hgiven (by decide)
    · rwa [List.mem_singleton.mp hpath] at hadded
  refine ⟨hfiles, hadded, fun file => hiff.mpr ?_ _ (List.mem_singleton.mpr rfl) file⟩
  intro path hpath side hside e he _ hreach
  obtain rfl := List.mem_singleton.mp hpath
  obtain rfl := List.mem_singleton.mp (nodesOf_shop ▸ he)
  have hscript : sideOf? "models/orders.sql" = some .script := by decide +kernel
  obtain rfl : .script = side := Option.some.inj (hscript.symm.trans hside)
  rcases hreach with hown | ⟨other, hother, hpattern⟩
  · exact absurd ⟨"orders.sql", rfl, by decide +kernel⟩ hown
  · have hpatch : Side.script.other? ordersNode = some "models/orders.yml" := by decide +kernel
    obtain rfl : "models/orders.yml" = other := Option.some.inj (hpatch.symm.trans hother)
    exact absurd (by decide +kernel) hpattern

theorem not_related_shop {path own : String} {side : Side} (hside : sideOf? path = some side)
    (hown : side.own? ordersNode = some own) (hends : ¬ EndsIn path own) (file : String) :
    ¬ Related shop path file := by
  rintro ⟨side', hside', e, he, -, own', other, hown', -, hends', -⟩
  obtain rfl : side = side' := Option.some.inj (hside.symm.trans hside')
  obtain rfl := List.mem_singleton.mp (nodesOf_shop ▸ he)
  obtain rfl : own = own' := Option.some.inj (hown.symm.trans hown')
  exact hends hends'

/-- **Two files are added that are not related to the given ones.**  The name of the given script
only ends like that of the model, and the given property file is not that of the model but one at
the top. -/
theorem unrelated_orders :
    relatedFiles shopFiles shop false (scriptSuffixes ++ propertySuffixes) ""
      ["models/big_orders.sql", "sources.yml"] =
        .ok ["models/big_orders.sql", "sources.yml", "models/orders.yml", "models/orders.sql"] ∧
    (Added shopFiles shop "models/big_orders.sql" "models/orders.yml" ∧
      ∀ file, ¬ Related shop "models/big_orders.sql" file) ∧
    Added shopFiles shop "sources.yml" "models/orders.sql" ∧
    ∀ file, ¬ Related shop "sources.yml" file := by
  have hnode : (Scalar.str "model.shop.orders", ordersNode) ∈ nodesOf shop :=
    List.mem_singleton.mpr rfl
  have hscript : sideOf? "models/big_orders.sql" = some .script := by decide +kernel
  have hproperties : sideOf? "sources.yml" = some .properties := by decide +kernel
  have hpath : Side.script.own? ordersNode = some "orders.sql" := rfl
  have hpatch : patchOf? ordersNode = some "models/orders.yml" := by decide +kernel
  have hfound : filesAt shopFiles "models/orders.yml" = .ok ["models/orders.yml"] ∧
      filesAt shopFiles "models/orders.sql" = .ok ["models/orders.sql"] :=
    ⟨eq_ok_of_toOption (by decide +kernel), eq_ok_of_toOption (by decide +kernel)⟩
  refine ⟨eq_ok_of_toOption (by decide +kernel), ⟨?_, ?_⟩, ?_, ?_⟩
  · refine ⟨.script, hscript, _, hnode, not_ephemeral_ordersNode,
      ⟨_, hpath, by decide, by decide +kernel⟩, _, hpatch, _, hfound.1, by simp⟩
  · exact not_related_shop hscript hpath (by decide +kernel)
  · refine ⟨.properties, hproperties, _, hnode, not_ephemeral_ordersNode,
      ⟨⟨_, rfl, by decide, ?_⟩, _, rfl, by decide +kernel⟩, "models/orders.sql", rfl, _, hfound.2,
        by simp⟩
    exact eq_ok_of_toOption (by decide +kernel)
  · exact not_related_shop hproperties hpatch (by decide +kernel)

end ProjectLint
