import ProjectLint.Hooks
import ProjectLint.Sample.Checks
import ProjectLint.Sample.Scripts
import ProjectLint.Sample.Walks

/-!
# Benchmark of hooks

Runs every hook through its command line: on a sample project, with its settings broken, and with a
manifest or a catalog that is not there. The benchmarks of all kinds are found by name at the end.
-/

namespace ProjectLint.Sample

/-- A run of a hook: its name and the words of its command line. -/
abbrev HookRun := String × List String

def endingValue : Ending → Int
  | .status s => s
  | .help => 0
  | .usage _ => -2
  | .fault _ => -1

def runHook (r : HookRun) : Edit Value := fun t =>
  match Hooks.run? r.1 { tree := t } r.2 with
  | none => ⟨[], t, .ok .null⟩
  | some o => ⟨o.lines, o.tree, .ok (.int (endingValue o.ending))⟩

def commandWords (c : Commands.Command) (r : Commands.Request) : Edit Value :=
  found fun t => do
    let settings ← Settings.load t "cfg.yaml"
    return .int (← wordCount c r settings)

/-! ### What the hooks are run with -/

/-- The options of its own that a hook is run with. -/
def ownOptions (hook : String) : List String :=
  match hook with
  | "check_column_name_contract" => ["--pattern", "has_.*", "--dtypes", "boolean"]
  | "check_model_has_constraints" => ["--constraints", "[\x7b\"type\": \"primary_key\"\x7d]"]
  | "check_model_has_labels_keys" => ["--labels-keys", "owner"]
  | "check_source_has_labels_keys" => ["--labels-keys", "team"]
  | "check_source_has_meta_keys" => ["--meta-keys", "owner", "team"]
  | "check_model_has_tests" => ["--test-cnt", "2"]
  | "check_model_has_tests_by_group" | "check_source_has_tests_by_group" => ["--tests", "not_null"]
  | "check_model_has_tests_by_name" => ["--tests", "not_null=1"]
  | "check_source_has_tests_by_name" => ["--tests", "unique=1"]
  | "check_model_has_tests_by_type" | "check_source_has_tests_by_type" =>
    ["--tests", "data=1", "schema=1"]
  | "check_model_name_contract" => ["--pattern", "stg_.*"]
  | "check_model_parents_and_childs" => ["--min-parent-cnt", "5"]
  | "check_model_parents_database" => ["--blacklist", "db"]
  | "check_model_parents_name_prefix" => ["--blacklist", "model"]
  | "check_model_parents_schema" => ["--blacklist", "bad_schema"]
  | "check_model_tags" => ["--tags", "foo"]
  | "check_source_tags" => ["--tags", "foo", "illegal", "bad"]
  | "check_source_childs" => ["--min-child-cnt", "1"]
  | "check_source_has_freshness" => ["--freshness", "warn_after"]
  | "generate_missing_sources" => ["--schema-file", propertiesPath]
  | "generate_model_properties_file" => ["--properties-file", "generated/\x7bname\x7d.yml"]
  | other => if other.endsWith "_has_meta_keys" then ["--meta-keys", "owner"] else []

def readsCatalog (hook : String) : Bool :=
  (Hooks.all.find? fun h => h.name == hook).any fun h => h.loads.contains .catalog

def wordsFor (hook : String) (paths : List String) : HookRun :=
  (hook, paths ++ usualOptions ++ (if readsCatalog hook then catalogOptions else []) ++
    ownOptions hook)

def tableHooks : List String := [
  "check_source_childs", "check_source_columns_have_desc", "check_source_has_freshness",
  "check_source_has_loader", "check_source_has_all_columns", "check_source_has_labels_keys",
  "check_source_has_meta_keys",
  "check_source_has_tests_by_group", "check_source_has_tests_by_type", "check_source_has_tests",
  "check_source_has_tests_by_name", "check_source_table_has_description", "check_source_tags"]

/-- The hooks on everything else. -/
def resourceRuns (p : Project) : List HookRun := [
  wordsFor "check_column_name_contract" (p.scripts.take 4),
  wordsFor "check_database_casing_consistency" [],
  wordsFor "check_exposure_has_meta_keys" p.propertyFiles,
  wordsFor "check_macro_arguments_have_desc" (p.macroScripts.take 2 ++ p.propertyFiles),
  wordsFor "check_column_desc_are_same" p.propertyFiles,
  wordsFor "check_snapshot_has_meta_keys" p.otherFiles,
  wordsFor "check_test_has_meta_keys" p.otherFiles,
  wordsFor "check_seed_has_meta_keys" p.otherFiles,
  wordsFor "check_macro_has_description" (p.macroScripts.take 2),
  wordsFor "check_macro_has_meta_keys" p.propertyFiles]

/-- The hooks on scripts, and those that change files. -/
def changingRuns (p : Project) : List HookRun :=
  let two := p.scripts.take 2
  [ wordsFor "check_script_ref_and_source" two,
    wordsFor "check_script_semicolon" two,
    wordsFor "generate_model_properties_file" two,
    wordsFor "generate_missing_sources" two,
    ("generate_model_properties_file", two ++ usualOptions ++ catalogOptions ++
      ["--properties-file", "generated/\x7bschema\x7d.yml"]),
    ("generate_model_properties_file", two ++ usualOptions ++ catalogOptions ++
      ["--properties-file", "generated"]),
    wordsFor "unify_column_description" p.propertyFiles,
    ("generate_missing_sources", two ++ usualOptions ++ ["--schema-file", "absent.yml"]),
    ("generate_missing_sources", two ++ usualOptions ++ ["--schema-file", "seed_0.yml"])]

def brokenRuns : List HookRun := [
  ("check_model_tags", ["--config", "seed_0.yml", "--tags", "foo"]),
  ("check_source_tags", ["--config", "seed_0.yml", "--tags", "foo"]),
  ("check_script_semicolon", ["--config", "seed_0.yml"]),
  ("check_model_has_tests_by_type", usualOptions ++ ["--tests", "other=1"])]

def lackingRuns : List HookRun :=
  Hooks.all.map (fun h => ((wordsFor h.name []).1, (wordsFor h.name []).2 ++
    ["--manifest", "absent.json"])) ++
  (Hooks.all.filter fun h => readsCatalog h.name).map
    (fun h => ((wordsFor h.name []).1, (wordsFor h.name []).2 ++ ["--catalog", "absent.json"])) ++
  [("generate_model_properties_file", usualOptions ++ ["--properties-file", "generated"])]

/-- Runs of all hooks. The second model has to be there. -/
def hookRuns (size : Nat) : Except Fault Benchmark := do
  let macros := usualMacros size
  let p := project size macros 3 2 2
  let m := manifest size macros
  let _ ← (← m.index "nodes").index (modelId 1)
  let few := p.scripts.take 4
  let runs := fun (rs : List HookRun) => rs.map runHook
  let works : List (Edit Value) :=
    runs (Hooks.modelHooks.map fun h => wordsFor h.name p.scripts) ++
    runs (tableHooks.map fun h => wordsFor h p.propertyFiles) ++
    runs (resourceRuns p) ++
    [commandWords .clean {}, commandWords .deps {}, commandWords .parse {}, commandWords .docs {},
      commandWords .compile { paths := few, commandFlags := ["++full-refresh"] },
      commandWords .run { paths := few }, commandWords .test { paths := few }] ++
    runs (changingRuns p) ++
    runs brokenRuns ++
    [found fun t => numberOf (Settings.load t "cfg2.yaml" >>= Value.entries),
      found fun t => numberOf (relatedFiles t m false (scriptSuffixes ++ propertySuffixes) ""
        [scriptPath 0, scriptPath 1, macroPath 0, macroPath 1])] ++
    runs lackingRuns
  return ⟨p.tree, silent (listed works)⟩

/-- The benchmark of a name and a size. A size below zero counts as zero, except for command
lines. -/
def benchmark? (name : String) (size : Int) : Option (Except Fault Benchmark) :=
  match name with
  | "model_checks" => some (.ok (modelChecks size.toNat))
  | "source_checks" => some (.ok (sourceChecks size.toNat))
  | "macro_and_column_checks" => some (.ok (macroChecks size.toNat))
  | "manifest_traversal" => some (traversal size.toNat)
  | "sql_regex_helpers" => some (.ok (scriptWords size.toNat))
  | "tracking_pipeline" => some (.ok (tracking size.toNat))
  | "dbt_cmd_wrappers" => some (.ok (commandLines size))
  | "semicolon_and_refs" => some (.ok (semicolonsAndCalls size.toNat))
  | "generators" => some (.ok (fixes size.toNat))
  | "hook_mains" => some (hookRuns size.toNat)
  | _ => none

end ProjectLint.Sample
