import ProjectLint.Checks.Casing
import ProjectLint.Checks.Columns
import ProjectLint.Checks.Contracts
import ProjectLint.Checks.Descriptions
import ProjectLint.Checks.Freshness
import ProjectLint.Checks.Keys
import ProjectLint.Checks.Naming
import ProjectLint.Checks.Relations
import ProjectLint.Checks.Tests
import ProjectLint.Fixes.Properties
import ProjectLint.Fixes.Semicolons
import ProjectLint.Fixes.Sources
import ProjectLint.Fixes.Tables
import ProjectLint.Fixes.Wording
import ProjectLint.Hook

/-!
# All hooks

The list of hooks by name, each with its options and its work.
-/

namespace ProjectLint.Hooks

open Options (Parameter Arguments)
open Hook (always finding looking)

/-! ### Options that several hooks share -/

def catalogParameter : Parameter := .text "--catalog" Artifact.catalog.usualPath

def keyParameters (name : String) : List Parameter :=
  [.neededList name, .switch "--allow-extra-keys"]

def requiredKeys (name : String) (a : Arguments) : Keys.Required :=
  ⟨a.texts name, a.flag "--allow-extra-keys"⟩

def listParameters : List Parameter := [
  .rivalList "--whitelist" "--blacklist", .rivalList "--blacklist" "--whitelist"]

/-- What the lists allow and forbid; one of the two has to be given. -/
def lists (a : Arguments) : Except Stop Relations.Lists :=
  let allowed := a.texts "--whitelist"
  let forbidden := a.texts "--blacklist"
  if allowed.isEmpty && forbidden.isEmpty then
    .error (.quit "Please specify at least one `--blacklist` or `--whitelist` option.")
  else .ok ⟨allowed, forbidden⟩

def testPairs : Parameter := { Parameter.neededList "--tests" with reading := .pairs }

def testCount : Parameter := .integer "--test-cnt" (.int 1)

def countOf (a : Arguments) (name : String) : Int := (a.int? name).getD 0

/-- The requirement that a pair of a test and a count states. -/
def requirement (kindsOnly : Bool) (pair : String × String) : Except Stop Tests.Requirement :=
  if kindsOnly && !(["data", "schema"].contains pair.1) then
    .error (.usage ("Test type " ++ pair.1 ++ " is not one of allowed types ['data', 'schema']"))
  else
    match Text.integer? pair.2 with
    | some n => .ok ⟨pair.1, n⟩
    | none => .error (.usage ("Unable to cast " ++ pair.2 ++ " to int."))

def requirements (kindsOnly : Bool) (a : Arguments) : Except Stop (List Tests.Requirement) :=
  (a.pairs "--tests").mapM (requirement kindsOnly)

def simple (name description : String) (parameters : List Parameter) (work : Job → Edit Status) :
    Hook :=
  ⟨name, some description, parameters, fun _ => none, [.manifest], always work⟩

def withCatalog (name description : String) (parameters : List Parameter)
    (work : Job → Edit Status) : Hook :=
  ⟨name, some description, catalogParameter :: parameters, fun _ => none, [.manifest, .catalog],
    always work⟩

/-- A hook whose arguments have to make sense before it starts. -/
def planned (name description : String) (parameters : List Parameter)
    (plan : Arguments → Except Stop (Job → Edit Status)) : Hook :=
  ⟨name, some description, parameters, fun _ => none, [.manifest], plan⟩

/-! ### Models and macros -/

def bound (breaks : Relations.Comparison) (label side option : String) (a : Arguments) :
    Relations.Bound :=
  ⟨breaks, .str label, .str side, a.value option⟩

def modelBounds (a : Arguments) : List Relations.Bound := [
  bound .less "min" "parents" "--min-parent-cnt" a,
  bound .greater "max" "parents" "--max-parent-cnt" a,
  bound .less "min" "childs" "--min-child-cnt" a,
  bound .greater "max" "childs" "--max-child-cnt" a]

def childBounds (a : Arguments) : List Relations.Bound := [
  bound .less "min" "childs" "--min-child-cnt" a, bound .greater "max" "childs" "--max-child-cnt" a]

def childParameters : List Parameter := [
  .integer "--min-child-cnt" (.int 0), .integer "--max-child-cnt" .null]

def parentParameters : List Parameter := [
  .integer "--min-parent-cnt" (.int 0), .integer "--max-parent-cnt" .null]

def modelHooks : List Hook := [
  simple "check_model_columns_have_desc" "Check the model columns have description" []
    (finding fun t j => Descriptions.checkColumns t j.manifest j.request),
  withCatalog "check_model_has_all_columns" "Check model has all columns" []
    (finding fun t j => Columns.checkModels t j.manifest j.catalog j.request),
  simple "check_model_has_constraints" "Check model has constraints"
    [{ Parameter.needed "--constraints" with reading := .json }]
    (finding fun t j => Contracts.checkConstraints t j.manifest
      (j.arguments.value "--constraints") j.request),
  simple "check_model_has_contract" "Check model has contract" []
    (finding fun t j => Contracts.checkContract t j.manifest j.request),
  simple "check_model_has_description" "Check the model has description" []
    (finding fun t j => Descriptions.checkModels t j.manifest j.request),
  simple "check_model_has_labels_keys" "Check model has labels keys" (keyParameters "--labels-keys")
    (finding fun t j => Keys.checkModelLabels t j.manifest
      (requiredKeys "--labels-keys" j.arguments) j.request),
  simple "check_model_has_meta_keys" "Check model has meta keys" (keyParameters "--meta-keys")
    (finding fun t j => Keys.checkModelMeta t j.manifest
      (requiredKeys "--meta-keys" j.arguments) j.request),
  simple "check_model_has_properties_file" "Check model has properties file" []
    (finding fun _ j => Contracts.checkProperties j.manifest j.request),
  simple "check_model_has_tests" "Check model has tests" [testCount]
    (finding fun t j => Tests.checkModelCount t j.manifest
      (countOf j.arguments "--test-cnt") j.request),
  simple "check_model_has_tests_by_group" "Check model has tests by group"
    [.neededList "--tests", testCount]
    (finding fun t j => Tests.checkModelGroup t j.manifest (j.arguments.texts "--tests")
      (countOf j.arguments "--test-cnt") j.request),
  planned "check_model_has_tests_by_name" "Check model has tests by name" [testPairs] (fun a => do
    let required ← requirements false a
    return finding fun t j => Tests.checkModelRequired t j.manifest .byName required j.request),
  planned "check_model_has_tests_by_type" "Check model has tests by type" [testPairs] (fun a => do
    let required ← requirements true a
    return finding fun t j => Tests.checkModelRequired t j.manifest .byKind required j.request),
  ⟨"check_model_materialization_by_childs", none, [.integer "--threshold-childs" (.int 5)],
    fun _ => none, [.manifest], always (finding fun _ j =>
      Relations.checkMaterialization j.manifest
        (countOf j.arguments "--threshold-childs") j.request)⟩,
  withCatalog "check_model_name_contract" "Check model name contract" [.needed "--pattern"]
    (finding fun t j => Naming.checkModels t j.manifest j.catalog
      (j.arguments.text "--pattern") j.request),
  simple "check_model_parents_and_childs" "Check model has parents and childs"
    (parentParameters ++ childParameters)
    (finding fun _ j => Relations.checkModelBounds j.manifest (modelBounds j.arguments) j.request),
  planned "check_model_parents_database" "Check model parents database" listParameters (fun a => do
    let l ← lists a
    return finding fun t j => Relations.checkParentDatabase t j.manifest l j.request),
  planned "check_model_parents_name_prefix" "Check model parents schema" listParameters (fun a => do
    let l ← lists a
    return finding fun _ j => Relations.checkParentNames j.manifest l j.request),
  planned "check_model_parents_schema" "Check model parents schema" listParameters (fun a => do
    let l ← lists a
    return finding fun _ j => Relations.checkParentSchema j.manifest l j.request),
  simple "check_model_tags" "Check model tags" [.neededList "--tags"]
    (finding fun t j => Contracts.checkModelTags t j.manifest
      (j.arguments.texts "--tags") j.request)]

def otherHooks : List Hook := [
  simple "check_column_desc_are_same" "Check column descriptions are the same." [.list "--ignore"]
    (finding fun t j => Wording.check t (j.arguments.texts "--ignore") j.arguments.files),
  withCatalog "check_column_name_contract" "Check column name abides to contract."
    [.needed "--pattern", .neededList "--dtypes"]
    (finding fun t j => Naming.checkColumns t j.manifest j.catalog (j.arguments.text "--pattern")
      (j.arguments.texts "--dtypes") j.request),
  ⟨"check_database_casing_consistency", none, [catalogParameter],
    fun _ => none, [.manifest, .catalog],
    always (finding fun _ j => Casing.check j.manifest j.catalog)⟩,
  simple "check_exposure_has_meta_keys" "Check the exposure has keys in the meta part."
    (keyParameters "--meta-keys")
    (looking fun t j => Keys.checkExposures t
      (requiredKeys "--meta-keys" j.arguments) j.arguments.files),
  simple "check_macro_arguments_have_desc" "Check the macro arguments have description." []
    (finding fun t j => Descriptions.checkArguments t j.manifest j.arguments.files),
  simple "check_macro_has_description" "Check the macro has description." []
    (finding fun t j => Descriptions.checkMacros t j.manifest j.request),
  simple "check_macro_has_meta_keys" "Check the macro has meta keys." (keyParameters "--meta-keys")
    (looking fun _ j => Keys.checkMacros j.manifest j.arguments.files),
  simple "check_seed_has_meta_keys" "Check seed has meta keys." (keyParameters "--meta-keys")
    (looking fun _ j => Keys.checkSeeds j.manifest
      (requiredKeys "--meta-keys" j.arguments) j.arguments.files),
  simple "check_snapshot_has_meta_keys" "Check snapshot has meta keys."
    (keyParameters "--meta-keys")
    (looking fun _ j =>
      Keys.checkSnapshots j.manifest (requiredKeys "--meta-keys" j.arguments) j.arguments.files),
  simple "check_test_has_meta_keys" "Check single test has meta keys." (keyParameters "--meta-keys")
    (looking fun _ j => Keys.checkTests j.manifest
      (requiredKeys "--meta-keys" j.arguments) j.arguments.files)]

/-! ### Sources -/

def freshnessParameter : Parameter :=
  { Parameter.neededList "--freshness" with choices := ["warn_after", "error_after"] }

def sourceHooks : List Hook := [
  simple "check_source_childs" "Check the source has a specific number (max/min) of childs."
    childParameters
    (finding fun t j => Relations.checkTableBounds t j.manifest
      (childBounds j.arguments) j.request),
  simple "check_source_columns_have_desc" "Check the model has description" []
    (finding fun t j => Descriptions.checkTableColumns t j.request),
  { withCatalog "check_source_has_all_columns"
    "Check the source has all columns in the properties file." []
      (finding fun t j => Columns.checkTables t j.catalog j.request) with
    loads := [.catalog, .manifest] },
  simple "check_source_has_freshness" "Check the source has the freshness." [freshnessParameter]
    (finding fun t j => Freshness.checkFreshness t (j.arguments.texts "--freshness") j.request),
  simple "check_source_has_labels_keys" "Check the source has keys in the labels part."
    [.neededList "--labels-keys"]
    (finding fun t j => Keys.checkTableLabels t (j.arguments.texts "--labels-keys") j.request),
  simple "check_source_has_loader" "Check the source has loader option." []
    (finding fun t j => Freshness.checkLoader t j.request),
  simple "check_source_has_meta_keys" "Check the source has keys in the meta part."
    (keyParameters "--meta-keys")
    (finding fun t j => Keys.checkTableMeta t (requiredKeys "--meta-keys" j.arguments) j.request),
  simple "check_source_has_tests" "Check the source has a number of tests." [testCount]
    (finding fun t j => Tests.checkTableCount t j.manifest
      (countOf j.arguments "--test-cnt") j.request),
  simple "check_source_has_tests_by_group" "Check the source has a number of tests by group."
    [.neededList "--tests", testCount]
    (finding fun t j => Tests.checkTableGroup t j.manifest (j.arguments.texts "--tests")
      (countOf j.arguments "--test-cnt") j.request),
  planned "check_source_has_tests_by_name" "Check the source has a number of tests by test name."
    [testPairs]
    (fun a => do
      let required ← requirements false a
      return finding fun t j => Tests.checkTableRequired t j.manifest .byName required j.request),
  planned "check_source_has_tests_by_type" "Check the source has a number of tests by test type."
    [testPairs]
    (fun a => do
      let required ← requirements true a
      return finding fun t j => Tests.checkTableRequired t j.manifest .byKind required j.request),
  simple "check_source_table_has_description" "Check the source table has description." []
    (finding fun t j => Descriptions.checkSourceTables t j.request),
  simple "check_source_tags" "Check the source has valid tags." [.neededList "--tags"]
    (finding fun t j => Contracts.checkTableTags t (j.arguments.texts "--tags") j.request)]

/-! ### Scripts and fixes -/

def scanParameters : List Parameter := [.switch "--ignore-dotless-table", .text "--dialect" "ansi"]

def checkPropertiesPath (a : Arguments) : Option Stop :=
  if propertySuffixes.contains (Path.ofString (a.text "--properties-file")).suffix then none
  else some (.quit "Input parameter `--schema-file` has to contain `.yml` or `.yaml` extension.")

def scriptHooks : List Hook := [
  simple "check_script_has_no_table_name"
    "Check the script has no table name (is not using source() or ref() macro for all tables)."
    scanParameters
    (looking fun t j => Scripts.checkTables t j.scans j.arguments.files),
  simple "check_script_ref_and_source" " Check the script has only existing refs and sources." []
    (finding fun t j => Scripts.checkCalls t j.manifest j.arguments.files),
  simple "check_script_semicolon" "Check the script does not contain a semicolon." []
    (finding fun t j => Scripts.checkSemicolon t j.arguments.files),
  simple "generate_missing_sources" "If any source is missing this hook tries to create it."
    [.needed "--schema-file"]
    (fun j => Sources.generate j.manifest (j.arguments.text "--schema-file") j.arguments.files),
  { withCatalog "generate_model_properties_file" "Generate model properties file."
      [.needed "--properties-file"]
      (fun j => PropertyFiles.generate j.manifest j.catalog
        (j.arguments.text "--properties-file") j.request) with
    before := checkPropertiesPath },
  simple "remove_script_semicolon" "Remove the semicolon at the end of the script." []
    (fun j => Semicolons.remove j.arguments.files),
  simple "replace_script_table_names"
    "Replace table names with source() or ref() macros in the script."
    scanParameters
    (fun j => TableNames.replace j.manifest j.scans j.arguments.files),
  simple "unify_column_description" "Unify column descriptions across all models."
    [.list "--ignore"]
    (fun j => Wording.unify (j.arguments.texts "--ignore") j.arguments.files)]

/-- All hooks on a project. -/
def all : List Hook := modelHooks ++ otherHooks ++ sourceHooks ++ scriptHooks

/-- All hooks that start a command. -/
def commandHooks : List CommandHook := [
  ⟨"dbt_clean", .clean⟩, ⟨"dbt_compile", .compile⟩, ⟨"dbt_deps", .deps⟩,
  ⟨"dbt_docs_generate", .docs⟩, ⟨"dbt_parse", .parse⟩, ⟨"dbt_run", .run⟩, ⟨"dbt_test", .test⟩]

/-- Runs the hook of a name. -/
def run? (name : String) (w : World) (words : List String) : Option Outcome :=
  match all.find? fun h => h.name == name with
  | some h => some (h.run w words)
  | none => (commandHooks.find? fun h => h.name == name).map fun h => h.run w words

end ProjectLint.Hooks
