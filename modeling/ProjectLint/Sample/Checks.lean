import ProjectLint.Checks.Casing
import ProjectLint.Checks.Columns
import ProjectLint.Checks.Contracts
import ProjectLint.Checks.Descriptions
import ProjectLint.Checks.Freshness
import ProjectLint.Checks.Keys
import ProjectLint.Checks.Naming
import ProjectLint.Checks.Relations
import ProjectLint.Checks.Tests
import ProjectLint.Checks.Wording
import ProjectLint.Sample.Benchmark

/-!
# Benchmarks of checks

The checks of models, of source tables and of macros, each on a whole sample project.
-/

namespace ProjectLint.Sample

def statuses (looks : List (Tree → Report Status)) : List (Edit Value) := looks.map statusOf

def findings (finds : List (Tree → Findings)) : List (Edit Value) :=
  statuses (finds.map fun f t => (f t).report)

/-- All checks of models. -/
def modelChecks (size : Nat) : Benchmark :=
  let macros := usualMacros size
  let p := project size macros size size 2
  let m := manifest size macros
  let c := catalog size
  let r : Request := { paths := p.scripts }
  { tree := p.tree
    run := silent <| listed <| findings [
      fun t => Descriptions.checkModels t m r,
      fun t => Descriptions.checkColumns t m r,
      fun t => Contracts.checkConstraints t m (.seq [Value.record [textField "type" "not_null"]]) r,
      fun t => Contracts.checkContract t m r,
      fun t => Keys.checkModelLabels t m ⟨["owner"], false⟩ r,
      fun t => Keys.checkModelMeta t m ⟨["owner"], false⟩ r,
      fun _ => Contracts.checkProperties m r,
      fun t => Tests.checkModelCount t m 2 r,
      fun t => Tests.checkModelGroup t m ["not_null"] 1 r,
      fun t => Tests.checkModelRequired t m .byName [⟨"not_null", 1⟩] r,
      fun t => Tests.checkModelRequired t m .byKind [⟨"schema", 1⟩] r,
      fun t => Columns.checkModels t m c r,
      fun t => Naming.checkModels t m c "stg_.*" r,
      fun t => Naming.checkColumns t m c "has_.*" ["boolean"] r,
      fun _ => Relations.checkMaterialization m 5 r,
      fun _ => Relations.checkModelBounds m [
        ⟨.less, .str "min", .str "parents", .int 5⟩, ⟨.less, .str "min", .str "childs", .int 5⟩] r,
      fun t => Relations.checkParentDatabase t m ⟨[], ["db"]⟩ r,
      fun _ => Relations.checkParentSchema m ⟨[], ["bad_schema"]⟩ r,
      fun _ => Relations.checkParentNames m ⟨[], ["model"]⟩ r,
      fun t => Contracts.checkModelTags t m ["foo"] r,
      fun t => Keys.checkModelMeta t m ⟨["owner", "team"], true⟩ r,
      fun t => Keys.checkModelLabels t m ⟨["owner", "team"], true⟩ r,
      fun _ => Relations.checkParentNames m ⟨["stg_"], []⟩ r,
      fun t => Tests.checkModelCount t m 1 r,
      fun t => Tests.checkModelRequired t m .byName [⟨"unique", 2⟩] r,
      fun _ => Casing.check m c] }

/-- All checks of source tables, and of the keys that other resources have. -/
def sourceChecks (size : Nat) : Benchmark :=
  let macros := usualMacros size
  let p := project size macros size size 2
  let m := manifest size macros
  let c := catalog size
  let r : Request := { paths := p.propertyFiles }
  let owned : Keys.Required := ⟨["owner"], false⟩
  { tree := p.tree
    run := silent <| listed <| findings [
        fun t => Relations.checkTableBounds t m [⟨.less, .str "min", .str "childs", .int 2⟩] r,
        fun t => Descriptions.checkTableColumns t r,
        fun t => Columns.checkTables t c r,
        fun t => Keys.checkTableLabels t ["team"] r,
        fun t => Keys.checkTableMeta t ⟨["owner", "team"], false⟩ r,
        fun t => Tests.checkTableCount t m 2 r,
        fun t => Freshness.checkFreshness t ["warn_after"] r,
        fun t => Freshness.checkLoader t r,
        fun t => Tests.checkTableGroup t m ["not_null"] 1 r,
        fun t => Tests.checkTableRequired t m .byName [⟨"not_null", 1⟩] r,
        fun t => Tests.checkTableRequired t m .byKind [⟨"data", 1⟩, ⟨"schema", 1⟩] r,
        fun t => Descriptions.checkSourceTables t r,
        fun t => Contracts.checkTableTags t ["foo"] r,
        fun t => Keys.checkTableMeta t ⟨["owner", "team"], true⟩ r,
        fun t => Tests.checkTableRequired t m .byName [⟨"unique", 2⟩] r] ++
      [ statusOf fun t => Keys.checkExposures t owned p.propertyFiles,
        found fun t => numberOf (r.sourceTables t).toExcept,
        statusOf fun _ => Keys.checkSnapshots m owned p.otherFiles,
        statusOf fun _ => Keys.checkTests m owned p.otherFiles,
        statusOf fun _ => Keys.checkSeeds m owned p.otherFiles,
        statusOf fun _ => Keys.checkMacros m p.propertyFiles ] }

/-- The checks of macros and of the wording of columns, on a project with four macros. -/
def macroChecks (size : Nat) : Benchmark :=
  let p := project 0 4 size size size
  let m := manifest 0 4
  let paths := p.macroScripts ++ p.propertyFiles
  let files := p.propertyFiles.map Path.ofString
  { tree := p.tree
    run := silent <| listed <| findings [
        fun t => Descriptions.checkMacros t m { paths },
        fun t => Descriptions.checkArguments t m paths,
        fun t => Wording.check t [] p.propertyFiles,
        fun t => Wording.check t ["name"] p.propertyFiles] ++
      [ statusOf fun _ => Keys.checkMacros m p.propertyFiles,
        statusOf fun _ => Keys.checkSeeds m ⟨["owner"], false⟩ p.otherFiles,
        statusOf fun _ => Keys.checkSnapshots m ⟨["owner"], true⟩ p.otherFiles,
        found fun t => numberOf (modelEntries t files .all).toExcept,
        found fun t => numberOf (macroEntries t files .all).toExcept,
        found fun t => numberOf (exposures t p.propertyFiles).toExcept ] }

end ProjectLint.Sample
