import ProjectLint.Main
import ProjectLint.Mutation
import ProjectLint.Proofs.Batches
import ProjectLint.Proofs.Bounds
import ProjectLint.Proofs.CalledNames
import ProjectLint.Proofs.Casing
import ProjectLint.Proofs.CatalogColumns
import ProjectLint.Proofs.ColumnNames
import ProjectLint.Proofs.Comments
import ProjectLint.Proofs.Constraints
import ProjectLint.Proofs.DescribedColumns
import ProjectLint.Proofs.Events
import ProjectLint.Proofs.GeneratedProperties
import ProjectLint.Proofs.LackingScripts
import ProjectLint.Proofs.Lineage
import ProjectLint.Proofs.ListedTables
import ProjectLint.Proofs.MetaKeys
import ProjectLint.Proofs.MissingSources
import ProjectLint.Proofs.ModelKeys
import ProjectLint.Proofs.ModelScope
import ProjectLint.Proofs.NameGroups
import ProjectLint.Proofs.NamePairs
import ProjectLint.Proofs.OptionPairs
import ProjectLint.Proofs.Parents
import ProjectLint.Proofs.RelatedFiles
import ProjectLint.Proofs.RelatedUnion
import ProjectLint.Proofs.ScriptKinds
import ProjectLint.Proofs.Semicolons
import ProjectLint.Proofs.TableColumns
import ProjectLint.Proofs.TableFrame
import ProjectLint.Proofs.Tasks
import ProjectLint.Proofs.TestCounts
import ProjectLint.Sample.Hooks
