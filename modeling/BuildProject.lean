import BuildProject.Proofs.Arena.Arrangement
import BuildProject.Condition.Record
import BuildProject.Registry
import BuildProject.Version
import BuildProject.Proofs.Condition.Roundtrip
import BuildProject.Proofs.Document.Items
import BuildProject.Proofs.Document.References
import BuildProject.Proofs.Document.Merge
import BuildProject.Proofs.Registry.Runs
import BuildProject.Proofs.Registry.Copies
import BuildProject.Proofs.Registry.Failures
import BuildProject.Proofs.Registry.Content
import BuildProject.Proofs.Document.Stable
import BuildProject.Proofs.Registry.Disposal
import BuildProject.Proofs.Registry.Parts
import BuildProject.Proofs.Condition.Lookup
import BuildProject.Proofs.Document.Configurations
import BuildProject.Proofs.Document.Texts
import BuildProject.Proofs.Document.Comments
import BuildProject.Proofs.Document.Acceptance
import BuildProject.Proofs.Document.Refusals
import BuildProject.Proofs.Document.Placement
import BuildProject.Proofs.Document.Counterparts
import BuildProject.Proofs.Document.Finding
import BuildProject.Proofs.Document.Values
import BuildProject.Proofs.Project.Skeleton
import BuildProject.Proofs.Include.Climbing
import BuildProject.Proofs.Include.Resolution
import BuildProject.Proofs.Registry.Keys
