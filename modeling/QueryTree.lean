import QueryTree.Settings.Document
import QueryTree.Settings.Environment
import QueryTree.Scope
import QueryTree.Json.Decode
import QueryTree.Paging
import QueryTree.Query.Binding
import QueryTree.Proofs.Names
import QueryTree.Proofs.Rows.Meaning
import QueryTree.Proofs.Projection
import QueryTree.Proofs.Projection.Exact
import QueryTree.Proofs.PushDown.Distinct
import QueryTree.Proofs.PushDown.CallOrder
import QueryTree.Proofs.PushDown.Shape
import QueryTree.Proofs.PushDown.LiftedNames
import QueryTree.Proofs.PushDown.Refused
import QueryTree.Proofs.PushDown.Scope
import QueryTree.Proofs.PushDown.OneOutput
import QueryTree.Proofs.PushDown.Rebound
import QueryTree.Proofs.Expansion
import QueryTree.Proofs.Paging.Rows
import QueryTree.Proofs.Paging.Settled
import QueryTree.Proofs.Paging.Links
import QueryTree.Proofs.Binding.References
import QueryTree.Proofs.Failure
import QueryTree.Proofs.Paging.Failed
import QueryTree.Proofs.Paging.Hidden
import QueryTree.Proofs.Paging.Exact
import QueryTree.Proofs.Wildcards
import QueryTree.Proofs.Binding.History
import QueryTree.Proofs.Binding.Repeated
import QueryTree.Proofs.Binding.Outcome
import QueryTree.Proofs.Binding.Distinct
import QueryTree.Proofs.Correlation.Rewrites
import QueryTree.Proofs.FreshNames
import QueryTree.Proofs.Equality.Laws
import QueryTree.Proofs.Sources
import QueryTree.Proofs.Slots
import QueryTree.Proofs.SortKeys
import QueryTree.Proofs.Restored.Bare
import QueryTree.Proofs.Restored.Changes
import QueryTree.Proofs.Restored.Edits
import QueryTree.Proofs.Restored.RoundTrip
import QueryTree.Proofs.Restored.Runs
import QueryTree.Proofs.Walks
import QueryTree.Proofs.Rows.Redundancy
import QueryTree.Proofs.Expansion.OneToOne
import QueryTree.Proofs.Binding.Types
