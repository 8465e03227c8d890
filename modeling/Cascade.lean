import Cascade.Algebra.Builder
import Cascade.Estimate.Cardinality
import Cascade.Exchange.Script
import Cascade.Exchange.Search
import Cascade.Exchange.Settings
import Cascade.Json.Printer
import Cascade.Json.Reader
import Cascade.Proofs.Memo.Addition
import Cascade.Proofs.Memo.Anchors
import Cascade.Proofs.Memo.Classes
import Cascade.Proofs.Memo.Congruence
import Cascade.Proofs.Memo.Contexts
import Cascade.Proofs.Memo.Copying
import Cascade.Proofs.Memo.Counts
import Cascade.Proofs.Memo.Demands
import Cascade.Proofs.Memo.DryRun
import Cascade.Proofs.Memo.Extension
import Cascade.Proofs.Memo.Following
import Cascade.Proofs.Memo.Frame
import Cascade.Proofs.Memo.History
import Cascade.Proofs.Memo.Insertion
import Cascade.Proofs.Memo.Merging
import Cascade.Proofs.Memo.Offers
import Cascade.Proofs.Memo.Producing
import Cascade.Proofs.Memo.Progress
import Cascade.Proofs.Memo.Rederivation
import Cascade.Proofs.Memo.Redirect
import Cascade.Proofs.Memo.References
import Cascade.Proofs.Memo.Reinsertion
import Cascade.Proofs.Memo.Representation
import Cascade.Proofs.Memo.Retention
import Cascade.Proofs.Memo.Rollback
import Cascade.Proofs.Memo.Sharing
import Cascade.Proofs.Memo.TakeOver
import Cascade.Proofs.Memo.Winners
import Cascade.Proofs.Properties.Building
import Cascade.Proofs.Properties.Canonical
import Cascade.Proofs.Properties.Colocation
import Cascade.Proofs.Properties.Constraints
import Cascade.Proofs.Properties.Distributions
import Cascade.Proofs.Properties.Grouping
import Cascade.Proofs.Properties.Joins
import Cascade.Proofs.Properties.Outputs
import Cascade.Proofs.Properties.Overflow
import Cascade.Proofs.Properties.Soundness
import Cascade.Proofs.Rules.Bindings
import Cascade.Proofs.Rules.Decorrelation
import Cascade.Proofs.Rules.Faithfulness
import Cascade.Proofs.Rules.Implementing
import Cascade.Proofs.Rules.Preservation
import Cascade.Proofs.Rules.Reordering
import Cascade.Proofs.Rules.Reshaping
import Cascade.Proofs.Rules.Scopes
import Cascade.Proofs.Rules.Semijoins
import Cascade.Proofs.Rules.Splitting
import Cascade.Proofs.Schema.Registration
import Cascade.Proofs.Search.Applications
import Cascade.Proofs.Search.Budget
import Cascade.Proofs.Search.Containing
import Cascade.Proofs.Search.Enforceable
import Cascade.Proofs.Search.Enforcing
import Cascade.Proofs.Search.Hinting
import Cascade.Proofs.Search.Jobs
import Cascade.Proofs.Search.Optimum
import Cascade.Proofs.Search.Partitions
import Cascade.Proofs.Search.Pins
import Cascade.Proofs.Search.Plans
import Cascade.Proofs.Search.Pruning
import Cascade.Proofs.Search.Requests
import Cascade.Proofs.Search.Runs
import Cascade.Proofs.Search.Scheduling
import Cascade.Proofs.Search.Scoping
import Cascade.Proofs.Search.Termination
import Cascade.Proofs.Search.Validity
import Cascade.Proofs.Semantics.Agreement
import Cascade.Proofs.Semantics.Columns
import Cascade.Proofs.Semantics.Elimination
import Cascade.Proofs.Semantics.Sortedness
import Cascade.Proofs.Sequence
import Cascade.Proofs.Stateful
import Cascade.Scalar.Traversal
import Cascade.Search.Default
import Cascade.Proofs.Properties.Keys
import Cascade.Proofs.Rules.Enumeration
import Cascade.Proofs.Schema.Integrity
import Cascade.Proofs.Semantics.Strictness
