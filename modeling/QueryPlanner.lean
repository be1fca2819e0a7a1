import QueryPlanner.Search
import QueryPlanner.Proofs.Memo.Deduplication
import QueryPlanner.Proofs.Memo.Deriving
import QueryPlanner.Proofs.Memo.Homes
import QueryPlanner.Proofs.Memo.Levels
import QueryPlanner.Proofs.Memo.NormalForm
import QueryPlanner.Proofs.Memo.UnionFind
import QueryPlanner.Proofs.Memo.Upkeep
import QueryPlanner.Proofs.Optimizer.Improvement
import QueryPlanner.Proofs.Optimizer.TablePlans
import QueryPlanner.Proofs.Optimizer.Termination
import QueryPlanner.Proofs.Plan.Choices
import QueryPlanner.Proofs.Plan.Maximum
import QueryPlanner.Proofs.Plan.Pruning
import QueryPlanner.Proofs.Plan.Selectors
import QueryPlanner.Proofs.Property.Enforcement
import QueryPlanner.Proofs.Rule.Odometer
import QueryPlanner.Proofs.Search.Acyclic
import QueryPlanner.Proofs.Search.Columns
import QueryPlanner.Proofs.Search.Properties
import QueryPlanner.Proofs.Search.Stages
import QueryPlanner.Proofs.Search.Answers
import QueryPlanner.Proofs.Search.Undisturbed
import QueryPlanner.Proofs.Property.Grouping
import QueryPlanner.Proofs.Optimizer.Declining
import QueryPlanner.Proofs.Search.Budget
import QueryPlanner.Proofs.Optimizer.Requests
import QueryPlanner.Proofs.Residual
import QueryPlanner.Proofs.Search.Closure
import QueryPlanner.Proofs.Search.Ending
import QueryPlanner.Proofs.Meaning.Kind
import QueryPlanner.Proofs.Search.Fixpoint
import QueryPlanner.Proofs.Plan.Soundness
