import QueryPlanner.Property.Cte
import QueryPlanner.Property.Distribution
import QueryPlanner.Property.Group
import QueryPlanner.Property.Partition
import QueryPlanner.Property.Rewindability
import QueryPlanner.Property.SortOrder

/-!
# Requirements and deliveries of whole plans

A `PlanRequirement` collects all that a parent asks of a group, `PlanProperties` all that a plan
delivers. `PlanRequirement.isSatisfiedBy` compares the two.
-/

namespace QueryPlanner

/-- The physical properties a plan delivers. -/
structure PlanProperties where
  order : SortOrder := .any
  distribution : Distribution := .singleton
  rewindability : Rewindability := .notRewindable
  partition : PartitionPropagation := .none
  ctes : CteMap := .empty
  deriving DecidableEq, Inhabited

/-- The text of delivered properties. -/
def PlanProperties.text (delivered : PlanProperties) : String :=
  "order=" ++ delivered.order.text ++ " dist=" ++ delivered.distribution.text ++
    " rewind=" ++ delivered.rewindability.text ++ " part=" ++ delivered.partition.scans.text

/-- What a parent requires of a group: the columns it reads and the physical properties it needs. -/
structure PlanRequirement where
  columns : ColumnSet := .empty
  order : Enforced SortOrder := ⟨.any, .satisfy⟩
  distribution : Enforced Distribution := ⟨.any, .satisfy⟩
  rewindability : Enforced Rewindability := ⟨.notRewindable, .satisfy⟩
  partition : Enforced PartitionPropagation := ⟨.none, .satisfy⟩
  ctes : CteRequirement := .empty
  deriving DecidableEq, Inhabited

namespace PlanRequirement

/-- Whether a plan for a relation meets the requirement. The order does not matter when there is
at most one row. -/
def isSatisfiedBy (required : PlanRequirement) (logical : RelationProperties)
    (delivered : PlanProperties) : Bool :=
  required.columns.subset logical.output &&
    (logical.rowBound.atMostOne || required.order.isSatisfiedBy delivered.order) &&
    required.distribution.isSatisfiedBy delivered.distribution &&
    required.rewindability.isSatisfiedBy delivered.rewindability &&
    required.partition.isSatisfiedBy delivered.partition &&
    delivered.ctes.satisfies required.ctes

/-- The text of a requirement. -/
def text (required : PlanRequirement) : String :=
  "cols=" ++ ColumnSet.text required.columns ++ " order=" ++ required.order.text ++
    " dist=" ++ required.distribution.text ++ " rewind=" ++ required.rewindability.text ++
    " part=" ++ required.partition.text ++ " cte=" ++ required.ctes.text

end PlanRequirement

/-- One index for each physical property an operator makes several requests for. -/
structure RequestDigits where
  order : Nat
  distribution : Nat
  rewindability : Nat
  partition : Nat
  deriving DecidableEq, Repr

/-- How many requests an operator makes for each physical property. -/
structure RequestCounts where
  order : Nat := 1
  distribution : Nat := 1
  rewindability : Nat := 1
  partition : Nat := 1
  deriving DecidableEq, Repr, Inhabited

namespace RequestCounts

/-- The number of combinations of requests, a count of zero meaning one. It is counted in 64
bits. -/
def total (counts : RequestCounts) : Nat :=
  (max counts.order 1 * max counts.distribution 1 * max counts.rewindability 1 *
    max counts.partition 1) % Nat.pow 2 64

/-- The digits of a request number in the mixed base of the counts; the order varies fastest. -/
def digits (counts : RequestCounts) (request : Nat) : RequestDigits :=
  let afterOrder := request / max counts.order 1
  let afterDistribution := afterOrder / max counts.distribution 1
  let afterRewindability := afterDistribution / max counts.rewindability 1
  { order := request % max counts.order 1
    distribution := afterOrder % max counts.distribution 1
    rewindability := afterDistribution % max counts.rewindability 1
    partition := afterRewindability % max counts.partition 1 }

end RequestCounts

end QueryPlanner
