import QueryPlanner.Operator.View

/-!
# Enforcement

When an alternative does not deliver what its context requires, enforcers can be put above it:
sorts, motions, spools and partition selectors. `EnforcementDecision.decide` says for each property
whether that is needed, and `EnforcementDecision.enforcers` gives the operators.
-/

namespace QueryPlanner

/-- Which enforcers are offered. -/
structure EnforcerSettings where
  /-- Whether an order-keeping gather is offered beside the plain one. -/
  gatherMerge : Bool := true
  deriving DecidableEq, Repr, Inhabited

namespace EnforcerSettings

/-- The sort that delivers an order. -/
def sorts (order : SortOrder) : List PhysicalOperator :=
  if order.isEmpty then [] else [.sort order]

/-- The motions that turn the delivered distribution into the required one. `order` is the order
that is required as well. -/
def motions (settings : EnforcerSettings) (required delivered : Distribution)
    (order : SortOrder) : List PhysicalOperator :=
  match required with
  | .singleton =>
    .motion .gather ::
      if !order.isEmpty && settings.gatherMerge then [.motion (.gatherMerge order)] else []
  | .hashed columns _ => [.motion (.redistribute columns)]
  | .replicated => [.motion .broadcast]
  | .random | .nonSingleton => if delivered.isPartitioned then [] else [.motion .random]
  | .any | .universal => []

/-- The spool that makes a result rewindable. -/
def spools (required : Rewindability) : List PhysicalOperator :=
  if required == .notRewindable then [] else [.spool required]

/-- A selector for every required scan that waits for one now. -/
def selectors (required delivered : PartitionMap) : List PhysicalOperator :=
  required.scans.entries.filterMap fun entry =>
    match delivered.get? entry.1 with
    | some found =>
      if entry.2.isConsumer && found.awaitsSelector then
        some (.partitionSelector entry.1 entry.2.relation entry.2.keys)
      else none
    | none => none

end EnforcerSettings

namespace PhysicalOperator

/-- The properties that may not be enforced above the operator. -/
def prohibitions : PhysicalOperator → List EnforcedProperty
  | .custom op => op.prohibited
  | _ => []

end PhysicalOperator

/-- For each property, whether it has to be enforced above an alternative. -/
structure EnforcementDecision where
  order : Enforcement
  distribution : Enforcement
  rewindability : Enforcement
  partition : Enforcement
  deriving DecidableEq, Repr

namespace EnforcementDecision

/-- Decide on every property of an alternative of a relation. The order of at most one row is never
enforced. -/
def decide (op : PhysicalOperator) (logical : RelationProperties) (required : PlanRequirement)
    (delivered : PlanProperties) : EnforcementDecision :=
  let consider (property : EnforcedProperty) (usual : Enforcement) : Enforcement :=
    if op.prohibitions.contains property then .prohibited else usual
  { order :=
      if logical.rowBound.atMostOne then .unnecessary
      else consider .order (required.order.enforcement delivered.order)
    distribution := consider .distribution
      (required.distribution.enforcement delivered.distribution)
    rewindability := consider .rewindability
      (required.rewindability.enforcement delivered.rewindability)
    partition := consider .partition
      (required.partition.enforcement delivered.partition) }

/-- The decisions in the order of the properties. -/
def all (decision : EnforcementDecision) : List Enforcement :=
  [decision.order, decision.distribution, decision.rewindability, decision.partition]

/-- Whether some property is lacking and may not be enforced. -/
def anyProhibited (decision : EnforcementDecision) : Bool :=
  decision.all.any Enforcement.isProhibited

/-- The alternative itself is costed only when nothing needs enforcing. -/
def allowsCosting (decision : EnforcementDecision) : Bool :=
  decision.all.all Enforcement.allowsCosting

/-- The enforcers for every property that needs one. -/
def enforcers (decision : EnforcementDecision) (settings : EnforcerSettings)
    (required : PlanRequirement) (delivered : PlanProperties) : List PhysicalOperator :=
  let whenRequired (need : Enforcement) (offers : List PhysicalOperator) :=
    if need == .required then offers else []
  whenRequired decision.order (EnforcerSettings.sorts required.order.spec) ++
    whenRequired decision.distribution
      (settings.motions required.distribution.spec delivered.distribution required.order.spec) ++
    whenRequired decision.rewindability (EnforcerSettings.spools required.rewindability.spec) ++
    whenRequired decision.partition
      (EnforcerSettings.selectors required.partition.spec.scans delivered.partition.scans)

end EnforcementDecision

end QueryPlanner
