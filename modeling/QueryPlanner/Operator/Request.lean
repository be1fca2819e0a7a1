import QueryPlanner.Operator.View

/-!
# What operators require of their children

An operator may try several ways of asking its children for properties. It counts its requests for
each property, and a request number stands for one combination. `PhysicalOperator.childRequirement`
puts together all that one request asks of one child.
-/

namespace QueryPlanner

namespace PhysicalOperator

/-- The number of requests of an aggregate: with grouping columns, hashing and a single host; a
global aggregate needs a single host. -/
def aggregateRequests (grouping : List Column) : Nat := if grouping.isEmpty then 1 else 2

/-- How many requests the operator makes for each property. -/
def requestCounts : PhysicalOperator → RequestCounts
  | .hashJoin _ _ => { distribution := 3 }
  | .nestedLoopJoin => { distribution := 2 }
  | .hashAggregate grouping _ | .streamAggregate grouping _ =>
    { distribution := aggregateRequests grouping }
  | .custom op => op.requests
  | _ => {}

/-- The number of requests. -/
def requestTotal (op : PhysicalOperator) : Nat := op.requestCounts.total

/-- The digits of a request number. -/
def requestDigits (op : PhysicalOperator) (request : Nat) : RequestDigits :=
  op.requestCounts.digits request

/-- The order in which the children are optimized. -/
def visitOrder (op : PhysicalOperator) (arity : Nat) : List Nat :=
  match op with
  | .custom op => op.visit.getD (List.range arity)
  | _ => List.range arity

/-- The columns an aggregate reads: its grouping columns and what is required beyond its own
aggregates, as far as its input has them. -/
def aggregateChildColumns (view : ExprView) (grouping aggregates : List Column)
    (required : ColumnSet) : ColumnSet :=
  ((KeyedSet.ofList grouping).union (required.diff (.ofList aggregates))).inter
    (view.childLogical 0).output

/-- The columns required of a child. -/
def childColumns (op : PhysicalOperator) (view : ExprView) (required : ColumnSet) (child : Nat) :
    ColumnSet :=
  match op with
  | .hashAggregate grouping aggregates | .streamAggregate grouping aggregates =>
    aggregateChildColumns view grouping aggregates required
  | _ => view.usualChildColumns required child

/-- The order required of a child. -/
def childOrder (op : PhysicalOperator) (required : SortOrder) (child request : Nat) : SortOrder :=
  match op with
  | .filter | .spool _ | .partitionSelector _ _ _ => required
  | .nestedLoopJoin => if child == 0 then required else .any
  | .streamAggregate grouping _ => .ascending grouping
  | .motion move => move.order
  | .custom data =>
    (CustomPhysical.answer? data.childOrder (op.requestDigits request).order child).getD .any
  | _ => .any

/-- The columns that the inner side of a hash join must be hashed on to meet the outer side: the
partners of the columns that the outer side is hashed on, or the inner keys when it is not hashed
on join keys. -/
def partnerKeys (outerKeys innerKeys : List Column) (outer : Option PlanProperties) :
    List Column :=
  match outer.bind (·.distribution.hashColumns?) with
  | none => innerKeys
  | some hashed =>
    (hashed.mapM fun column =>
      (outerKeys.idxOf? column).bind fun position => innerKeys[position]?).getD innerKeys

/-- The distribution an aggregate requires of its input. -/
def aggregateChildDistribution (grouping : List Column) (digit : Nat) : Distribution :=
  if grouping.isEmpty || decide (0 < digit) then .singleton else .hashedOn grouping

/-- The distribution required of a child, given what the children visited before it deliver. -/
def childDistribution (op : PhysicalOperator) (required : Distribution) (child : Nat)
    (siblings : List PlanProperties) (request : Nat) : Distribution :=
  let digit := (op.requestDigits request).distribution
  match op with
  | .filter | .sort _ | .spool _ | .partitionSelector _ _ _ => required
  | .hashJoin outerKeys innerKeys =>
    match digit, child with
    | 0, 0 => .hashedOn outerKeys
    | 0, _ => .hashedOn (partnerKeys outerKeys innerKeys siblings.head?)
    | 1, 0 => .any
    | 1, _ => .replicated
    | _, _ => .singleton
  | .nestedLoopJoin =>
    match digit, child with
    | 0, 0 => .any
    | 0, _ => .replicated
    | _, _ => .singleton
  | .hashAggregate grouping _ | .streamAggregate grouping _ =>
    aggregateChildDistribution grouping digit
  | .custom data => (CustomPhysical.answer? data.childDistribution digit child).getD .any
  | _ => .any

/-- The rewindability required of a child. -/
def childRewindability (op : PhysicalOperator) (required : Rewindability) (child request : Nat) :
    Rewindability :=
  match op with
  | .filter => required
  | .nestedLoopJoin => if child == 1 then .rewindable else .notRewindable
  | .custom data =>
    (CustomPhysical.answer? data.childRewindability (op.requestDigits request).rewindability
      child).getD .notRewindable
  | _ => .notRewindable

/-- The partition propagation required of a child: the scans of the parent's requirement that are
in the child. A selector requires nothing. -/
def childPartition (op : PhysicalOperator) (view : ExprView) (required : PartitionPropagation)
    (child : Nat) : PartitionPropagation :=
  match op with
  | .partitionSelector _ _ _ => .none
  | _ =>
    { scans := required.scans.restrictedTo (view.childLogical child).consumers.toList
      filters := required.filters }

/-- How strictly a child has to match the required order. -/
def orderMatching : PhysicalOperator → MatchDiscipline
  | .custom op => op.orderMatching
  | _ => .satisfy

/-- How strictly a child has to match the required distribution. The inner side of a co-located
hash join has to match exactly. -/
def distributionMatching (op : PhysicalOperator) (child request : Nat) : MatchDiscipline :=
  match op with
  | .hashJoin _ _ =>
    if (op.requestDigits request).distribution == 0 && child == 1 then .exact else .satisfy
  | .custom data => data.distributionMatching
  | _ => .satisfy

/-- How strictly a child has to match the required rewindability. -/
def rewindabilityMatching : PhysicalOperator → MatchDiscipline
  | .custom op => op.rewindabilityMatching
  | _ => .satisfy

/-- All that one request of the operator asks of a child, given the requirement on the operator and
what the children visited before deliver. The filters that those children offer to selectors are
passed on. -/
def childRequirement (op : PhysicalOperator) (view : ExprView) (parent : PlanRequirement)
    (child : Nat) (siblings : List PlanProperties) (request : Nat) : PlanRequirement :=
  let pushed := op.childPartition view parent.partition.spec child
  { columns := op.childColumns view parent.columns child
    order := ⟨op.childOrder parent.order.spec child request, op.orderMatching⟩
    distribution :=
      ⟨op.childDistribution parent.distribution.spec child siblings request,
        op.distributionMatching child request⟩
    rewindability :=
      ⟨op.childRewindability parent.rewindability.spec child request, op.rewindabilityMatching⟩
    partition :=
      ⟨{ pushed with
          filters := siblings.foldl (fun found sibling =>
            found.combine sibling.partition.filters) pushed.filters }, .satisfy⟩
    ctes := parent.ctes.allOptional }

end PhysicalOperator

end QueryPlanner
