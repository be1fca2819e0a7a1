import QueryPlanner.Operator.Logical

/-!
# Physical operators

Implementations of the relational algebra, and the enforcers that repair the properties of a plan:
sorts, motions, spools and partition selectors.
-/

namespace QueryPlanner

/-- A movement of rows between hosts. -/
inductive Motion where
  | gather
  /-- Gather that keeps an order. -/
  | gatherMerge (order : SortOrder)
  | redistribute (columns : List Column)
  | broadcast
  | random
  deriving DecidableEq, Repr

namespace Motion

/-- The kind of a motion. -/
def kind : Motion → MotionKind
  | .gather => .gather
  | .gatherMerge _ => .gatherMerge
  | .redistribute _ => .redistribute
  | .broadcast => .broadcast
  | .random => .random

/-- The distribution a motion delivers. -/
def target : Motion → Distribution
  | .gather | .gatherMerge _ => .singleton
  | .redistribute columns => .hashedOn columns
  | .broadcast => .replicated
  | .random => .random

/-- The order a motion keeps. -/
def order : Motion → SortOrder
  | .gatherMerge order => order
  | _ => .any

end Motion

/-- A physical operator. -/
inductive PhysicalOperator where
  | tableScan (access : TableAccess)
  | indexScan (access : TableAccess) (index : TableIndex)
  /-- Children: relation, predicate. -/
  | filter
  /-- Probes with the first child and builds a table from the second. Children: outer, inner,
  predicate. -/
  | hashJoin (outerKeys innerKeys : List Column)
  /-- Reads the second child once for every row of the first. Children: outer, inner, predicate. -/
  | nestedLoopJoin
  | hashAggregate (grouping aggregates : List Column)
  /-- Aggregates input that is sorted on the grouping columns. -/
  | streamAggregate (grouping aggregates : List Column)
  | sort (order : SortOrder)
  | motion (move : Motion)
  /-- Keeps its input so that it can be read again. -/
  | spool (rewindability : Rewindability)
  /-- Selects the partitions that a scan below reads. -/
  | partitionSelector (scan : ScanId) (relation : Nat) (keys : List Column)
  | custom (op : CustomPhysical)

namespace PhysicalOperator

/-- The name of the kind. -/
def kind : PhysicalOperator → String
  | .tableScan _ => "TableScan"
  | .indexScan _ _ => "IndexScan"
  | .filter => "Filter"
  | .hashJoin _ _ => "HashJoin"
  | .nestedLoopJoin => "NLJoin"
  | .hashAggregate _ _ => "HashAgg"
  | .streamAggregate _ _ => "StreamAgg"
  | .sort _ => "Sort"
  | .motion move => move.kind.name
  | .spool _ => "Spool"
  | .partitionSelector _ _ _ => "PartitionSelector"
  | .custom _ => CustomPhysical.kind

/-- The number of children, when it is fixed. -/
def arity : PhysicalOperator → Option Nat
  | .tableScan _ | .indexScan _ _ => some 0
  | .filter => some 2
  | .hashJoin _ _ | .nestedLoopJoin => some 3
  | .hashAggregate _ _ | .streamAggregate _ _ => some 1
  | .sort _ | .motion _ | .spool _ | .partitionSelector _ _ _ => some 1
  | .custom op => op.arity

/-- The common table expression that the operator itself uses. -/
def cte : PhysicalOperator → Option CteUse
  | .custom op => op.cte
  | _ => none

/-- Equality of physical operators. -/
def same : PhysicalOperator → PhysicalOperator → Bool
  | .tableScan left, .tableScan right => left.same right
  | .indexScan left leftIndex, .indexScan right rightIndex =>
    left.same right && leftIndex == rightIndex
  | .filter, .filter => true
  | .hashJoin outer inner, .hashJoin otherOuter otherInner =>
    outer == otherOuter && inner == otherInner
  | .nestedLoopJoin, .nestedLoopJoin => true
  | .hashAggregate grouping aggregates, .hashAggregate otherGrouping otherAggregates =>
    grouping == otherGrouping && aggregates == otherAggregates
  | .streamAggregate grouping aggregates, .streamAggregate otherGrouping otherAggregates =>
    grouping == otherGrouping && aggregates == otherAggregates
  | .sort left, .sort right => left == right
  | .motion left, .motion right => left == right
  | .spool left, .spool right => left == right
  | .partitionSelector scan relation keys, .partitionSelector otherScan otherRelation otherKeys =>
    scan == otherScan && relation == otherRelation && keys == otherKeys
  | .custom left, .custom right => left.same right
  | _, _ => false

/-- The kind of property the operator enforces, if it is an enforcer. -/
def enforcerKind? : PhysicalOperator → Option EnforcerKind
  | .sort _ => some .sort
  | .motion move => some (.motion move.kind)
  | .spool _ => some .spool
  | .partitionSelector _ _ _ => some .partitionSelector
  | .custom op => op.enforcer
  | _ => none

/-- Whether the operator enforces a property. -/
def isEnforcer (op : PhysicalOperator) : Bool := op.enforcerKind?.isSome

/-- Whether the operator joins relations. -/
def isJoin : PhysicalOperator → Bool
  | .hashJoin _ _ | .nestedLoopJoin => true
  | .custom op => op.join
  | _ => false

/-- Whether the operator joins through a hash table. -/
def isHashJoin : PhysicalOperator → Bool
  | .hashJoin _ _ => true
  | .custom op => op.hashJoin
  | _ => false

/-- Whether the operator runs its children one after the other. -/
def isSequence : PhysicalOperator → Bool
  | .custom op => op.sequence
  | _ => false

/-- Whether the operator is part of an aggregate in several steps. -/
def isMultiStageAggregate : PhysicalOperator → Bool
  | .custom op => op.multiStageAggregate
  | _ => false

/-- The level at which the operator is optimized. Hash joins come first. -/
def level (op : PhysicalOperator) : OptimizationLevel :=
  let usual := if op.isHashJoin then OptimizationLevel.high else .low
  match op with
  | .custom op => op.level.getD usual
  | _ => usual

/-- Whether the operator lets itself be optimized for the given parent. -/
def shouldOptimize (op : PhysicalOperator) (parent : Option PhysicalOperator) : Bool :=
  match op with
  | .custom op => !op.veto.applies (parent.map kind)
  | _ => true

/-- Whether the operator accepts a combination of costed children. -/
def acceptsChildren : PhysicalOperator → Bool
  | .custom op => op.acceptsChildren
  | _ => true

end PhysicalOperator

end QueryPlanner
