import QueryPlanner.Error
import QueryPlanner.Estimate

/-!
# Operators described by data

Besides the operators of the relational algebra a planner accepts operators that are described by
a record of answers: what they deliver, what they ask of their children, when they refuse to be
optimized. `CustomLogical`, `CustomScalar` and `CustomPhysical` are these records.
-/

namespace QueryPlanner

/-- How promising an alternative is as the source of the statistics of its group. -/
inductive StatisticsPromise where
  | none
  | low
  | medium
  | high
  deriving DecidableEq, Repr, Inhabited

/-- The strength of a promise. -/
def StatisticsPromise.rank : StatisticsPromise → Nat
  | .none => 0
  | .low => 1
  | .medium => 2
  | .high => 3

/-- The weaker of a promise and a limit. -/
def StatisticsPromise.cap (limit promise : StatisticsPromise) : StatisticsPromise :=
  if limit.rank < promise.rank then limit else promise

/-- Alternatives of a higher level are optimized before the others of their group. -/
inductive OptimizationLevel where
  | low
  | high
  deriving DecidableEq, Repr, Inhabited

namespace OptimizationLevel

/-- The name of a level. -/
def name : OptimizationLevel → String
  | .low => "Low"
  | .high => "High"

/-- The level with a name, the low one if there is none. -/
def ofName (name : String) : OptimizationLevel := if name == "High" then .high else .low

/-- The higher of two levels. -/
def max : OptimizationLevel → OptimizationLevel → OptimizationLevel
  | .low, .low => .low
  | _, _ => .high

/-- The levels from a given one down to the lowest. -/
def downward : OptimizationLevel → List OptimizationLevel
  | .high => [.high, .low]
  | .low => [.low]

end OptimizationLevel

/-- The ways to move rows between hosts. -/
inductive MotionKind where
  /-- All rows to one host. -/
  | gather
  /-- All rows to one host, keeping an order. -/
  | gatherMerge
  /-- Each row to the host of its hash. -/
  | redistribute
  /-- Every row to every host. -/
  | broadcast
  /-- Each row to some host. -/
  | random
  deriving DecidableEq, Repr, Inhabited

/-- The name of a motion. -/
def MotionKind.name : MotionKind → String
  | .gather => "Gather"
  | .gatherMerge => "GatherMerge"
  | .redistribute => "Redistribute"
  | .broadcast => "Broadcast"
  | .random => "RandomMotion"

/-- The ways to enforce a property. -/
inductive EnforcerKind where
  | sort
  | motion (kind : MotionKind)
  | spool
  | partitionSelector
  deriving DecidableEq, Repr

/-- Every kind of enforcer. -/
def EnforcerKind.all : List EnforcerKind :=
  [.sort, .spool, .partitionSelector, .motion .gather, .motion .gatherMerge, .motion .redistribute,
    .motion .broadcast, .motion .random]

/-- The name of a kind of enforcer. -/
def EnforcerKind.name : EnforcerKind → String
  | .sort => "Sort"
  | .motion kind => kind.name
  | .spool => "Spool"
  | .partitionSelector => "PartitionSelector"

/-- A common table expression that an operator itself produces or consumes. -/
structure CteUse where
  cte : CteId
  role : CteRole
  deriving DecidableEq, Repr

/-- A logical operator described by data. -/
structure CustomLogical where
  tag : Nat
  /-- The columns it adds to those of its relational children. -/
  columns : ColumnSet := .empty
  outerReferences : ColumnSet := .empty
  rowBound : RowBound := {}
  /-- The partitioned scans it adds to those of its relational children, as they were listed. -/
  consumers : List ScanId := []
  promise : StatisticsPromise := .high
  join : Bool := false
  /-- Whether exchanging children changes the result. -/
  orderSensitive : Bool := true
  /-- The number of children, when it is fixed. -/
  arity : Option Nat := none
  cte : Option CteUse := none
  /-- The rows it adds to those of its children. -/
  rows : Float := 0.0
  /-- Whether it refuses to derive statistics. -/
  refusesStatistics : Bool := false

namespace CustomLogical

/-- The name of the kind. -/
def kind : String := "XL"

/-- Equality of every field. A number of rows that is not a number differs even from itself. -/
def same (left right : CustomLogical) : Bool :=
  left.tag == right.tag && left.columns == right.columns &&
    left.outerReferences == right.outerReferences && left.rowBound == right.rowBound &&
    left.consumers == right.consumers && left.promise == right.promise &&
    left.join == right.join && left.orderSensitive == right.orderSensitive &&
    left.arity == right.arity && left.cte == right.cte &&
    left.rows == right.rows && left.refusesStatistics == right.refusesStatistics

/-- The logical properties over the given children. -/
def properties (op : CustomLogical) (children : List GroupProperties) : RelationProperties :=
  let relations := children.filterMap (·.relation?)
  { output := relations.foldl (fun found child => found.union child.output) op.columns
    outerReferences := op.outerReferences
    rowBound := op.rowBound
    joinDepth := relations.foldl (fun found child => found + child.joinDepth) 0 +
      if op.join then 1 else 0
    consumers := relations.foldl (fun found child => found.union child.consumers)
      (.ofList op.consumers) }

end CustomLogical

/-- A scalar operator described by data. -/
structure CustomScalar where
  tag : Nat
  columns : ColumnSet := .empty
  conjuncts : Nat := 1
  arity : Option Nat := none
  cte : Option CteUse := none
  deriving DecidableEq

namespace CustomScalar

/-- The name of the kind. -/
def kind : String := "XS"

/-- The logical properties over the given children: its own columns and those of scalar
children. -/
def properties (op : CustomScalar) (children : List GroupProperties) : ScalarProperties :=
  { used := (children.filterMap (·.scalar?)).foldl (fun found child => found.union child.used)
      op.columns
    conjuncts := op.conjuncts }

end CustomScalar

/-- When an alternative refuses to be optimized. -/
inductive Veto where
  | never
  | always
  /-- When no operator asks for it. -/
  | root
  /-- When some operator asks for it. -/
  | child
  /-- When an operator of that kind asks for it. -/
  | below (kind : String)
  deriving DecidableEq, Repr, Inhabited

/-- The veto with a name. The empty name is that of no veto, and a name that stands for nothing else
is the kind of a parent. -/
def Veto.ofName : String → Veto
  | "" => .never
  | "always" => .always
  | "root" => .root
  | "child" => .child
  | kind => .below kind

/-- Whether the veto applies below the given parent. -/
def Veto.applies (veto : Veto) (parent : Option String) : Bool :=
  match veto with
  | .never => false
  | .always => true
  | .root => parent.isNone
  | .child => parent.isSome
  | .below kind => parent == some kind

/-- The properties that can be enforced above an alternative. -/
inductive EnforcedProperty where
  | order
  | distribution
  | rewindability
  | partition
  deriving DecidableEq, Repr, Inhabited

/-- A physical operator described by data. A missing answer is the one that most operators give. -/
structure CustomPhysical where
  tag : Nat
  cost : Float := 1.0
  arity : Option Nat := none
  cte : Option CteUse := none
  /-- What it delivers, whatever its children deliver. -/
  distribution : Option Distribution := none
  order : Option SortOrder := none
  rewindability : Option Rewindability := none
  partition : Option PartitionPropagation := none
  requests : RequestCounts := {}
  /-- What is required of each child, by the digit of the request and the child. -/
  childDistribution : List (List Distribution) := []
  childOrder : List (List SortOrder) := []
  childRewindability : List (List Rewindability) := []
  distributionMatching : MatchDiscipline := .satisfy
  orderMatching : MatchDiscipline := .satisfy
  rewindabilityMatching : MatchDiscipline := .satisfy
  /-- The order in which the children are optimized. -/
  visit : Option (List Nat) := none
  enforcer : Option EnforcerKind := none
  join : Bool := false
  hashJoin : Bool := false
  sequence : Bool := false
  multiStageAggregate : Bool := false
  level : Option OptimizationLevel := none
  veto : Veto := .never
  /-- Whether a combination of costed children is accepted. -/
  acceptsChildren : Bool := true
  /-- The properties that may not be enforced above it, as they were listed. -/
  prohibited : List EnforcedProperty := []

namespace CustomPhysical

/-- The name of the kind. -/
def kind : String := "XP"

/-- Equality of every field. -/
def same (left right : CustomPhysical) : Bool :=
  left.tag == right.tag && Estimate.sameLiteral left.cost right.cost &&
    left.arity == right.arity && left.cte == right.cte &&
    left.distribution == right.distribution && left.order == right.order &&
    left.rewindability == right.rewindability && left.partition == right.partition &&
    left.requests == right.requests && left.childDistribution == right.childDistribution &&
    left.childOrder == right.childOrder && left.childRewindability == right.childRewindability &&
    left.distributionMatching == right.distributionMatching &&
    left.orderMatching == right.orderMatching &&
    left.rewindabilityMatching == right.rewindabilityMatching &&
    left.visit == right.visit && left.enforcer == right.enforcer && left.join == right.join &&
    left.hashJoin == right.hashJoin && left.sequence == right.sequence &&
    left.multiStageAggregate == right.multiStageAggregate && left.level == right.level &&
    left.veto == right.veto && left.acceptsChildren == right.acceptsChildren &&
    left.prohibited == right.prohibited

/-- The answer of a table for a request digit and a child. -/
def answer? {α : Type} (table : List (List α)) (digit child : Nat) : Option α :=
  (table[digit]?).bind fun row => row[child]?

end CustomPhysical

end QueryPlanner
