import QueryPlanner.Catalog
import QueryPlanner.Operator.Custom
import QueryPlanner.Scalar

/-!
# Logical and scalar operators

The relational algebra that is planned: table access, selection, inner joins and grouping
aggregates. Predicates are scalar operators in groups of their own; a selection and a join take
theirs as last child.
-/

namespace QueryPlanner

/-- A scalar operator. -/
inductive ScalarOperator where
  /-- A whole predicate. -/
  | predicate (condition : Scalar)
  | custom (op : CustomScalar)

namespace ScalarOperator

/-- The name of the kind. -/
def kind : ScalarOperator → String
  | .predicate _ => "Predicate"
  | .custom _ => CustomScalar.kind

/-- The number of children, when it is fixed. -/
def arity : ScalarOperator → Option Nat
  | .predicate _ => some 0
  | .custom op => op.arity

/-- The common table expression that the operator itself uses. -/
def cte : ScalarOperator → Option CteUse
  | .predicate _ => none
  | .custom op => op.cte

/-- Equality of scalar operators. -/
def same : ScalarOperator → ScalarOperator → Bool
  | .predicate left, .predicate right => left.same right
  | .custom left, .custom right => left == right
  | _, _ => false

/-- The predicate that the operator holds. -/
def predicate? : ScalarOperator → Option Scalar
  | .predicate condition => some condition
  | .custom _ => none

/-- The logical properties over the given children. -/
def properties (op : ScalarOperator) (children : List GroupProperties) : ScalarProperties :=
  match op with
  | .predicate condition => condition.properties
  | .custom op => op.properties children

end ScalarOperator

/-- A logical operator. -/
inductive LogicalOperator where
  /-- The rows of a base table. -/
  | get (access : TableAccess)
  /-- The rows of a relation for which a predicate holds. Children: relation, predicate. -/
  | select
  /-- The pairs of rows for which a predicate holds. Children: outer, inner, predicate. -/
  | innerJoin
  /-- One row for each combination of the grouping columns, with one new column for each
  aggregate. -/
  | groupBy (grouping aggregates : List Column)
  | custom (op : CustomLogical)

namespace LogicalOperator

/-- The name of the kind. -/
def kind : LogicalOperator → String
  | .get _ => "Get"
  | .select => "Select"
  | .innerJoin => "InnerJoin"
  | .groupBy _ _ => "GbAgg"
  | .custom _ => CustomLogical.kind

/-- The number of children, when it is fixed. -/
def arity : LogicalOperator → Option Nat
  | .get _ => some 0
  | .select => some 2
  | .innerJoin => some 3
  | .groupBy _ _ => some 1
  | .custom op => op.arity

/-- The common table expression that the operator itself uses. -/
def cte : LogicalOperator → Option CteUse
  | .custom op => op.cte
  | _ => none

/-- Whether exchanging children changes the result. -/
def orderSensitive : LogicalOperator → Bool
  | .custom op => op.orderSensitive
  | _ => true

/-- Equality of logical operators. -/
def same : LogicalOperator → LogicalOperator → Bool
  | .get left, .get right => left.same right
  | .select, .select => true
  | .innerJoin, .innerJoin => true
  | .groupBy grouping aggregates, .groupBy otherGrouping otherAggregates =>
    grouping == otherGrouping && aggregates == otherAggregates
  | .custom left, .custom right => left.same right
  | _, _ => false

/-- Whether the operator joins relations. -/
def isJoin : LogicalOperator → Bool
  | .innerJoin => true
  | .custom op => op.join
  | _ => false

/-- How promising the operator is as a source of statistics. -/
def promise : LogicalOperator → StatisticsPromise
  | .custom op => op.promise
  | _ => .high

/-- The properties of a relational child, those of an empty relation when there is none. -/
def relationAt (children : List GroupProperties) (index : Nat) : RelationProperties :=
  ((children[index]?).bind (·.relation?)).getD {}

/-- The logical properties over the given children. -/
def properties (op : LogicalOperator) (children : List GroupProperties) : RelationProperties :=
  match op with
  | .get access =>
    { output := .ofList access.columns
      consumers := match access.partitionScan? with
        | some scan => KeyedSet.empty.insert scan
        | none => .empty }
  | .select => relationAt children 0
  | .innerJoin =>
    let outer := relationAt children 0
    let inner := relationAt children 1
    { output := outer.output.union inner.output
      outerReferences := outer.outerReferences.union inner.outerReferences
      rowBound := outer.rowBound.times inner.rowBound
      joinDepth := outer.joinDepth + inner.joinDepth + 1
      consumers := outer.consumers.union inner.consumers }
  | .groupBy grouping aggregates =>
    let child := relationAt children 0
    { output := .ofList (grouping ++ aggregates)
      outerReferences := child.outerReferences
      rowBound := if grouping.isEmpty then ⟨some 1⟩ else child.rowBound
      joinDepth := child.joinDepth
      consumers := child.consumers }
  | .custom op => op.properties children

end LogicalOperator

end QueryPlanner
