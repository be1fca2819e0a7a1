import QueryPlanner.Rule.Join

/-!
# Implementations of the logical operators

Every logical operator of the algebra has one or two physical counterparts over the same children. A
hash join needs at least one column pair that the predicate equates.
-/

namespace QueryPlanner

namespace Rule

/-- An implementation of the operators of one kind over a number of child groups that looks at the
operator only. -/
def implementing (name kind : String) (arity : Nat)
    (implement : LogicalOperator → List PhysicalOperator) : Rule where
  name := name
  kind := .implementation
  pattern := .overLeaves kind arity
  apply _ bound :=
    ((bound.op?.bind (·.logical?)).map implement).getD [] |>.map fun op =>
      .over (.physical op) bound.childGroups

/-- A table access as a full scan. -/
def tableScan : Rule :=
  implementing "ImplTableScan" "Get" 0 fun
    | .get access => [.tableScan access]
    | _ => []

/-- A table access as one scan for each index of the table. -/
def indexScan : Rule :=
  implementing "ImplIndexScan" "Get" 0 fun
    | .get access => access.table.indexes.map (.indexScan access)
    | _ => []

/-- A selection as a filter. -/
def filter : Rule := implementing "ImplFilter" "Select" 2 fun _ => [.filter]

/-- A grouping aggregate with a hash table. -/
def hashAggregate : Rule :=
  implementing "ImplHashAggregate" "GbAgg" 1 fun
    | .groupBy grouping aggregates => [.hashAggregate grouping aggregates]
    | _ => []

/-- A grouping aggregate over sorted input. -/
def streamAggregate : Rule :=
  implementing "ImplStreamAggregate" "GbAgg" 1 fun
    | .groupBy grouping aggregates => [.streamAggregate grouping aggregates]
    | _ => []

/-- A join as a hash join, if its predicate equates columns of the two sides. -/
def hashJoin : Rule where
  name := "ImplHashJoin"
  kind := .implementation
  pattern := joinPattern
  apply memo bound :=
    match bound.childGroups with
    | outer :: inner :: _ =>
      let keys := (bound.predicate 2).joinKeys (memo.logical outer).output
        (memo.logical inner).output
      match keys with
      | [] => []
      | keys =>
        [.over (.physical (.hashJoin (keys.map Prod.fst) (keys.map Prod.snd))) bound.childGroups]
    | _ => []

/-- A join as a nested-loop join. -/
def nestedLoopJoin : Rule where
  name := "ImplNestedLoopJoin"
  kind := .implementation
  pattern := joinPattern
  apply _ bound := [.over (.physical .nestedLoopJoin) bound.childGroups]

end Rule

/-- All rules, in the order in which they are applied. -/
def standardRules : List Rule :=
  [.joinCommutativity, .joinAssociativity, .predicatePushdown, .tableScan, .indexScan, .filter,
    .hashJoin, .nestedLoopJoin, .hashAggregate, .streamAggregate]

/-- The rule with a name. -/
def standardRule? (name : String) : Option Rule := standardRules.find? fun rule => rule.name == name

end QueryPlanner
