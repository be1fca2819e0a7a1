import QueryPlanner.Operator.View

/-!
# What operators deliver

The properties a plan delivers follow from its operator and from what the plans of its children
deliver.
-/

namespace QueryPlanner

namespace PhysicalOperator

/-- The order the operator delivers. -/
def deliveredOrder (op : PhysicalOperator) (view : ExprView) : SortOrder :=
  match op with
  | .indexScan _ index => index.order
  | .filter | .nestedLoopJoin | .spool _ | .partitionSelector _ _ _ => view.childOrder 0
  | .streamAggregate grouping _ => (view.childOrder 0).restrictedTo (.ofList grouping)
  | .sort order => order
  | .motion (.gatherMerge _) => view.childOrder 0
  | .custom data => data.order.getD .any
  | _ => .any

/-- The distribution that is passed up from the first relational child. -/
def passedDistribution (view : ExprView) : Distribution :=
  (view.firstRelationalPlan?.map (·.distribution)).getD .singleton

/-- The distribution the operator delivers. A hash join over a replicated outer side delivers the
distribution of the inner side. -/
def deliveredDistribution (op : PhysicalOperator) (view : ExprView) : Distribution :=
  match op with
  | .tableScan access | .indexScan access _ => access.table.distribution
  | .hashJoin _ _ =>
    match view.childPlan? 0 with
    | none => .singleton
    | some outer =>
      match outer.distribution with
      | .replicated | .universal => ((view.childPlan? 1).map (·.distribution)).getD .singleton
      | other => other
  | .motion move => move.target
  | .custom data => data.distribution.getD (passedDistribution view)
  | _ => passedDistribution view

/-- The rewindability that is passed up from the first relational child. -/
def passedRewindability (view : ExprView) : Rewindability :=
  (view.firstRelationalPlan?.map (·.rewindability)).getD .notRewindable

/-- The rewindability the operator delivers. Scans and sorts can be read again. -/
def deliveredRewindability (op : PhysicalOperator) (view : ExprView) : Rewindability :=
  match op with
  | .tableScan _ | .indexScan _ _ | .sort _ => .rewindable
  | .motion _ => .notRewindable
  | .spool rewindability => rewindability
  | .custom data => data.rewindability.getD (passedRewindability view)
  | _ => passedRewindability view

/-- The partition propagation of all children together. -/
def combinedPartition (view : ExprView) : PartitionPropagation :=
  view.childPlans.foldl (fun found child =>
    { scans := found.scans.combine child.partition.scans
      filters := found.filters.combine child.partition.filters }) .none

/-- The partition propagation the operator delivers. A selector resolves its scan. -/
def deliveredPartition (op : PhysicalOperator) (view : ExprView) : PartitionPropagation :=
  match op with
  | .tableScan access | .indexScan access _ => access.partition
  | .partitionSelector scan _ _ =>
    let below := ((view.childPlan? 0).map (·.partition)).getD .none
    { below with scans := below.scans.withSelector scan 0 }
  | .custom data => data.partition.getD (combinedPartition view)
  | _ => combinedPartition view

/-- The common table expressions of all children together, and the operator's own. -/
def deliveredCtes (op : PhysicalOperator) (view : ExprView) : CteMap :=
  let below := view.childPlans.foldl (fun found child => found.combine child.ctes) CteMap.empty
  match op.cte with
  | some use => below.combine (.single use.cte use.role)
  | none => below

/-- All that the operator delivers over the plans of its children. -/
def delivered (op : PhysicalOperator) (view : ExprView) : PlanProperties :=
  { order := op.deliveredOrder view
    distribution := op.deliveredDistribution view
    rewindability := op.deliveredRewindability view
    partition := op.deliveredPartition view
    ctes := op.deliveredCtes view }

end PhysicalOperator

end QueryPlanner
