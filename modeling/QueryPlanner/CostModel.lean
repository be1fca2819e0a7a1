import QueryPlanner.Cost
import QueryPlanner.Operator.View

/-!
# Cost models

A cost model turns an alternative and a summary of its inputs into a cost that includes the costs
of the children. `CostModel.calibrated` charges each operator for the rows and bytes it touches,
times the number of executions, with units that can be set; `CostModel.unit` charges every node a
constant.
-/

namespace QueryPlanner

/-- How plans are costed. -/
structure CostModel where
  /-- The cost of an alternative, including its children. -/
  cost : ExprView → CostingInputs → Cost
  /-- A charge that a node may pay whatever its inputs are. Lower bounds leave it out once. -/
  fixedNodeCost : Cost := .zero

/-- The units of the calibrated model. -/
structure CostUnits where
  scanStart : Float := 431.0
  tableScan : Float := 5.50e-7
  indexFilter : Float := 1.65e-4
  indexScanRow : Float := 3.66e-6
  indexScanRandom : Float := 6.0
  filterColumn : Float := 3.29e-5
  outputRow : Float := 1.86e-6
  gatherSend : Float := 4.58e-6
  gatherReceive : Float := 2.20e-6
  redistributeSend : Float := 2.33e-6
  redistributeReceive : Float := 8.0e-7
  broadcastSend : Float := 4.965e-5
  broadcastReceive : Float := 1.35e-6
  joinFeedColumn : Float := 8.69e-5
  joinFeedWidth : Float := 6.09e-7
  joinOutput : Float := 3.50e-6
  /-- The bytes on the build side above which a hash join spills. -/
  hashJoinSpillThreshold : Float := 52428800.0
  hashTableStart : Float := 500.0
  hashTableColumn : Float := 5.0e-5
  hashTableWidth : Float := 3.0e-6
  hashingWidth : Float := 1.97e-5
  feedColumnSpilling : Float := 1.97e-4
  feedWidthSpilling : Float := 3.0e-6
  hashingWidthSpilling : Float := 1.97e-5
  hashAggregateInputColumn : Float := 1.20e-4
  hashAggregateInputWidth : Float := 1.12e-7
  hashAggregateOutputWidth : Float := 5.61e-7
  sortWidth : Float := 5.67e-6
  rowDefault : Float := 1.0e-6
  materialize : Float := 4.68e-6
  /-- The penalty on nested-loop joins, so that they win on tiny inputs only. -/
  nestedLoopFactor : Float := 1024.0
  deriving Inhabited

/-- A unit under the name by which it is set. -/
structure NamedUnit where
  name : String
  read : CostUnits → Float
  write : Float → CostUnits → CostUnits

namespace CostUnits

/-- All units with their names. -/
def named : List NamedUnit :=
  [⟨"init_scan_factor", (·.scanStart),
      fun value units => { units with scanStart := value }⟩,
   ⟨"table_scan_cost_unit", (·.tableScan),
      fun value units => { units with tableScan := value }⟩,
   ⟨"index_filter_cost_unit", (·.indexFilter),
      fun value units => { units with indexFilter := value }⟩,
   ⟨"index_scan_tup_cost_unit", (·.indexScanRow),
      fun value units => { units with indexScanRow := value }⟩,
   ⟨"index_scan_tup_random_factor", (·.indexScanRandom),
      fun value units => { units with indexScanRandom := value }⟩,
   ⟨"filter_col_cost_unit", (·.filterColumn),
      fun value units => { units with filterColumn := value }⟩,
   ⟨"output_tup_cost_unit", (·.outputRow),
      fun value units => { units with outputRow := value }⟩,
   ⟨"gather_send_cost_unit", (·.gatherSend),
      fun value units => { units with gatherSend := value }⟩,
   ⟨"gather_recv_cost_unit", (·.gatherReceive),
      fun value units => { units with gatherReceive := value }⟩,
   ⟨"redistribute_send_cost_unit", (·.redistributeSend),
      fun value units => { units with redistributeSend := value }⟩,
   ⟨"redistribute_recv_cost_unit", (·.redistributeReceive),
      fun value units => { units with redistributeReceive := value }⟩,
   ⟨"broadcast_send_cost_unit", (·.broadcastSend),
      fun value units => { units with broadcastSend := value }⟩,
   ⟨"broadcast_recv_cost_unit", (·.broadcastReceive),
      fun value units => { units with broadcastReceive := value }⟩,
   ⟨"join_feeding_tup_column_cost_unit", (·.joinFeedColumn),
      fun value units => { units with joinFeedColumn := value }⟩,
   ⟨"join_feeding_tup_width_cost_unit", (·.joinFeedWidth),
      fun value units => { units with joinFeedWidth := value }⟩,
   ⟨"join_output_tup_cost_unit", (·.joinOutput),
      fun value units => { units with joinOutput := value }⟩,
   ⟨"hj_spilling_mem_threshold", (·.hashJoinSpillThreshold),
      fun value units => { units with hashJoinSpillThreshold := value }⟩,
   ⟨"hj_hash_table_init_cost_factor", (·.hashTableStart),
      fun value units => { units with hashTableStart := value }⟩,
   ⟨"hj_hash_table_column_cost_unit", (·.hashTableColumn),
      fun value units => { units with hashTableColumn := value }⟩,
   ⟨"hj_hash_table_width_cost_unit", (·.hashTableWidth),
      fun value units => { units with hashTableWidth := value }⟩,
   ⟨"hj_hashing_tup_width_cost_unit", (·.hashingWidth),
      fun value units => { units with hashingWidth := value }⟩,
   ⟨"hj_feeding_tup_column_spilling_cost_unit", (·.feedColumnSpilling),
      fun value units => { units with feedColumnSpilling := value }⟩,
   ⟨"hj_feeding_tup_width_spilling_cost_unit", (·.feedWidthSpilling),
      fun value units => { units with feedWidthSpilling := value }⟩,
   ⟨"hj_hashing_tup_width_spilling_cost_unit", (·.hashingWidthSpilling),
      fun value units => { units with hashingWidthSpilling := value }⟩,
   ⟨"hash_agg_input_tup_column_cost_unit", (·.hashAggregateInputColumn),
      fun value units => { units with hashAggregateInputColumn := value }⟩,
   ⟨"hash_agg_input_tup_width_cost_unit", (·.hashAggregateInputWidth),
      fun value units => { units with hashAggregateInputWidth := value }⟩,
   ⟨"hash_agg_output_tup_width_cost_unit", (·.hashAggregateOutputWidth),
      fun value units => { units with hashAggregateOutputWidth := value }⟩,
   ⟨"sort_tup_width_cost_unit", (·.sortWidth),
      fun value units => { units with sortWidth := value }⟩,
   ⟨"tup_default_proc_cost_unit", (·.rowDefault),
      fun value units => { units with rowDefault := value }⟩,
   ⟨"materialize_cost_unit", (·.materialize),
      fun value units => { units with materialize := value }⟩,
   ⟨"nlj_factor", (·.nestedLoopFactor),
      fun value units => { units with nestedLoopFactor := value }⟩]

/-- The usual units with some of them set anew. `found` gives the setting of a name, if there is
one; a setting that is no number spoils the whole. -/
def configured (found : String → Option (Option Float)) : Option CostUnits :=
  named.foldlM (fun units unit =>
    match found unit.name with
    | none => some units
    | some setting => setting.map fun value => unit.write value units) {}

/-- A count of columns, at least one. -/
def atLeastOne (count : Nat) : Float := Float.ofNat (max count 1)

/-- A full scan pays for reading whole rows and for passing on the needed columns. -/
def scan (units : CostUnits) (tableWidth : Float) (inputs : CostingInputs) : Float :=
  units.scanStart + inputs.rows * tableWidth * units.tableScan +
    inputs.rows * inputs.width * units.outputRow

/-- An index scan pays for each key and for fetching whole rows. -/
def indexScan (units : CostUnits) (keys : Nat) (tableWidth : Float) (inputs : CostingInputs) :
    Float :=
  let perRow := Float.ofNat keys * units.indexFilter + tableWidth * units.indexScanRow
  inputs.rows * perRow + units.indexScanRandom

/-- A filter pays for each column of its predicate. -/
def filter (units : CostUnits) (columns : Nat) (input : ChildCosting) : Float :=
  input.rows * atLeastOne columns * units.filterColumn

/-- A hash join pays for building its table, for feeding both sides, for matching and for its
output; one whose build side is too large pays the spilling units. -/
def hashJoin (units : CostUnits) (columns : Nat) (outer inner : ChildCosting)
    (inputs : CostingInputs) : Float :=
  let count := atLeastOne columns
  let spills : Bool := inner.rows * inner.width > units.hashJoinSpillThreshold
  let start := if spills then units.hashTableStart else 0.0
  let feedColumn := if spills then units.feedColumnSpilling else units.joinFeedColumn
  let feedWidth := if spills then units.feedWidthSpilling else units.joinFeedWidth
  let hashing := if spills then units.hashingWidthSpilling else units.hashingWidth
  let build := inner.rows * (count * units.hashTableColumn + inner.width * units.hashTableWidth)
  let feed := count * outer.rows * feedColumn + outer.width * outer.rows * feedWidth
  let matching := inner.width * inner.rows * hashing
  let output := inputs.rows * inputs.width * units.joinOutput
  start + build + feed + matching + output

/-- A nested-loop join pays for reading the inner side again for every outer row. -/
def nestedLoopJoin (units : CostUnits) (columns : Nat) (outer inner : ChildCosting)
    (inputs : CostingInputs) : Float :=
  let count := atLeastOne columns
  let feed := count * outer.rows * units.joinFeedColumn +
    outer.width * outer.rows * units.joinFeedWidth
  let rescans := outer.rows *
    (inner.rows * inner.width * units.tableScan + inner.rows * count * units.filterColumn)
  let output := inputs.rows * inner.width * units.outputRow +
    inputs.rows * inputs.width * units.joinOutput
  feed + units.scanStart + rescans + output

/-- A motion pays for the bytes it sends and for those each host receives. -/
def motion (units : CostUnits) (kind : MotionKind) (input : ChildCosting)
    (inputs : CostingInputs) : Float :=
  let hosts := Estimate.hosts inputs.segments
  let sent := input.rows * input.width
  match kind with
  | .gather | .gatherMerge => sent * units.gatherSend + sent * hosts * units.gatherReceive
  | .broadcast => sent * units.broadcastSend + sent * hosts * units.broadcastReceive
  | .redistribute | .random =>
    sent * units.redistributeSend + inputs.rows * inputs.width * units.redistributeReceive

/-- A sort pays for each row as often as its size has binary digits. -/
def sort (units : CostUnits) (inputs : CostingInputs) : Float :=
  let rows := Estimate.larger inputs.rows 1.0
  rows * Estimate.larger rows.log2 1.0 * inputs.width * units.sortWidth

/-- A hash aggregate pays for each grouping column of its input and for its output. -/
def hashAggregate (units : CostUnits) (grouping : Nat) (input : ChildCosting)
    (inputs : CostingInputs) : Float :=
  let count := atLeastOne grouping
  input.rows * count * units.hashAggregateInputColumn +
    input.rows * count * inputs.width * units.hashAggregateInputWidth +
    inputs.rows * inputs.width * units.hashAggregateOutputWidth

/-- A stream aggregate pays for its input and its output once. -/
def streamAggregate (units : CostUnits) (input : ChildCosting) (inputs : CostingInputs) : Float :=
  input.rows * input.width * units.rowDefault +
    inputs.rows * inputs.width * units.hashAggregateOutputWidth

/-- Any other operator pays for the bytes it reads. -/
def unary (units : CostUnits) (input : ChildCosting) : Float :=
  input.rows * input.width * units.rowDefault

/-- What stands for a child that is not there. -/
def missingChild : ChildCosting := ⟨0.0, 0.0, 1.0, .zero⟩

/-- The cost of an operator for one execution, without its children. -/
def localCost (units : CostUnits) (op : Operator) (scalarColumns : Nat)
    (inputs : CostingInputs) : Float :=
  let outer := (inputs.children[0]?).getD missingChild
  let inner := (inputs.children[1]?).getD missingChild
  match op with
  | .physical (.tableScan access) => units.scan access.table.width inputs
  | .physical (.indexScan access index) =>
    units.indexScan index.keys.length access.table.width inputs
  | .physical .filter => units.filter scalarColumns outer
  | .physical (.hashJoin _ _) => units.hashJoin scalarColumns outer inner inputs
  | .physical .nestedLoopJoin => units.nestedLoopJoin scalarColumns outer inner inputs
  | .physical (.sort _) => units.sort inputs
  | .physical (.hashAggregate grouping _) => units.hashAggregate grouping.length outer inputs
  | .physical (.streamAggregate _ _) => units.streamAggregate outer inputs
  | .physical (.spool _) => inputs.rows * inputs.width * units.materialize
  | .physical (.motion move) => units.motion move.kind outer inputs
  | _ => units.unary outer

/-- The cost of an alternative: its own cost for every execution, and that of its children. A
nested-loop join multiplies the sum. -/
def cost (units : CostUnits) (view : ExprView) (inputs : CostingInputs) : Cost :=
  let own := units.localCost view.op view.scalarColumns.size inputs
  let total := own * Estimate.larger inputs.rebinds 1.0 + inputs.childrenCost
  match view.op with
  | .physical .nestedLoopJoin => ⟨total * units.nestedLoopFactor⟩
  | _ => ⟨total⟩

end CostUnits

namespace CostModel

/-- The model with calibrated units. The start of a scan is its fixed charge. -/
def calibrated (units : CostUnits) : CostModel where
  cost := units.cost
  fixedNodeCost := ⟨units.scanStart⟩

/-- The charge of the unit model for an operator. -/
def unitCharge : Operator → Float
  | .physical (.custom op) => op.cost
  | _ => 1.0

/-- The model in which every node has a constant charge. -/
def unit : CostModel where
  cost view inputs := ⟨unitCharge view.op + inputs.childrenCost⟩

end CostModel

end QueryPlanner
