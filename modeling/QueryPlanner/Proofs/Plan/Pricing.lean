import QueryPlanner.Proofs.Optimizer.Assessment
import QueryPlanner.Proofs.Plan.Extraction
import QueryPlanner.Proofs.Reduction

/-!
# Prices that bounds are compared with

A cost model is regular among the costs that it computes (`CostModel.Regular`): it looks at the
alternative and the costing inputs only, is monotone in these, and charges at least what each child
costs. It is sound when these costs are not negative (`CostModel.Sound`). When one sound model costed
all plans, and all statistics are numbers, every recorded cost is one of these costs, and it is that
of the model over the plans recorded for the children (`Memo.Priced.exact_cost`,
`Memo.Priced.itemized`).
-/

namespace QueryPlanner

/-! ## Sound models -/

/-- What is seen of a child apart from statistics and plans. -/
def ChildView.outline (child : ChildView) : ChildView :=
  { child with groupStatistics := none, plan := none, planStatistics := none }

/-- What is seen of an alternative itself, without what is known of its plans. -/
def ExprView.outline (view : ExprView) : ExprView :=
  { view with
    groupStatistics := none, required := none, children := view.children.map ChildView.outline }

/-- The operator is no custom one. -/
def ExprView.IsCatalogued (view : ExprView) : Prop :=
  ∀ op, view.op = .physical op → op.isCatalogued = true

/-- One child is described as no larger and no more expensive than another. -/
structure ChildCosting.AtMost (left right : ChildCosting) : Prop where
  rows : left.rows ≤ right.rows
  width : left.width ≤ right.width
  rebinds : left.rebinds ≤ right.rebinds
  cost : left.cost.total ≤ right.cost.total

/-- One node is described as no larger and no more expensive than another. -/
structure CostingInputs.AtMost (left right : CostingInputs) : Prop where
  rows : left.rows ≤ right.rows
  width : left.width ≤ right.width
  rebinds : left.rebinds ≤ right.rebinds
  children : List.Forall₂ ChildCosting.AtMost left.children right.children
  segments : left.segments = right.segments

/-- Rows, width and rebinds are finite numbers, and the rows are not negative. -/
structure Measured (rows width rebinds : Float) : Prop where
  rows_finite : rows.isFinite = true
  rows_nonneg : 0.0 ≤ rows
  width_finite : width.isFinite = true
  rebinds_finite : rebinds.isFinite = true

/-- A child is described by numbers, and by one of the given costs. -/
structure ChildCosting.Exact (exact : Cost → Prop) (input : ChildCosting) : Prop where
  measured : Measured input.rows input.width input.rebinds
  cost : exact input.cost

/-- A node is described by numbers, and its children cost as given. -/
structure CostingInputs.Exact (exact : Cost → Prop) (inputs : CostingInputs) : Prop where
  measured : Measured inputs.rows inputs.width inputs.rebinds
  children : ∀ child ∈ inputs.children, child.Exact exact

/-- A cost model is regular among some costs. It depends on the alternative and the inputs only, is
monotone in the inputs, charges at least the cost of each child, and has a fixed charge that is not
negative. The costs are closed under what is done with them: the model charges an alternative of the
catalogue one of them when its children cost some of them, and the fixed charge may be taken off. -/
structure CostModel.Regular (model : CostModel) (exact : Cost → Prop) : Prop where
  infinite : exact .infinite
  charge : 0.0 ≤ model.fixedNodeCost.total
  reduced : ∀ cost, exact cost → exact (cost.saturatingSub model.fixedNodeCost)
  closed : ∀ view inputs, view.IsCatalogued → inputs.Exact exact → exact (model.cost view inputs)
  outlined : ∀ view view' inputs, view.outline = view'.outline →
    model.cost view inputs = model.cost view' inputs
  monotone : ∀ view inputs inputs', view.IsCatalogued → inputs.Exact exact →
    inputs'.Exact exact → inputs.AtMost inputs' →
    (model.cost view inputs).total ≤ (model.cost view inputs').total
  covering : ∀ view inputs, view.IsCatalogued → inputs.Exact exact →
    ∀ child ∈ inputs.children, child.cost.total ≤ (model.cost view inputs).total

/-- A regular cost model is sound when the costs are not negative. -/
structure CostModel.Sound (model : CostModel) (exact : Cost → Prop) : Prop extends
    model.Regular exact where
  nonneg : ∀ cost, exact cost → 0.0 ≤ cost.total

theorem Estimate.le_self_of_isFinite {value : Float} (h : value.isFinite = true) : value ≤ value :=
  (le_iff_units h h).mpr le_rfl

/-- An infinite cost is as high as any other. -/
theorem Cost.infinite_le_iff {cost : Cost} (h : cost.isInfinite = true) {total : Float} :
    Cost.infinite.total ≤ total ↔ cost.total ≤ total :=
  (Estimate.le_iff_of_beq h).symm

/-- An exact input is at most itself. -/
theorem ChildCosting.Exact.atMost_self {model : CostModel} {exact : Cost → Prop}
    {input : ChildCosting} (h : input.Exact exact) (hmodel : model.Sound exact) :
    input.AtMost input where
  rows := Estimate.le_self_of_isFinite h.measured.rows_finite
  width := Estimate.le_self_of_isFinite h.measured.width_finite
  rebinds := Estimate.le_self_of_isFinite h.measured.rebinds_finite
  cost := Estimate.le_self_of_ge (hmodel.nonneg _ h.cost)

/-! ## Outlines -/

namespace ExprView

variable {view : ExprView}

theorem outline_bare : view.bare.outline = view.outline := by
  unfold outline bare
  rw [List.map_map]
  rfl

theorem outline_withRequired {required : PlanRequirement} :
    (view.withRequired required).outline = view.outline := rfl

theorem outline_withChildPlan {child : Nat} {plan : Option PlanProperties}
    {statistics : Option Statistics} :
    (view.withChildPlan child plan statistics).outline = view.outline := by
  unfold withChildPlan outline
  congr 1
  apply List.ext_getElem?
  intro position
  simp only [List.getElem?_map, List.getElem?_modify]
  cases view.children[position]? <;> simp
  split <;> rfl

theorem outline_overContextsFrom {memo : Memo} {position : Nat} {contexts : List (Option ContextId)} :
    (memo.overContextsFrom position contexts view).outline = view.outline := by
  induction contexts generalizing position view with
  | nil => rfl
  | cons context rest ih =>
      rw [Memo.overContextsFrom_cons, ih]
      unfold Memo.withBestPlan
      split
      · exact outline_withChildPlan
      · rfl

end ExprView

/-! ## Statistics that are numbers -/

/-- The statistics are numbers, and the columns of the output are so wide together, in any choice. -/
structure Statistics.Measures (statistics : Statistics) (output : ColumnSet) : Prop where
  rows_finite : statistics.rows.isFinite = true
  rows_nonneg : 0.0 ≤ statistics.rows
  rebinds_finite : statistics.rebinds.isFinite = true
  width_finite : ∀ columns, columns.subset output = true → (statistics.width columns).isFinite = true

namespace Statistics.Measures

variable {statistics : Statistics} {output columns : ColumnSet}

/-- The rows on one host are no more than all rows. -/
theorem rowsPerHost (h : statistics.Measures output) (segments : Nat) :
    (statistics.rowsPerHost segments).isFinite = true ∧ 0.0 ≤ statistics.rowsPerHost segments ∧
      statistics.rowsPerHost segments ≤ statistics.rows := by
  obtain ⟨hnonneg, hle⟩ := rowsPerHost_le segments h.rows_finite h.rows_nonneg
  exact ⟨Estimate.isFinite_of_between (by decide +kernel) h.rows_finite hnonneg hle, hnonneg, hle⟩

/-- However a result is delivered, one host has at least its share and at most all rows. -/
theorem hostRows (h : statistics.Measures output) (segments : Nat)
    (delivered : Option PlanProperties) :
    (hostRows delivered statistics segments).isFinite = true ∧
      0.0 ≤ hostRows delivered statistics segments ∧
      statistics.rowsPerHost segments ≤ hostRows delivered statistics segments := by
  obtain ⟨hfinite, hnonneg, hle⟩ := h.rowsPerHost segments
  unfold QueryPlanner.hostRows
  split
  · exact ⟨hfinite, hnonneg, Estimate.le_self_of_le hle⟩
  · exact ⟨h.rows_finite, h.rows_nonneg, hle⟩

end Statistics.Measures

/-! ## What plans are priced by -/

/-- What a parent is charged for a plan with some columns. -/
def Statistics.childInput (statistics : Statistics) (segments : Nat) (columns : ColumnSet)
    (plan : Costing) : ChildCosting where
  rows := hostRows plan.delivered statistics segments
  width := statistics.width columns
  rebinds := statistics.rebinds
  cost := plan.cost

/-- What a plan with some columns is charged over its children. -/
def Statistics.nodeInputs (statistics : Statistics) (segments : Nat) (columns : ColumnSet)
    (plan : Costing) (children : List ChildCosting) : CostingInputs where
  rows := hostRows plan.delivered statistics segments
  width := statistics.width columns
  rebinds := statistics.rebinds
  children := children
  segments := segments

namespace Memo

variable {planners : List Planner} {model : CostModel} {segments : Nat}
  {below : GroupId → GroupId → Prop} {memo : Memo} {exact : Cost → Prop} {group : GroupId}
  {columns : ColumnSet} {plan : Costing}

/-- A costing that was not given up is recorded for the group and the columns. -/
structure PlansFor (memo : Memo) (group : GroupId) (columns : ColumnSet) (plan : Costing) :
    Prop where
  recorded : ∃ id, memo.costing? id = some plan
  costed : plan.pruned = false
  asked : ∃ context, memo.context? plan.context = some context ∧ context.group = group ∧
    context.required.columns = columns

/-- The statistics of groups are numbers, and relations have some. -/
structure Appraised (memo : Memo) : Prop where
  estimated : ∀ id, memo.Relational id → (memo.statistics? id).isSome = true
  measured : ∀ id, memo.master id = id → (memo.estimateOf id).Measures (memo.outputOf id)

/-- One model costed all plans, and worked with the statistics of the groups. -/
structure Priced (planners : List Planner) (model : CostModel) (segments : Nat)
    (below : GroupId → GroupId → Prop) (memo : Memo) : Prop extends
    memo.Settled planners below, memo.Appraised where
  uniform : ∀ planner ∈ planners, planner.model = model ∧ planner.config.segments = segments
  worked : ∀ id costing, memo.costing? id = some costing → costing.pruned = false →
    memo.WorksWith memo costing

/-- A master that holds no relation has no columns. -/
theorem output_eq_empty (hmaster : memo.master group = group) (hnot : ¬ memo.Relational group) :
    memo.outputOf group = .empty := by
  cases hgroup : memo.group? group with
  | none =>
      rw [outputOf, logical, hgroup]
      rfl
  | some found =>
      cases hproperties : found.properties with
      | scalar _ =>
          rw [outputOf_eq, properties, hgroup, Option.map_some, Option.getD_some, hproperties]
          rfl
      | relation _ =>
          exact absurd ⟨hmaster, found, hgroup, by rw [Group.isScalar, hproperties]; rfl⟩ hnot

/-- The statistics are those of the memo, though scalars may lack the empty ones. -/
structure Reckons (memo : Memo) (known : GroupId → Option Statistics) : Prop where
  estimate : ∀ id, (known id).getD .empty = memo.estimateOf id
  relations : ∀ id, memo.Relational id → known id = memo.statistics? id

protected theorem Reckons.refl (memo : Memo) : memo.Reckons memo.statistics? :=
  ⟨fun _ => rfl, fun _ _ => rfl⟩

/-- What a bound says about the size of a group is exact, and at most what a plan of the group is
described by. -/
theorem Appraised.measured_ofStatistics (h : memo.Appraised) {known : GroupId → Option Statistics}
    (hknown : memo.Reckons known) (hmaster : memo.master group = group)
    (hcovered : columns.subset (memo.outputOf group) = true)
    (segments : Nat) (delivered : Option PlanProperties) (cost : Cost) :
    let size := ChildCosting.ofStatistics (known group) columns segments cost
    Measured size.rows size.width size.rebinds ∧
      size.rows ≤ hostRows delivered (memo.estimateOf group) segments ∧
      size.width ≤ (memo.estimateOf group).width columns ∧
      size.rebinds ≤ (memo.estimateOf group).rebinds := by
  have hmeasures := h.measured group hmaster
  rw [← hknown.estimate group] at hmeasures ⊢
  cases hstatistics : known group with
  | some statistics =>
      rw [hstatistics, Option.getD_some] at hmeasures
      obtain ⟨hfinite, hnonneg, _⟩ := hmeasures.rowsPerHost segments
      have hwidth := hmeasures.width_finite columns hcovered
      exact ⟨⟨hfinite, hnonneg, hwidth, hmeasures.rebinds_finite⟩, (hmeasures.hostRows segments delivered).2.2,
        Estimate.le_self_of_isFinite hwidth, Estimate.le_self_of_isFinite hmeasures.rebinds_finite⟩
  | none =>
      have hempty := output_eq_empty hmaster fun hrelation => by
        have hsome := h.estimated group hrelation
        simp [← hknown.relations group hrelation, hstatistics] at hsome
      obtain rfl : columns = .empty := by
        rw [hempty] at hcovered
        exact KeyedSet.eq_empty_of_subset hcovered
      rw [hstatistics, Option.getD_none] at hmeasures
      have hrows := hmeasures.hostRows segments delivered
      have hsize : Measured 0.0 0.0 1.0 :=
        ⟨by decide +kernel, by decide +kernel, by decide +kernel, by decide +kernel⟩
      have hwidth : 0.0 ≤ Statistics.empty.width .empty := by decide +kernel
      exact ⟨hsize, hrows.2.1, hwidth, Estimate.le_self_of_isFinite hsize.rebinds_finite⟩

/-- A plan for the group and the columns, with all that it is priced by. -/
structure Itemized (model : CostModel) (segments : Nat) (below : GroupId → GroupId → Prop)
    (memo : Memo) (group : GroupId) (columns : ColumnSet) (plan : Costing) (context : Context)
    (expr : MemoExpr) (op : PhysicalOperator) : Prop where
  context_found : memo.context? plan.context = some context
  group_eq : context.group = group
  columns_eq : context.required.columns = columns
  expr_found : memo.expr? plan.expr = some expr
  physical : expr.op = .physical op
  home : memo.master expr.group = group
  master : memo.master group = group
  listed : plan.expr ∈ memo.alternativesOf group
  covered : columns.subset (memo.outputOf group) = true
  planned : List.Forall₂ (memo.Planned below context.goal) expr.children plan.childContexts
  requested : memo.Requests op (memo.bareView plan.expr expr) context.required plan.request
    plan.childContexts
  charged : plan.cost = model.cost (memo.bareView plan.expr expr)
    ((memo.estimateOf group).nodeInputs segments columns plan
      (memo.bestInputs segments plan.childContexts))

/-- What a recorded plan is priced by. -/
theorem Priced.itemized (h : memo.Priced planners model segments below) (hmodel : model.Sound exact)
    (hplan : memo.PlansFor group columns plan) :
    ∃ context expr op, memo.Itemized model segments below group columns plan context expr op := by
  obtain ⟨⟨id, hcosting⟩, hpruned, context, hcontext, rfl, rfl⟩ := hplan
  have haccounted := h.accounted id plan hcosting hpruned
  obtain ⟨context', expr, op, hjustifies⟩ := haccounted.justified
  obtain rfl := Option.some.inj (hcontext.symm.trans hjustifies.context_found)
  obtain ⟨context', hcontext', hstatistics⟩ := h.worked id plan hcosting hpruned
  obtain rfl := Option.some.inj (hcontext.symm.trans hcontext')
  have hmaster := h.contextHome _ context hcontext
  rw [hmaster] at hstatistics
  obtain ⟨context', hcontext', hlisted⟩ := haccounted.listed
  obtain rfl := Option.some.inj (hcontext.symm.trans hcontext')
  obtain ⟨context', expr', op', hcontext', hexpr', hop', hrequests⟩ := haccounted.requested
  obtain rfl := Option.some.inj (hcontext.symm.trans hcontext')
  obtain rfl := Option.some.inj (hjustifies.expr_found.symm.trans hexpr')
  obtain rfl := Operator.physical.inj (hjustifies.physical.symm.trans hop')
  obtain ⟨planner, hplanner, known, seen, hknown, hseen, hcost⟩ := hjustifies.charged
  obtain rfl : memo.estimateOf context.group = known :=
    Option.some.inj (hstatistics.symm.trans hknown)
  have hcovered : context.required.columns.subset (memo.outputOf context.group) = true := by
    have hsatisfied := hjustifies.satisfied
    unfold PlanRequirement.isSatisfiedBy at hsatisfied
    simp only [Bool.and_eq_true] at hsatisfied
    exact hsatisfied.1.1.1.1.1
  have houtline : seen.outline = (memo.bareView plan.expr expr).outline := by
    rw [← ExprView.outline_bare, hseen, ExprView.outline_withRequired]
    exact ExprView.outline_overContextsFrom
  refine ⟨context, expr, op, hcontext, rfl, rfl, hjustifies.expr_found, hjustifies.physical,
    hjustifies.home, hmaster, hlisted, hcovered, hjustifies.planned, hrequests, ?_⟩
  obtain ⟨rfl, rfl⟩ := h.uniform planner hplanner
  rw [hcost, hmodel.outlined seen _ _ houtline]
  rfl

/-- A child context holds a best plan for a child, under the columns that the operator asks for. -/
structure ChildPlan (segments : Nat) (below : GroupId → GroupId → Prop) (memo : Memo)
    (goal : GroupId × PlanRequirement) (child : GroupId) (asked : ColumnSet) (id : ContextId)
    (best : Costing) : Prop where
  relational : memo.Relational (memo.master child)
  held : memo.bestCosting? id = some best
  plan : memo.PlansFor (memo.master child) asked best
  asks : ∃ own, memo.context? best.context = some own ∧ Asks below goal own.goal
  charged : memo.bestInput? segments id =
    some ((memo.estimateOf (memo.master child)).childInput segments asked best)

variable {context : Context} {expr : MemoExpr} {op : PhysicalOperator}

theorem relational_of_properties (hwell : memo.WellFormed) {child : GroupId}
    (hknown : child.index < memo.groups.size)
    (hrelation : (memo.properties (memo.master child)).isScalar = false) :
    memo.Relational (memo.master child) :=
  relational_iff.mpr ⟨hwell.linksEnd.master_master child, hwell.masterKnown child hknown, hrelation⟩

/-- Each child context of a plan holds such a plan. -/
theorem Itemized.childPlan
    (hitem : memo.Itemized model segments below group columns plan context expr op)
    (h : memo.Priced planners model segments below) {position : Nat} {id : ContextId}
    (hid : plan.childContexts[position]? = some (some id)) :
    ∃ child best, expr.children[position]? = some child ∧
      memo.ChildPlan segments below context.goal child
        (op.childColumns (memo.bareView plan.expr expr) columns position) id best := by
  obtain ⟨hlt, hentry⟩ := List.getElem?_eq_some_iff.mp hid
  have hlt' : position < expr.children.length := hitem.planned.length_eq ▸ hlt
  have hplanned := (List.forall₂_iff_get.mp hitem.planned).2 position hlt' hlt
  rw [List.get_eq_getElem, List.get_eq_getElem, hentry] at hplanned
  obtain ⟨hscalar, own, best, hchosen, hgroup, hasks⟩ := hplanned
  have hknown := h.wellFormed.childKnown plan.expr expr hitem.expr_found _ (List.getElem_mem hlt')
  have hrelation := relational_of_properties h.wellFormed hknown hscalar
  have hasked : own.required.columns =
      op.childColumns (memo.bareView plan.expr expr) columns position := by
    obtain ⟨own', hown', hrequired⟩ := hitem.requested position id hid
    obtain rfl := Option.some.inj (hchosen.found.symm.trans hown')
    rw [hrequired, ← hitem.columns_eq]
    rfl
  obtain ⟨slot, hslot⟩ := hchosen.exists_best
  obtain ⟨best', hbest, _, hunpruned⟩ := h.best id own slot hchosen.found hslot
  obtain rfl : best' = best := by
    have hheld := hchosen.best
    rw [bestCosting?, best?, hchosen.found, Option.bind_some, hslot, Option.bind_some, hbest] at hheld
    exact Option.some.inj hheld
  have hplan : memo.PlansFor (memo.master expr.children[position])
      (op.childColumns (memo.bareView plan.expr expr) columns position) best' :=
    ⟨⟨slot, hbest⟩, hunpruned, own, hchosen.own ▸ hchosen.found, hgroup, hasked⟩
  obtain ⟨own', hown', hstatistics⟩ := h.worked slot best' hbest hunpruned
  rw [hchosen.own, hchosen.found] at hown'
  obtain rfl := Option.some.inj hown'
  rw [h.contextHome _ own hchosen.found, hgroup] at hstatistics
  refine ⟨_, best', List.getElem?_eq_getElem hlt', hrelation, hchosen.best, hplan,
    ⟨own, hchosen.own ▸ hchosen.found, hasks⟩, ?_⟩
  rw [bestInput?, hchosen.best, Option.bind_some, hchosen.own, hchosen.found, Option.map_some,
    hstatistics, hasked]
  rfl

/-- What holds of a plan whenever it holds of the plans that its child contexts hold, holds of all
plans. Their goals come below that of the plan. -/
theorem Priced.induct [IsStrictOrder GroupId below] {motive : Costing → Prop}
    (h : memo.Priced planners model segments below) (hmodel : model.Sound exact)
    (hstep : ∀ group columns plan context expr op, memo.PlansFor group columns plan →
      memo.Itemized model segments below group columns plan context expr op →
      (∀ child asked id best,
        memo.ChildPlan segments below context.goal child asked id best → motive best) →
      motive plan)
    (hplan : memo.PlansFor group columns plan) : motive plan := by
  obtain ⟨rank, _, hfalls⟩ := exists_rank (Asks below)
    (fun index => ((memo.context? ⟨index⟩).map Context.goal).getD (⟨0⟩, {})) memo.contexts.size
  obtain ⟨context, hcontext, -⟩ := hplan.asked
  induction hlevel : rank context.goal using Nat.strong_induction_on
    generalizing group columns plan context with
  | _ level ih =>
    obtain ⟨context', expr, op, hitem⟩ := h.itemized hmodel hplan
    obtain rfl := Option.some.inj (hcontext.symm.trans hitem.context_found)
    refine hstep _ _ _ _ _ _ hplan hitem fun child asked id best hchild => ?_
    obtain ⟨own, hown, hasks⟩ := hchild.asks
    have hgoal : ((memo.context? ⟨best.context.index⟩).map Context.goal).getD (⟨0⟩, {}) =
        own.goal := by
      rw [show memo.context? ⟨best.context.index⟩ = some own from hown]
      rfl
    have hknown : best.context.index < memo.contexts.size := by
      unfold context? at hown
      exact (Array.getElem?_eq_some_iff.mp hown).1
    have hlower := hfalls context.goal best.context.index hknown
    rw [hgoal] at hlower
    exact ih _ (hlevel ▸ hlower hasks) hchild.plan own hown rfl

/-! ## Exact costs -/

theorem PlansFor.covered (hplan : memo.PlansFor group columns plan)
    (h : memo.Priced planners model segments below) (hmodel : model.Sound exact) :
    columns.subset (memo.outputOf group) = true := by
  obtain ⟨_, _, _, hitem⟩ := h.itemized hmodel hplan
  exact hitem.covered

/-- What a parent is charged for a plan of exact cost. -/
theorem ChildPlan.exact_input {goal : GroupId × PlanRequirement} {child : GroupId}
    {asked : ColumnSet} {id : ContextId} {best : Costing}
    (hchild : memo.ChildPlan segments below goal child asked id best)
    (h : memo.Priced planners model segments below) (hmodel : model.Sound exact)
    (hexact : exact best.cost) :
    ((memo.estimateOf (memo.master child)).childInput segments asked best).Exact exact := by
  have hmeasures := h.measured _ hchild.relational.1
  obtain ⟨hfinite, hnonneg, _⟩ := hmeasures.hostRows segments best.delivered
  exact ⟨⟨hfinite, hnonneg, hmeasures.width_finite asked (hchild.plan.covered h hmodel),
    hmeasures.rebinds_finite⟩, hexact⟩

/-- A child input of a plan is what it is charged for a best plan. -/
theorem Itemized.exists_childPlan
    (hitem : memo.Itemized model segments below group columns plan context expr op)
    (h : memo.Priced planners model segments below) {input : ChildCosting}
    (hinput : input ∈ memo.bestInputs segments plan.childContexts) :
    ∃ child asked id best, memo.ChildPlan segments below context.goal child asked id best ∧
      input = (memo.estimateOf (memo.master child)).childInput segments asked best := by
  obtain ⟨entry, hentry, hfound⟩ := List.mem_filterMap.mp hinput
  obtain ⟨id, rfl, hbest⟩ := Option.bind_eq_some_iff.mp hfound
  obtain ⟨position, hlt, hid⟩ := List.getElem_of_mem hentry
  obtain ⟨child, best, _, hchild⟩ := hitem.childPlan h (List.getElem?_eq_some_iff.mpr ⟨hlt, hid⟩)
  exact ⟨child, _, id, best, hchild, Option.some.inj (hbest.symm.trans hchild.charged)⟩

/-- A plan is charged over exact inputs when its children cost exactly. -/
theorem Itemized.exact_inputs
    (hitem : memo.Itemized model segments below group columns plan context expr op)
    (h : memo.Priced planners model segments below) (hmodel : model.Sound exact)
    (hchildren : ∀ child asked id best,
      memo.ChildPlan segments below context.goal child asked id best → exact best.cost) :
    ((memo.estimateOf group).nodeInputs segments columns plan
      (memo.bestInputs segments plan.childContexts)).Exact exact := by
  have hmeasures := h.measured group hitem.master
  obtain ⟨hfinite, hnonneg, _⟩ := hmeasures.hostRows segments plan.delivered
  refine ⟨⟨hfinite, hnonneg, hmeasures.width_finite columns hitem.covered,
    hmeasures.rebinds_finite⟩, fun input hinput => ?_⟩
  obtain ⟨child, asked, id, best, hchild, rfl⟩ := hitem.exists_childPlan h hinput
  exact hchild.exact_input h hmodel (hchildren child asked id best hchild)

theorem Itemized.isCatalogued
    (hitem : memo.Itemized model segments below group columns plan context expr op)
    (h : memo.Priced planners model segments below) :
    (memo.bareView plan.expr expr).IsCatalogued := fun _ hop =>
  h.catalogued plan.expr expr _ hitem.expr_found hop

/-- Every recorded plan costs exactly. -/
theorem Priced.exact_cost [IsStrictOrder GroupId below]
    (h : memo.Priced planners model segments below) (hmodel : model.Sound exact)
    (hplan : memo.PlansFor group columns plan) : exact plan.cost := by
  refine h.induct hmodel (motive := fun plan => exact plan.cost) ?_ hplan
  intro group columns plan context expr op _ hitem hchildren
  rw [hitem.charged]
  exact hmodel.closed _ _ (hitem.isCatalogued h) (hitem.exact_inputs h hmodel hchildren)

/-- A plan costs at least what the best plan of each child context does. -/
theorem Itemized.child_cost_le [IsStrictOrder GroupId below]
    (hitem : memo.Itemized model segments below group columns plan context expr op)
    (h : memo.Priced planners model segments below) (hmodel : model.Sound exact)
    {input : ChildCosting} (hinput : input ∈ memo.bestInputs segments plan.childContexts) :
    input.cost.total ≤ plan.cost.total := by
  rw [hitem.charged]
  exact hmodel.covering _ _ (hitem.isCatalogued h) (hitem.exact_inputs h hmodel
    fun _ _ _ _ hchild => h.exact_cost hmodel hchild.plan) input hinput

end Memo

end QueryPlanner
