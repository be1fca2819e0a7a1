import QueryPlanner.Proofs.Memo.Deriving
import QueryPlanner.Proofs.Plan.Bounds
import QueryPlanner.Proofs.Plan.Charging
import QueryPlanner.Proofs.Plan.Requests

/-!
# Lower bounds are sound

After any calls of the optimizer without pruning, and requests for bounds in between, a plan costs at
least the lower bounds of its alternative and, if this holds a relation, of its group
(`Memo.Reachable.boundsBelow_follow`). The first step starts from a memo in which nothing was planned or
bounded before, the costs of the model are not negative, and the bounds of a group can be told apart.
`Memo.plans_below_bounds` has a plan below a bound without each of these.
-/

namespace QueryPlanner

open Memo (Advances Bounding Evolves)
open Planning (Post exec)

/-! ## Requests for lower bounds -/

/-- A request for the lower bound of an alternative, perhaps with one child costed already, or for
that of a group. -/
inductive BoundQuery where
  | expr (id : ExprId) (required : PlanRequirement) (costed : Option (Nat × CostingId))
  | group (id : GroupId) (required : PlanRequirement)

namespace BoundQuery

/-- The request is answered by the memo. -/
def run (model : CostModel) (segments : Nat) : BoundQuery → Planning Cost
  | expr id required costed => Planning.lowerBound model segments id required costed
  | group id required => Planning.groupLowerBound model segments id required

end BoundQuery

/-- The memo after a request for a lower bound. A request that fails counts with the memo it leaves. -/
def Memo.answer (memo : Memo) (model : CostModel) (segments : Nat) (query : BoundQuery) : Memo :=
  (exec (query.run model segments) memo).2

/-- A call of the optimizer, or a request for a lower bound in between. -/
inductive PlanningStep where
  | optimize (call : OptimizeCall)
  | bound (query : BoundQuery)

/-- The memo after the step, whether it succeeds or fails. -/
def PlanningStep.run (model : CostModel) (segments : Nat) (memo : Memo) : PlanningStep → Memo
  | optimize call => (exec call.run memo).2
  | bound query => memo.answer model segments query

namespace Memo

/-- The memo after several steps. -/
def follow (memo : Memo) (model : CostModel) (segments : Nat) (steps : List PlanningStep) : Memo :=
  steps.foldl (PlanningStep.run model segments) memo

/-- The request is answered, and not above the cost. -/
def BoundedBy (memo : Memo) (model : CostModel) (segments : Nat) (query : BoundQuery) (cost : Cost) :
    Prop :=
  ∃ bound final, exec (query.run model segments) memo = (.ok bound, final) ∧
    bound.total ≤ cost.total

/-- The lower bounds for a plan and the requirement of its context: that of its alternative, with
nothing known of the children or with the best plan of one of them, and that of its group if it holds
a relation. -/
structure BoundsBelow (memo : Memo) (model : CostModel) (segments : Nat) (plan : Costing)
    (context : Context) (expr : MemoExpr) : Prop where
  context_found : memo.context? plan.context = some context
  expr_found : memo.expr? plan.expr = some expr
  alternative : memo.BoundedBy model segments (.expr plan.expr context.required none) plan.cost
  overChild : ∀ position child, expr.children[position]? = some child →
    (memo.properties (memo.master child)).isScalar = false →
      ∃ own best, plan.childContexts[position]? = some (some own) ∧ memo.best? own = some best ∧
        memo.BoundedBy model segments (.expr plan.expr context.required (some (position, best)))
          plan.cost
  group : memo.Relational context.group →
    memo.BoundedBy model segments (.group context.group context.required) plan.cost

/-- Operators are those of the catalogue, enforcers are above their own groups and no group is above
itself. Every relation has statistics for all its columns, and statistics are numbers. -/
structure Surveyed (memo : Memo) : Prop where
  catalogued : ∀ id expr op, memo.expr? id = some expr → expr.op = .physical op →
    op.isCatalogued = true
  enforcing : ∀ id expr, memo.expr? id = some expr → expr.op.isEnforcer = true →
    expr.children.map memo.master = [memo.master expr.group]
  acyclic : ∀ id, ¬ Relation.TransGen memo.Reads id id
  estimated : memo.Estimated
  measured : ∀ id statistics, memo.master id = id → memo.statistics? id = some statistics →
    statistics.Measures (memo.outputOf id)

variable {planners : List Planner} {model : CostModel} {segments : Nat}
  {below : GroupId → GroupId → Prop} {exact : Cost → Prop} {start memo current : Memo}
  {allowed : Allowance} {context : Context} {plan : Costing}

/-! ## Planning with statistics -/

theorem Estimated.isSome (h : memo.Estimated) {id : GroupId} (hrelation : memo.Relational id) :
    (memo.statistics? id).isSome = true := by
  obtain ⟨statistics, hstatistics, _⟩ := h id hrelation
  rw [hstatistics, Option.isSome_some]

/-- Where relations have statistics, what plans are costed with are numbers. -/
theorem Surveyed.measures_estimate (h : memo.Surveyed) {id : GroupId} (hmaster : memo.master id = id) :
    (memo.estimateOf id).Measures (memo.outputOf id) := by
  cases hstatistics : memo.statistics? id with
  | some statistics =>
      rw [estimateOf, hstatistics, Option.getD_some]
      exact h.measured id statistics hmaster hstatistics
  | none =>
      have hwidth : (Statistics.empty.width .empty).isFinite = true := by decide +kernel
      rw [estimateOf, hstatistics, Option.getD_none,
        output_eq_empty hmaster fun hrelation => by
          simpa [hstatistics] using h.estimated.isSome hrelation]
      refine ⟨by decide +kernel, by decide +kernel, by decide +kernel, fun columns hcolumns => ?_⟩
      rwa [KeyedSet.eq_empty_of_subset hcolumns]

theorem Surveyed.tame (h : memo.Surveyed) (hwell : memo.WellFormed) :
    memo.Tame (Relation.TransGen memo.Reads) :=
  ⟨hwell, h.catalogued, h.enforcing, fun _ _ => .single⟩

theorem Surveyed.appraised (h : memo.Surveyed) : memo.Appraised where
  estimated _ := h.estimated.isSome
  measured _ := h.measures_estimate

/-- After calls without pruning, one model costed all plans with the statistics of the groups. -/
theorem Assessed.priced [IsStrictOrder GroupId below] (h : start.Surveyed)
    (hassessed : start.Assessed below allowed memo) (hsettled : memo.Settled planners below)
    (huniform : ∀ planner ∈ planners, planner.model = model ∧ planner.config.segments = segments) :
    memo.Priced planners model segments below where
  toSettled := hsettled
  uniform := huniform
  estimated id hrelation := by
    rw [hassessed.statistics_eq h.estimated hrelation]
    exact h.estimated.isSome (hassessed.relational_iff.mp hrelation)
  measured id hmaster := by
    rw [hassessed.estimateOf, outputOf_eq, hassessed.properties, ← outputOf_eq]
    exact h.measures_estimate ((hassessed.master id).symm.trans hmaster)
  worked id costing hcosting hpruned := by
    obtain ⟨context, hcontext, hstatistics⟩ := hassessed.costed id costing hcosting hpruned
    refine ⟨context, hcontext, ?_⟩
    rw [hassessed.master, hassessed.estimateOf]
    exact hstatistics

/-! ## Steps of planning -/

/-- Answers store lower bounds only. -/
theorem keeps_boundQuery {R : Memo → Memo → Prop} [Weighing R] (query : BoundQuery) :
    Planning.Keeps R (query.run model segments) := by
  cases query with
  | expr id required costed => exact Planning.keeps_lowerBound
  | group id required => exact Planning.keeps_groupLowerBound

theorem sameContent_answer (memo : Memo) (model : CostModel) (segments : Nat) (query : BoundQuery) :
    memo.SameContent (memo.answer model segments query) :=
  (keeps_boundQuery query memo).exec_snd

/-- A step goes on from a memo that is in order. -/
theorem Settled.advances_run [IsStrictOrder GroupId below] (h : memo.Settled planners below)
    (step : PlanningStep) (hplanner : ∀ call, step = .optimize call → call.planner ∈ planners) :
    Advances planners below [] memo (step.run model segments memo) := by
  cases step with
  | optimize call =>
      have hcall : Advances planners below [] memo (memo.optimizeAll [call]) :=
        h.optimizeAll (by simpa using hplanner call rfl)
      exact hcall
  | bound query => exact h.quiet (sameContent_answer memo model segments query)

/-- So do several steps. -/
theorem Settled.advances_follow [IsStrictOrder GroupId below] {steps : List PlanningStep}
    (h : memo.Settled planners below)
    (hplanners : ∀ call, .optimize call ∈ steps → call.planner ∈ planners) :
    Advances planners below [] memo (memo.follow model segments steps) := by
  induction steps generalizing memo with
  | nil => exact h.advances
  | cons step rest ih =>
      have hfirst : Advances planners below [] memo (step.run model segments memo) :=
        h.advances_run step fun call hcall => hplanners call (by simp [hcall])
      exact hfirst.trans (ih hfirst.settled fun call hcall => hplanners call (by simp [hcall]))

/-- Steps without pruning leave the statistics, and what plans are costed with. -/
theorem Estimated.assessed_follow (hestimated : start.Estimated) {steps : List PlanningStep}
    (h : start.Assessed below .all current)
    (hpruning : ∀ call, .optimize call ∈ steps → call.planner.config.pruning = false) :
    start.Assessed below .all (current.follow model segments steps) := by
  induction steps generalizing current with
  | nil => exact h
  | cons step rest ih =>
      refine ih ?_ fun call hcall => hpruning call (by simp [hcall])
      cases step with
      | optimize call => exact hestimated.assessed_optimize h (hpruning call (by simp))
      | bound query =>
          have hassesses : Assesses start below .all [] current (current.answer model segments query) :=
            (keeps_boundQuery query current).exec_snd
          exact (hassesses h (by simp)).1

/-- Whatever is bounded on the way, the stored bounds are floors under the plans at the end. -/
theorem Outcome.floored_follow [IsStrictOrder GroupId below] {steps : List PlanningStep}
    (h : memo.Outcome planners model segments below exact start)
    (hcurrent : start.Assessed below (memo.floors model segments) current)
    (hsettled : current.Settled planners below)
    (hcalls : ∀ call, .optimize call ∈ steps →
      call.planner ∈ planners ∧ call.planner.config.pruning = false)
    (hend : current.follow model segments steps = memo) :
    start.Assessed below (memo.floors model segments) memo := by
  induction steps generalizing current with
  | nil => exact hend ▸ hcurrent
  | cons step rest ih =>
      have hreaches : Evolves [] current memo :=
        hend ▸ (hsettled.advances_follow fun call hcall => (hcalls call hcall).1).evolves
      have hfirst : Advances planners below [] current (step.run model segments current) :=
        hsettled.advances_run step fun call hcall => (hcalls call (by simp [hcall])).1
      refine ih ?_ hfirst.settled (fun call hcall => hcalls call (by simp [hcall])) hend
      cases step with
      | optimize call => exact h.estimates.assessed_optimize hcurrent (hcalls call (by simp)).2
      | bound query =>
          have hbounding := hcurrent.bounding hreaches
          have hanswer : Post (query.run model segments) current
              (fun _ final => start.Assessed below (memo.floors model segments) final)
              (fun _ final => start.Assessed below (memo.floors model segments) final) := by
            cases query with
            | expr id required costed =>
                exact (Post.lowerBound h hbounding).mono (fun _ _ hfinal => hfinal.1.toAssessed)
                  fun _ _ hfail => hfail.1.toAssessed
            | group id required =>
                exact (Post.groupLowerBound h hbounding).mono (fun _ _ hfinal => hfinal.1.toAssessed)
                  fun _ _ hfail => hfail.1.toAssessed
          exact hanswer.exec_snd

/-! ## Answers -/

variable {expr : MemoExpr} {op : PhysicalOperator} {group : GroupId} {columns : ColumnSet}
  {costed : Option (Nat × CostingId)}

/-- A costing that a child context of a plan holds is known. -/
theorem HoldsAt.known (h : memo.Settled planners below) {entry : Nat × CostingId}
    (hheld : memo.HoldsAt plan entry) : ∃ costing context,
      memo.costing? entry.2 = some costing ∧ memo.context? costing.context = some context := by
  obtain ⟨own, _, hbest⟩ := hheld
  obtain ⟨context, hcontext, hbest⟩ := Option.bind_eq_some_iff.mp hbest
  obtain ⟨costing, hcosting, hown, _⟩ := h.best own context entry.2 hcontext hbest
  exact ⟨costing, context, hcosting, hown ▸ hcontext⟩

/-- The alternative of a plan is bounded, and not above the plan. -/
theorem Itemized.boundedBy_expr [IsStrictOrder GroupId below]
    (hitem : memo.Itemized model segments below group columns plan context expr op)
    (h : memo.Outcome planners model segments below exact start)
    (hmemo : Bounding model segments below start memo memo memo)
    (hplan : memo.PlansFor group columns plan) (hheld : ∀ entry ∈ costed, memo.HoldsAt plan entry) :
    memo.BoundedBy model segments (.expr plan.expr context.required costed) plan.cost := by
  have hoffers : memo.Offers below (group, context.required) plan.expr op expr.children :=
    h.toTame.offers hitem.master hitem.listed hitem.expr_found hitem.physical
  have hknown : memo.Boundable plan.expr costed :=
    ⟨⟨expr, hitem.expr_found⟩, fun entry hentry => (hheld entry hentry).known h.toSettled⟩
  have hlasts : Planning.Lasts (Planning.lowerBound model segments plan.expr context.required costed)
      memo := Planning.lasts_lowerBound h.toTame hoffers
  obtain ⟨bound, final, hexec, _, _, hfloor⟩ | ⟨error, final, _, hlasts, _, hfail⟩ :=
    (hlasts.both (Post.lowerBound h hmemo)).exists_exec
  · refine ⟨bound, final, hexec, ?_⟩
    have hcovered : memo.HasColumns (memo.master expr.group) context.required.columns := by
      rw [hitem.home, hitem.columns_eq]
      exact hitem.covered
    have hleast := (hfloor expr hitem.expr_found hcovered).least group plan
    rw [hitem.columns_eq] at hleast
    exact hleast hplan rfl hheld
  · exact absurd (hfail hknown) hlasts

/-- The group of a plan is bounded, and not above the plan, if it holds a relation. -/
theorem Itemized.boundedBy_group [IsStrictOrder GroupId below]
    (hitem : memo.Itemized model segments below group columns plan context expr op)
    (h : memo.Outcome planners model segments below exact start)
    (hmemo : Bounding model segments below start memo memo memo)
    (hplan : memo.PlansFor group columns plan) (hrelation : memo.Relational group) :
    memo.BoundedBy model segments (.group group context.required) plan.cost := by
  have hknown : group.index < memo.groups.size := by
    obtain ⟨_, found, hfound, _⟩ := hrelation
    exact exists_group?_eq_some.mp ⟨found, hfound⟩
  have hlasts : Planning.Lasts (Planning.groupLowerBound model segments group context.required)
      memo := Planning.lasts_groupLowerBound h.toTame
  obtain ⟨bound, final, hexec, _, _, hfloor⟩ | ⟨error, final, _, hlasts, _, hfail⟩ :=
    (hlasts.both (Post.groupLowerBound h hmemo)).exists_exec
  · refine ⟨bound, final, hexec, ?_⟩
    have hscope : memo.InScope group context.required.columns :=
      ⟨hrelation, hitem.columns_eq ▸ hitem.covered⟩
    rw [hitem.master] at hfloor
    exact (hfloor hscope).least plan (hitem.columns_eq ▸ hplan)
  · exact absurd (hfail hknown) hlasts

/-- The lower bounds for a plan are answered and not above the plan. -/
theorem Outcome.boundsBelow [IsStrictOrder GroupId below]
    (h : memo.Outcome planners model segments below exact start)
    (hmemo : Bounding model segments below start memo memo memo) {id : CostingId}
    (hcosting : memo.costing? id = some plan) (hpruned : plan.pruned = false) :
    ∃ context expr, memo.BoundsBelow model segments plan context expr := by
  obtain ⟨context, _, _, hjustifies⟩ := (h.accounted id plan hcosting hpruned).justified
  have hplan : memo.PlansFor context.group context.required.columns plan :=
    ⟨⟨id, hcosting⟩, hpruned, context, hjustifies.context_found, rfl, rfl⟩
  obtain ⟨context', expr, op, hitem⟩ := h.itemized h.sound hplan
  obtain rfl := Option.some.inj (hjustifies.context_found.symm.trans hitem.context_found)
  refine ⟨context, expr, hitem.context_found, hitem.expr_found,
    hitem.boundedBy_expr h hmemo hplan (by simp), fun position child hchild hrelation => ?_,
    hitem.boundedBy_group h hmemo hplan⟩
  obtain ⟨hlt, rfl⟩ := List.getElem?_eq_some_iff.mp hchild
  have hlt' : position < plan.childContexts.length := hitem.planned.length_eq ▸ hlt
  have hplanned := (List.forall₂_iff_get.mp hitem.planned).2 position hlt hlt'
  cases hentry : plan.childContexts[position] with
  | none =>
      rw [List.get_eq_getElem, List.get_eq_getElem, hentry] at hplanned
      exact absurd (hrelation.symm.trans hplanned) (by simp)
  | some own =>
      rw [List.get_eq_getElem, List.get_eq_getElem, hentry] at hplanned
      obtain ⟨_, asked, _, hchosen, _⟩ := hplanned
      obtain ⟨best, hbest⟩ := hchosen.exists_best
      have hown : plan.childContexts[position]? = some (some own) := by
        rw [List.getElem?_eq_getElem hlt', hentry]
      have hbest : memo.best? own = some best := by
        rw [best?, hchosen.found, Option.bind_some, hbest]
      refine ⟨own, best, hown, hbest, hitem.boundedBy_expr h hmemo hplan fun entry hentry => ?_⟩
      obtain rfl := Option.some.inj hentry
      exact ⟨own, hown, hbest⟩

end Memo

/-! ## After any steps -/

/-- Take any calls of the optimizer without pruning, all with one sound model, and requests for bounds
in between, on a memo in which nothing is planned or bounded yet, where all relations have statistics
that are numbers. Afterwards each costing of a call is at least the lower bounds of its alternative,
with nothing known of the children or with one child costed as best, and at least that of its group, if
this holds a relation. All these bounds are answered. -/
theorem Memo.Reachable.boundsBelow_follow {memo : Memo} (hreachable : memo.Reachable)
    (hsurveyed : memo.Surveyed) (hunnoted : memo.Unnoted) {model : CostModel} {segments : Nat}
    {exact : Cost → Prop} (hmodel : model.Sound exact) (hdiscerns : memo.Discerns model segments)
    (steps : List PlanningStep)
    (hcalls : ∀ call, .optimize call ∈ steps → call.planner.model = model ∧
      call.planner.config.segments = segments ∧ call.planner.config.pruning = false) :
    let final := memo.follow model segments steps
    ∀ id plan, final.costing? id = some plan → plan.pruned = false →
      ∃ context expr, final.BoundsBelow model segments plan context expr := by
  intro final id plan hplan hcosted
  have horder : IsStrictOrder GroupId (Relation.TransGen memo.Reads) :=
    { irrefl := hsurveyed.acyclic, trans := fun _ _ _ => .trans }
  have htame := hsurveyed.tame hreachable.wellFormed
  have hstart (allowed : Allowance) : memo.Assessed (Relation.TransGen memo.Reads) allowed memo :=
    hunnoted.assessed hreachable.unplanned htame
  let planners := steps.filterMap fun
    | .optimize call => some call.planner
    | .bound _ => none
  have hplanners (call : OptimizeCall) (hcall : .optimize call ∈ steps) : call.planner ∈ planners :=
    List.mem_filterMap.mpr ⟨_, hcall, rfl⟩
  have hsettled : memo.Settled planners (Relation.TransGen memo.Reads) :=
    hreachable.unplanned.settled htame
  have hadvances : Advances planners (Relation.TransGen memo.Reads) [] memo final :=
    hsettled.advances_follow hplanners
  have hassessed : memo.Assessed (Relation.TransGen memo.Reads) .all final :=
    hsurveyed.estimated.assessed_follow (hstart .all) fun call hcall => (hcalls call hcall).2.2
  have houtcome : final.Outcome planners model segments (Relation.TransGen memo.Reads) exact memo :=
    { hassessed.priced hsurveyed hadvances.settled (by
        intro planner hplanner
        obtain ⟨step, hstep, hsome⟩ := List.mem_filterMap.mp hplanner
        cases step with
        | optimize call =>
            obtain rfl := Option.some.inj hsome
            exact ⟨(hcalls call hstep).1, (hcalls call hstep).2.1⟩
        | bound _ => simp at hsome) with
      sound := hmodel
      discerns := hdiscerns.of_evolves hadvances.evolves hreachable.wellFormed hassessed.wellFormed
        fun _ => hassessed.statistics_eq hsurveyed.estimated
      estimates := hsurveyed.estimated
      assessed := hassessed }
  have hfloored := houtcome.floored_follow (hstart _) hsettled
    (fun call hcall => ⟨hplanners call hcall, (hcalls call hcall).2.2⟩) rfl
  exact houtcome.boundsBelow (hfloored.bounding (.refl final)) hplan hcosted

/-! ## A check of statistics -/

namespace Statistics

/-- The width of a column. -/
def columnWidth (statistics : Statistics) (column : Column) : Float :=
  ((statistics.columns.get? column).map (·.width)).getD defaultWidth

/-- A check that statistics are numbers: no column has a negative width, and a row is finite. -/
def isMeasured (statistics : Statistics) (output : ColumnSet) : Bool :=
  statistics.rows.isFinite && decide (0.0 ≤ statistics.rows) && statistics.rebinds.isFinite &&
    output.toList.all (fun column => decide (0.0 ≤ statistics.columnWidth column)) &&
    (statistics.width output).isFinite

/-- Some columns are together no wider than all, if none has a negative width. -/
theorem measures_of_isMeasured {statistics : Statistics} {output : ColumnSet}
    (h : statistics.isMeasured output = true) : statistics.Measures output := by
  simp only [isMeasured, Bool.and_eq_true, decide_eq_true_eq, List.all_eq_true] at h
  obtain ⟨⟨⟨⟨hrows, hnonneg⟩, hrebinds⟩, hwidths⟩, hwidth⟩ := h
  refine ⟨hrows, hnonneg, hrebinds, fun columns hcolumns => ?_⟩
  have hsublist := (KeyedSet.sublist_of_subset hcolumns).map statistics.columnWidth
  have hvalues : ∀ value ∈ output.toList.map statistics.columnWidth, 0.0 ≤ value :=
    List.forall_mem_map.mpr hwidths
  have hzero : 0.0 ≤ (-0.0 : Float) := by decide +kernel
  have hstart := Estimate.le_self_of_ge hzero
  exact Estimate.isFinite_of_between (by decide +kernel) hwidth
    (Estimate.accumulates_add.foldl hzero fun value hvalue => hvalues value (hsublist.subset hvalue))
    (Estimate.accumulates_add.foldl_le_foldl_of_sublist hzero hzero hstart hsublist hvalues)

end Statistics

namespace Memo

/-- A check that a group has statistics for its columns if it holds a relation, and that its
statistics are numbers. -/
def isEstimated (memo : Memo) (id : GroupId) : Bool :=
  let statistics := memo.statistics? id
  (((memo.group? id).map (·.isScalar)).getD true ||
      statistics.any (·.covers (memo.outputOf id))) &&
    statistics.all (·.isMeasured (memo.outputOf id))

/-- A memo is surveyed if checks of its groups and alternatives say so. -/
theorem surveyed_of_isStacked {memo : Memo} (hwell : memo.WellFormed)
    (hstacked : memo.isStacked = true)
    (hestimated : ∀ index < memo.groups.size, memo.isEstimated ⟨index⟩ = true) : memo.Surveyed where
  catalogued := isCatalogued_of_isStacked hstacked
  enforcing := enforces_of_isStacked hstacked
  acyclic := acyclic_of_isStacked hstacked hwell
  estimated id hrelation := by
    obtain ⟨_, group, hgroup, hscalar⟩ := hrelation
    have hcheck := hestimated id.index (exists_group?_eq_some.mp ⟨group, hgroup⟩)
    simp only [isEstimated, hgroup, Option.map_some, Option.getD_some, hscalar, Bool.false_or,
      Bool.and_eq_true, Option.any_eq_true] at hcheck
    exact hcheck.1
  measured id statistics _ hstatistics := by
    have hknown : id.index < memo.groups.size := by
      obtain ⟨group, hgroup, _⟩ := Option.bind_eq_some_iff.mp hstatistics
      exact exists_group?_eq_some.mp ⟨group, hgroup⟩
    have hcheck := hestimated id.index hknown
    rw [isEstimated, hstatistics, Bool.and_eq_true, Option.all_some] at hcheck
    exact Statistics.measures_of_isMeasured hcheck.2

/-- A check that nothing is noted for costing plans. -/
def isUnnoted (memo : Memo) : Bool :=
  memo.groups.all (fun group => group.contextStatistics.isEmpty && group.lowerBounds.isEmpty) &&
    memo.exprs.all fun expr => expr.bounds.isEmpty

theorem unnoted_of_isUnnoted {memo : Memo} (h : memo.isUnnoted = true) : memo.Unnoted := by
  rw [isUnnoted, Bool.and_eq_true, Array.all_eq_true', Array.all_eq_true'] at h
  refine ⟨fun id group hgroup => ?_, fun id expr hexpr =>
    List.isEmpty_iff.mp (h.2 expr (Array.mem_of_getElem? hexpr))⟩
  have hcheck := h.1 group (Array.mem_of_getElem? hgroup)
  rwa [Bool.and_eq_true, List.isEmpty_iff, List.isEmpty_iff] at hcheck

/-! ## Samples -/

/-- The memo after some insertions. -/
def insertAll (memo : Memo) (entries : List (Operator × List GroupId × Option GroupId)) : Memo :=
  entries.foldl (fun memo (op, children, target) =>
    (exec (Planning.insert op children target none) memo).2) memo

namespace Reachable

variable {memo : Memo} (h : memo.Reachable)
include h

theorem insertAll (entries : List (Operator × List GroupId × Option GroupId)) :
    (memo.insertAll entries).Reachable := by
  induction entries generalizing memo with
  | nil => exact h
  | cons entry rest ih => exact ih (h.insert ..)

theorem afterRequests (requests : List StatisticsRequest) :
    (memo.afterRequests requests).Reachable := by
  induction requests generalizing memo with
  | nil => exact h
  | cons request rest ih => exact ih (h.look (Planning.keeps_deriveStatistics memo).exec_snd)

theorem answer (model : CostModel) (segments : Nat) (query : BoundQuery) :
    (memo.answer model segments query).Reachable :=
  h.look (sameContent_answer memo model segments query)

end Reachable

/-- An index on the only column of a table. -/
def sampleIndex : TableIndex := { name := "", keys := [⟨0⟩] }

/-- A table with ten rows and one column. -/
def sampleTable : TableAccess where
  table :=
    { id := 0, name := "", rows := 10, columns := [⟨⟨0⟩, "", 10, 4⟩], indexes := [sampleIndex] }
  columns := [⟨0⟩]

/-- A predicate on the column. -/
def samplePredicate (value : Int) : Operator :=
  .scalar (.predicate (.compare .less (.column ⟨0⟩) (.literal (.integer value))))

/-- A filter over a table with some scans, and all statistics. -/
def filtering (scans : List PhysicalOperator) : Memo :=
  (({} : Memo).insertAll ([(.logical (.get sampleTable), [], none), (samplePredicate 3, [], none),
    (.logical .select, [⟨0⟩, ⟨1⟩], none), (.physical .filter, [⟨0⟩, ⟨1⟩], some ⟨2⟩)] ++
      scans.map fun scan => (.physical scan, [], some ⟨0⟩))).afterRequests
    [⟨false, ⟨2⟩, .ofList [⟨0⟩]⟩]

theorem reachable_filtering (scans : List PhysicalOperator) : (filtering scans).Reachable :=
  (Reachable.empty.insertAll _).afterRequests _

end Memo

/-- The column of the table is asked for. -/
def PlanRequirement.plain : PlanRequirement := { columns := .ofList [⟨0⟩] }

/-- The column is asked for in the order of the index. -/
def PlanRequirement.sorted : PlanRequirement := { plain with order := ⟨.ascending [⟨0⟩], .satisfy⟩ }

/-- All rows are asked for on one host. -/
def PlanRequirement.gathered (required : PlanRequirement) : PlanRequirement :=
  { required with distribution := ⟨.singleton, .satisfy⟩ }

/-- A call without pruning. -/
def OptimizeCall.unpruned (model : CostModel) (group : GroupId) (required : PlanRequirement) :
    OptimizeCall where
  planner := { model, config := { pruning := false }, fuel := 32 }
  stage := 0
  group
  required

/-- The filter is bounded before it is planned with a gathered scan of the index and a sorted one of
the table, and after. -/
theorem Memo.filtering_boundsBelow :
    let memo := filtering [.tableScan sampleTable, .indexScan sampleTable sampleIndex]
    let final := memo.follow .unit 3 [.bound (.group ⟨2⟩ .plain),
      .optimize (.unpruned .unit ⟨2⟩ (.gathered .sorted)), .bound (.group ⟨2⟩ (.gathered .sorted))]
    ∃ plan context expr, final.costing? ⟨8⟩ = some plan ∧
      final.BoundsBelow .unit 3 plan context expr := by
  intro memo final
  have hreachable : memo.Reachable := reachable_filtering _
  have hsurveyed : memo.Surveyed :=
    surveyed_of_isStacked hreachable.wellFormed (by decide +kernel) (by decide +kernel)
  have htame := hsurveyed.tame hreachable.wellFormed
  have hdiscerns : memo.Discerns .unit 3 := .of_apart htame hsurveyed.appraised
    CostModel.sound_unit.toRegular fun _ _ => Cost.apart_of_whole
  have hunnoted : memo.Unnoted := unnoted_of_isUnnoted (by decide +kernel)
  have hcosted : (final.costing? ⟨8⟩).any (fun plan => !plan.pruned) = true := by decide +kernel
  rw [Option.any_eq_true] at hcosted
  obtain ⟨plan, hplan, hunpruned⟩ := hcosted
  rw [Bool.not_eq_true'] at hunpruned
  obtain ⟨context, expr, hbelow⟩ := hreachable.boundsBelow_follow hsurveyed hunnoted
    CostModel.sound_unit hdiscerns [.bound (.group ⟨2⟩ .plain),
      .optimize (.unpruned .unit ⟨2⟩ (.gathered .sorted)), .bound (.group ⟨2⟩ (.gathered .sorted))]
    (by simp [OptimizeCall.unpruned]) _ plan hplan hunpruned
  exact ⟨plan, context, expr, hplan, hbelow⟩

/-! ## Plans below bounds -/

namespace Memo

/-- A call without pruning finds a best plan that costs less than the answer to a request for a lower
bound of it, although the memo is surveyed and the model is regular. -/
structure Overrates (memo : Memo) (call : OptimizeCall) (query : Costing → Context → BoundQuery) :
    Prop where
  surveyed : memo.Surveyed
  regular : ∃ exact, call.planner.model.Regular exact
  unpruned : call.planner.config.pruning = false
  exceeded : ∃ id plan context bound final, memo.costing? id = none ∧
    (memo.optimizeAll [call]).costing? id = some plan ∧ plan.pruned = false ∧
    (memo.optimizeAll [call]).context? plan.context = some context ∧ context.best = some id ∧
    exec ((query plan context).run call.planner.model call.planner.config.segments)
      (memo.optimizeAll [call]) = (.ok bound, final) ∧ plan.cost.total < bound.total

/-- A check for such a plan. -/
def overrates (memo : Memo) (call : OptimizeCall) (query : Costing → Context → BoundQuery)
    (id : CostingId) : Bool :=
  let final := memo.optimizeAll [call]
  (memo.costing? id).isNone && (final.costing? id).any fun plan => !plan.pruned &&
    (final.context? plan.context).any fun context => context.best == some id &&
      match (exec ((query plan context).run call.planner.model call.planner.config.segments)
        final).1 with
      | .ok bound => decide (plan.cost.total < bound.total)
      | .error _ => false

theorem overrates_of_check {memo : Memo} {call : OptimizeCall}
    {query : Costing → Context → BoundQuery} (hsurveyed : memo.Surveyed)
    (hregular : ∃ exact, call.planner.model.Regular exact)
    (hunpruned : call.planner.config.pruning = false) (id : CostingId)
    (h : memo.overrates call query id = true) : memo.Overrates call query := by
  refine ⟨hsurveyed, hregular, hunpruned, ?_⟩
  simp only [overrates, Bool.and_eq_true, Option.isNone_iff_eq_none, Option.any_eq_true,
    Bool.not_eq_true', beq_iff_eq] at h
  obtain ⟨hnone, plan, hplan, hcosted, context, hcontext, hbest, hbound⟩ := h
  split at hbound
  · rename_i bound hanswer
    exact ⟨id, plan, context, bound, _, hnone, hplan, hcosted, hcontext, hbest,
      Prod.ext hanswer rfl, of_decide_eq_true hbound⟩
  · exact absurd hbound Bool.false_ne_true

end Memo

namespace BoundQuery

/-- The request for the bound of the alternative of a plan, with nothing known of the children. -/
def ofAlternative (plan : Costing) (context : Context) : BoundQuery :=
  .expr plan.expr context.required none

/-- The request for the bound of the group of a plan. -/
def ofGroup (_ : Costing) (context : Context) : BoundQuery := .group context.group context.required

end BoundQuery

namespace Memo

/-- The filter is bounded before the table has a scan. -/
def boundedEarly : Memo :=
  ((filtering []).answer .unit 3 (.expr ⟨3⟩ .plain none)).insertAll
    [(.physical (.tableScan sampleTable), [], some ⟨0⟩)]

/-- The table is planned by a model in which nothing costs anything. -/
def plannedEarly : Memo :=
  (filtering [.tableScan sampleTable]).optimizeAll
    [.unpruned { cost := fun _ _ => .zero } ⟨0⟩ .plain]

/-- A filter among scalars, next to a gather over them. -/
def filteringScalars : Memo :=
  (({} : Memo).insertAll [(.logical (.get sampleTable), [], none), (samplePredicate 3, [], none),
    (samplePredicate 4, [], none), (.physical (.tableScan sampleTable), [], some ⟨0⟩),
    (.physical .filter, [⟨0⟩, ⟨1⟩], some ⟨2⟩), (.physical (.motion .gather), [⟨2⟩], some ⟨2⟩)]).afterRequests
      [⟨false, ⟨0⟩, .ofList [⟨0⟩]⟩]

end Memo

namespace CostModel

/-- Every plan costs less than nothing. -/
def refunding : CostModel := .accumulating Estimate.larger (-1.0) fun _ => -1.0

/-- An index costs less than its table, by too little to be told apart. -/
def close : CostModel :=
  .accumulating Estimate.larger 0.0 fun
    | .physical (.tableScan _) => 1e-17
    | .physical (.indexScan _ _) => 0.0
    | _ => 1.0

theorem regular_refunding : refunding.Regular fun cost => cost.total ≤ cost.total :=
  regular_accumulating (P := fun a => a ≤ a) (Estimate.accumulates_larger fun _ => id)
    (by decide +kernel) (fun _ _ => by decide +kernel) (by decide +kernel) (by decide +kernel)
    fun _ h => Estimate.le_self_of_ge (Estimate.le_sub_zero h)

theorem regular_close : close.Regular fun cost => 0.0 ≤ cost.total := by
  refine regular_accumulating (P := fun a => 0.0 ≤ a)
    (Estimate.accumulates_larger fun _ => Estimate.le_self_of_ge) (by decide +kernel)
    (fun view _ => ?_) (by decide +kernel) (by decide +kernel) fun _ => Estimate.le_sub_zero
  split <;> decide +kernel

end CostModel

/-- Each of the other assumptions is needed: there are plans below bounds after a bound was stored and
a scan was inserted, after another model planned a table, if costs are negative, if two costs are near
each other, and, for the bound of a group, among scalars. -/
theorem Memo.plans_below_bounds :
    (boundedEarly.Reachable ∧
      boundedEarly.Overrates (.unpruned .unit ⟨2⟩ .plain) .ofAlternative) ∧
    (plannedEarly.Attainable ∧
      plannedEarly.Overrates (.unpruned .unit ⟨2⟩ .plain) .ofAlternative) ∧
    ((filtering [.tableScan sampleTable]).Unnoted ∧
      (filtering [.tableScan sampleTable]).Overrates (.unpruned .refunding ⟨2⟩ .plain)
        .ofAlternative) ∧
    ((filtering [.tableScan sampleTable, .indexScan sampleTable sampleIndex]).Unnoted ∧
      (filtering [.tableScan sampleTable, .indexScan sampleTable sampleIndex]).Overrates
        (.unpruned .close ⟨0⟩ .sorted) .ofGroup) ∧
    (filteringScalars.Reachable ∧ filteringScalars.Unnoted ∧
      filteringScalars.Overrates (.unpruned .unit ⟨2⟩ (.gathered {})) .ofGroup) := by
  have hunit : ∃ exact, CostModel.unit.Regular exact := ⟨_, CostModel.sound_unit.toRegular⟩
  have hearly : boundedEarly.Reachable := ((reachable_filtering []).answer ..).insertAll _
  have hscalars : filteringScalars.Reachable := (Reachable.empty.insertAll _).afterRequests _
  have hplanned : plannedEarly.Attainable := (reachable_filtering _).attainable.optimize _ _ _ _
  refine ⟨⟨hearly, ?_⟩, ⟨hplanned, ?_⟩,
    ⟨unnoted_of_isUnnoted (by decide +kernel), ?_⟩, ⟨unnoted_of_isUnnoted (by decide +kernel), ?_⟩,
    hscalars, unnoted_of_isUnnoted (by decide +kernel), ?_⟩
  · exact overrates_of_check (surveyed_of_isStacked hearly.wellFormed (by decide +kernel)
      (by decide +kernel)) hunit rfl ⟨1⟩ (by decide +kernel)
  · exact overrates_of_check (surveyed_of_isStacked hplanned.inOrder.1 (by decide +kernel)
      (by decide +kernel)) hunit rfl ⟨1⟩ (by decide +kernel)
  · exact overrates_of_check (surveyed_of_isStacked (reachable_filtering _).wellFormed
      (by decide +kernel) (by decide +kernel)) ⟨_, CostModel.regular_refunding⟩ rfl ⟨1⟩
      (by decide +kernel)
  · exact overrates_of_check (surveyed_of_isStacked (reachable_filtering _).wellFormed
      (by decide +kernel) (by decide +kernel)) ⟨_, CostModel.regular_close⟩ rfl ⟨0⟩
      (by decide +kernel)
  · exact overrates_of_check (surveyed_of_isStacked hscalars.wellFormed (by decide +kernel)
      (by decide +kernel)) hunit rfl ⟨3⟩ (by decide +kernel)

end QueryPlanner
