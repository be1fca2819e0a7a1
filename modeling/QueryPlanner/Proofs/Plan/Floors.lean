import QueryPlanner.Proofs.Plan.Bids

/-!
# Floors under recorded plans

A bid that no recorded plan undercuts is a floor under these plans, for a group and some columns
(`Memo.GroupFloor`) or for an alternative of the group (`Memo.ExprFloor`). The floors of children give
one of the parent, because the model is monotone and a child that cannot be planned makes the parent
infinite (`Memo.Priced.exprFloor`). The least floor of the alternatives that enforce nothing is one of
a group of relations: a plan that enforces something costs at least what the plan below it does, and
that is a plan for the same group and columns (`Memo.Priced.groupFloor`).
-/

namespace QueryPlanner

open Planning (boundOver)

/-- An enforcer asks its child for the columns that are asked of itself. -/
theorem PhysicalOperator.childColumns_enforcer {op : PhysicalOperator} {view : ExprView}
    {columns : ColumnSet} {child : ChildView} (henforcer : op.isEnforcer = true)
    (hchildren : view.children = [child]) (hrelation : child.isScalar = false)
    (hcovered : columns.subset child.properties.relationOrEmpty.output = true) :
    op.childColumns view columns 0 = columns := by
  have husual : op.childColumns view columns 0 = view.usualChildColumns columns 0 := by
    cases op with
    | hashAggregate _ _ => simp [isEnforcer, enforcerKind?] at henforcer
    | streamAggregate _ _ => simp [isEnforcer, enforcerKind?] at henforcer
    | _ => rfl
  have hscalars : view.scalarColumns = .empty := by
    have hnone : child.properties.scalar? = none := by
      cases hkind : child.properties with
      | relation _ => rfl
      | scalar _ => simp [ChildView.isScalar, hkind, GroupProperties.isScalar] at hrelation
    unfold ExprView.scalarColumns
    simp [hchildren, hnone]
  have houtput : (view.childLogical 0).output = child.properties.relationOrEmpty.output := by
    unfold ExprView.childLogical
    simp [hchildren]
  rw [husual, ExprView.usualChildColumns, hscalars, houtput]
  refine KeyedSet.eq_of_mem_iff fun column => ?_
  rw [KeyedSet.mem_inter, KeyedSet.mem_union]
  have hcovers := KeyedSet.subset_iff.mp hcovered column
  simp only [KeyedSet.mem_empty, or_false]
  exact ⟨And.left, fun hcolumn => ⟨hcolumn, hcovers hcolumn⟩⟩

namespace Memo

variable {planners : List Planner} {model : CostModel} {segments : Nat}
  {below : GroupId → GroupId → Prop} {memo : Memo} {exact : Cost → Prop} {group : GroupId}
  {columns : ColumnSet} {plan : Costing} {context : Context} {expr : MemoExpr}
  {op : PhysicalOperator} {id : ExprId} {costed : Option (Nat × CostingId)}
  {known : GroupId → Option Statistics}

/-! ## Floors -/

/-- A bid of the group that no plan for it and the columns undercuts. -/
structure GroupFloor (model : CostModel) (segments : Nat) (memo : Memo) (group : GroupId)
    (columns : ColumnSet) (bound : Cost) : Prop where
  bid : memo.Bids model segments group columns bound
  least : ∀ plan, memo.PlansFor group columns plan → bound.total ≤ plan.cost.total

/-- The child context of the plan at a position has the given costing as its best one. -/
def HoldsAt (memo : Memo) (plan : Costing) (entry : Nat × CostingId) : Prop :=
  ∃ own, plan.childContexts[entry.1]? = some (some own) ∧ memo.best? own = some entry.2

/-- A cost that no plan with the alternative on top undercuts, for the columns and over the child that
is costed already, if any. Otherwise it is a bid of the relation that considers the alternative. -/
structure ExprFloor (model : CostModel) (segments : Nat) (memo : Memo) (id : ExprId)
    (columns : ColumnSet) (costed : Option (Nat × CostingId)) (bound : Cost) : Prop where
  bid : costed = none → ∀ group, memo.Relational group → memo.Considers group id →
    memo.Bids model segments group columns bound
  least : ∀ group plan, memo.PlansFor group columns plan → plan.expr = id →
    (∀ entry ∈ costed, memo.HoldsAt plan entry) → bound.total ≤ plan.cost.total

/-! ## Views with statistics -/

/-- What is seen of a child group, with its statistics. -/
def fullChild (memo : Memo) (known : GroupId → Option Statistics) (id : GroupId) : ChildView :=
  { memo.bareChild id with groupStatistics := known (memo.master id) }

/-- What the operator of an alternative sees, with the statistics of groups. -/
def fullView (memo : Memo) (known : GroupId → Option Statistics) (id : ExprId) (expr : MemoExpr) :
    ExprView :=
  { memo.bareView id expr with
    groupStatistics := known (memo.master expr.group)
    children := expr.children.map (memo.fullChild known) }

theorem bare_fullView (known : GroupId → Option Statistics) (id : ExprId) (expr : MemoExpr) :
    (memo.fullView known id expr).bare = memo.bareView id expr := by
  unfold ExprView.bare fullView bareView
  congr 1
  rw [List.map_map]
  rfl

theorem outline_fullView : (memo.fullView known id expr).outline = (memo.bareView id expr).outline := by
  rw [← ExprView.outline_bare, bare_fullView]

/-! ## Bounded children -/

/-- What stands for the children of an alternative in a bound: the input of the child that is costed
already, floors for the others, and nothing when a floor is infinite. -/
inductive BoundedChildren (model : CostModel) (segments : Nat) (memo : Memo)
    (asked : Nat → ColumnSet) (costed : Option (Nat × CostingId)) :
    List (ChildView × Nat) → Option (List ChildCosting) → Prop
  | nil : BoundedChildren model segments memo asked costed [] (some [])
  | scalar {child : ChildView} {position : Nat} {rest : List (ChildView × Nat)}
      {result : Option (List ChildCosting)} (hscalar : child.isScalar = true)
      (others : BoundedChildren model segments memo asked costed rest result) :
      BoundedChildren model segments memo asked costed ((child, position) :: rest) result
  | costed {child : ChildView} {position : Nat} {rest : List (ChildView × Nat)}
      {result : Option (List ChildCosting)} {slot : CostingId} {input : ChildCosting}
      (hrelation : child.isScalar = false) (hcosted : costed = some (position, slot))
      (hinput : ∀ own, memo.best? own = some slot → memo.bestInput? segments own = some input)
      (others : BoundedChildren model segments memo asked costed rest result) :
      BoundedChildren model segments memo asked costed ((child, position) :: rest)
        (result.map (input :: ·))
  | floored {child : ChildView} {position : Nat} {rest : List (ChildView × Nat)}
      {result : Option (List ChildCosting)} {least : Cost} (hrelation : child.isScalar = false)
      (hfloor : memo.InScope child.group (asked position) →
        memo.GroupFloor model segments child.group (asked position) least)
      (others : BoundedChildren model segments memo asked costed rest result) :
      BoundedChildren model segments memo asked costed ((child, position) :: rest)
        (result.map
          (ChildCosting.ofStatistics child.groupStatistics (asked position) segments least :: ·))
  | infinite {child : ChildView} {position : Nat} {rest : List (ChildView × Nat)} {least : Cost}
      (hrelation : child.isScalar = false)
      (hfloor : memo.InScope child.group (asked position) →
        memo.GroupFloor model segments child.group (asked position) least)
      (hinfinite : least.isInfinite = true) :
      BoundedChildren model segments memo asked costed ((child, position) :: rest) none

/-- What is recorded for a child: nothing for a scalar, a best plan for a relation, and the one that is
costed already if there is one. -/
def PlannedChild (segments : Nat) (below : GroupId → GroupId → Prop) (memo : Memo)
    (asked : Nat → ColumnSet) (costed : Option (Nat × CostingId)) (goal : GroupId × PlanRequirement)
    (item : ChildView × Nat) : Option ContextId → Prop
  | none => item.1.isScalar = true
  | some own => item.1.isScalar = false ∧
      item.1.groupStatistics = memo.statistics? item.1.group ∧
      (∃ child best, item.1.group = memo.master child ∧
        memo.ChildPlan segments below goal child (asked item.2) own best) ∧
      ∀ slot, costed = some (item.2, slot) → memo.best? own = some slot

/-- The inputs of a bound are exact and at most those of a plan, or the plan is infinite. -/
def FitsBelow (exact : Cost → Prop) (inputs : List ChildCosting) :
    Option (List ChildCosting) → Prop
  | some lower => (∀ input ∈ lower, input.Exact exact) ∧
      List.Forall₂ ChildCosting.AtMost lower inputs
  | none => ∃ input ∈ inputs, Cost.infinite.total ≤ input.cost.total

theorem FitsBelow.cons {inputs : List ChildCosting} {result : Option (List ChildCosting)}
    (h : FitsBelow exact inputs result) {lower input : ChildCosting} (hexact : lower.Exact exact)
    (hatMost : lower.AtMost input) : FitsBelow exact (input :: inputs) (result.map (lower :: ·)) := by
  cases result with
  | none =>
      obtain ⟨other, hother, hinfinite⟩ := h
      exact ⟨other, List.mem_cons_of_mem _ hother, hinfinite⟩
  | some others =>
      refine ⟨fun other hother => ?_, .cons hatMost h.2⟩
      rcases List.mem_cons.mp hother with rfl | hother
      · exact hexact
      · exact h.1 other hother

variable {asked : Nat → ColumnSet} {items : List (ChildView × Nat)}
  {result : Option (List ChildCosting)} {goal : GroupId × PlanRequirement}

/-- A floor with the statistics of a relation is an exact input. -/
theorem GroupFloor.exact_input {bound : Cost}
    (hfloor : memo.GroupFloor model segments group columns bound)
    (h : memo.Priced planners model segments below) (hmodel : model.Sound exact)
    (hscope : memo.InScope group columns) :
    (ChildCosting.ofStatistics (memo.statistics? group) columns segments bound).Exact exact :=
  ⟨(h.measured_ofStatistics (.refl memo) hscope.1.1 hscope.2 segments none bound).1,
    cost_ofStatistics ▸ hfloor.bid.isExact h.toTame h.toAppraised hmodel.toRegular hscope⟩

/-- It is at most what a parent is charged for a plan of the group. -/
theorem GroupFloor.atMost {bound : Cost}
    (hfloor : memo.GroupFloor model segments group columns bound)
    (h : memo.Priced planners model segments below) (hscope : memo.InScope group columns)
    (hplan : memo.PlansFor group columns plan) :
    (ChildCosting.ofStatistics (memo.statistics? group) columns segments bound).AtMost
      ((memo.estimateOf group).childInput segments columns plan) := by
  obtain ⟨_, hrows, hwidth, hrebinds⟩ := h.measured_ofStatistics (.refl memo) hscope.1.1 hscope.2
    segments plan.delivered bound
  refine ⟨hrows, hwidth, hrebinds, ?_⟩
  rw [cost_ofStatistics]
  exact hfloor.least plan hplan

/-- Without a child that is costed already, a bound is over bids of the children. -/
theorem BoundedChildren.exists_bids (hknown : memo.Reckons known) {children : List (GroupId × Nat)}
    (hbounded : BoundedChildren model segments memo asked none
      (children.map fun entry => (memo.fullChild known entry.1, entry.2)) result)
    (hscope : ∀ entry ∈ children, (memo.properties (memo.master entry.1)).isScalar = false →
      memo.InScope (memo.master entry.1) (asked entry.2)) :
    ∀ inputs ∈ result, ∃ bids : List Cost, bids.length = children.length ∧
      inputs = (children.zip bids).filterMap (memo.bidInput? segments asked) ∧
      ∀ entry ∈ children.zip bids,
        (memo.properties (memo.master entry.1.1)).isScalar = false →
          memo.Bids model segments (memo.master entry.1.1) (asked entry.1.2) entry.2 := by
  induction children generalizing result with
  | nil =>
      cases hbounded
      intro inputs hinputs
      obtain rfl := Option.some.inj hinputs
      exact ⟨[], rfl, rfl, by simp⟩
  | cons entry rest ih =>
      obtain ⟨child, position⟩ := entry
      replace ih {result} := @ih result
      rw [List.map_cons] at hbounded
      rw [List.forall_mem_cons] at hscope
      intro inputs hinputs
      cases hbounded with
      | scalar hscalar others =>
          obtain ⟨bids, hlength, rfl, hbids⟩ := ih others hscope.2 inputs hinputs
          have hskipped : memo.bidInput? segments asked ((child, position), .infinite) = none :=
            if_pos hscalar
          refine ⟨.infinite :: bids, congrArg Nat.succ hlength, ?_, ?_⟩
          · rw [List.zip_cons_cons, List.filterMap_cons_none hskipped]
          · rw [List.zip_cons_cons, List.forall_mem_cons]
            exact ⟨fun _ => .infinite, hbids⟩
      | costed _ hcosted => exact absurd hcosted (by simp)
      | @floored _ _ _ result least hrelation hfloor others =>
          obtain ⟨inputs, hothers, rfl⟩ := Option.map_eq_some_iff.mp hinputs
          obtain ⟨bids, hlength, rfl, hbids⟩ := ih others hscope.2 inputs hothers
          have hnot : (memo.properties (memo.master child)).isScalar = false := hrelation
          have hinput : memo.bidInput? segments asked ((child, position), least) =
              some (.ofStatistics (memo.fullChild known child).groupStatistics (asked position)
                segments least) := by
            have hstatistics : (memo.fullChild known child).groupStatistics =
                memo.statistics? (memo.master child) := hknown.relations _ (hscope.1 hnot).1
            rw [hstatistics]
            exact if_neg (by simp [hnot])
          refine ⟨least :: bids, congrArg Nat.succ hlength, ?_, ?_⟩
          · rw [List.zip_cons_cons, List.filterMap_cons_some hinput]
          · rw [List.zip_cons_cons, List.forall_mem_cons]
            exact ⟨fun hrelation => (hfloor (hscope.1 hrelation)).bid, hbids⟩
      | infinite => simp at hinputs

/-- What a best plan costs is the next input of its parent. -/
theorem bestInputs_cons {own : ContextId} {others : List (Option ContextId)} {input : ChildCosting}
    (hinput : memo.bestInput? segments own = some input) :
    memo.bestInputs segments (some own :: others) = input :: memo.bestInputs segments others := by
  unfold bestInputs
  rw [List.filterMap_cons, Option.bind_some, hinput]

/-- Over the children of a plan, the inputs of a bound are at most those of the plan. -/
theorem BoundedChildren.fitsBelow [IsStrictOrder GroupId below]
    (hbounded : BoundedChildren model segments memo asked costed items result)
    (h : memo.Priced planners model segments below) (hmodel : model.Sound exact)
    {entries : List (Option ContextId)}
    (hplanned : List.Forall₂ (memo.PlannedChild segments below asked costed goal) items entries) :
    FitsBelow exact (memo.bestInputs segments entries) result := by
  induction hbounded generalizing entries with
  | nil =>
      cases hplanned
      exact ⟨by simp, .nil⟩
  | scalar hscalar _ ih =>
      obtain ⟨entry, others, hentry, hothers, rfl⟩ := List.forall₂_cons_left_iff.mp hplanned
      cases entry with
      | none =>
          have hrest := ih hothers
          exact hrest
      | some own => exact absurd (hscalar.symm.trans hentry.1) (by simp)
  | costed hrelation hcosted hinput _ ih =>
      obtain ⟨entry, others, hentry, hothers, rfl⟩ := List.forall₂_cons_left_iff.mp hplanned
      cases entry with
      | none => exact absurd (hentry.symm.trans hrelation) (by simp)
      | some own =>
          obtain ⟨_, _, ⟨child, best, _, hchild⟩, hheld⟩ := hentry
          obtain rfl := Option.some.inj ((hinput own (hheld _ hcosted)).symm.trans hchild.charged)
          have hexact := hchild.exact_input h hmodel (h.exact_cost hmodel hchild.plan)
          rw [bestInputs_cons hchild.charged]
          exact (ih hothers).cons hexact (hexact.atMost_self hmodel)
  | floored hrelation hfloor _ ih =>
      obtain ⟨entry, others, hentry, hothers, rfl⟩ := List.forall₂_cons_left_iff.mp hplanned
      cases entry with
      | none => exact absurd (hentry.symm.trans hrelation) (by simp)
      | some own =>
          obtain ⟨_, hstatistics, ⟨child, best, hgroup, hchild⟩, _⟩ := hentry
          dsimp only at hgroup hstatistics hchild
          rw [hgroup] at hfloor hstatistics
          have hscope : memo.InScope (memo.master child) _ :=
            ⟨hchild.relational, hchild.plan.covered h hmodel⟩
          have hleast := hfloor hscope
          rw [bestInputs_cons hchild.charged, hstatistics]
          exact (ih hothers).cons (hleast.exact_input h hmodel hscope)
            (hleast.atMost h hscope hchild.plan)
  | infinite hrelation hfloor hinfinite =>
      obtain ⟨entry, others, hentry, hothers, rfl⟩ := List.forall₂_cons_left_iff.mp hplanned
      cases entry with
      | none => exact absurd (hentry.symm.trans hrelation) (by simp)
      | some own =>
          obtain ⟨_, _, ⟨child, best, hgroup, hchild⟩, _⟩ := hentry
          rw [hgroup] at hfloor
          have hleast := (hfloor ⟨hchild.relational,
            hchild.plan.covered h hmodel⟩).least best hchild.plan
          rw [bestInputs_cons hchild.charged]
          exact ⟨_, List.mem_cons_self .., (Cost.infinite_le_iff hinfinite).mpr hleast⟩

/-! ## Floors of alternatives -/

/-- The child contexts of a plan are those of the children that are seen. -/
theorem Itemized.plannedChildren
    (hitem : memo.Itemized model segments below group columns plan context expr op)
    (h : memo.Priced planners model segments below) (hknown : memo.Reckons known)
    (hheld : ∀ entry ∈ costed, memo.HoldsAt plan entry) :
    List.Forall₂ (memo.PlannedChild segments below (memo.asks plan.expr expr op columns) costed
      context.goal) (memo.fullView known plan.expr expr).children.zipIdx plan.childContexts := by
  have hlength : (memo.fullView known plan.expr expr).children.length = expr.children.length :=
    List.length_map ..
  refine List.forall₂_iff_get.mpr ⟨by rw [List.length_zipIdx, hlength, hitem.planned.length_eq],
    fun position hlt hlt' => ?_⟩
  have hchild : position < expr.children.length := hitem.planned.length_eq ▸ hlt'
  have hplanned := (List.forall₂_iff_get.mp hitem.planned).2 position hchild hlt'
  have hseen : (memo.fullView known plan.expr expr).children.zipIdx.get ⟨position, hlt⟩ =
      (memo.fullChild known expr.children[position], position) := by
    simp [fullView]
  rw [hseen]
  simp only [List.get_eq_getElem] at hplanned ⊢
  cases hentry : plan.childContexts[position] with
  | none =>
      rw [hentry] at hplanned
      exact hplanned
  | some own =>
      rw [hentry] at hplanned
      have hid : plan.childContexts[position]? = some (some own) := by
        rw [List.getElem?_eq_getElem hlt', hentry]
      obtain ⟨child, best, hfound, hbest⟩ := hitem.childPlan h hid
      obtain rfl : expr.children[position] = child :=
        Option.some.inj ((List.getElem?_eq_getElem hchild).symm.trans hfound)
      refine ⟨hplanned.1, hknown.relations _ hbest.relational, ⟨_, best, rfl, hbest⟩,
        fun slot hslot => ?_⟩
      obtain ⟨own', hown', hslot⟩ := hheld _ hslot
      obtain rfl := Option.some.inj (Option.some.inj (hid.symm.trans hown'))
      exact hslot

theorem boundOver_fullView (hmodel : model.Regular exact) {required : PlanRequirement}
    (children : List ChildCosting) :
    boundOver model segments ((memo.fullView known id expr).withRequired required) required children =
      memo.chargeOver model segments id expr (known (memo.master expr.group)) required.columns
        children := by
  unfold boundOver chargeOver
  rw [← hmodel.outlined ((memo.fullView known id expr).withRequired required) _ _
    (ExprView.outline_withRequired.trans outline_fullView)]
  rfl

/-- What is computed for an alternative over floors of its children is a floor of the alternative. -/
theorem Priced.exprFloor [IsStrictOrder GroupId below]
    (h : memo.Priced planners model segments below) (hmodel : model.Sound exact)
    (hknown : memo.Reckons known) (hexpr : memo.expr? id = some expr) (hop : expr.op = .physical op)
    {required : PlanRequirement}
    (hcovered : memo.HasColumns (memo.master expr.group) required.columns)
    (hbounded : BoundedChildren model segments memo (memo.asks id expr op required.columns) costed
      (memo.fullView known id expr).children.zipIdx result) :
    memo.ExprFloor model segments id required.columns costed ((result.map
      (boundOver model segments ((memo.fullView known id expr).withRequired required) required)).getD
        .infinite) := by
  have hmaster := h.wellFormed.linksEnd.master_master expr.group
  have hcatalogued : (memo.bareView id expr).IsCatalogued := fun op hop =>
    h.catalogued id expr op hexpr hop
  have hexact {children : List ChildCosting} (hchildren : ∀ child ∈ children, child.Exact exact) :
      (floorInputs (known (memo.master expr.group)) segments required.columns children).Exact exact :=
    ⟨(h.measured_ofStatistics hknown hmaster hcovered segments none .zero).1, hchildren⟩
  refine ⟨fun hnone group hrelation hconsiders => ?_, fun group plan hplan hid hheld => ?_⟩
  · subst hnone
    have hgroup : memo.master expr.group = group := by
      obtain ⟨_, found, hfound, howner⟩ := h.wellFormed.owned hconsiders.1
      obtain rfl := Option.some.inj (hexpr.symm.trans hfound)
      rw [howner, hrelation.1]
    have hviews : (memo.fullView known id expr).children.zipIdx =
        expr.children.zipIdx.map fun entry => (memo.fullChild known entry.1, entry.2) :=
      List.zipIdx_map ..
    rw [hviews] at hbounded
    have hexists := hbounded.exists_bids hknown fun entry hentry hrelation =>
      h.wellFormed.inScope_child required.columns hexpr hop (List.mem_zipIdx_iff_getElem?.mp hentry) hrelation
    cases result with
    | none => exact .infinite
    | some children =>
        obtain ⟨bids, hlength, rfl, hbids⟩ := hexists children rfl
        rw [Option.map_some, Option.getD_some, boundOver_fullView hmodel.toRegular,
          hknown.relations _ (hgroup ▸ hrelation)]
        exact .alternative hconsiders hexpr hop (hlength.trans List.length_zipIdx) hbids
  · subst hid
    obtain ⟨context, expr', op', hitem⟩ := h.itemized hmodel hplan
    obtain rfl := Option.some.inj (hexpr.symm.trans hitem.expr_found)
    obtain rfl := Operator.physical.inj (hop.symm.trans hitem.physical)
    obtain rfl := hitem.home
    have hfits := hbounded.fitsBelow h hmodel (hitem.plannedChildren h hknown hheld)
    cases result with
    | none =>
        obtain ⟨input, hinput, hinfinite⟩ := hfits
        exact Estimate.le_trans hinfinite (hitem.child_cost_le h hmodel hinput)
    | some children =>
        obtain ⟨hinputs, hatMost⟩ := hfits
        have hplanExact := hitem.exact_inputs h hmodel fun _ _ _ _ hchild =>
          h.exact_cost hmodel hchild.plan
        obtain ⟨_, hrows, hwidth, hrebinds⟩ := h.measured_ofStatistics hknown hmaster hcovered
          segments plan.delivered .zero
        have hle : (model.cost (memo.bareView plan.expr expr)
            (floorInputs (known (memo.master expr.group)) segments required.columns
              children)).total ≤ plan.cost.total := by
          rw [hitem.charged]
          exact hmodel.monotone _ _ _ hcatalogued (hexact hinputs) hplanExact
            ⟨hrows, hwidth, hrebinds, hatMost, rfl⟩
        rw [Option.map_some, Option.getD_some, boundOver_fullView hmodel.toRegular]
        unfold chargeOver
        dsimp only
        split
        · exact hle
        · exact Estimate.le_trans (Cost.saturatingSub_le
            (hmodel.nonneg _ (hmodel.closed _ _ hcatalogued (hexact hinputs))) hmodel.charge) hle

/-! ## Floors of groups -/

/-- A plan that enforces something costs at least what some plan for the same group and columns does,
and the goal of that plan comes below its own. -/
theorem Itemized.exists_enforced [IsStrictOrder GroupId below]
    (hitem : memo.Itemized model segments below group columns plan context expr op)
    (h : memo.Priced planners model segments below) (hmodel : model.Sound exact)
    (hrelation : memo.Relational group) (henforcer : op.isEnforcer = true) :
    ∃ child asked own best, memo.ChildPlan segments below context.goal child asked own best ∧
      memo.PlansFor group columns best ∧ best.cost.total ≤ plan.cost.total := by
  have hmaster := h.enforcing plan.expr expr hitem.expr_found (by rwa [hitem.physical])
  obtain ⟨child, hchildren, hown⟩ := List.map_eq_singleton_iff.mp hmaster
  rw [hitem.home] at hown
  have hplanned := hitem.planned
  rw [hchildren] at hplanned
  obtain ⟨entry, _, hentry, hnone, hcontexts⟩ := List.forall₂_cons_left_iff.mp hplanned
  obtain rfl := List.forall₂_nil_left_iff.mp hnone
  have hrelational : (memo.properties (memo.master child)).isScalar = false := by
    obtain ⟨_, found, hfound, hnot⟩ := hrelation
    rw [hown, properties, hfound]
    exact hnot
  cases entry with
  | none => exact absurd (hentry.symm.trans hrelational) (by simp)
  | some own =>
      have hid : plan.childContexts[0]? = some (some own) := by
        rw [hcontexts]
        rfl
      obtain ⟨child', best, hfound, hbest⟩ := hitem.childPlan h hid
      obtain rfl : child = child' := by
        rw [hchildren] at hfound
        exact Option.some.inj hfound
      have hcolumns : op.childColumns (memo.bareView plan.expr expr) columns 0 = columns := by
        refine PhysicalOperator.childColumns_enforcer henforcer
          (show (memo.bareView plan.expr expr).children = [memo.bareChild child] from
            congrArg (List.map memo.bareChild) hchildren) hrelational ?_
        show columns.subset (memo.properties (memo.master child)).relationOrEmpty.output = true
        rw [← outputOf_eq, hown]
        exact hitem.covered
      have hinput : (memo.estimateOf (memo.master child)).childInput segments
          (op.childColumns (memo.bareView plan.expr expr) columns 0) best ∈
            memo.bestInputs segments plan.childContexts := by
        rw [hcontexts, bestInputs_cons hbest.charged]
        exact List.mem_cons_self ..
      have hcost := hitem.child_cost_le h hmodel hinput
      refine ⟨child, _, own, best, hbest, ?_, hcost⟩
      have hplan := hbest.plan
      rwa [hown, hcolumns] at hplan

/-- A bid that is at most a floor of every alternative considered is a floor of the group. -/
theorem Priced.groupFloor [IsStrictOrder GroupId below]
    (h : memo.Priced planners model segments below) (hmodel : model.Sound exact)
    (hrelation : memo.Relational group) {least : Cost}
    (hbid : memo.Bids model segments group columns least)
    (hleast : ∀ id, memo.Considers group id → ∃ bound,
      memo.ExprFloor model segments id columns none bound ∧ least.total ≤ bound.total) :
    memo.GroupFloor model segments group columns least := by
  refine ⟨hbid, fun plan hplan => ?_⟩
  refine h.induct hmodel
    (motive := fun plan => memo.PlansFor group columns plan → least.total ≤ plan.cost.total)
    ?_ hplan hplan
  intro group' columns' found context expr op hfound hitem hchildren hsame
  -- a plan is for one group and some columns
  obtain ⟨context', hcontext', hgroup, hcolumns⟩ := hsame.asked
  obtain rfl := Option.some.inj (hitem.context_found.symm.trans hcontext')
  obtain rfl := hitem.group_eq.symm.trans hgroup
  obtain rfl := hitem.columns_eq.symm.trans hcolumns
  cases henforcer : op.isEnforcer with
  | true =>
      obtain ⟨child, asked, own, best, hbest, hbelow, hcost⟩ :=
        hitem.exists_enforced h hmodel hrelation henforcer
      exact Estimate.le_trans (hchildren child asked own best hbest hbelow) hcost
  | false =>
      obtain ⟨bound, hfloor, hle⟩ := hleast found.expr
        ⟨hitem.listed, op, physical?_eq_some hitem.expr_found hitem.physical, henforcer⟩
      exact Estimate.le_trans hle (hfloor.least _ found hfound rfl (by simp))

end Memo

end QueryPlanner
