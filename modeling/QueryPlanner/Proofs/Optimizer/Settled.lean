import QueryPlanner.Proofs.Optimizer.Evolution

/-!
# What planning has found

`Memo.Settled` is the invariant of planning: contexts are filed with their groups, a best costing
belongs to its context and is not pruned, and every costing that is not pruned is justified by the
memo as it is now. Justified means that the properties and the cost that were recorded are those
over the best plans that the child contexts hold, and these contexts are about what the request asks
of the children (`Memo.Accounted`). All child contexts are optimized, so they stay as they are, and
what is justified remains so.
-/

namespace QueryPlanner.Memo

/-! ## Justified costings -/

/-- What the operator of an alternative sees over the best plans that child contexts hold. -/
def planView (memo : Memo) (id : ExprId) (expr : MemoExpr) (children : List (Option ContextId)) :
    ExprView :=
  memo.overContextsFrom 0 children (memo.bareView id expr)

/-- The costing inputs from the best plans that child contexts hold. -/
def bestInputs (memo : Memo) (segments : Nat) (children : List (Option ContextId)) :
    List ChildCosting :=
  children.filterMap fun child => child.bind (memo.bestInput? segments)

/-- The cost of a costing is that of the model over the best plans that its child contexts hold.
The model sees the statistics of groups as they were known when it was asked. -/
def IsCharged (memo : Memo) (planner : Planner) (costing : Costing) (context : Context)
    (view : ExprView) : Prop :=
  ∃ statistics seen, costing.statistics = some statistics ∧
    seen.bare = view.withRequired context.required ∧
    costing.cost = planner.model.cost seen
      { rows := hostRows costing.delivered statistics planner.config.segments
        width := statistics.width context.required.columns
        rebinds := statistics.rebinds
        children := memo.bestInputs planner.config.segments costing.childContexts
        segments := planner.config.segments }

/-- What is recorded for a child of an alternative: nothing for a scalar, a chosen plan further down
for a relation. -/
def Planned (below : GroupId → GroupId → Prop) (memo : Memo) (goal : GroupId × PlanRequirement)
    (child : GroupId) : Option ContextId → Prop
  | none => (memo.properties (memo.master child)).isScalar = true
  | some id => (memo.properties (memo.master child)).isScalar = false ∧
      ∃ context costing, memo.Chosen id context costing ∧ context.group = memo.master child ∧
        Asks below goal context.goal

/-- A costing records what follows from the best plans that its child contexts hold. -/
structure Justifies (planners : List Planner) (below : GroupId → GroupId → Prop) (memo : Memo)
    (costing : Costing) (context : Context) (expr : MemoExpr) (op : PhysicalOperator) : Prop where
  context_found : memo.context? costing.context = some context
  expr_found : memo.expr? costing.expr = some expr
  physical : expr.op = .physical op
  home : memo.master expr.group = context.group
  planned : List.Forall₂ (memo.Planned below context.goal) expr.children costing.childContexts
  delivered : costing.delivered =
    some (op.delivered (memo.planView costing.expr expr costing.childContexts))
  satisfied : context.required.isSatisfiedBy (memo.logical context.group)
    (op.delivered (memo.planView costing.expr expr costing.childContexts)) = true
  charged : ∃ planner ∈ planners, memo.IsCharged planner costing context
    (memo.planView costing.expr expr costing.childContexts)

/-- A costing is justified by the memo. -/
def Justified (planners : List Planner) (below : GroupId → GroupId → Prop) (memo : Memo)
    (costing : Costing) : Prop :=
  ∃ context expr op, memo.Justifies planners below costing context expr op

variable {planners : List Planner} {below : GroupId → GroupId → Prop} {memo memo' : Memo}
  {held : List ContextId}

/-- What is recorded for a child remains right. -/
theorem Planned.evolves {goal : GroupId × PlanRequirement} {child : GroupId}
    {entry : Option ContextId} (h : memo.Planned below goal child entry)
    (hevolves : Evolves held memo memo') : memo'.Planned below goal child entry := by
  cases entry with
  | none => rwa [Planned, hevolves.master, hevolves.properties]
  | some id =>
      obtain ⟨hrelation, context, costing, hchosen, hgroup, hasks⟩ := h
      rw [Planned, hevolves.master, hevolves.properties]
      exact ⟨hrelation, context, costing, hchosen.evolves hevolves, hgroup, hasks⟩

/-- A recorded child context is planned for a child. -/
theorem exists_planned_of_mem {goal : GroupId × PlanRequirement} {children : List GroupId}
    {contexts : List (Option ContextId)} (h : List.Forall₂ (memo.Planned below goal) children contexts)
    {entry : Option ContextId} (hentry : entry ∈ contexts) :
    ∃ child, memo.Planned below goal child entry := by
  induction h with
  | nil => simp at hentry
  | @cons child _ _ _ hfirst _ ih =>
      rcases List.mem_cons.mp hentry with rfl | hentry
      · exact ⟨child, hfirst⟩
      · exact ih hentry

/-- A recorded child context holds a chosen plan. -/
theorem exists_chosen_of_planned {goal : GroupId × PlanRequirement} {children : List GroupId}
    {contexts : List (Option ContextId)} (h : List.Forall₂ (memo.Planned below goal) children contexts)
    {id : ContextId} (hid : some id ∈ contexts) : ∃ context costing, memo.Chosen id context costing := by
  obtain ⟨_, _, context, costing, hchosen, _⟩ := exists_planned_of_mem h hid
  exact ⟨context, costing, hchosen⟩

/-- The view over chosen plans stays the same. -/
theorem Evolves.planView (hevolves : Evolves held memo memo') (id : ExprId) {expr expr' : MemoExpr}
    {children : List (Option ContextId)} (hop : expr'.op = expr.op)
    (hchildren : expr'.children = expr.children) (hgroup : expr'.group = expr.group)
    (hchosen : ∀ id, some id ∈ children → ∃ context costing, memo.Chosen id context costing) :
    memo'.planView id expr' children = memo.planView id expr children := by
  unfold Memo.planView
  rw [hevolves.bareView hop hchildren hgroup]
  refine overContextsFrom_congr fun id hid => ?_
  obtain ⟨context, costing, hchosen⟩ := hchosen id hid
  rw [hchosen.best, (hchosen.evolves hevolves).best]

theorem Evolves.planView_eq (hevolves : Evolves held memo memo') {id : ExprId} {expr expr' : MemoExpr}
    {children : List (Option ContextId)} (hexpr : memo.expr? id = some expr)
    (hexpr' : memo'.expr? id = some expr')
    (hchosen : ∀ id, some id ∈ children → ∃ context costing, memo.Chosen id context costing) :
    memo'.planView id expr' children = memo.planView id expr children := by
  obtain ⟨found, hfound, hop, hchildren, hgroup⟩ := hevolves.expr id expr hexpr
  obtain rfl := Option.some.inj (hexpr'.symm.trans hfound)
  exact hevolves.planView id hop hchildren hgroup hchosen

/-- The inputs from chosen plans stay the same. -/
theorem Evolves.bestInputs (hevolves : Evolves held memo memo') {children : List (Option ContextId)}
    (hchosen : ∀ id, some id ∈ children → ∃ context costing, memo.Chosen id context costing)
    (segments : Nat) : memo'.bestInputs segments children = memo.bestInputs segments children := by
  refine List.filterMap_congr fun child hchild => ?_
  cases child with
  | none => rfl
  | some id =>
      obtain ⟨context, costing, hchosen⟩ := hchosen id hchild
      exact hchosen.bestInput?_evolves hevolves segments

/-- A justified costing stays justified: its child contexts are optimized and change no more. -/
theorem Justified.evolves {costing : Costing} (h : memo.Justified planners below costing)
    (hevolves : Evolves held memo memo') : memo'.Justified planners below costing := by
  obtain ⟨context, expr, op, h⟩ := h
  obtain ⟨context', hcontext', hgoal, _⟩ := hevolves.context _ _ h.context_found
  obtain ⟨expr', hexpr', hop, hchildren, hgroup⟩ := hevolves.expr _ _ h.expr_found
  have hchosen : ∀ id, some id ∈ costing.childContexts →
      ∃ context costing, memo.Chosen id context costing := fun id =>
    exists_chosen_of_planned h.planned
  have hview := hevolves.planView costing.expr hop hchildren hgroup hchosen
  have hcontextGroup : context'.group = context.group := congrArg Prod.fst hgoal
  have hrequired : context'.required = context.required := congrArg Prod.snd hgoal
  refine ⟨context', expr', op, hcontext', hexpr', hop.trans h.physical, ?_, ?_, ?_, ?_, ?_⟩
  · rw [hevolves.master, hgroup, hcontextGroup, h.home]
  · rw [hchildren, hgoal]
    exact h.planned.imp fun _ _ hplanned => hplanned.evolves hevolves
  · rw [hview]
    exact h.delivered
  · rw [hview, hevolves.logical, hcontextGroup, hrequired]
    exact h.satisfied
  · obtain ⟨planner, hplanner, statistics, seen, hstatistics, hseen, hcost⟩ := h.charged
    refine ⟨planner, hplanner, statistics, seen, hstatistics, ?_, ?_⟩
    · rw [hview, hrequired]
      exact hseen
    · rw [hevolves.bestInputs hchosen, hrequired]
      exact hcost

/-! ## Requests to children -/

/-- What the plans that contexts hold deliver, from the first context on. -/
def deliveries (memo : Memo) (contexts : List (Option ContextId)) : List PlanProperties :=
  contexts.filterMap fun entry => (entry.bind memo.bestCosting?).bind (·.delivered)

/-- The contexts recorded for the children of an alternative are about what a request of its operator
asks of the children, given what the children before them deliver. -/
def Requests (memo : Memo) (op : PhysicalOperator) (view : ExprView) (required : PlanRequirement)
    (request : Nat) (contexts : List (Option ContextId)) : Prop :=
  ∀ position id, contexts[position]? = some (some id) → ∃ context, memo.context? id = some context ∧
    context.required = op.childRequirement view required position
      (memo.deliveries (contexts.take position)) request

/-- The child contexts of a costing are those that its request asks for. -/
def Requested (memo : Memo) (costing : Costing) : Prop :=
  ∃ context expr op, memo.context? costing.context = some context ∧
    memo.expr? costing.expr = some expr ∧ expr.op = .physical op ∧
    memo.Requests op (memo.bareView costing.expr expr) context.required costing.request
      costing.childContexts

/-- What chosen plans deliver stays the same. -/
theorem Evolves.deliveries (hevolves : Evolves held memo memo') {contexts : List (Option ContextId)}
    (hchosen : ∀ id, some id ∈ contexts → ∃ context costing, memo.Chosen id context costing) :
    memo'.deliveries contexts = memo.deliveries contexts := by
  refine List.filterMap_congr fun entry hentry => ?_
  cases entry with
  | none => rfl
  | some id =>
      obtain ⟨context, costing, hchosen⟩ := hchosen id hentry
      rw [Option.bind_some, Option.bind_some, hchosen.best, (hchosen.evolves hevolves).best]

/-- Contexts with chosen plans remain those that were asked for. -/
theorem Requests.evolves {op : PhysicalOperator} {view : ExprView} {required : PlanRequirement}
    {request : Nat} {contexts : List (Option ContextId)}
    (h : memo.Requests op view required request contexts) (hevolves : Evolves held memo memo')
    (hchosen : ∀ id, some id ∈ contexts → ∃ context costing, memo.Chosen id context costing) :
    memo'.Requests op view required request contexts := by
  intro position id hid
  obtain ⟨context, hcontext, hrequired⟩ := h position id hid
  obtain ⟨context', hcontext', hgoal, _⟩ := hevolves.context id context hcontext
  refine ⟨context', hcontext', ?_⟩
  rw [show context'.required = context.required from congrArg Prod.snd hgoal, hrequired,
    hevolves.deliveries fun id hid => hchosen id (List.mem_of_mem_take hid)]

/-- What is asked of the children follows from the view without statistics. -/
theorem Requests.of_bare {op : PhysicalOperator} {view : ExprView} {required seen : PlanRequirement}
    {request : Nat} {contexts : List (Option ContextId)} {id : ExprId} {expr : MemoExpr}
    (h : memo.Requests op (view.withRequired seen) required request contexts)
    (hbare : view.bare = memo'.bareView id expr) :
    memo.Requests op (memo'.bareView id expr) required request contexts := by
  intro position child hchild
  obtain ⟨context, hcontext, hrequired⟩ := h position child hchild
  rw [PhysicalOperator.childRequirement_withRequired, ← PhysicalOperator.childRequirement_bare,
    hbare] at hrequired
  exact ⟨context, hcontext, hrequired⟩

theorem Requested.evolves {costing : Costing} (h : memo.Requested costing)
    (hjustified : memo.Justified planners below costing) (hevolves : Evolves held memo memo') :
    memo'.Requested costing := by
  obtain ⟨context, expr, op, hcontext, hexpr, hop, hrequests⟩ := h
  obtain ⟨_, _, _, hjustifies⟩ := hjustified
  obtain ⟨context', hcontext', hgoal, _⟩ := hevolves.context _ _ hcontext
  obtain ⟨expr', hexpr', hop', hchildren, hgroup⟩ := hevolves.expr _ _ hexpr
  refine ⟨context', expr', op, hcontext', hexpr', hop'.trans hop, ?_⟩
  rw [hevolves.bareView hop' hchildren hgroup,
    show context'.required = context.required from congrArg Prod.snd hgoal]
  exact hrequests.evolves hevolves fun id => exists_chosen_of_planned hjustifies.planned

/-- What a costing delivers over the best plans of its child contexts leaves a way to meet the
requirement. -/
def LeavesWay (memo : Memo) (costing : Costing) : Prop :=
  ∃ context expr op, memo.context? costing.context = some context ∧
    memo.expr? costing.expr = some expr ∧ expr.op = .physical op ∧
    Optimizer.leavesWay op context.required
      (op.delivered (memo.planView costing.expr expr costing.childContexts)) = true

theorem LeavesWay.evolves {costing : Costing} (h : memo.LeavesWay costing)
    (hjustified : memo.Justified planners below costing) (hevolves : Evolves held memo memo') :
    memo'.LeavesWay costing := by
  obtain ⟨context, expr, op, hcontext, hexpr, hop, hleaves⟩ := h
  obtain ⟨_, _, _, hjustifies⟩ := hjustified
  obtain ⟨context', hcontext', hgoal, _⟩ := hevolves.context _ _ hcontext
  obtain ⟨expr', hexpr', hop', hchildren, hgroup⟩ := hevolves.expr _ _ hexpr
  refine ⟨context', expr', op, hcontext', hexpr', hop'.trans hop, ?_⟩
  rw [hevolves.planView costing.expr hop' hchildren hgroup fun id =>
      exists_chosen_of_planned hjustifies.planned,
    show context'.required = context.required from congrArg Prod.snd hgoal]
  exact hleaves

/-- The costing is one of an alternative in use. -/
def Listed (memo : Memo) (costing : Costing) : Prop :=
  ∃ context, memo.context? costing.context = some context ∧
    costing.expr ∈ memo.alternativesOf context.group

theorem Listed.evolves {costing : Costing} (h : memo.Listed costing)
    (hevolves : Evolves held memo memo') : memo'.Listed costing := by
  obtain ⟨context, hcontext, hlisted⟩ := h
  obtain ⟨context', hcontext', hgoal, _⟩ := hevolves.context _ context hcontext
  refine ⟨context', hcontext', (hevolves.alternatives _).subset ?_⟩
  rwa [show context'.group = context.group from congrArg Prod.fst hgoal]

/-- All that a costing records is right. -/
structure Accounted (planners : List Planner) (below : GroupId → GroupId → Prop) (memo : Memo)
    (costing : Costing) : Prop where
  justified : memo.Justified planners below costing
  requested : memo.Requested costing
  leavesWay : memo.LeavesWay costing
  listed : memo.Listed costing

theorem Accounted.evolves {costing : Costing} (h : memo.Accounted planners below costing)
    (hevolves : Evolves held memo memo') : memo'.Accounted planners below costing :=
  ⟨h.justified.evolves hevolves, h.requested.evolves h.justified hevolves,
    h.leavesWay.evolves h.justified hevolves, h.listed.evolves hevolves⟩

/-! ## Alternatives that were given up -/

/-- A context for a goal, in a stage or an earlier one, has a best plan, and a costing recorded for
it is below a bound. -/
def Undercut (memo : Memo) (goal : GroupId × PlanRequirement) (stage : Nat) (bound : Cost) : Prop :=
  ∃ id context best costing, memo.context? id = some context ∧ context.goal = goal ∧
    context.stage ≤ stage ∧ context.best.isSome ∧ memo.costing? best = some costing ∧
    costing.context = id ∧ costing.pruned = false ∧ costing.cost.lowerThan bound = true

theorem Undercut.evolves {goal : GroupId × PlanRequirement} {stage : Nat} {bound : Cost}
    (h : memo.Undercut goal stage bound) (hevolves : Evolves held memo memo') :
    memo'.Undercut goal stage bound := by
  obtain ⟨id, context, best, costing, hcontext, hgoal, hstage, hbest, hcosting, hrest⟩ := h
  obtain ⟨context', hcontext', hgoal', hstage', hbest', _⟩ := hevolves.context id context hcontext
  exact ⟨id, context', best, costing, hcontext', hgoal'.trans hgoal, hstage' ▸ hstage, hbest' hbest,
    hevolves.costing best costing hcosting, hrest⟩

/-- The bound of a costing that was given up is undercut for the goal of its own context. -/
def Beaten (memo : Memo) (costing : Costing) : Prop :=
  ∃ context, memo.context? costing.context = some context ∧
    memo.Undercut context.goal context.stage costing.cost

theorem Beaten.evolves {costing : Costing} (h : memo.Beaten costing)
    (hevolves : Evolves held memo memo') : memo'.Beaten costing := by
  obtain ⟨context, hcontext, hundercut⟩ := h
  obtain ⟨context', hcontext', hgoal, hstage, _⟩ := hevolves.context _ context hcontext
  refine ⟨context', hcontext', ?_⟩
  rw [hgoal, hstage]
  exact hundercut.evolves hevolves

/-! ## The invariant -/

/-- All that planning has stored is in order. -/
structure Settled (planners : List Planner) (below : GroupId → GroupId → Prop) (memo : Memo) : Prop
    extends memo.Tame below where
  contextHome : ∀ id context, memo.context? id = some context →
    memo.master context.group = context.group
  filed : ∀ id context, memo.context? id = some context →
    ∃ group, memo.group? context.group = some group ∧
      (⟨context.required, context.stage⟩, id) ∈ group.contexts
  entries : ∀ id group, memo.group? id = some group → ∀ entry ∈ group.contexts,
    ∃ context, memo.context? entry.2 = some context ∧ context.goal = (id, entry.1.required) ∧
      context.stage = entry.1.stage
  best : ∀ id context best, memo.context? id = some context → context.best = some best →
    ∃ costing, memo.costing? best = some costing ∧ costing.context = id ∧ costing.pruned = false
  slots : ∀ id expr, memo.expr? id = some expr → ∀ entry ∈ expr.costings,
    ∃ costing, memo.costing? entry.2 = some costing ∧ costing.context = entry.1.1
  accounted : ∀ id costing, memo.costing? id = some costing → costing.pruned = false →
    memo.Accounted planners below costing
  beaten : ∀ id costing, memo.costing? id = some costing → costing.pruned = true →
    memo.Beaten costing

theorem Settled.justified (h : memo.Settled planners below) (id : CostingId) (costing : Costing)
    (hcosting : memo.costing? id = some costing) (hpruned : costing.pruned = false) :
    memo.Justified planners below costing :=
  (h.accounted id costing hcosting hpruned).justified

end QueryPlanner.Memo
