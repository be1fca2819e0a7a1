import QueryPlanner.Proofs.Plan.Extraction
import QueryPlanner.Proofs.Plan.Nodes

/-!
# Plans whose nodes do what was asked of them

`PlanNode.Obeys` says that a plan meets a requirement and that every relational node below meets what
its parent asks of it: the requirement that the parent's operator makes of the child in the request
that was costed, given the requirement on the parent and what the siblings visited before deliver.
Every plan that is extracted after any calls of the optimizer obeys the requirement it was asked for
(`Memo.Reachable.extractPlan_obeys`).
-/

namespace QueryPlanner

open Memo (SameContent Settled)
open Planning (exec extractPlan)

/-- What the plans of the children that an operator visits before a position deliver. -/
def PlanNode.deliveredBefore (op : PhysicalOperator) (plans : List PlanNode) (position : Nat) :
    List PlanProperties :=
  ((op.visitOrder plans.length).takeWhile (· != position)).filterMap fun earlier =>
    (plans[earlier]?).bind (·.delivered)

/-- A plan is the best one of a context that is about the requirement. It meets the requirement, and
all relational plans below belong to the groups of the children and obey what the request asks of
them. The other plans below are scalars. -/
inductive PlanNode.Obeys (memo : Memo) : PlanRequirement → PlanNode → Prop
  | node {id : ContextId} {context : Context} {best : CostingId} {costing : Costing}
      {expr : MemoExpr} {op : PhysicalOperator} {delivered : PlanProperties}
      {children : List PlanNode}
      (context_found : memo.context? id = some context)
      (best_held : context.best = some best)
      (costing_found : memo.costing? best = some costing)
      (expr_found : memo.expr? costing.expr = some expr)
      (physical : expr.op = .physical op)
      (satisfied : context.required.isSatisfiedBy (memo.logical context.group) delivered = true)
      (lengths : children.length = expr.children.length)
      (homes : ∀ (position : Nat) (child : GroupId) (plan : PlanNode),
        expr.children[position]? = some child → children[position]? = some plan →
          (memo.properties (memo.master child)).isScalar = false → plan.group = memo.master child)
      (requests : ∀ (position : Nat) (child : GroupId) (plan : PlanNode),
        expr.children[position]? = some child → children[position]? = some plan →
          (memo.properties (memo.master child)).isScalar = false →
          Obeys memo (op.childRequirement (memo.bareView costing.expr expr) context.required position
            (deliveredBefore op children position) costing.request) plan)
      (scalars : ∀ (position : Nat) (child : GroupId) (plan : PlanNode),
        expr.children[position]? = some child → children[position]? = some plan →
          (memo.properties (memo.master child)).isScalar = true → plan.IsScalar) :
      Obeys memo context.required
        { op := .physical op
          group := context.group
          expr := costing.expr
          cost := costing.cost
          delivered := some delivered
          statistics := costing.statistics
          children }

variable {planners : List Planner} {below : GroupId → GroupId → Prop} {memo : Memo}

/-! ## From contexts to plans -/

/-- What extracted plans deliver is what the contexts hold. -/
theorem Memo.deliveries_eq {contexts : List (Option ContextId)} {plans : List PlanNode}
    (h : List.Forall₂ (PlanNode.Fits planners memo) contexts plans) :
    memo.deliveries contexts = plans.filterMap (·.delivered) := by
  unfold Memo.deliveries
  induction h with
  | nil => rfl
  | @cons entry plan contexts plans hfirst _ ih =>
      have hsame : (entry.bind memo.bestCosting?).bind (·.delivered) = plan.delivered := by
        cases entry with
        | none => exact (show plan.delivered = none from hfirst).symm
        | some id =>
            have hcoherent : plan.Coherent planners memo id := hfirst
            cases hcoherent with
            | node context_found best_held costing_found _ _ _ _ _ _ recorded _ _ =>
                unfold bestCosting? best?
                rw [Option.bind_some, context_found, Option.bind_some, best_held, Option.bind_some,
                  costing_found]
                exact recorded
      rw [List.filterMap_cons, List.filterMap_cons, hsame, ih]

/-- What stands at the first positions, one after the other. -/
theorem filterMap_range {α : Type} (items : List α) (position : Nat) :
    (List.range position).filterMap (items[·]?) = items.take position := by
  induction position with
  | zero => rfl
  | succ position ih =>
      rw [List.range_succ, List.filterMap_append, ih, List.take_add_one]
      cases hitem : items[position]? <;> simp [hitem]

/-- Operators of the catalogue visit their children from the first to the last. -/
theorem PlanNode.deliveredBefore_eq {op : PhysicalOperator} (h : op.isCatalogued = true)
    {plans : List PlanNode} {position : Nat} (hposition : position < plans.length) :
    deliveredBefore op plans position = (plans.take position).filterMap (·.delivered) := by
  have hbefore : (List.range plans.length).takeWhile (· != position) = List.range position := by
    obtain ⟨more, hmore⟩ := Nat.exists_eq_add_of_lt hposition
    rw [hmore, Nat.add_assoc, List.range_add, List.takeWhile_append_of_pos]
    · simp [List.range_succ_eq_map]
    · simpa using fun index hindex => Nat.ne_of_lt hindex
  unfold deliveredBefore
  rw [PhysicalOperator.visitOrder_of_catalogued h, hbefore, ← filterMap_range,
    List.filterMap_filterMap]

/-- A coherent plan belongs to the group of its context. -/
theorem PlanNode.Coherent.group_eq {id : ContextId} {context : Context} {plan : PlanNode}
    (h : plan.Coherent planners memo id) (hcontext : memo.context? id = some context) :
    plan.group = context.group := by
  cases h with
  | node context_found =>
      obtain rfl := Option.some.inj (context_found.symm.trans hcontext)
      rfl

/-- The nodes of a coherent plan are scalars, or coherent for contexts themselves. -/
theorem PlanNode.Coherent.of_mem_nodes {id : ContextId} {plan : PlanNode}
    (h : plan.Coherent planners memo id) (hlayered : plan.Layered) :
    ∀ node ∈ plan.nodes, node.IsScalar ∨ ∃ own, node.Coherent planners memo own := by
  induction h with
  | @node id context best costing expr op delivered children context_found best_held costing_found
      expr_found physical lengths relations scalars derived recorded satisfied charged ih =>
      intro node hnode
      rcases mem_nodes.mp hnode with rfl | ⟨plan, hplan, hbelow⟩
      · exact .inr ⟨id, .node context_found best_held costing_found expr_found physical lengths
          relations scalars derived recorded satisfied charged⟩
      · obtain ⟨position, hposition⟩ := List.getElem?_of_mem hplan
        have hlt := (List.getElem?_eq_some_iff.mp hposition).1
        have hlayered' := hlayered.child hplan
        cases hentry : costing.childContexts.get ⟨position, lengths ▸ hlt⟩ with
        | some child =>
            exact ih position child plan (List.getElem?_eq_some_iff.mpr ⟨_, hentry⟩) hposition
              hlayered' node hbelow
        | none =>
            have hscalar := hlayered'.isScalar
              (scalars position plan (List.getElem?_eq_some_iff.mpr ⟨_, hentry⟩) hposition)
            exact .inl (hscalar.of_mem_nodes hbelow)

/-- What is recorded for a child says whether it is a scalar. -/
theorem Memo.Planned.isScalar {goal : GroupId × PlanRequirement} {child : GroupId}
    {entry : Option ContextId} (h : memo.Planned below goal child entry) :
    (memo.properties (memo.master child)).isScalar = entry.isNone := by
  cases entry with
  | none => exact h
  | some id => exact h.1

/-- The best costing of a context is its own, and all that it records is right. -/
theorem Memo.Settled.accounted_best (h : memo.Settled planners below) {id : ContextId}
    {context : Context} {best : CostingId} {costing : Costing}
    (hcontext : memo.context? id = some context) (hbest : context.best = some best)
    (hcosting : memo.costing? best = some costing) :
    costing.context = id ∧ memo.Accounted planners below costing := by
  obtain ⟨found, hfound, hown, hpruned⟩ := h.best id context best hcontext hbest
  obtain rfl := Option.some.inj (hcosting.symm.trans hfound)
  exact ⟨hown, h.accounted best _ hcosting hpruned⟩

/-- A coherent plan obeys the requirement of its context, by induction on the plan: the contexts
below are those that the request asks for, and what the plans before deliver is what these contexts
hold. -/
theorem Memo.Settled.obeys (h : memo.Settled planners below) {id : ContextId} {plan : PlanNode}
    (hplan : plan.Coherent planners memo id) (hlayered : plan.Layered) {context : Context}
    (hcontext : memo.context? id = some context) : plan.Obeys memo context.required := by
  induction hplan generalizing context with
  | @node id found best costing expr op delivered children context_found best_held costing_found
      expr_found physical lengths relations scalars _ _ satisfied _ ih =>
      obtain rfl := Option.some.inj (context_found.symm.trans hcontext)
      obtain ⟨hown, haccounted⟩ := h.accounted_best context_found best_held costing_found
      obtain ⟨context', expr', op', hjustifies⟩ := haccounted.justified
      obtain ⟨context'', expr'', op'', hcontext'', hexpr'', hop'', hrequests⟩ := haccounted.requested
      rw [hown] at hcontext''
      obtain rfl := Option.some.inj (hcontext''.symm.trans context_found)
      obtain rfl := Option.some.inj (hexpr''.symm.trans expr_found)
      obtain rfl : op'' = op := by simpa using hop''.symm.trans physical
      obtain rfl := Option.some.inj (hjustifies.expr_found.symm.trans expr_found)
      have hplanned := hjustifies.planned
      have hfits := Memo.fits_of_positions lengths relations scalars
      -- the entry that is recorded for a child
      have hrecorded (position : Nat) (child : GroupId) (hchild : expr'.children[position]? = some child) :
          ∃ entry, costing.childContexts[position]? = some entry ∧
            memo.Planned below context'.goal child entry := by
        obtain ⟨hlt, rfl⟩ := List.getElem?_eq_some_iff.mp hchild
        have hlt' := hplanned.length_eq ▸ hlt
        exact ⟨_, List.getElem?_eq_getElem hlt', (List.forall₂_iff_get.mp hplanned).2 _ hlt hlt'⟩
      have hrelation (position : Nat) (child : GroupId)
          (hchild : expr'.children[position]? = some child)
          (hscalar : (memo.properties (memo.master child)).isScalar = false) :
          ∃ below context, costing.childContexts[position]? = some (some below) ∧
            memo.context? below = some context ∧ context.group = memo.master child := by
        obtain ⟨entry, hentry, hfiled⟩ := hrecorded position child hchild
        cases entry with
        | none => rw [hfiled.isScalar] at hscalar; exact absurd hscalar (by simp)
        | some below =>
            obtain ⟨_, context, _, hchosen, hgroup, _⟩ := hfiled
            exact ⟨below, context, hentry, hchosen.found, hgroup⟩
      refine .node hcontext'' best_held costing_found expr_found physical satisfied
        (hfits.length_eq.symm.trans hplanned.length_eq.symm) ?_ ?_ ?_
      · intro position child plan hchild hplan hscalar
        obtain ⟨below, context, hentry, hcontext, hgroup⟩ := hrelation position child hchild hscalar
        exact ((relations position below plan hentry hplan).group_eq hcontext).trans hgroup
      · intro position child plan hchild hplan hscalar
        obtain ⟨below, _, hentry, _⟩ := hrelation position child hchild hscalar
        obtain ⟨context, hcontext, hrequired⟩ := hrequests position below hentry
        have hobeys := ih position below plan hentry hplan
          (hlayered.child (List.mem_of_getElem? hplan)) hcontext
        rw [hrequired] at hobeys
        rwa [PlanNode.deliveredBefore_eq (h.catalogued _ _ _ expr_found physical)
          (List.getElem?_eq_some_iff.mp hplan).1,
          ← Memo.deliveries_eq (List.forall₂_take position hfits)]
      · intro position child plan hchild hplan hscalar
        obtain ⟨entry, hentry, hfiled⟩ := hrecorded position child hchild
        rw [hfiled.isScalar, Option.isNone_iff_eq_none] at hscalar
        exact (hlayered.child (List.mem_of_getElem? hplan)).isScalar
          (scalars position plan (hscalar ▸ hentry) hplan)

/-- Whatever plan is extracted from a settled memo, it is for the group and obeys the requirement. -/
theorem Planning.Post.extractedPlan_obeys [IsStrictOrder GroupId below]
    (h : memo.Settled planners below) (group : GroupId) (required : PlanRequirement)
    (stages : Nat) :
    Post (Planning.extractPlan group required stages) memo
      (fun plan _ => plan.group = memo.master group ∧ plan.Obeys memo required)
      (fun _ _ => True) := by
  refine ((Post.extractedPlan h group required stages).both Post.extractPlan_layered).mono ?_
    (fun _ _ _ => trivial)
  rintro plan _ ⟨⟨id, ⟨context, _, hcontext, hgoal, _⟩, hcoherent⟩, hlayered⟩
  obtain rfl : context.required = required := congrArg Prod.snd hgoal
  exact ⟨(hcoherent.group_eq hcontext).trans (congrArg Prod.fst hgoal),
    h.obeys hcoherent hlayered hcontext⟩

/-! ## After any calls -/

/-- Take any calls of the optimizer on a memo in which nothing is planned yet, over operators of the
catalogue, with enforcers above their own groups and no group above itself. Whatever plan is
extracted afterwards is for the group that was asked for and meets the requirement, and every
relational node below meets what the request of its parent asks of it. -/
theorem Memo.Reachable.extractPlan_obeys {memo : Memo} (hreachable : memo.Reachable)
    (hcatalogued : ∀ id expr op, memo.expr? id = some expr → expr.op = .physical op →
      op.isCatalogued = true)
    (henforcing : ∀ id expr, memo.expr? id = some expr → expr.op.isEnforcer = true →
      expr.children.map memo.master = [memo.master expr.group])
    (hacyclic : ∀ id, ¬ Relation.TransGen memo.Reads id id)
    (calls : List OptimizeCall) (root : GroupId) (required : PlanRequirement) (stages : Nat)
    (plan : PlanNode)
    (hplan : (exec (extractPlan root required stages) (memo.optimizeAll calls)).1 = .ok plan) :
    plan.group = (memo.optimizeAll calls).master root ∧
      plan.Obeys (memo.optimizeAll calls) required := by
  obtain ⟨horder, hsettled⟩ :=
    hreachable.settled_optimizeAll hcatalogued henforcing hacyclic calls
  obtain ⟨found, _, hexec, hfound⟩ | ⟨_, _, hexec, _⟩ :=
    (Planning.Post.extractedPlan_obeys hsettled root required stages).exists_exec
  · rw [hexec] at hplan
    obtain rfl := Except.ok.inj hplan
    exact hfound
  · rw [hexec] at hplan
    exact absurd hplan (by simp)

/-- A check of what the planner relies on: operators of the catalogue, enforcers above their own
groups, and all other alternatives above groups with smaller numbers. -/
def Memo.isStacked (memo : Memo) : Bool :=
  memo.exprs.all fun expr => expr.op.physical?.all PhysicalOperator.isCatalogued &&
    if expr.op.isEnforcer then expr.children.map memo.master == [memo.master expr.group]
    else expr.children.all fun child => (memo.master child).index < (memo.master expr.group).index

namespace Memo

variable (h : memo.isStacked = true)
include h

theorem isCatalogued_of_isStacked (id : ExprId) (expr : MemoExpr) (op : PhysicalOperator)
    (hexpr : memo.expr? id = some expr) (hop : expr.op = .physical op) : op.isCatalogued = true := by
  have hfound := Array.all_eq_true'.mp h expr (Array.mem_of_getElem? hexpr)
  rw [Bool.and_eq_true, hop] at hfound
  exact hfound.1

theorem enforces_of_isStacked (id : ExprId) (expr : MemoExpr) (hexpr : memo.expr? id = some expr)
    (hop : expr.op.isEnforcer = true) : expr.children.map memo.master = [memo.master expr.group] := by
  have hfound := Array.all_eq_true'.mp h expr (Array.mem_of_getElem? hexpr)
  rw [Bool.and_eq_true, if_pos hop, beq_iff_eq] at hfound
  exact hfound.2

/-- No group is above itself, as numbers fall. -/
theorem acyclic_of_isStacked (hwell : memo.WellFormed) (id : GroupId) :
    ¬ Relation.TransGen memo.Reads id id := by
  have hfalls (parent child : GroupId) (hreads : memo.Reads parent child) :
      child.index < parent.index := by
    obtain ⟨hmaster, alternative, expr, hmem, hexpr, hop, below, hbelow, rfl⟩ := hreads
    have hhome : expr.group = parent := by
      obtain ⟨_, found, hfound, hhome⟩ := hwell.owned hmem
      exact Option.some.inj (hexpr.symm.trans hfound) ▸ hhome
    have hfound := Array.all_eq_true'.mp h expr (Array.mem_of_getElem? hexpr)
    rw [Bool.and_eq_true, if_neg (by simp [hop]), List.all_eq_true] at hfound
    simpa [hhome, hmaster] using hfound.2 below hbelow
  have hbelow (lower : GroupId) (hreads : Relation.TransGen memo.Reads id lower) :
      lower.index < id.index := by
    induction hreads with
    | single hreads => exact hfalls _ _ hreads
    | tail _ hreads ih => exact (hfalls _ _ hreads).trans ih
  exact fun hcycle => Nat.lt_irrefl _ (hbelow id hcycle)

end Memo

/-- Two tables, the first one hashed and the second one spread at random, and their join on the hash
column, with scans and a hash join. -/
def Memo.joined : Memo :=
  let access (column : Nat) (distribution : Distribution) : TableAccess :=
    { table := { id := column, name := "", rows := 0, distribution }, columns := [⟨column⟩] }
  let outer := access 0 (.hashedOn [⟨0⟩])
  let inner := access 1 .random
  let equal := Scalar.compare .equal (.column ⟨0⟩) (.column ⟨1⟩)
  [(Operator.logical (.get outer), [], none), (.logical (.get inner), [], none),
    (.scalar (.predicate equal), [], none), (.logical .innerJoin, [⟨0⟩, ⟨1⟩, ⟨2⟩], none),
    (.physical (.tableScan outer), [], some ⟨0⟩), (.physical (.tableScan inner), [], some ⟨1⟩),
    (.physical (.hashJoin [⟨0⟩] [⟨1⟩]), [⟨0⟩, ⟨1⟩, ⟨2⟩], some ⟨3⟩)].foldl
      (fun memo (op, children, target) => (exec (Planning.insert op children target none) memo).2) {}

theorem Memo.reachable_joined : joined.Reachable := by
  unfold joined
  simp only [List.foldl_cons, List.foldl_nil]
  repeat refine Reachable.insert ?_ _ _ _ _
  exact .empty

/-- A call that asks for the join. -/
def OptimizeCall.joined : OptimizeCall where
  planner := { model := .unit, config := { pruning := false }, fuel := 64 }
  stage := 0
  group := ⟨3⟩
  required := { columns := .ofList [⟨0⟩] }

/-- Whether a node is a hash join on two columns over two relations. -/
def PlanNode.joinsOn (outerKey innerKey : Column) (node : PlanNode) : Bool :=
  match node.op, node.children with
  | .physical (.hashJoin [outer] [inner]), first :: second :: _ =>
    outer == outerKey && inner == innerKey && first.delivered.isSome && second.delivered.isSome
  | _, _ => false

/-- A plan for the call is extracted, and it has the hash join. -/
theorem Memo.exists_plan_joined :
    ∃ plan, (exec (extractPlan ⟨3⟩ OptimizeCall.joined.required 1)
        (joined.optimizeAll [.joined])).1 = .ok plan ∧
      plan.nodes.any (PlanNode.joinsOn ⟨0⟩ ⟨1⟩) = true :=
  Planning.exists_ok_of_any (by decide +kernel)

/-- A plan of the join is found, and it obeys. -/
theorem Memo.joined_obeys :
    ∃ plan, (exec (extractPlan ⟨3⟩ OptimizeCall.joined.required 1)
        (joined.optimizeAll [.joined])).1 = .ok plan ∧
      plan.group = (joined.optimizeAll [.joined]).master ⟨3⟩ ∧
      plan.Obeys (joined.optimizeAll [.joined]) OptimizeCall.joined.required := by
  have hstacked : joined.isStacked = true := by decide +kernel
  obtain ⟨plan, hplan, _⟩ := exists_plan_joined
  exact ⟨plan, hplan, reachable_joined.extractPlan_obeys (isCatalogued_of_isStacked hstacked)
    (enforces_of_isStacked hstacked) (acyclic_of_isStacked hstacked reachable_joined.wellFormed)
    [.joined] _ _ _ plan hplan⟩

end QueryPlanner
