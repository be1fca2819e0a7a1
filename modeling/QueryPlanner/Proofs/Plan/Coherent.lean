import QueryPlanner.Proofs.Optimizer.Settled
import QueryPlanner.Proofs.Plan.Scalar

/-!
# Coherent plans

`PlanNode.Coherent` says that a plan is what a context of the memo holds: at every relational node
the properties derived from the extracted children are the recorded ones, and the cost is that of
the model over the best plans that the child contexts hold. In a settled memo the best plan of every
context can be extracted, and it is coherent (`Planning.Post.extractUpTo`).
-/

namespace QueryPlanner

open Memo (SameContent Settled Planned)

/-- A view with what extracted plans deliver attached to the children from a position on. A scalar
delivers nothing. -/
def ExprView.overPlansFrom (view : ExprView) (position : Nat) (plans : List PlanNode) : ExprView :=
  (plans.zipIdx position).foldl (fun view entry =>
    match entry.1.delivered with
    | some delivered => view.withChildPlan entry.2 (some delivered) entry.1.statistics
    | none => view) view

/-- A plan is the best one that a context holds, down to the scalars, and what it says of delivered
properties and of costs follows from what the contexts below hold. -/
inductive PlanNode.Coherent (planners : List Planner) (memo : Memo) : ContextId → PlanNode → Prop
  | node {id : ContextId} {context : Context} {best : CostingId} {costing : Costing}
      {expr : MemoExpr} {op : PhysicalOperator} {delivered : PlanProperties}
      {children : List PlanNode}
      (context_found : memo.context? id = some context)
      (best_held : context.best = some best)
      (costing_found : memo.costing? best = some costing)
      (expr_found : memo.expr? costing.expr = some expr)
      (physical : expr.op = .physical op)
      (lengths : costing.childContexts.length = children.length)
      (relations : ∀ (position : Nat) (child : ContextId) (plan : PlanNode),
        costing.childContexts[position]? = some (some child) → children[position]? = some plan →
          Coherent planners memo child plan)
      (scalars : ∀ (position : Nat) (plan : PlanNode),
        costing.childContexts[position]? = some none → children[position]? = some plan →
          plan.delivered = none)
      (derived : delivered =
        op.delivered ((memo.bareView costing.expr expr).overPlansFrom 0 children))
      (recorded : costing.delivered = some delivered)
      (satisfied : context.required.isSatisfiedBy (memo.logical context.group) delivered = true)
      (charged : ∃ planner ∈ planners, memo.IsCharged planner costing context
        (memo.planView costing.expr expr costing.childContexts)) :
      Coherent planners memo id
        { op := .physical op
          group := context.group
          expr := costing.expr
          cost := costing.cost
          delivered := some delivered
          statistics := costing.statistics
          children }

/-- A plan for a child of an alternative: that of the recorded context, or a scalar. -/
def PlanNode.Fits (planners : List Planner) (memo : Memo) : Option ContextId → PlanNode → Prop
  | none, plan => plan.delivered = none
  | some id, plan => plan.Coherent planners memo id

variable {planners : List Planner} {below : GroupId → GroupId → Prop}
  {goal : GroupId × PlanRequirement} {memo current : Memo}

/-! ## Views over extracted plans -/

namespace ExprView

variable {view : ExprView}

theorem overPlansFrom_nil {position : Nat} : view.overPlansFrom position [] = view := rfl

theorem overPlansFrom_cons {position : Nat} {plan : PlanNode} {rest : List PlanNode} :
    view.overPlansFrom position (plan :: rest) =
      (match plan.delivered with
        | some delivered => view.withChildPlan position (some delivered) plan.statistics
        | none => view).overPlansFrom (position + 1) rest := rfl

theorem isScalarChild_withChildPlan {position child : Nat} {plan : Option PlanProperties}
    {statistics : Option Statistics} :
    (view.withChildPlan position plan statistics).isScalarChild child = view.isScalarChild child := by
  unfold isScalarChild withChildPlan
  rw [List.getElem?_modify]
  cases view.children[child]? with
  | none => rfl
  | some found => by_cases h : position = child <;> simp [h, ChildView.isScalar]

end ExprView

/-- The extracted plans show what the contexts hold. -/
theorem Memo.overPlansFrom_eq {contexts : List (Option ContextId)} {plans : List PlanNode}
    (h : List.Forall₂ (PlanNode.Fits planners memo) contexts plans) (position : Nat)
    (view : ExprView) : view.overPlansFrom position plans =
      memo.overContextsFrom position contexts view := by
  induction h generalizing position view with
  | nil => rfl
  | @cons entry plan contexts plans hfirst _ ih =>
      rw [ExprView.overPlansFrom_cons, ih, overContextsFrom_cons]
      congr 1
      cases entry with
      | none =>
          rw [show plan.delivered = none from hfirst]
          rfl
      | some id =>
          have hcoherent : plan.Coherent planners memo id := hfirst
          cases hcoherent with
          | node context_found best_held costing_found _ _ _ _ _ _ recorded _ _ =>
              unfold withBestPlan bestCosting? best?
              rw [Option.bind_some, context_found, Option.bind_some, best_held, Option.bind_some,
                costing_found]
              dsimp only
              rw [recorded]

/-- The plan at a position fits what is recorded there. -/
theorem Memo.fits_of_getElem? {contexts : List (Option ContextId)} {plans : List PlanNode}
    (h : List.Forall₂ (PlanNode.Fits planners memo) contexts plans) {position : Nat}
    {entry : Option ContextId} {plan : PlanNode} (hentry : contexts[position]? = some entry)
    (hplan : plans[position]? = some plan) : plan.Fits planners memo entry := by
  obtain ⟨hlt, rfl⟩ := List.getElem?_eq_some_iff.mp hentry
  obtain ⟨hlt', rfl⟩ := List.getElem?_eq_some_iff.mp hplan
  exact (List.forall₂_iff_get.mp h).2 position hlt hlt'

/-- Plans fit when they do so at every position. -/
theorem Memo.fits_of_positions {contexts : List (Option ContextId)} {plans : List PlanNode}
    (hlengths : contexts.length = plans.length)
    (hrelations : ∀ (position : Nat) (child : ContextId) (plan : PlanNode),
      contexts[position]? = some (some child) → plans[position]? = some plan →
        plan.Coherent planners memo child)
    (hscalars : ∀ (position : Nat) (plan : PlanNode),
      contexts[position]? = some none → plans[position]? = some plan → plan.delivered = none) :
    List.Forall₂ (PlanNode.Fits planners memo) contexts plans := by
  refine List.forall₂_iff_get.mpr ⟨hlengths, fun position hlt hlt' => ?_⟩
  cases hentry : contexts.get ⟨position, hlt⟩ with
  | none =>
      exact hscalars position _ (List.getElem?_eq_some_iff.mpr ⟨hlt, hentry⟩)
        (List.getElem?_eq_getElem hlt')
  | some child =>
      exact hrelations position child _ (List.getElem?_eq_some_iff.mpr ⟨hlt, hentry⟩)
        (List.getElem?_eq_getElem hlt')

/-- A view of an alternative knows which children are scalars. -/
theorem Memo.isScalarChild_of_bare {view : ExprView} {id : ExprId} {expr : MemoExpr}
    (hbare : view.bare = memo.bareView id expr) {index : Nat} {child : GroupId}
    (hchild : expr.children[index]? = some child) :
    view.isScalarChild index = (memo.properties (memo.master child)).isScalar := by
  have hseen : (view.children[index]?).map ChildView.bare = some (memo.bareChild child) := by
    have hchildren : view.children.map ChildView.bare = expr.children.map memo.bareChild :=
      congrArg (·.children) hbare
    rw [← List.getElem?_map, hchildren, List.getElem?_map, hchild, Option.map_some]
  obtain ⟨found, hfound, hsame⟩ := Option.map_eq_some_iff.mp hseen
  unfold ExprView.isScalarChild ChildView.isScalar
  rw [hfound]
  exact congrArg (fun seen => seen.properties.isScalar) hsame

/-- The requirement of a view does not matter for what is attached to its children. -/
theorem Memo.overContextsFrom_withRequired {contexts : List (Option ContextId)} {position : Nat}
    {view : ExprView} {required : PlanRequirement} :
    memo.overContextsFrom position contexts (view.withRequired required) =
      (memo.overContextsFrom position contexts view).withRequired required := by
  induction contexts generalizing position view with
  | nil => rfl
  | cons entry rest ih =>
      rw [overContextsFrom_cons, overContextsFrom_cons, ← ih]
      congr 1
      unfold withBestPlan
      split <;> rfl

namespace Planning

/-! ## Extracting the children of a node -/

/-- Extracting the children from a position on. -/
theorem Post.extractChildren [IsStrictOrder GroupId below] (planners : List Planner)
    (done : List (Option ContextId)) {extract : ContextId → Planning PlanNode} {context : Context}
    {costing : Costing} {children : List GroupId} {contexts : List (Option ContextId)}
    {view : ExprView} (h : memo.Tame below) (hsame : SameContent memo current)
    (hplanned : List.Forall₂ (memo.Planned below goal) children contexts)
    (hcontexts : costing.childContexts = done ++ contexts)
    (hknown : ∀ child ∈ children, child.index < memo.groups.size)
    (hview : ∀ index child, children[index]? = some child →
      view.isScalarChild (done.length + index) = (memo.properties (memo.master child)).isScalar)
    (hextract : ∀ id current, some id ∈ contexts → SameContent memo current →
      Post (extract id) current
        (fun plan final => SameContent memo final ∧ plan.Coherent planners memo id)
        (fun _ _ => False)) :
    Post (extractChildren extract context costing (children.zipIdx done.length) view) current
      (fun found final => SameContent memo final ∧
        List.Forall₂ (PlanNode.Fits planners memo) contexts found.1 ∧
        found.2 = view.overPlansFrom done.length found.1)
      (fun _ _ => False) := by
  induction hplanned generalizing done view current with
  | nil => exact Post.pure ⟨hsame, .nil, rfl⟩
  | @cons child entry children contexts hfirst _ ih =>
      have hchild := hknown child (by simp)
      have hscalar := hview 0 child rfl
      rw [Nat.add_zero] at hscalar
      rw [List.zipIdx_cons]
      unfold Planning.extractChildren
      refine (Post.resolve (hsame.groups_size.symm ▸ hchild)).andThen (fun _ _ hfail => hfail) ?_
      rintro _ resolved ⟨rfl, hresolved⟩
      have hsame' := hsame.trans hresolved
      rw [hsame.master h.wellFormed.linksEnd]
      -- what is known of the children after this one
      have hrest {view' : ExprView} {final : Memo} (hfinal : SameContent memo final)
          (hsees : ∀ position, view'.isScalarChild position = view.isScalarChild position) :=
        @ih _ (done ++ [entry]) view' hfinal (by simp [hcontexts])
          (fun other hother => hknown other (by simp [hother]))
          (fun index other hother => by
            rw [hsees, ← hview (index + 1) other (by simpa using hother), List.length_append,
              List.length_singleton, Nat.add_assoc, Nat.add_comm 1])
          (fun id final hid => hextract id final (by simp [hid]))
      rw [List.length_append, List.length_singleton] at hrest
      cases entry with
      | none =>
          rw [hscalar, show (memo.properties (memo.master child)).isScalar = true from hfirst,
            if_pos rfl]
          have hextracted := Post.extractScalar (hsame'.sameQuery.tame h) (memo.master child)
            (hsame'.groups_size.symm ▸ h.wellFormed.masterKnown child hchild)
          refine hextracted.andThen (fun _ _ hfail => hfail) ?_
          rintro plan extracted ⟨hextracted, hplan⟩
          refine (hrest (hsame'.trans hextracted) fun _ => rfl).andThen (fun _ _ hfail => hfail) ?_
          rintro ⟨plans, view'⟩ final ⟨hfinal, hfits, hview'⟩
          refine Post.pure ⟨hfinal, .cons hplan hfits, ?_⟩
          rw [ExprView.overPlansFrom_cons, hplan]
          exact hview'
      | some id =>
          obtain ⟨hrelation, _⟩ := hfirst
          rw [hscalar, hrelation, if_neg Bool.false_ne_true]
          have hrecorded : costing.childContexts[done.length]? = some (some id) := by
            rw [hcontexts, List.getElem?_append_right (Nat.le_refl _), Nat.sub_self]
            rfl
          rw [hrecorded]
          refine (hextract id resolved (by simp) hsame').andThen (fun _ _ hfail => hfail) ?_
          rintro plan extracted ⟨hextracted, hplan⟩
          refine (hrest hextracted fun position => ?_).andThen (fun _ _ hfail => hfail) ?_
          · cases plan.delivered with
            | none => rfl
            | some _ => exact ExprView.isScalarChild_withChildPlan
          · rintro ⟨plans, view'⟩ final ⟨hfinal, hfits, hview'⟩
            exact Post.pure ⟨hfinal, .cons hplan hfits, hview'⟩

/-! ## Extracting a node -/

/-- The best plan of a context can be extracted, by induction on the levels that are left. The
contexts below are about goals further down, which a rank counts. -/
theorem Post.extractUpTo [IsStrictOrder GroupId below] (h : memo.Settled planners below)
    (rank : GroupId × PlanRequirement → Nat)
    (hrank : ∀ upper id context, memo.context? id = some context → Asks below upper context.goal →
      rank context.goal < rank upper)
    {fuel : Nat} {id : ContextId} {context : Context} {best : CostingId}
    (hsame : SameContent memo current) (hcontext : memo.context? id = some context)
    (hbest : context.best = some best) (hfuel : rank context.goal < fuel) :
    Post (extractUpTo fuel id) current
      (fun plan final => SameContent memo final ∧ plan.Coherent planners memo id)
      (fun _ _ => False) := by
  induction fuel generalizing id context best current with
  | zero => omega
  | succ fuel ih =>
      have hends := h.wellFormed.linksEnd
      -- what was recorded for the best plan justifies the node
      obtain ⟨costing, hcosting, hown, hpruned⟩ := h.best id context best hcontext hbest
      obtain ⟨context', expr, op, hjustifies⟩ := h.justified best costing hcosting hpruned
      obtain rfl : context' = context :=
        Option.some.inj (hjustifies.context_found.symm.trans (hown ▸ hcontext))
      obtain ⟨expr', hexpr', hcontent⟩ := hsame.exists_expr hjustifies.expr_found
      have hchildren : expr'.children = expr.children := congrArg (·.children) hcontent
      have hop : expr'.op = .physical op := (congrArg (·.op) hcontent).trans hjustifies.physical
      unfold Planning.extractUpTo
      refine Post.bind (Post.context (fun found hfound => ?_) (fun hnone => ?_))
      · obtain rfl := Option.some.inj (((hsame.context? id).trans hcontext).symm.trans hfound)
        rw [hbest]
        dsimp only
        refine Post.bind (Post.costing (fun found hfound => ?_) (fun hnone => ?_))
        · obtain rfl := Option.some.inj (((hsame.costing? best).trans hcosting).symm.trans hfound)
          refine Post.bind (Post.expr (fun found hfound => ?_) (fun hnone => ?_))
          · obtain rfl := Option.some.inj (hexpr'.symm.trans hfound)
            rw [hop]
            dsimp only
            refine (Post.view (hsame.wellFormed h.wellFormed) hexpr').andThen
              (fun _ _ hfail => hfail) ?_
            rintro view viewed ⟨hviewed, hview⟩
            have hevolves : Memo.Evolves [] memo current := hsame.evolves hends
            have hbare : view.bare = memo.bareView costing.expr expr :=
              hview.trans (hevolves.bareView (congrArg (·.op) hcontent) hchildren
                (congrArg (·.group) hcontent))
            rw [hchildren]
            refine (Post.extractChildren planners [] h.toTame (hsame.trans hviewed) hjustifies.planned
              rfl (h.wellFormed.childKnown _ _ hjustifies.expr_found)
              (fun index child hchild => ?_) (fun id below hid hbelow => ?_)).andThen
                (fun _ _ hfail => hfail) ?_
            · rw [List.length_nil, Nat.zero_add, ← Memo.isScalarChild_of_bare hbare hchild]
              rfl
            -- a child context is about a goal further down, whose rank is lower
            · obtain ⟨_, _, found, chosen, hchosen, _, hasks⟩ :=
                Memo.exists_planned_of_mem hjustifies.planned hid
              obtain ⟨held, hheld⟩ := hchosen.exists_best
              have hlower := hrank _ id found hchosen.found hasks
              exact ih hbelow hchosen.found hheld (by omega)
            · rintro ⟨plans, view'⟩ final ⟨hfinal, hfits, hview'⟩
              dsimp only at hfits hview' ⊢
              subst hview'
              -- extracted plans deliver what their contexts recorded, so the node is checked over
              -- the same view
              have hplans := Memo.overPlansFrom_eq hfits 0 (view.withRequired context'.required)
              have hdelivered : op.delivered ((view.withRequired context'.required).overPlansFrom 0
                  plans) = op.delivered (memo.planView costing.expr expr costing.childContexts) := by
                rw [hplans, Memo.overContextsFrom_withRequired,
                  PhysicalOperator.delivered_withRequired, ← PhysicalOperator.delivered_bare,
                  Memo.bare_overContextsFrom, hbare]
                rfl
              have hlogical : ((view.withRequired context'.required).overPlansFrom 0 plans).logical =
                  memo.logical context'.group := by
                rw [hplans, Memo.overContextsFrom_logical, ← hjustifies.home]
                exact congrArg (·.logical) hbare
              have hsatisfied := hjustifies.satisfied
              rw [List.length_nil, hlogical, hdelivered, if_pos hsatisfied]
              refine Post.pure ⟨hfinal, .node hcontext hbest hcosting hjustifies.expr_found
                hjustifies.physical hfits.length_eq ?_ ?_ ?_ hjustifies.delivered hsatisfied
                hjustifies.charged⟩
              · intro position child plan hchild hplan
                exact Memo.fits_of_getElem? hfits hchild hplan
              · intro position plan hchild hplan
                exact Memo.fits_of_getElem? hfits hchild hplan
              · rw [Memo.overPlansFrom_eq hfits]
                rfl
          · rw [hexpr'] at hnone
            exact absurd hnone (by simp)
        · rw [hsame.costing?, hcosting] at hnone
          exact absurd hnone (by simp)
      · rw [hsame.context?, hcontext] at hnone
        exact absurd hnone (by simp)

end Planning

end QueryPlanner
