import QueryPlanner.Proofs.Memo.Quiet
import QueryPlanner.Proofs.Memo.WellFormed

/-!
# What operators see, read off the memo

A view of an alternative collects what its operator sees. `Memo.bareView` is the view without the
statistics of groups, which may still grow, as a function of the memo; `Memo.overContexts` attaches
the best plans of child contexts. The computations of the planner answer these views.
-/

namespace QueryPlanner

open Memo (SameContent)

/-- What is seen of a child without the statistics of its group. -/
def ChildView.bare (child : ChildView) : ChildView := { child with groupStatistics := none }

/-- A view without the statistics of groups. -/
def ExprView.bare (view : ExprView) : ExprView :=
  { view with groupStatistics := none, children := view.children.map ChildView.bare }

namespace Memo

/-- The properties of a group, those of an empty relation for an unknown one. -/
def properties (memo : Memo) (id : GroupId) : GroupProperties :=
  ((memo.group? id).map (·.properties)).getD (.relation {})

/-- What is seen of a child group, without statistics. -/
def bareChild (memo : Memo) (id : GroupId) : ChildView :=
  { group := memo.master id, properties := memo.properties (memo.master id) }

/-- What the operator of an alternative sees, without statistics. -/
def bareView (memo : Memo) (id : ExprId) (expr : MemoExpr) : ExprView :=
  { expr := id
    op := expr.op
    group := memo.master expr.group
    logical := memo.logical (memo.master expr.group)
    children := expr.children.map memo.bareChild }

/-- The best costing of a context. -/
def bestCosting? (memo : Memo) (id : ContextId) : Option Costing :=
  (memo.best? id).bind memo.costing?

/-- A view with the best plan of a context attached to a child, if there is one. -/
def withBestPlan (memo : Memo) (view : ExprView) (child : Nat) (id : Option ContextId) : ExprView :=
  match id.bind memo.bestCosting? with
  | some chosen => view.withChildPlan child chosen.delivered chosen.statistics
  | none => view

/-- A view with the best plans of contexts attached to the children from a position on. -/
def overContextsFrom (memo : Memo) (position : Nat) (contexts : List (Option ContextId))
    (view : ExprView) : ExprView :=
  (contexts.zipIdx position).foldl
    (fun view entry => memo.withBestPlan view entry.2 entry.1) view

/-- The context is there, and so is its best costing if it has one. -/
def Readable (memo : Memo) (id : ContextId) : Prop :=
  ∃ context, memo.context? id = some context ∧
    ∀ best, context.best = some best → ∃ costing, memo.costing? best = some costing ∧
      ∃ own, memo.context? costing.context = some own

/-- What a parent is charged for the best plan of a context. -/
def bestInput? (memo : Memo) (segments : Nat) (id : ContextId) : Option ChildCosting :=
  (memo.bestCosting? id).bind fun costing => (memo.context? costing.context).map fun context =>
    { rows := hostRows costing.delivered (costing.statistics.getD .empty) segments
      width := (costing.statistics.getD .empty).width context.required.columns
      rebinds := (costing.statistics.getD .empty).rebinds
      cost := costing.cost }

end Memo

/-! ## Views without statistics -/

namespace ExprView

variable {view : ExprView}

@[simp] theorem bare_childPlan? {child : Nat} : view.bare.childPlan? child = view.childPlan? child := by
  simp [bare, childPlan?, ChildView.bare, Option.bind_map, Function.comp_def]

@[simp] theorem bare_childPlans : view.bare.childPlans = view.childPlans := by
  simp [bare, childPlans, ChildView.bare, List.filterMap_map, Function.comp_def]

@[simp] theorem bare_firstRelationalPlan? :
    view.bare.firstRelationalPlan? = view.firstRelationalPlan? := by
  unfold firstRelationalPlan? bare
  rw [List.find?_map, Option.bind_map]
  rfl

@[simp] theorem bare_childOrder {child : Nat} : view.bare.childOrder child = view.childOrder child := by
  unfold childOrder
  rw [bare_childPlan?]

@[simp] theorem bare_logical : view.bare.logical = view.logical := rfl

theorem bare_withChildPlan {child : Nat} {plan : Option PlanProperties}
    {statistics : Option Statistics} :
    (view.withChildPlan child plan statistics).bare = view.bare.withChildPlan child plan statistics := by
  unfold withChildPlan bare
  congr 1
  apply List.ext_getElem?
  intro position
  simp only [List.getElem?_map, List.getElem?_modify]
  cases view.children[position]? <;> simp
  split <;> rfl

theorem bare_withRequired {required : PlanRequirement} :
    (view.withRequired required).bare = view.bare.withRequired required := rfl

end ExprView

namespace PhysicalOperator

variable {op : PhysicalOperator} {view : ExprView}

/-- What an operator delivers does not depend on the statistics of groups. -/
theorem delivered_bare : op.delivered view.bare = op.delivered view := by
  have hdistribution : passedDistribution view.bare = passedDistribution view := by
    simp [passedDistribution]
  have hrewindability : passedRewindability view.bare = passedRewindability view := by
    simp [passedRewindability]
  have hpartition : combinedPartition view.bare = combinedPartition view := by
    simp [combinedPartition]
  unfold delivered deliveredOrder deliveredDistribution deliveredRewindability deliveredPartition
    deliveredCtes
  simp only [hdistribution, hrewindability, hpartition, ExprView.bare_childOrder,
    ExprView.bare_childPlan?, ExprView.bare_childPlans]

/-- What an operator delivers does not depend on the requirement. -/
theorem delivered_withRequired {required : PlanRequirement} :
    op.delivered (view.withRequired required) = op.delivered view := rfl

/-- What an operator asks of its children depends neither on statistics nor on plans of children. -/
theorem childRequirement_bare {parent : PlanRequirement} {child : Nat}
    {siblings : List PlanProperties} {request : Nat} :
    op.childRequirement view.bare parent child siblings request =
      op.childRequirement view parent child siblings request := by
  have hchild (position : Nat) : view.bare.childLogical position = view.childLogical position := by
    unfold ExprView.childLogical ExprView.bare
    rw [List.getElem?_map, Option.map_map]
    rfl
  have hscalars : view.bare.scalarColumns = view.scalarColumns := by
    unfold ExprView.scalarColumns ExprView.bare
    rw [List.filterMap_map]
    rfl
  unfold childRequirement childColumns aggregateChildColumns ExprView.usualChildColumns
    childPartition
  simp only [hchild, hscalars]

theorem childRequirement_withRequired {required parent : PlanRequirement} {child : Nat}
    {siblings : List PlanProperties} {request : Nat} :
    op.childRequirement (view.withRequired required) parent child siblings request =
      op.childRequirement view parent child siblings request := rfl

end PhysicalOperator

namespace Memo

variable {memo memo' : Memo}

theorem overContextsFrom_nil {position : Nat} {view : ExprView} :
    memo.overContextsFrom position [] view = view := rfl

theorem overContextsFrom_cons {position : Nat} {view : ExprView} {context : Option ContextId}
    {rest : List (Option ContextId)} :
    memo.overContextsFrom position (context :: rest) view =
      memo.overContextsFrom (position + 1) rest (memo.withBestPlan view position context) := rfl

theorem bare_withBestPlan {view : ExprView} {child : Nat} {id : Option ContextId} :
    (memo.withBestPlan view child id).bare = memo.withBestPlan view.bare child id := by
  unfold withBestPlan
  cases id.bind memo.bestCosting? with
  | none => rfl
  | some chosen => exact ExprView.bare_withChildPlan

theorem bare_overContextsFrom {position : Nat} {contexts : List (Option ContextId)}
    {view : ExprView} : (memo.overContextsFrom position contexts view).bare =
      memo.overContextsFrom position contexts view.bare := by
  induction contexts generalizing position view with
  | nil => rfl
  | cons context rest ih => rw [overContextsFrom_cons, ih, bare_withBestPlan, overContextsFrom_cons]

/-- Contexts beyond the children have no effect. -/
theorem overContextsFrom_take {position count : Nat} {contexts : List (Option ContextId)}
    {view : ExprView} (hcount : view.arity ≤ position + count) :
    memo.overContextsFrom position (contexts.take count) view =
      memo.overContextsFrom position contexts view := by
  induction contexts generalizing position count view with
  | nil => rw [List.take_nil]
  | cons context rest ih =>
      have harity : (memo.withBestPlan view position context).arity = view.arity := by
        unfold withBestPlan
        split
        · exact List.length_modify ..
        · rfl
      cases count with
      | succ count =>
          rw [List.take_succ_cons, overContextsFrom_cons, overContextsFrom_cons]
          exact ih (by rw [harity]; omega)
      | zero =>
          have hbeyond : memo.withBestPlan view position context = view := by
            unfold withBestPlan
            split
            · unfold ExprView.withChildPlan
              rw [List.modify_eq_self (by exact hcount)]
            · rfl
          have hrest : memo.overContextsFrom (position + 1) (rest.take 0) view =
              memo.overContextsFrom (position + 1) rest view := ih (by omega)
          rw [List.take_zero, overContextsFrom_nil, overContextsFrom_cons, hbeyond, ← hrest,
            List.take_zero, overContextsFrom_nil]

/-- The plans attached to a view depend on the best costings of the contexts only. -/
theorem overContextsFrom_congr {position : Nat} {contexts : List (Option ContextId)}
    {view : ExprView}
    (hsame : ∀ id, some id ∈ contexts → memo'.bestCosting? id = memo.bestCosting? id) :
    memo'.overContextsFrom position contexts view = memo.overContextsFrom position contexts view := by
  induction contexts generalizing position view with
  | nil => rfl
  | cons context rest ih =>
      have hfirst : memo'.withBestPlan view position context =
          memo.withBestPlan view position context := by
        unfold withBestPlan
        cases context with
        | none => rfl
        | some id => rw [Option.bind_some, Option.bind_some, hsame id (by simp)]
      rw [overContextsFrom_cons, overContextsFrom_cons, hfirst]
      exact ih fun id hid => hsame id (by simp [hid])

@[simp] theorem overContextsFrom_logical {position : Nat} {contexts : List (Option ContextId)}
    {view : ExprView} : (memo.overContextsFrom position contexts view).logical = view.logical := by
  induction contexts generalizing position view with
  | nil => rfl
  | cons context rest ih =>
      rw [overContextsFrom_cons, ih]
      unfold withBestPlan
      split <;> rfl

namespace SameContent

variable (hsame : SameContent memo memo')
include hsame

theorem properties (id : GroupId) : memo'.properties id = memo.properties id := by
  unfold Memo.properties
  rw [hsame.map_group? Group.properties fun _ => rfl]

theorem bestCosting? (id : ContextId) : memo'.bestCosting? id = memo.bestCosting? id := by
  unfold Memo.bestCosting? Memo.best?
  rw [hsame.context?]
  congr 1
  funext best
  exact hsame.costing? best

/-- What is compared of two costings stays the same. -/
theorem betterThan (hends : memo.LinksEnd) (left right : Costing) :
    memo'.betterThan left right = memo.betterThan left right := by
  have hjoin (costing : Costing) : memo'.isJoinCosting costing = memo.isJoinCosting costing := by
    unfold isJoinCosting
    rw [hsame.physical?]
  have hrows (id : ContextId) : memo'.bestRows? id = memo.bestRows? id :=
    congrArg (fun best => (best.bind Costing.statistics).map Statistics.rows) (hsame.bestCosting? id)
  have hinputs (costing : Costing) : memo'.joinInputs? costing = memo.joinInputs? costing := by
    unfold joinInputs? innerGroup?
    simp only [hrows, hsame.context?, hsame.logical, hsame.master hends]
  unfold Memo.betterThan flatterJoin
  simp only [hjoin, hinputs]

theorem bareChild (hends : memo.LinksEnd) : memo'.bareChild = memo.bareChild := by
  funext child
  unfold Memo.bareChild
  rw [hsame.master hends, hsame.properties]

theorem bareView (hends : memo.LinksEnd) {id : ExprId} {expr : MemoExpr} :
    memo'.bareView id expr = memo.bareView id expr := by
  unfold Memo.bareView
  simp only [hsame.bareChild hends, hsame.master hends, hsame.logical]

end SameContent

end Memo

namespace Planning

variable {memo : Memo}

/-- What is seen of a known child group. -/
theorem Post.childView {id : GroupId} (h : memo.WellFormed) (hid : id.index < memo.groups.size) :
    Post (Planning.childView id) memo
      (fun child final => SameContent memo final ∧ child.bare = memo.bareChild id)
      (fun _ _ => False) := by
  refine (Post.resolve hid).andThen (fun _ _ hfail => hfail) ?_
  rintro _ looked ⟨rfl, hlooked⟩
  refine Post.bind (Post.group (fun found hfound => Post.pure ⟨hlooked, ?_⟩) (fun hnone => ?_))
  · obtain ⟨before, hbefore, hcontent⟩ := hlooked.exists_group_before hfound
    unfold ChildView.bare Memo.bareChild Memo.properties
    rw [hbefore]
    simp only [Option.map_some, Option.getD_some, ChildView.mk.injEq, and_true, true_and]
    exact congrArg (·.properties) hcontent
  · rw [Memo.group?_eq_none, hlooked.groups_size] at hnone
    have := h.masterKnown id hid
    omega

/-- What the operator of a known alternative sees. -/
theorem Post.view {id : ExprId} {expr : MemoExpr} (h : memo.WellFormed)
    (hexpr : memo.expr? id = some expr) :
    Post (Planning.view id) memo
      (fun view final => SameContent memo final ∧ view.bare = memo.bareView id expr)
      (fun _ _ => False) := by
  have howner := h.ownerKnown id expr hexpr
  unfold Planning.view
  refine Post.bind (Post.expr (fun found hfound => ?_) (fun hnone => by simp [hnone] at hexpr))
  rw [hexpr] at hfound
  obtain rfl := Option.some.inj hfound
  refine (Post.resolve howner).andThen (fun _ _ hfail => hfail) ?_
  rintro _ first ⟨rfl, hfirst⟩
  refine (Post.mapM (SameContent memo) (fun child seen => seen.bare = memo.bareChild child)
    hfirst ?_).andThen (fun _ _ hfail => hfail) ?_
  · intro child hchild current hcurrent
    have hknown := h.childKnown id expr hexpr child hchild
    rw [← hcurrent.groups_size] at hknown
    refine (Post.childView (hcurrent.wellFormed h) hknown).mono ?_ (fun _ _ hfail => hfail)
    rintro seen final ⟨hfinal, hseen⟩
    refine ⟨hcurrent.trans hfinal, ?_⟩
    rw [hseen]
    unfold Memo.bareChild
    rw [hcurrent.master h.linksEnd, hcurrent.properties]
  · rintro children looked ⟨hlooked, hchildren⟩
    refine Post.bind (Post.group (fun found hfound => Post.pure ⟨hlooked, ?_⟩) (fun hnone => ?_))
    · have hlogical : found.logical = memo.logical (memo.master expr.group) := by
        rw [← hlooked.logical, Memo.logical, hfound]
        rfl
      have hbare : children.map ChildView.bare = expr.children.map memo.bareChild :=
        map_eq_of_forall₂ _ hchildren
      unfold ExprView.bare Memo.bareView
      rw [hbare, hlogical]
    · rw [Memo.group?_eq_none, hlooked.groups_size] at hnone
      have := h.masterKnown _ howner
      omega

/-- Attaching the best plan of a context to a child, which fails if the context cannot be read. -/
theorem Post.withBestPlan {seen : ExprView} {child : Nat} {id : Option ContextId} :
    Post (Planning.withBestPlan seen child id) memo
      (fun value final => final = memo ∧ value = memo.withBestPlan seen child id)
      (fun _ _ => ¬ ∀ context ∈ id, memo.Readable context) := by
  unfold Planning.withBestPlan Memo.withBestPlan Memo.bestCosting? Memo.best?
  cases id with
  | none => exact Post.bind (Post.pure (Post.pure ⟨rfl, rfl⟩))
  | some id =>
      have hunread (h : ¬ memo.Readable id) : ¬ ∀ context ∈ some id, memo.Readable context :=
        fun hall => h (hall id rfl)
      have hfound : Post (Option.mapM Planning.context (some id)) memo
          (fun value final => final = memo ∧ ∃ context, memo.context? id = some context ∧
            value = some context)
          (fun _ _ => ¬ ∀ context ∈ some id, memo.Readable context) := by
        refine Post.bind (Post.context (fun found hfound => Post.pure ⟨rfl, found, hfound, rfl⟩)
          fun hnone => hunread ?_)
        rintro ⟨context, hcontext, _⟩
        simp [hnone] at hcontext
      refine hfound.andThen (fun _ _ hfail => hfail) ?_
      rintro _ final ⟨hfinal, context, hcontext, rfl⟩
      obtain rfl := hfinal.symm
      rw [Option.bind_some, Option.bind_some, hcontext, Option.bind_some]
      cases hheld : context.best with
      | none => exact Post.pure ⟨rfl, rfl⟩
      | some best =>
          refine Post.bind (Post.costing (fun found hfound => Post.pure ⟨rfl, ?_⟩)
            fun hnone => hunread ?_)
          · rw [Option.bind_some, hfound]
          · rintro ⟨other, hother, hbest⟩
            obtain rfl := Option.some.inj (hcontext.symm.trans hother)
            obtain ⟨costing, hcosting, _⟩ := hbest best hheld
            simp [hnone] at hcosting

/-- Attaching the best plans of contexts to the children from a position on. -/
theorem Post.overContextsFrom {contexts : List (Option ContextId)} {position : Nat}
    {seen : ExprView} :
    Post ((contexts.zipIdx position).foldlM
        (fun view entry => Planning.withBestPlan view entry.2 entry.1) seen) memo
      (fun value final => final = memo ∧ value = memo.overContextsFrom position contexts seen)
      (fun _ _ => ¬ ∀ context, some context ∈ contexts → memo.Readable context) := by
  induction contexts generalizing position seen with
  | nil => exact Post.pure ⟨rfl, rfl⟩
  | cons context rest ih =>
      rw [List.zipIdx_cons, List.foldlM_cons]
      refine Post.withBestPlan.andThen (fun _ _ hfail hall => hfail fun id hid =>
        hall id (Option.mem_def.mp hid ▸ .head _)) ?_
      rintro _ final ⟨hfinal, rfl⟩
      obtain rfl := hfinal.symm
      exact ih.mono (fun _ _ hfinal => hfinal) fun _ _ hfail hall =>
        hfail fun id hid => hall id (List.mem_cons_of_mem _ hid)

/-- The view of an alternative over the best plans of its child contexts. -/
theorem Post.viewOverBests {id : ExprId} {expr : MemoExpr} {contexts : List (Option ContextId)}
    {required : PlanRequirement} (h : memo.WellFormed) (hexpr : memo.expr? id = some expr) :
    Post (Optimizer.viewOver id contexts required) memo
      (fun view final => SameContent memo final ∧ view.bare =
        (memo.overContextsFrom 0 contexts (memo.bareView id expr)).withRequired required)
      (fun _ _ => ¬ ∀ context, some context ∈ contexts → memo.Readable context) := by
  unfold Optimizer.viewOver Planning.withChildContexts
  refine (Post.view h hexpr).andThen (fun _ _ hfail => hfail.elim) ?_
  rintro seen looked ⟨hlooked, hbare⟩
  have hread {context : ContextId} (hcontext : memo.Readable context) : looked.Readable context := by
    obtain ⟨found, hfound, hbest⟩ := hcontext
    refine ⟨found, (hlooked.context? _).trans hfound, fun best hheld => ?_⟩
    obtain ⟨costing, hcosting, own, hown⟩ := hbest best hheld
    exact ⟨costing, (hlooked.costing? _).trans hcosting, own, (hlooked.context? _).trans hown⟩
  refine Post.overContextsFrom.andThen (fun _ _ hfail hall => hfail fun context hcontext =>
    hread (hall context (List.mem_of_mem_take hcontext))) ?_
  rintro _ final ⟨rfl, rfl⟩
  refine Post.pure ⟨hlooked, ?_⟩
  rw [ExprView.bare_withRequired, Memo.overContextsFrom_take (Nat.zero_add seen.arity).ge,
    Memo.bare_overContextsFrom, hbare,
    Memo.overContextsFrom_congr fun context _ => hlooked.bestCosting? context]

/-- The view of an alternative over the best plans of child contexts that can be read. -/
theorem Post.viewOver {id : ExprId} {expr : MemoExpr} {contexts : List (Option ContextId)}
    {required : PlanRequirement} (h : memo.WellFormed) (hexpr : memo.expr? id = some expr)
    (hread : ∀ context, some context ∈ contexts → memo.Readable context) :
    Post (Optimizer.viewOver id contexts required) memo
      (fun view final => SameContent memo final ∧ view.bare =
        (memo.overContextsFrom 0 contexts (memo.bareView id expr)).withRequired required)
      (fun _ _ => False) :=
  (Post.viewOverBests h hexpr).mono (fun _ _ hok => hok) fun _ _ hfail => hfail hread

/-- What a parent is charged for the best plan of a context. -/
theorem Post.bestPlanChild? {segments : Nat} {id : ContextId} (hread : memo.Readable id) :
    Post (Planning.bestPlanChild? segments id) memo
      (fun value final => final = memo ∧ value = memo.bestInput? segments id)
      (fun _ _ => False) := by
  obtain ⟨context, hcontext, hbest⟩ := hread
  unfold Planning.bestPlanChild? Memo.bestInput? Memo.bestCosting? Memo.best?
  refine Post.bind (Post.context (fun found hfound => ?_) (fun hnone => by simp [hnone] at hcontext))
  rw [hcontext] at hfound
  obtain rfl := Option.some.inj hfound
  rw [hcontext, Option.bind_some]
  cases hheld : context.best with
  | none => exact Post.pure ⟨rfl, rfl⟩
  | some best =>
      obtain ⟨costing, hcosting, own, hown⟩ := hbest best hheld
      refine Post.bind (Post.bind (Post.costing (fun found hfound => ?_)
        (fun hnone => by simp [hnone] at hcosting)))
      rw [hcosting] at hfound
      obtain rfl := Option.some.inj hfound
      refine Post.bind (Post.context (fun found hfound => ?_) (fun hnone => by simp [hnone] at hown))
      rw [hown] at hfound
      obtain rfl := Option.some.inj hfound
      refine Post.pure (Post.pure ⟨rfl, ?_⟩)
      simp [hcosting, hown]

end Planning

end QueryPlanner
