import QueryPlanner.Optimizer
import QueryPlanner.Plan
import QueryPlanner.Proofs.Memo.Content

/-!
# Computations that only look

Views, statistics, lower bounds and comparisons of costings leave the content of the memo, however
they end.
-/

namespace QueryPlanner

open Memo (SameContent)

namespace Memo

variable {memo : Memo}

/-- Deriving more statistics for a group. -/
theorem sameContent_addStatistics {id : GroupId} {derived : Statistics} :
    SameContent memo (memo.addStatistics id derived) :=
  sameContent_modifyGroup (fun _ => rfl) (fun _ => rfl)

/-- Forgetting the statistics of a group, and the lower bounds that were found with them. -/
theorem sameContent_forgetStatistics {id : GroupId} :
    SameContent memo (memo.forgetStatistics id) := by
  unfold forgetStatistics
  set cleared := memo.modifyGroup id _ with hcleared
  have hstart : SameContent memo cleared :=
    sameContent_modifyGroup (fun _ => rfl) (fun _ => rfl)
  refine List.foldlRecOn _ _ hstart fun current hcurrent expr _ => ?_
  exact hcurrent.trans (sameContent_modifyExpr fun _ => rfl)

/-- A relation of memos that allows for deriving statistics: groups are resolved, and statistics of
groups change. -/
class Deriving (R : Memo → Memo → Prop) : Prop extends Glancing R where
  noted : ∀ (memo : Memo) id (found : Group → Option Statistics),
    R memo (memo.modifyGroup id fun group => { group with statistics := found group })

instance : Deriving SameContent where
  noted _ _ _ := sameContent_modifyGroup (fun _ => rfl) (fun _ => rfl)

/-- A relation of memos that allows for storing lower bounds. -/
class Weighing (R : Memo → Memo → Prop) : Prop extends Glancing R where
  groupBounded : ∀ (memo : Memo) id required least, R memo (memo.modifyGroup id fun group =>
    { group with lowerBounds := (required, least) :: group.lowerBounds })
  exprBounded : ∀ (memo : Memo) id key bound, R memo (memo.modifyExpr id fun expr =>
    { expr with bounds := (key, bound) :: expr.bounds })

instance : Weighing SameContent where
  groupBounded _ _ _ _ := sameContent_modifyGroup (fun _ => rfl) (fun _ => rfl)
  exprBounded _ _ _ _ := sameContent_modifyExpr fun _ => rfl

/-- A relation of memos that allows for looking around. -/
class Looking (R : Memo → Memo → Prop) : Prop extends Std.Refl R, IsTrans Memo R where
  looked : ∀ memo memo', memo.SameContent memo' → R memo memo'

instance Looking.glancing {R : Memo → Memo → Prop} [Looking R] : Glancing R where
  compressed memo id := looked memo _ (sameContent_compress id)

end Memo

namespace Planning

/-- Computations that only look stay within the relation. -/
theorem Keeps.quiet {α : Type} {R : Memo → Memo → Prop} [Memo.Looking R] {action : Planning α}
    (h : Keeps SameContent action) : Keeps R action :=
  h.mono Memo.Looking.looked

section LookUps

variable {R : Memo → Memo → Prop} [Std.Refl R] [IsTrans Memo R]

omit [IsTrans Memo R] in
/-- Looking up what is found, or failing. -/
theorem keeps_found {α : Type} {id : UnknownId} {result : Option α} :
    Keeps R (found id result) := by
  cases result with
  | none => exact Keeps.throw
  | some _ => exact Keeps.pure

theorem keeps_group {id : GroupId} : Keeps R (group id) :=
  Keeps.bind Keeps.get fun _ => keeps_found

theorem keeps_expr {id : ExprId} : Keeps R (expr id) :=
  Keeps.bind Keeps.get fun _ => keeps_found

theorem keeps_context {id : ContextId} : Keeps R (context id) :=
  Keeps.bind Keeps.get fun _ => keeps_found

theorem keeps_costing {id : CostingId} : Keeps R (costing id) :=
  Keeps.bind Keeps.get fun _ => keeps_found

omit [IsTrans Memo R] in
theorem keeps_checkAbort {aborted : Bool} : Keeps R (checkAbort aborted) := by
  cases aborted with
  | true => exact Keeps.throw
  | false => exact Keeps.pure

theorem keeps_costedChild {segments : Nat} {id : CostingId} : Keeps R (costedChild segments id) :=
  Keeps.bind keeps_costing fun _ => Keeps.bind keeps_context fun _ => Keeps.pure

theorem keeps_bestPlanChild? {segments : Nat} {id : ContextId} :
    Keeps R (bestPlanChild? segments id) := by
  refine Keeps.bind keeps_context fun context => ?_
  cases context.best with
  | none => exact Keeps.pure
  | some best => exact Keeps.bind keeps_costedChild fun _ => Keeps.pure

end LookUps

/-! ## Statistics -/

section Deriving

variable {R : Memo → Memo → Prop} [Memo.Deriving R]

theorem keeps_scalarStatistics {id : GroupId} {found : Group} :
    Keeps R (scalarStatistics id found) := by
  unfold scalarStatistics
  split
  · exact Keeps.pure
  · exact Keeps.bind (Keeps.modify fun memo => Memo.Deriving.noted memo id fun _ => some .empty)
      fun _ => Keeps.pure

theorem keeps_statisticsSource {R : Memo → Memo → Prop} [Memo.Glancing R] {id : GroupId}
    {found : Group} {required : ColumnSet} : Keeps R (statisticsSource id found required) := by
  refine Keeps.bind Keeps.get fun memo => ?_
  refine Keeps.bind (Keeps.modify fun _ => Memo.Glancing.compressedAll) fun _ => ?_
  split
  · exact Keeps.pure
  · exact Keeps.throw

/-- Deriving statistics, by induction on the depth of the descent. -/
theorem keeps_deriveUpTo {aborted : Bool} {fuel : Nat} {id : GroupId} {wanted : ColumnSet} :
    Keeps R (deriveUpTo aborted fuel id wanted) := by
  induction fuel generalizing id wanted with
  | zero => exact Keeps.throw
  | succ fuel ih =>
      unfold deriveUpTo
      refine Keeps.bind keeps_checkAbort fun _ => ?_
      refine Keeps.bind keeps_resolve fun id => ?_
      refine Keeps.bind keeps_group fun found => ?_
      split
      · exact keeps_scalarStatistics
      · dsimp only
        split
        · exact Keeps.pure
        · refine Keeps.bind keeps_statisticsSource fun source => ?_
          refine Keeps.bind keeps_expr fun expr => ?_
          split
          · refine Keeps.bind keeps_resolveAll fun children => ?_
            refine Keeps.bind (Keeps.mapM fun _ _ => keeps_group) fun below => ?_
            refine Keeps.bind (Keeps.mapM fun child _ => ?_) fun statistics => ?_
            · split
              · exact Keeps.pure
              · exact Keeps.map ih
            · refine Keeps.bind Keeps.get fun memo => ?_
              split
              · exact Keeps.throw
              · refine Keeps.bind (Keeps.modify fun _ => Memo.Deriving.noted ..) fun _ => ?_
                exact Keeps.bind keeps_group fun _ => Keeps.pure
          · exact Keeps.throw

end Deriving

theorem keeps_deriveStatistics {aborted : Bool} {id : GroupId} {required : ColumnSet} :
    Keeps SameContent (deriveStatistics aborted id required) :=
  Keeps.bind Keeps.get fun _ => keeps_deriveUpTo

theorem keeps_contextStatistics {aborted : Bool} {id : ContextId} :
    Keeps SameContent (contextStatistics aborted id) := by
  unfold contextStatistics
  refine Keeps.bind keeps_context fun context => ?_
  refine Keeps.bind keeps_resolve fun owner => ?_
  refine Keeps.bind keeps_group fun found => ?_
  split
  · exact Keeps.pure
  · refine Keeps.bind keeps_deriveStatistics fun derived => ?_
    exact Keeps.bind (Keeps.modify fun _ => Memo.sameContent_modifyGroup (fun _ => rfl)
      (fun _ => rfl)) fun _ => Keeps.pure

/-- Resetting statistics, by induction on the depth of the descent. -/
theorem keeps_resetUpTo {fuel : Nat} {visited : Visited} {id : GroupId} :
    Keeps SameContent (resetUpTo fuel visited id) := by
  induction fuel generalizing visited id with
  | zero => exact Keeps.throw
  | succ fuel ih =>
      unfold resetUpTo
      refine Keeps.bind keeps_resolve fun id => ?_
      split
      · exact Keeps.pure
      · refine Keeps.bind Keeps.get fun memo => ?_
        refine Keeps.bind (Keeps.foldlM fun found child _ => ?_) fun found => ?_
        · exact Keeps.bind ih fun _ => Keeps.pure
        · refine Keeps.bind keeps_group fun group => ?_
          dsimp only
          split
          · exact Keeps.bind (Keeps.modify fun _ => Memo.sameContent_forgetStatistics)
              fun _ => Keeps.pure
          · exact Keeps.pure

theorem keeps_resetStatistics : Keeps SameContent resetStatistics := by
  unfold resetStatistics root
  refine Keeps.bind ?_ fun root => ?_
  · refine Keeps.bind Keeps.get fun memo => ?_
    split
    · exact Keeps.bind keeps_resolve fun _ => Keeps.pure
    · exact Keeps.pure
  · split
    · exact Keeps.pure
    · exact Keeps.bind Keeps.get fun _ => Keeps.bind keeps_resetUpTo fun _ => Keeps.pure

/-! ## Views and inputs -/

section Views

variable {R : Memo → Memo → Prop} [Memo.Glancing R]

theorem keeps_childView {id : GroupId} : Keeps R (childView id) :=
  Keeps.bind keeps_resolve fun _ => Keeps.bind keeps_group fun _ => Keeps.pure

theorem keeps_view {id : ExprId} : Keeps R (view id) := by
  refine Keeps.bind keeps_expr fun expr => ?_
  refine Keeps.bind keeps_resolve fun owner => ?_
  refine Keeps.bind (Keeps.mapM fun _ _ => keeps_childView) fun children => ?_
  exact Keeps.bind keeps_group fun _ => Keeps.pure

/-- Attaching the best plans of contexts to a view. -/
theorem keeps_viewOver {id : ExprId} {children : List (Option ContextId)}
    {required : PlanRequirement} : Keeps R (Optimizer.viewOver id children required) := by
  unfold Optimizer.viewOver withChildContexts
  refine Keeps.bind keeps_view fun view => ?_
  refine Keeps.bind (Keeps.foldlM fun seen entry _ => ?_) fun _ => Keeps.pure
  unfold withBestPlan
  refine Keeps.bind ?_ fun found => ?_
  · cases entry.1 with
    | none => exact Keeps.pure
    | some id => exact Keeps.bind keeps_context fun _ => Keeps.pure
  · split
    · exact Keeps.bind keeps_costing fun _ => Keeps.pure
    · exact Keeps.pure

end Views

/-! ## Lower bounds -/

section Bounds

variable {R : Memo → Memo → Prop} [Memo.Weighing R]

theorem keeps_groupBoundBy {bound : ExprId → PlanRequirement → Planning Cost} {id : GroupId}
    {required : PlanRequirement} (hbound : ∀ id required, Keeps R (bound id required)) :
    Keeps R (groupBoundBy bound id required) := by
  unfold groupBoundBy
  refine Keeps.bind keeps_resolve fun id => ?_
  refine Keeps.bind keeps_group fun found => ?_
  split
  · exact Keeps.pure
  · refine Keeps.bind Keeps.get fun memo => ?_
    refine Keeps.bind (Keeps.foldlM fun least _ _ => ?_) fun least => ?_
    · exact Keeps.bind (hbound _ _) fun _ => Keeps.pure
    · exact Keeps.bind (Keeps.modify fun memo => Memo.Weighing.groupBounded memo ..) fun _ =>
        Keeps.pure

theorem keeps_boundedChildren {segments : Nat} {op : PhysicalOperator} {view : ExprView}
    {required : PlanRequirement} {costed : Option (Nat × CostingId)}
    {bound : GroupId → PlanRequirement → Planning Cost}
    (hbound : ∀ id required, Keeps R (bound id required))
    (children : List (ChildView × Nat)) :
    Keeps R (boundedChildren segments op view required costed bound children) := by
  induction children with
  | nil => exact Keeps.pure
  | cons child rest ih =>
      obtain ⟨child, position⟩ := child
      unfold boundedChildren
      split
      · exact ih
      · split
        · refine Keeps.bind keeps_costedChild fun input => ?_
          exact Keeps.bind ih fun _ => Keeps.pure
        · refine Keeps.bind (hbound _ _) fun least => ?_
          split
          · exact Keeps.pure
          · exact Keeps.bind ih fun _ => Keeps.pure

/-- Bounding an alternative from below, by induction on the depth of the descent. -/
theorem keeps_lowerBoundUpTo {model : CostModel} {segments fuel : Nat} {id : ExprId}
    {required : PlanRequirement} {costed : Option (Nat × CostingId)} :
    Keeps R (lowerBoundUpTo model segments fuel id required costed) := by
  induction fuel generalizing id required costed with
  | zero => exact Keeps.throw
  | succ fuel ih =>
      unfold lowerBoundUpTo
      refine Keeps.bind keeps_expr fun found => ?_
      dsimp only
      split
      · exact Keeps.pure
      · refine Keeps.bind keeps_view fun _ => ?_
        refine Keeps.bind (keeps_boundedChildren (fun _ _ => keeps_groupBoundBy fun _ _ => ih) _)
          fun children => ?_
        exact Keeps.bind (Keeps.modify fun memo => Memo.Weighing.exprBounded memo ..)
          fun _ => Keeps.pure
      · exact Keeps.pure

theorem keeps_lowerBound {model : CostModel} {segments : Nat} {id : ExprId}
    {required : PlanRequirement} {costed : Option (Nat × CostingId)} :
    Keeps R (lowerBound model segments id required costed) :=
  Keeps.bind Keeps.get fun _ => keeps_lowerBoundUpTo

theorem keeps_groupLowerBound {model : CostModel} {segments : Nat} {id : GroupId}
    {required : PlanRequirement} : Keeps R (groupLowerBound model segments id required) :=
  Keeps.bind Keeps.get fun _ => keeps_groupBoundBy fun _ _ => keeps_lowerBoundUpTo

end Bounds

/-! ## Comparing costings -/

section Comparisons

variable {R : Memo → Memo → Prop} [Memo.Glancing R]

theorem keeps_visitJoinInputs {found : Costing} : Keeps R (visitJoinInputs found) := by
  unfold visitJoinInputs
  split
  · refine Keeps.bind keeps_context fun _ => ?_
    refine Keeps.bind keeps_context fun _ => ?_
    exact Keeps.bind keeps_resolve fun _ => Keeps.pure
  · exact Keeps.pure

/-- Whether a costing is better is answered for the memo that the comparison leaves. -/
theorem Post.compared {memo : Memo} {left right : Costing} :
    Post (betterThan left right) memo
      (fun better final => R memo final ∧ better = final.betterThan left right)
      (fun _ final => R memo final) := by
  have hvisits : Keeps R ((memo.comparedJoins left right).forM visitJoinInputs) :=
    Keeps.forM fun _ _ => keeps_visitJoinInputs
  refine Post.bind (Post.get ((hvisits memo).andThen (fun _ _ hsame => hsame) fun _ _ hsame => ?_))
  exact Post.bind (Post.get (Post.pure ⟨hsame, rfl⟩))

theorem keeps_betterThan {left right : Costing} : Keeps R (betterThan left right) :=
  fun _ => Post.compared.mono (fun _ _ h => h.1) fun _ _ h => h

theorem keeps_mayReplace {candidate recorded : Costing} :
    Keeps R (mayReplace candidate recorded) := by
  unfold mayReplace
  split
  · exact Keeps.pure
  · split
    · exact Keeps.pure
    · exact keeps_betterThan

end Comparisons

theorem keeps_lookupBestContext {id : GroupId} {required : PlanRequirement} {stages : Nat} :
    Keeps SameContent (lookupBestContext id required stages) := by
  unfold lookupBestContext
  split
  · exact Keeps.pure
  · refine Keeps.bind keeps_resolve fun id => ?_
    refine Keeps.bind keeps_group fun found => ?_
    refine Keeps.bind (Keeps.foldlM fun best found _ => ?_) fun _ => Keeps.pure
    refine Keeps.bind keeps_context fun context => ?_
    split
    · refine Keeps.bind keeps_costing fun candidate => ?_
      split
      · exact Keeps.pure
      · refine Keeps.bind keeps_betterThan fun better => ?_
        split <;> exact Keeps.pure
    · exact Keeps.pure

/-! ## Extracting plans -/

theorem keeps_bindAmong {pattern : Pattern} {all : List ExprId} {limit : Option Nat} :
    Keeps SameContent (bindAmong pattern all limit) :=
  Keeps.getThen fun _ => Post.bind (Post.set (Post.pure Memo.sameContent_compressAll))

mutual

theorem keeps_scalarPlan : (bound : BoundExpr) → Keeps SameContent (scalarPlan bound)
  | .leaf _ => by
      unfold scalarPlan
      exact Keeps.throw
  | .node _ _ _ children => by
      unfold scalarPlan
      exact Keeps.bind (keeps_scalarPlans children) fun _ => Keeps.pure

theorem keeps_scalarPlans : (bounds : List BoundExpr) → Keeps SameContent (scalarPlans bounds)
  | [] => by
      unfold scalarPlans
      exact Keeps.pure
  | bound :: rest => by
      unfold scalarPlans
      refine Keeps.bind (keeps_scalarPlan bound) fun _ => ?_
      exact Keeps.bind (keeps_scalarPlans rest) fun _ => Keeps.pure

end

theorem keeps_extractScalar {id : GroupId} : Keeps SameContent (extractScalar id) := by
  unfold extractScalar bindGroup
  refine Keeps.bind (Keeps.bind keeps_resolve fun _ => Keeps.bind keeps_group fun _ =>
    keeps_bindAmong) fun trees => ?_
  split
  · exact keeps_scalarPlan _
  · exact Keeps.throw

theorem keeps_extractChildren {extract : ContextId → Planning PlanNode}
    (hextract : ∀ id, Keeps SameContent (extract id)) {context : Context} {costing : Costing}
    (children : List (GroupId × Nat)) {view : ExprView} :
    Keeps SameContent (extractChildren extract context costing children view) := by
  induction children generalizing view with
  | nil => exact Keeps.pure
  | cons child rest ih =>
      obtain ⟨child, position⟩ := child
      unfold extractChildren
      refine Keeps.bind keeps_resolve fun child => ?_
      split
      · exact Keeps.bind keeps_extractScalar fun _ => Keeps.bind ih fun _ => Keeps.pure
      · split
        · exact Keeps.throw
        · exact Keeps.bind (hextract _) fun _ => Keeps.bind ih fun _ => Keeps.pure

/-- Extracting the plan of a context, by induction on the levels below it. -/
theorem keeps_extractUpTo {fuel : Nat} {id : ContextId} :
    Keeps SameContent (extractUpTo fuel id) := by
  induction fuel generalizing id with
  | zero => exact Keeps.throw
  | succ fuel ih =>
      unfold extractUpTo
      refine Keeps.bind keeps_context fun context => ?_
      split
      · refine Keeps.bind keeps_costing fun costing => ?_
        refine Keeps.bind keeps_expr fun expr => ?_
        split
        · refine Keeps.bind keeps_view fun view => ?_
          refine Keeps.bind (keeps_extractChildren (fun _ => ih) _) fun plans => ?_
          dsimp only
          split
          · exact Keeps.pure
          · exact Keeps.throw
        · exact Keeps.throw
      · exact Keeps.throw

theorem keeps_extractPlan {root : GroupId} {required : PlanRequirement} {stages : Nat} :
    Keeps SameContent (extractPlan root required stages) := by
  unfold extractPlan
  refine Keeps.bind keeps_resolve fun root => ?_
  refine Keeps.bind keeps_lookupBestContext fun found => ?_
  split
  · exact Keeps.bind Keeps.get fun _ => keeps_extractUpTo
  · exact Keeps.throw

end Planning

/-- The inputs of a costing are looked up in contexts. -/
theorem Planner.keeps_inputsOf {R : Memo → Memo → Prop} [Std.Refl R] [IsTrans Memo R]
    {segments : Nat} {ids : List ContextId} :
    Planning.Keeps R (Planner.cost.inputsOf segments ids) := by
  induction ids with
  | nil => exact Planning.Keeps.pure
  | cons id rest ih =>
      unfold cost.inputsOf
      refine Planning.Keeps.bind Planning.keeps_bestPlanChild? fun input => ?_
      split
      · exact Planning.Keeps.pure
      · exact Planning.Keeps.bind ih fun _ => Planning.Keeps.pure

/-- Deciding whether to prune an alternative leaves the content. -/
theorem Planner.keeps_pruneBound? {planner : Planner} {id : ExprId} {context : Context}
    {costed : Option (Nat × CostingId)} :
    Planning.Keeps SameContent (planner.pruneBound? id context costed) := by
  unfold pruneBound?
  refine Planning.Keeps.bind Planning.keeps_lookupBestContext fun known => ?_
  split
  · exact Planning.Keeps.pure
  · refine Planning.Keeps.bind Planning.keeps_context fun found => ?_
    split
    · exact Planning.Keeps.pure
    · refine Planning.Keeps.bind Planning.keeps_costing fun best => ?_
      refine Planning.Keeps.bind Planning.keeps_lowerBound fun bound => ?_
      exact Planning.Keeps.pure

end QueryPlanner
