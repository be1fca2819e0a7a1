import QueryPlanner.Optimizer
import QueryPlanner.Proofs.Planning

/-!
# Runs with less fuel

A computation approximates another one when it ends in the same way, unless it runs out of fuel
(`Planning.Approximates`). More fuel changes nothing else in a run of the optimizer. Nor does it
matter what is answered for a context that is met on its own chain, as long as a run that has to ask
counts as out of fuel: `Planner.optimizeGroupWith` leaves that answer open, and
`Planner.approximates_optimizeGroupWith` compares two runs with different fuel and answers.
-/

namespace QueryPlanner

namespace Planning

variable {α β σ : Type}

/-- The first computation ends like the second one, unless it runs out of fuel. -/
def Approximates (rough fine : Fallible σ α) : Prop :=
  ∀ state, (exec rough state).1 = .error .outOfFuel ∨ exec rough state = exec fine state

namespace Approximates

protected theorem refl (action : Fallible σ α) : Approximates action action := fun _ => .inr rfl

theorem outOfFuel (fine : Fallible σ α) : Approximates (throw .outOfFuel) fine :=
  fun _ => .inl rfl

theorem bind {rough fine : Fallible σ α} {roughNext fineNext : α → Fallible σ β}
    (h : Approximates rough fine) (hnext : ∀ value, Approximates (roughNext value) (fineNext value)) :
    Approximates (rough >>= roughNext) (fine >>= fineNext) := by
  intro state
  rw [exec_bind, exec_bind]
  rcases h state with hfuel | hsame
  · left
    generalize exec rough state = result at hfuel
    obtain ⟨outcome, middle⟩ := result
    cases hfuel
    rfl
  · rw [hsame]
    generalize exec fine state = result
    obtain ⟨error | value, middle⟩ := result
    · exact .inr rfl
    · exact hnext value middle

theorem forM {items : List α} {rough fine : α → Fallible σ PUnit}
    (h : ∀ item, Approximates (rough item) (fine item)) :
    Approximates (items.forM rough) (items.forM fine) := by
  induction items with
  | nil => exact .refl _
  | cons item rest ih => exact bind (h item) fun _ => ih

/-- A run that does not run out of fuel ends like the finer one. -/
theorem exec_eq {rough fine : Fallible σ α} (h : Approximates rough fine) {state : σ}
    (hends : (exec rough state).1 ≠ .error .outOfFuel) : exec rough state = exec fine state :=
  (h state).resolve_left hends

end Approximates

end Planning

namespace Planner

open Optimizer
open Planning (Approximates)

/-- `Planner.optimizeGroup`, except that a context that is met on its own chain is left to
`reentered`. -/
def optimizeGroupWith (planner : Planner) (reentered : ContextId → Planning ContextId)
    (stage : Nat) :
    Nat → Option ExprId → List ContextId → GroupId → PlanRequirement → Planning ContextId
  | 0, _, _, _, _ => throw .outOfFuel
  | fuel + 1, parent, path, group, required => do
    Planning.checkAbort planner.aborted
    let group ← Planning.resolve group
    let (own, created) ← Planning.lookupOrCreateContext group required stage
    let context ← Planning.context own
    if !created && path.contains own then
      return (← reentered own)
    if !created && context.state == .optimized then
      return own
    modify (·.modifyContext own fun context => { context with state := .optimizing })
    let optimize (id : ExprId) :=
      planner.optimizeGroupWith reentered stage fuel (some id) (own :: path)
    (← Planning.group group).maxLevel.downward.forM fun level =>
      visitAlternatives group (planner.visitAlternative optimize parent own level) planner.fuel 0
    modify (·.modifyContext own fun context => { context with state := .optimized })
    return own

/-- `Planner.optimize`, except that a context that is met on its own chain is left to
`reentered`. -/
def optimizeWith (planner : Planner) (reentered : ContextId → Planning ContextId) (stage : Nat)
    (group : GroupId) (required : PlanRequirement) : Planning (Option CostingId) := do
  let own ← planner.optimizeGroupWith reentered stage planner.fuel none [] group required
  return (← Planning.context own).best

variable {planner : Planner} {stage : Nat}

/-- The optimizer answers such a context as it is. -/
theorem optimizeGroupWith_pure : planner.optimizeGroupWith pure stage = planner.optimizeGroup stage := by
  funext fuel
  induction fuel with
  | zero => rfl
  | succ fuel ih =>
      funext parent path group required
      unfold optimizeGroupWith optimizeGroup
      refine congrArg _ (funext fun _ => congrArg _ (funext fun group => congrArg _ (funext ?_)))
      rintro ⟨own, created⟩
      dsimp only
      refine congrArg _ (funext fun context => ?_)
      rw [ih]
      by_cases hmet : (!created && path.contains own) = true
      · rw [if_pos hmet, if_pos (by grind)]
      · rw [if_neg hmet]
        congr 1
        grind

theorem optimizeWith_pure {group : GroupId} {required : PlanRequirement} :
    planner.optimizeWith pure stage group required = planner.optimize stage group required := by
  unfold optimizeWith optimize
  rw [optimizeGroupWith_pure]

/-! ## What approximates what -/

theorem approximates_optimizeChildren
    {rough fine : GroupId → PlanRequirement → Planning ContextId}
    (h : ∀ group required, Approximates (rough group required) (fine group required)) {id : ExprId}
    {op : PhysicalOperator} {view : ExprView} {own : ContextId} {context : Context} {request : Nat}
    {positions : List Nat} {progress : ChildProgress} :
    Approximates (planner.optimizeChildren rough id op view own context request positions progress)
      (planner.optimizeChildren fine id op view own context request positions progress) := by
  induction positions generalizing progress with
  | nil => exact .refl _
  | cons position rest ih =>
      unfold optimizeChildren
      split
      · exact ih
      · split
        · exact ih
        · extract_lets asked
          split
          · exact .refl _
          · refine .bind (h _ _) fun reached => .bind (.refl _) fun found => ?_
            split
            · exact .refl _
            · refine .bind (.refl _) fun costing => ?_
              extract_lets contexts finish finish'
              have hfinish (bound : Option Cost) : Approximates (finish bound) (finish' bound) := by
                cases bound with
                | some _ => exact .refl _
                | none => exact ih
              split
              · exact .bind (.refl _) hfinish
              · exact .bind (.refl _) hfinish

theorem approximates_optimizeRequest
    {rough fine : GroupId → PlanRequirement → Planning ContextId}
    (h : ∀ group required, Approximates (rough group required) (fine group required)) {id : ExprId}
    {op : PhysicalOperator} {own : ContextId} {request : Nat} :
    Approximates (planner.optimizeRequest rough id op own request)
      (planner.optimizeRequest fine id op own request) := by
  unfold optimizeRequest
  refine .bind (.refl _) fun _ => .bind (.refl _) fun installed => ?_
  split
  · exact .refl _
  · refine .bind (.refl _) fun context => .bind (.refl _) fun expr => ?_
    extract_lets arity unplanned finish finish'
    have hfinish (bound : Option Cost) : Approximates (finish bound) (finish' bound) := by
      cases bound with
      | some _ => exact .refl _
      | none =>
          refine .bind (.refl _) fun view => ?_
          dsimp only
          split
          · exact .refl _
          · exact .bind (approximates_optimizeChildren h) fun _ => .refl _
    split
    · exact .bind (.refl _) hfinish
    · exact .bind (.refl _) hfinish

theorem approximates_visitAlternative
    {rough fine : ExprId → GroupId → PlanRequirement → Planning ContextId}
    (h : ∀ id group required, Approximates (rough id group required) (fine id group required))
    {parent : Option ExprId} {own : ContextId} {level : OptimizationLevel} {id : ExprId} :
    Approximates (planner.visitAlternative rough parent own level id)
      (planner.visitAlternative fine parent own level id) := by
  unfold visitAlternative
  refine .bind (.refl _) fun memo => .bind (.refl _) fun expr => ?_
  split
  · split
    · exact .forM fun _ => approximates_optimizeRequest (h id)
    · exact .refl _
  · exact .refl _

/-- Going through the alternatives with fewer steps left. -/
theorem approximates_visitAlternatives {rough fine : ExprId → Planning Unit}
    (h : ∀ id, Approximates (rough id) (fine id)) {group : GroupId} {fuel more position : Nat}
    (hfuel : fuel ≤ more) :
    Approximates (visitAlternatives group rough fuel position)
      (visitAlternatives group fine more position) := by
  induction fuel generalizing more position with
  | zero => exact .outOfFuel _
  | succ fuel ih =>
      obtain ⟨more, rfl⟩ : ∃ less, more = less + 1 := ⟨more - 1, by omega⟩
      unfold visitAlternatives
      refine .bind (.refl _) fun memo => ?_
      split
      · exact .refl _
      · exact .bind (h _) fun _ => ih (Nat.le_of_succ_le_succ hfuel)

/-! ## The fuel of a planner only bounds the steps of its loops -/

section WithFuel

variable {fuel : Nat}

theorem pruneBound?_withFuel :
    ({ planner with fuel } : Planner).pruneBound? = planner.pruneBound? := rfl

theorem cost_withFuel : ({ planner with fuel } : Planner).cost = planner.cost := rfl

theorem enforce_withFuel : ({ planner with fuel } : Planner).enforce = planner.enforce := rfl

theorem optimizeChildren_withFuel {optimize : GroupId → PlanRequirement → Planning ContextId}
    {id : ExprId} {op : PhysicalOperator} {view : ExprView} {own : ContextId} {context : Context}
    {request : Nat} {positions : List Nat} {progress : ChildProgress} :
    ({ planner with fuel } : Planner).optimizeChildren optimize id op view own context request
        positions progress =
      planner.optimizeChildren optimize id op view own context request positions progress := by
  induction positions generalizing progress with
  | nil => rfl
  | cons position rest ih =>
      unfold optimizeChildren
      simp only [ih, pruneBound?_withFuel]

theorem visitAlternative_withFuel
    {optimize : ExprId → GroupId → PlanRequirement → Planning ContextId} {parent : Option ExprId}
    {own : ContextId} {level : OptimizationLevel} {id : ExprId} :
    ({ planner with fuel } : Planner).visitAlternative optimize parent own level id =
      planner.visitAlternative optimize parent own level id := by
  unfold visitAlternative optimizeRequest
  simp only [optimizeChildren_withFuel, pruneBound?_withFuel, cost_withFuel, enforce_withFuel]

end WithFuel

/-- With more fuel, and any answer for a context that is met on its own chain, a run ends as it does
when such a context counts as out of fuel, unless that run is out of fuel. -/
theorem approximates_optimizeGroupWith (reentered : ContextId → Planning ContextId)
    {fuel moreFuel depth moreDepth : Nat} (hfuel : fuel ≤ moreFuel) (hdepth : depth ≤ moreDepth)
    (parent : Option ExprId) (path : List ContextId) (group : GroupId) (required : PlanRequirement) :
    Approximates
      (({ planner with fuel } : Planner).optimizeGroupWith (fun _ => throw .outOfFuel) stage depth
        parent path group required)
      (({ planner with fuel := moreFuel } : Planner).optimizeGroupWith reentered stage moreDepth
        parent path group required) := by
  induction depth generalizing moreDepth parent path group required with
  | zero => exact .outOfFuel _
  | succ depth ih =>
      obtain ⟨moreDepth, rfl⟩ : ∃ less, moreDepth = less + 1 := ⟨moreDepth - 1, by omega⟩
      unfold optimizeGroupWith
      refine .bind (.refl _) fun _ => .bind (.refl _) fun group => .bind (.refl _) ?_
      rintro ⟨own, created⟩
      refine .bind (.refl _) fun context => ?_
      dsimp only
      split
      · exact .outOfFuel _
      · split
        · exact .refl _
        · refine .bind (.refl _) fun _ => .bind (.refl _) fun entered => ?_
          refine .bind (.forM fun level => ?_) fun _ => .refl _
          refine approximates_visitAlternatives (fun id => ?_) hfuel
          rw [@visitAlternative_withFuel planner fuel, @visitAlternative_withFuel planner moreFuel]
          refine @approximates_visitAlternative planner _ _ (fun id group required => ?_) _ _ _ _
          exact ih (Nat.le_of_succ_le_succ hdepth) (some id) (own :: path) group required

end Planner

end QueryPlanner
