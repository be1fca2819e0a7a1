import QueryPlanner.Optimizer
import QueryPlanner.Plan
import QueryPlanner.Rule.Implementation

/-!
# The search

`Planner.search` runs the stages of a search one after the other. A stage explores the groups below
the root with transformation rules, derives statistics, applies implementation rules, optimizes the
root, and extracts the best plan so far. Every rule is applied to an alternative at most once. The
budgets of the configuration stop the application of rules, not the search.
-/

namespace QueryPlanner

/-- What changes during a search besides the memo. -/
structure SearchState where
  memo : Memo
  /-- The trees that rules were applied to. -/
  iterations : Nat := 0
  /-- The rules started in the exploration of the present stage. -/
  stageApplications : Nat := 0
  /-- The groups visited by the present exploration or implementation. -/
  visited : List GroupId := []

/-- A computation in a search that may fail. -/
abbrev Searching (α : Type) := ExceptT PlanningError (StateM SearchState) α

/-- A plan, or the reason why there is none, with the state that the search ended in. -/
structure SearchReport where
  outcome : Except PlanningError PlanNode
  state : SearchState

/-- How a pass over the alternatives of a group ended. -/
inductive PassOutcome where
  /-- A budget ran out. -/
  | stopped
  /-- No rule brought anything new. -/
  | settled
  /-- The memo gained alternatives. -/
  | progressed
  deriving DecidableEq, Repr

namespace Searching

/-- A computation on the memo of the search. -/
def onMemo {α : Type} (action : Planning α) : Searching α :=
  fun ⟨memo, iterations, stageApplications, visited⟩ =>
    let (outcome, memo) := action memo
    (outcome, ⟨memo, iterations, stageApplications, visited⟩)

/-- Note a visit to a group. Answers whether it is the first one. -/
def visit (id : GroupId) : Searching Bool := do
  if (← get).visited.contains id then return false
  modify fun state => { state with visited := id :: state.visited }
  return true

/-- Forget all visits. -/
def startVisits : Searching Unit := modify fun state => { state with visited := [] }

/-- Set the phase of a group. -/
def setPhase (id : GroupId) (phase : Phase) : Searching Unit :=
  onMemo (modify (·.modifyGroup id fun group => { group with phase }))

/-- Note that a rule was applied to an alternative. -/
def markApplied (id : ExprId) (rule : Rule) : Searching Unit :=
  onMemo (modify (·.modifyExpr id fun expr =>
    { expr with appliedRules := rule.name :: expr.appliedRules }))

/-- Whether a rule was applied to an alternative before. -/
def wasApplied (id : ExprId) (rule : Rule) : Searching Bool :=
  onMemo do return (← Planning.expr id).appliedRules.contains rule.name

/-- Repeat a pass until it settles or stops. Answers whether it settled. -/
def repeatPasses (pass : Searching PassOutcome) : Nat → Searching Bool
  | 0 => throw .outOfFuel
  | fuel + 1 => do
    match ← pass with
    | .stopped => return false
    | .settled => return true
    | .progressed => repeatPasses pass fuel

end Searching

namespace Planner

open Searching

/-- Whether exploration may start another rule. -/
def mayExplore (planner : Planner) (limits : StageLimits) (state : SearchState) : Bool :=
  decide (state.iterations < planner.config.maxIterations) &&
    limits.maxRuleApplications.all (fun limit => decide (state.stageApplications < limit)) &&
    decide (state.memo.groups.size < planner.config.maxGroups)

/-- Apply a rule to a tree and insert the results into a group. Answers whether something new was
inserted. -/
def applyRule (planner : Planner) (rule : Rule) (source : ExprId) (group : GroupId)
    (bound : BoundExpr) : Searching Bool := do
  onMemo (Planning.checkAbort planner.aborted)
  modify fun state => { state with iterations := state.iterations + 1 }
  (rule.apply (← get).memo bound).foldlM (fun found result => do
    let inserted ← onMemo (Planning.insertResult group { rule := rule.name, source } result)
    return found || inserted.isNew) false

/-- Apply a rule to all trees at an alternative, which are listed before the first one changes the
memo. Answers whether something new was inserted. -/
def fire (planner : Planner) (rule : Rule) (source : ExprId) (group : GroupId) :
    Searching Bool := do
  let trees ← onMemo (Planning.bindExpr rule.pattern source none)
  trees.foldlM (fun found bound => do
    let inserted ← planner.applyRule rule source group bound
    return found || inserted) false

/-- Start all transformation rules that were not applied to an alternative yet. -/
def transform (planner : Planner) (limits : StageLimits) (source : ExprId) (group : GroupId) :
    List Rule → Bool → Searching PassOutcome
  | [], progressed => return if progressed then .progressed else .settled
  | rule :: rest, progressed => do
    if ← wasApplied source rule then planner.transform limits source group rest progressed
    else if planner.mayExplore limits (← get) then
      markApplied source rule
      modify fun state => { state with stageApplications := state.stageApplications + 1 }
      let inserted ← planner.fire rule source group
      planner.transform limits source group rest (progressed || inserted)
    else return .stopped

/-- One pass over alternatives of a group: explore the children of each logical one, then start the
rules on it. -/
def explorePass (planner : Planner) (limits : StageLimits) (rules : List Rule)
    (explore : GroupId → Searching Unit) (group : GroupId) :
    List ExprId → Bool → Searching PassOutcome
  | [], progressed => return if progressed then .progressed else .settled
  | id :: rest, progressed => do
    let expr ← onMemo (Planning.expr id)
    if expr.op.isLogical then
      expr.children.forM explore
      match ← planner.transform limits id group rules progressed with
      | .stopped => return .stopped
      | outcome =>
        onMemo (modify (·.modifyExpr id fun expr => { expr with explored := true }))
        planner.explorePass limits rules explore group rest (outcome == .progressed)
    else planner.explorePass limits rules explore group rest progressed

/-- Explore a group and all below it, every group once. When a budget runs out, the group goes back
to the phase it had before. -/
def exploreGroup (planner : Planner) (limits : StageLimits) (rules : List Rule) :
    Nat → GroupId → Searching Unit
  | 0, _ => throw .outOfFuel
  | fuel + 1, id => do
    let id ← onMemo (Planning.resolve id)
    if ← visit id then
      let previous := (← onMemo (Planning.group id)).phase
      setPhase id .exploring
      let explore := planner.exploreGroup limits rules fuel
      let pass : Searching PassOutcome := do
        onMemo (Planning.checkAbort planner.aborted)
        planner.explorePass limits rules explore id ((← get).memo.alternativesOf id) false
      let settled ← repeatPasses pass planner.fuel
      setPhase id (if settled then .explored else previous)

/-- Start all implementation rules that were not applied to an alternative yet. Answers whether the
budget lasted. -/
def implementExpr (planner : Planner) (source : ExprId) (group : GroupId) :
    List Rule → Searching Bool
  | [] => return true
  | rule :: rest => do
    if ← wasApplied source rule then planner.implementExpr source group rest
    else if (← get).iterations < planner.config.maxIterations then
      markApplied source rule
      let _ ← planner.fire rule source group
      planner.implementExpr source group rest
    else return false

/-- Implement the logical ones among alternatives of a group, the children of each first. Answers
whether the budget lasted. -/
def implementPass (planner : Planner) (rules : List Rule) (implement : GroupId → Searching Unit)
    (group : GroupId) : List ExprId → Searching Bool
  | [] => return true
  | id :: rest => do
    onMemo (Planning.checkAbort planner.aborted)
    let expr ← onMemo (Planning.expr id)
    if expr.op.isLogical then
      expr.children.forM implement
      if (← onMemo (Planning.expr id)).implemented then
        planner.implementPass rules implement group rest
      else if ← planner.implementExpr id group rules then
        onMemo (modify (·.modifyExpr id fun expr => { expr with implemented := true }))
        planner.implementPass rules implement group rest
      else return false
    else planner.implementPass rules implement group rest

/-- Implement a group and all below it, every group once. When the budget runs out, the group stays
in the phase of being implemented. -/
def implementGroup (planner : Planner) (rules : List Rule) : Nat → GroupId → Searching Unit
  | 0, _ => throw .outOfFuel
  | fuel + 1, id => do
    let id ← onMemo (Planning.resolve id)
    if ← visit id then
      setPhase id .implementing
      let alternatives := (← get).memo.alternativesOf id
      if ← planner.implementPass rules (planner.implementGroup rules fuel) id alternatives then
        setPhase id .implemented

/-- Derive statistics over all output columns for a relational group that has none. Failures other
than an abort leave the group without. -/
def deriveMissing (planner : Planner) (id : GroupId) : Planning Unit := do
  let group ← Planning.group id
  if !group.isDuplicate && !group.isScalar && group.statistics.isNone then
    try
      let _ ← Planning.deriveStatistics planner.aborted id group.logical.output
    catch
      | .aborted => throw .aborted
      | _ => pure ()

/-- After exploration: merge duplicate groups, drop outdated statistics and derive new ones. Answers
the master of the root. -/
def finishExploration (planner : Planner) (root : GroupId) (required : PlanRequirement) :
    Planning GroupId := do
  modify (·.mergeDuplicates)
  let root ← Planning.resolve root
  modify fun memo => { memo with root := some root }
  Planning.resetStatistics
  let _ ← Planning.deriveStatistics planner.aborted root required.columns
  if planner.config.statisticsForAllGroups then
    (← get).groupIds.forM planner.deriveMissing
  return root

/-- The best plan over the stages so far, if there is one. -/
def planSoFar (root : GroupId) (required : PlanRequirement) (stages : Nat) :
    Planning (Option PlanNode) := do
  try
    return some (← Planning.extractPlan root required stages)
  catch
    | .noPlan _ _ _ => return none
    | failure => throw failure

/-- Run one stage. Answers the best plan over the stages so far, if there is one. -/
def runStage (planner : Planner) (rules : List Rule) (root : GroupId) (required : PlanRequirement)
    (stage : Nat) : Searching (Option PlanNode) := do
  let limits := planner.config.stage stage
  let root ← onMemo (Planning.resolve root)
  modify fun state => { state with stageApplications := 0 }
  startVisits
  planner.exploreGroup limits (rules.filter (·.kind == .transformation)) planner.fuel root
  let root ← onMemo (planner.finishExploration root required)
  startVisits
  planner.implementGroup (rules.filter (·.kind == .implementation)) planner.fuel root
  let _ ← onMemo (planner.optimize stage root required)
  onMemo (planSoFar root required (stage + 1))

/-- Run stages one after the other, until a plan is cheap enough. -/
def runStages (planner : Planner) (rules : List Rule) (root : GroupId)
    (required : PlanRequirement) : List Nat → Option PlanNode → Searching (Option PlanNode)
  | [], best => return best
  | stage :: rest, best => do
    let best := (← planner.runStage rules root required stage).or best
    match (planner.config.stage stage).costThreshold, best with
    | some threshold, some plan =>
      if plan.cost.total ≤ threshold then return best
      else planner.runStages rules root required rest best
    | _, _ => planner.runStages rules root required rest best

/-- Run all stages for a root and answer the best plan. -/
def searchRoot (planner : Planner) (rules : List Rule) (root : GroupId)
    (required : PlanRequirement) : Searching PlanNode := do
  onMemo (modify fun memo => { memo with root := some root })
  match ← planner.runStages rules root required (List.range planner.config.stageCount) none with
  | some plan => return plan
  | none =>
    let root ← onMemo (Planning.resolve root)
    throw (.noPlan root (.plan required) .noStageSucceeded)

/-- Search for the best plan of a root under a requirement with the given rules. -/
def search (planner : Planner) (rules : List Rule) (root : GroupId) (required : PlanRequirement)
    (memo : Memo) : SearchReport :=
  let (outcome, state) := planner.searchRoot rules root required { memo }
  { outcome, state }

end Planner

end QueryPlanner
