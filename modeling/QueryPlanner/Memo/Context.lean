import QueryPlanner.Memo.Duplicates

/-!
# Contexts and costings

A `Context` is a group under a requirement in one stage; it remembers the best costing found for it.
`Memo.betterThan` says when one costing replaces another: the cheaper one wins, and between equal
costs the one that spreads its output over hosts, preferably by hashing, and then the join with the
flatter inner side.
-/

namespace QueryPlanner

namespace Costing

/-- The first two child contexts. -/
def joinContexts? (costing : Costing) : Option (ContextId × ContextId) :=
  match costing.childContexts.filterMap id with
  | outer :: inner :: _ => some (outer, inner)
  | _ => none

/-- What the delivered distributions say about two costings of equal cost: whether the first is
preferred, or nothing. -/
def distributionPreference? (left right : Costing) : Option Bool :=
  match left.delivered, right.delivered with
  | some mine, some theirs =>
    if mine.distribution.isPartitioned != theirs.distribution.isPartitioned then
      some mine.distribution.isPartitioned
    else
      match mine.distribution, theirs.distribution with
      | .hashed _ _, .random => some true
      | .random, .hashed _ _ => some false
      | _, _ => none
  | _, _ => none

end Costing

/-- The inputs of a costed join. -/
structure JoinInputs where
  outerRows : Float
  innerRows : Float
  /-- The joins below the inner side. -/
  innerDepth : UInt32

namespace Memo

/-- The best costing of a context. -/
def best? (memo : Memo) (id : ContextId) : Option CostingId := (memo.context? id).bind (·.best)

/-- The rows of the best plan of a context. -/
def bestRows? (memo : Memo) (id : ContextId) : Option Float :=
  (((memo.best? id).bind memo.costing?).bind (·.statistics)).map (·.rows)

/-- Whether a costing is one of a physical join. -/
def isJoinCosting (memo : Memo) (costing : Costing) : Bool :=
  ((memo.physical? costing.expr).map (·.isJoin)).getD false

/-- The group of the inner side of a costed join, as its context knows it. -/
def innerGroup? (memo : Memo) (costing : Costing) : Option GroupId :=
  (costing.joinContexts?.bind fun contexts => memo.context? contexts.2).map (·.group)

/-- The inputs of a costed join, if both have a best plan with statistics. -/
def joinInputs? (memo : Memo) (costing : Costing) : Option JoinInputs := do
  let (outer, inner) ← costing.joinContexts?
  let group ← memo.innerGroup? costing
  let outerRows ← memo.bestRows? outer
  let innerRows ← memo.bestRows? inner
  return { outerRows, innerRows, innerDepth := (memo.logical (memo.master group)).joinDepth }

/-- Between two joins whose four inputs all have the same number of rows, the one with fewer joins
below its inner side is preferred. -/
def flatterJoin (memo : Memo) (left right : Costing) : Bool :=
  memo.isJoinCosting left && memo.isJoinCosting right &&
    match memo.joinInputs? left, memo.joinInputs? right with
    | some mine, some theirs =>
      mine.outerRows == mine.innerRows && theirs.outerRows == theirs.innerRows &&
        mine.innerRows == theirs.innerRows && decide (mine.innerDepth < theirs.innerDepth)
    | _, _ => false

/-- Whether a costing should replace another as the best one of a context. -/
def betterThan (memo : Memo) (left right : Costing) : Bool :=
  left.cost.lowerThan right.cost ||
    (left.cost.near right.cost &&
      (Costing.distributionPreference? left right).getD (memo.flatterJoin left right))

/-- The costings whose join inputs are looked up when two costings are compared: both, if all else
is equal and both are joins. -/
def comparedJoins (memo : Memo) (left right : Costing) : List Costing :=
  if !left.cost.lowerThan right.cost && left.cost.near right.cost &&
      (Costing.distributionPreference? left right).isNone &&
      memo.isJoinCosting left && memo.isJoinCosting right then
    [left, right]
  else []

/-- Make a costing the best one of its context. -/
def setBest (memo : Memo) (id : CostingId) (costing : Costing) : Memo :=
  memo.modifyContext costing.context fun context =>
    { context with
      best := some id
      multiStageAggregate :=
        ((memo.physical? costing.expr).map (·.isMultiStageAggregate)).getD false }

/-- Store a costing and register it for its context and request. -/
def addCosting (memo : Memo) (costing : Costing) : Memo :=
  let id : CostingId := ⟨memo.costings.size⟩
  let key := (costing.context, costing.request)
  { memo with costings := memo.costings.push costing }.modifyExpr costing.expr fun expr =>
    { expr with costings := (key, id) :: expr.costings.filter fun entry => entry.1 != key }

end Memo

namespace Planning

/-- Look up the inputs of a costed join. -/
def visitJoinInputs (costing : Costing) : Planning Unit := do
  if let some (outer, inner) := costing.joinContexts? then
    let _ ← context outer
    let _ ← resolve (← context inner).group

/-- Whether a costing should replace another as the best one of a context. -/
def betterThan (left right : Costing) : Planning Bool := do
  ((← get).comparedJoins left right).forM visitJoinInputs
  return (← get).betterThan left right

/-- The context of a group for a requirement in a stage. -/
def lookupContext (id : GroupId) (required : PlanRequirement) (stage : Nat) :
    Planning (Option ContextId) := do
  return (← group (← resolve id)).contexts.lookup { required, stage }

/-- The context of a group for a requirement in a stage, with whether it had to be created. -/
def lookupOrCreateContext (id : GroupId) (required : PlanRequirement) (stage : Nat) :
    Planning (ContextId × Bool) := do
  let id ← resolve id
  match (← group id).contexts.lookup { required, stage } with
  | some found => return (found, false)
  | none =>
    let created : ContextId := ⟨(← get).contexts.size⟩
    modify fun memo =>
      { memo with contexts := memo.contexts.push { group := id, required, stage } }.modifyGroup id
        fun group => { group with contexts := ({ required, stage }, created) :: group.contexts }
    return (created, true)

/-- The context with the best plan of a group for a requirement, over the given number of stages. -/
def lookupBestContext (id : GroupId) (required : PlanRequirement) (stages : Nat) :
    Planning (Option ContextId) := do
  if stages = 0 then return none
  let known := (← group (← resolve id)).contextsInStages required stages
  let best ← known.foldlM (fun (best : Option (ContextId × Costing)) found => do
    let some candidate := (← context found).best | return best
    let candidate ← costing candidate
    match best with
    | none => return some (found, candidate)
    | some (_, current) =>
      if ← betterThan candidate current then return some (found, candidate) else return best) none
  return best.map (·.1)

/-- Make a costing the best one of its context if there is none yet or it is better. Answers whether
it became the best. -/
def updateBest (id : CostingId) : Planning Bool := do
  let candidate ← costing id
  if candidate.pruned then return false
  let current := (← context candidate.context).best
  let improves ← match current with
    | none => pure true
    | some current =>
      if current = id then pure false else betterThan candidate (← costing current)
  if improves then modify (·.setBest id candidate)
  return improves

/-- Whether a costing may take the place of the one recorded for the same context and request: that
one is pruned, or it has other child contexts and is worse. -/
def mayReplace (candidate recorded : Costing) : Planning Bool := do
  if recorded.pruned then return true
  if recorded.childContexts == candidate.childContexts || candidate.pruned then return false
  betterThan candidate recorded

/-- Record a costing for its context and request, unless an identical or better one is recorded.
When the recorded one was the best of the context, the new one takes its place there too. -/
def insertCosting (candidate : Costing) : Planning (Option CostingId) := do
  let owner ← expr candidate.expr
  match owner.costings.lookup (candidate.context, candidate.request) with
  | none =>
    let id : CostingId := ⟨(← get).costings.size⟩
    modify (·.addCosting candidate)
    return some id
  | some recorded =>
    if ← mayReplace candidate (← costing recorded) then
      let id : CostingId := ⟨(← get).costings.size⟩
      modify (·.addCosting candidate)
      if (← context candidate.context).best = some recorded then modify (·.setBest id candidate)
      return some id
    else return none

end Planning

end QueryPlanner
