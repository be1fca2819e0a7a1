import QueryPlanner.Cost
import QueryPlanner.Operator.Basic

/-!
# The memo

The memo holds all alternatives found so far. Alternatives that compute the same result live in one
`Group`, and the children of an alternative are groups. Groups, alternatives, contexts and costings
are stored in arrays that only grow, so an identifier stays valid.

Operations that can fail or change the memo run in `Planning`: a failure leaves the memo as it is
at that moment.
-/

namespace QueryPlanner

/-- How far the search has come with a group. -/
inductive Phase where
  | unexplored
  | exploring
  | explored
  | implementing
  | implemented
  deriving DecidableEq, Repr, Inhabited

/-- The name of a phase. -/
def Phase.name : Phase → String
  | .unexplored => "Unexplored"
  | .exploring => "Exploring"
  | .explored => "Explored"
  | .implementing => "Implementing"
  | .implemented => "Implemented"

/-- The rule that produced an alternative, and the alternative it was applied to. -/
structure Origin where
  rule : String
  source : ExprId
  deriving DecidableEq, Repr

/-- What tells the contexts of one group apart. -/
structure ContextKey where
  required : PlanRequirement
  stage : Nat
  deriving DecidableEq

/-- A set of alternatives that compute the same result. -/
structure Group where
  properties : GroupProperties
  /-- The alternatives in use. -/
  alternatives : List ExprId := []
  /-- Alternatives that were found to repeat one in use. -/
  duplicates : List ExprId := []
  statistics : Option Statistics := none
  phase : Phase := .unexplored
  /-- Whether a logical alternative arrived since the statistics were last reset. -/
  gainedLogical : Bool := false
  producesCte : Bool := false
  consumesCte : Bool := false
  /-- The group that this one was found to repeat. -/
  duplicateOf : Option GroupId := none
  contexts : List (ContextKey × ContextId) := []
  /-- Lower bounds found so far on the cost of a plan under a requirement. -/
  lowerBounds : List (PlanRequirement × Cost) := []
  /-- The statistics that costings in a context work with. -/
  contextStatistics : List (ContextId × Statistics) := []
  /-- The highest level of an alternative inserted into the group. -/
  maxLevel : OptimizationLevel := .low

/-- The logical properties of the relation, those of an empty one for a scalar. -/
def Group.logical (group : Group) : RelationProperties := group.properties.relationOrEmpty

/-- Whether the group holds scalars. -/
def Group.isScalar (group : Group) : Bool := group.properties.isScalar

/-- Whether the group was found to repeat another. -/
def Group.isDuplicate (group : Group) : Bool := group.duplicateOf.isSome

/-- The contexts of the group for a requirement in the first stages, in the order of the stages. -/
def Group.contextsInStages (group : Group) (required : PlanRequirement) (stages : Nat) :
    List ContextId :=
  let found := group.contexts.filter fun entry =>
    entry.1.required == required && decide (entry.1.stage < stages)
  (found.mergeSort fun left right => decide (left.1.stage ≤ right.1.stage)).map (·.2)

/-- What a lower bound of an alternative depends on: the requirement, and the child that is already
costed with its costing. -/
structure BoundKey where
  required : PlanRequirement
  costedChild : Option (Nat × CostingId)
  deriving DecidableEq

/-- An operator over child groups. -/
structure MemoExpr where
  op : Operator
  /-- The masters of the child groups at the time of insertion. -/
  children : List GroupId
  /-- The group that owns the alternative. -/
  group : GroupId
  /-- The position among the alternatives of the group. -/
  position : Nat
  origin : Option Origin
  level : OptimizationLevel
  explored : Bool := false
  implemented : Bool := false
  /-- The names of the rules that were applied. -/
  appliedRules : List String := []
  /-- The costing recorded for a context and a request. -/
  costings : List ((ContextId × Nat) × CostingId) := []
  /-- Lower bounds found so far. -/
  bounds : List (BoundKey × Cost) := []

/-- The number of children. -/
def MemoExpr.arity (expr : MemoExpr) : Nat := expr.children.length

/-- How far the optimization of a context has come. -/
inductive ContextState where
  | init
  | optimizing
  | optimized
  deriving DecidableEq, Repr, Inhabited

/-- The name of a state. -/
def ContextState.name : ContextState → String
  | .init => "Init"
  | .optimizing => "Optimizing"
  | .optimized => "Optimized"

/-- A group under a requirement in one stage of the search, with the best plan found. -/
structure Context where
  group : GroupId
  required : PlanRequirement
  stage : Nat
  best : Option CostingId := none
  state : ContextState := .init
  /-- Whether the best plan is part of an aggregate in several steps. -/
  multiStageAggregate : Bool := false

/-- The number of stages up to that of the context, counted in 64 bits. -/
def Context.stagesSoFar (context : Context) : Nat := (context.stage + 1) % Nat.pow 2 64

/-- The text of a context under its identifier. -/
def Context.text (context : Context) (id : ContextId) : String :=
  id.text ++ "@" ++ context.group.text ++ "[stage " ++ toString context.stage ++ "] " ++
    context.required.text

/-- An alternative costed for one request of a context. A pruned one was given up: its cost is the
lower bound that was too high. -/
structure Costing where
  expr : ExprId
  context : ContextId
  request : Nat
  /-- For each relational child the context whose best plan is used. -/
  childContexts : List (Option ContextId)
  delivered : Option PlanProperties
  statistics : Option Statistics
  cost : Cost
  pruned : Bool

/-- The name of the state of a costing. -/
def Costing.stateName (costing : Costing) : String :=
  if costing.pruned then "Uncosted" else "Costed"

/-- The text of a costing under its identifier. -/
def Costing.text (costing : Costing) (id : CostingId) : String :=
  id.text ++ " expr=" ++ costing.expr.text ++ " ctx=" ++ costing.context.text ++
    " req=" ++ toString costing.request ++ " cost=" ++ costing.cost.text ++
    (if costing.pruned then " (pruned)" else "")

/-- All groups and alternatives, and what was found out about them. -/
structure Memo where
  groups : Array Group := #[]
  exprs : Array MemoExpr := #[]
  contexts : Array Context := #[]
  costings : Array Costing := #[]
  root : Option GroupId := none
  deriving Inhabited

/-- A computation on the memo that may fail. -/
abbrev Planning (α : Type) := ExceptT PlanningError (StateM Memo) α

namespace Memo

/-- The group of an identifier. -/
def group? (memo : Memo) (id : GroupId) : Option Group := memo.groups[id.index]?

/-- The alternative of an identifier. -/
def expr? (memo : Memo) (id : ExprId) : Option MemoExpr := memo.exprs[id.index]?

/-- The context of an identifier. -/
def context? (memo : Memo) (id : ContextId) : Option Context := memo.contexts[id.index]?

/-- The costing of an identifier. -/
def costing? (memo : Memo) (id : CostingId) : Option Costing := memo.costings[id.index]?

/-- A bound on nested calls that go down from group to group. A chain of different groups is no
longer than the number of groups. A group that contains itself can be met again on such a chain,
until what is known about it ends the descent; the rest of the bound is for these. -/
def depthLimit (memo : Memo) : Nat := memo.groups.size + Nat.pow 2 62

/-- All group identifiers in ascending order. -/
def groupIds (memo : Memo) : List GroupId := (List.range memo.groups.size).map GroupId.mk

/-- The alternatives in use of a group, none for an unknown one. -/
def alternativesOf (memo : Memo) (id : GroupId) : List ExprId :=
  ((memo.group? id).map (·.alternatives)).getD []

/-- The operator of an alternative. -/
def op? (memo : Memo) (id : ExprId) : Option Operator := (memo.expr? id).map (·.op)

/-- The physical operator of an alternative, if it is physical. -/
def physical? (memo : Memo) (id : ExprId) : Option PhysicalOperator :=
  (memo.op? id).bind (·.physical?)

/-- The logical properties of a group, those of an empty relation for a scalar or unknown one. -/
def logical (memo : Memo) (id : GroupId) : RelationProperties :=
  ((memo.group? id).map (·.logical)).getD {}

/-- Change a group. -/
def modifyGroup (memo : Memo) (id : GroupId) (change : Group → Group) : Memo :=
  { memo with groups := memo.groups.modify id.index change }

/-- Change an alternative. -/
def modifyExpr (memo : Memo) (id : ExprId) (change : MemoExpr → MemoExpr) : Memo :=
  { memo with exprs := memo.exprs.modify id.index change }

/-- Change a context. -/
def modifyContext (memo : Memo) (id : ContextId) (change : Context → Context) : Memo :=
  { memo with contexts := memo.contexts.modify id.index change }

/-- Set the owner of an alternative and its position there. -/
def setOwner (memo : Memo) (id : ExprId) (group : GroupId) (position : Nat) : Memo :=
  memo.modifyExpr id fun expr => { expr with group, position }

end Memo

namespace Planning

/-- The value that a look-up found, or the failure of an unknown identifier. -/
def found {α : Type} (id : UnknownId) : Option α → Planning α
  | some value => pure value
  | none => throw (.unknownId id)

/-- The group of an identifier. -/
def group (id : GroupId) : Planning Group := do found (.group id) ((← get).group? id)

/-- The alternative of an identifier. -/
def expr (id : ExprId) : Planning MemoExpr := do found (.expr id) ((← get).expr? id)

/-- The context of an identifier. -/
def context (id : ContextId) : Planning Context := do found (.context id) ((← get).context? id)

/-- The costing of an identifier. -/
def costing (id : CostingId) : Planning Costing := do found (.costing id) ((← get).costing? id)

/-- Fail when planning was aborted. -/
def checkAbort (aborted : Bool) : Planning Unit := if aborted then throw .aborted else pure ()

end Planning

end QueryPlanner
