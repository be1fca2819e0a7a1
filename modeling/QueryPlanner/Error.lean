import QueryPlanner.Id
import QueryPlanner.Property.Plan

/-!
# Errors

`PlanningError` lists the ways in which planning can fail, each with its cause;
`PlanningError.message` is the wording.
-/

namespace QueryPlanner

/-- Why an alternative cannot be put into the memo. -/
inductive InsertionFault where
  /-- A child or the target is not a group of the memo. -/
  | unknownGroup (group : GroupId)
  /-- The operator has a fixed number of children, and this is not it. -/
  | wrongArity (kind : String) (expected actual : Nat)
  /-- A physical alternative belongs to the group of the expression it implements. -/
  | physicalWithoutTarget (kind : String)
  /-- Statistics were refused by the operator. -/
  | statisticsRefused (kind : String) (tag : Nat)
  deriving DecidableEq, Repr

/-- The wording of an insertion fault. -/
def InsertionFault.message : InsertionFault → String
  | .unknownGroup group => "group " ++ group.text ++ " does not exist"
  | .wrongArity kind expected actual =>
    kind ++ " expects " ++ toString expected ++ " children, got " ++ toString actual
  | .physicalWithoutTarget kind =>
    "physical alternative " ++ kind ++ " inserted without a target group"
  | .statisticsRefused kind tag => "no statistics for " ++ kind ++ " " ++ toString tag

/-- What was asked of a group when no plan was found. -/
inductive Sought where
  /-- Statistics of the columns. -/
  | statistics (columns : ColumnSet)
  /-- A plan that meets the requirement. -/
  | plan (required : PlanRequirement)
  /-- The expression of a scalar. -/
  | scalar

/-- The wording of what was asked. -/
def Sought.text : Sought → String
  | .statistics columns => ColumnSet.text columns
  | .plan required => required.text
  | .scalar => "scalar"

/-- Why no plan was found. -/
inductive NoPlanReason where
  /-- The group has no alternative to derive statistics from. -/
  | noStatisticsSource
  /-- No stage has a costed plan for the requirement. -/
  | noCostedPlan
  /-- The context of a child has no best plan. -/
  | noBestPlan
  /-- The best plan of a context is no physical alternative. -/
  | bestNotPhysical
  /-- The best plan does not record how a child was optimized. -/
  | childNotRecorded
  /-- A scalar group has no alternative. -/
  | noScalarAlternative
  /-- The whole search ended without a plan. -/
  | noStageSucceeded
  deriving DecidableEq, Repr

/-- The wording of a reason. -/
def NoPlanReason.message : NoPlanReason → String
  | .noStatisticsSource => "could not choose a group expression for statistics derivation"
  | .noCostedPlan => "no costed plan in any stage"
  | .noBestPlan => "context has no best plan"
  | .bestNotPhysical => "best plan is not physical"
  | .childNotRecorded => "no child context recorded"
  | .noScalarAlternative => "no scalar expression to bind"
  | .noStageSucceeded => "no stage produced a plan"

/-- An identifier that the memo never handed out. -/
inductive UnknownId where
  | group (group : GroupId)
  | expr (expr : ExprId)
  | context (context : ContextId)
  | costing (costing : CostingId)
  deriving DecidableEq, Repr

/-- The ways in which planning can fail. -/
inductive PlanningError where
  /-- A group has no plan, or no statistics, of the kind asked for. -/
  | noPlan (group : GroupId) (sought : Sought) (reason : NoPlanReason)
  /-- An extracted plan fails its final check. -/
  | unsatisfied (group : GroupId) (required : PlanRequirement)
  /-- The abort signal is raised. -/
  | aborted
  /-- An alternative cannot be inserted. -/
  | invalidInsertion (fault : InsertionFault)
  /-- An identifier is not one of the memo. -/
  | unknownId (id : UnknownId)
  /-- A recursion went deeper than its bound allows. -/
  | outOfFuel

/-- The name of the kind of an error. -/
def PlanningError.kindName : PlanningError → String
  | .noPlan _ _ _ => "NoPlanFound"
  | .unsatisfied _ _ => "UnsatisfiedRequiredProperties"
  | .aborted => "AbortRequested"
  | .invalidInsertion _ => "InvalidInsert"
  | .unknownId _ => "UnknownId"
  | .outOfFuel => "OutOfFuel"

/-- Whether an error shows a wrong use of the memo, after which no more can be asked of it, and
not an answer about the query. -/
def PlanningError.isMisuse : PlanningError → Bool
  | .unknownId _ | .outOfFuel => true
  | _ => false

/-- The wording of an error. -/
def PlanningError.message : PlanningError → String
  | .noPlan group sought reason =>
    "no plan found for group " ++ group.text ++ " under " ++ sought.text ++ ": " ++ reason.message
  | .unsatisfied group required =>
    "plan for group " ++ group.text ++ " does not satisfy required properties " ++ required.text
  | .aborted => "optimization aborted"
  | .invalidInsertion fault => "invalid memo insertion: " ++ fault.message
  | .unknownId (.group group) => "unknown group " ++ group.text
  | .unknownId (.expr expr) => "unknown alternative " ++ expr.text
  | .unknownId (.context context) => "unknown context " ++ context.text
  | .unknownId (.costing costing) => "unknown costing " ++ costing.text
  | .outOfFuel => "recursion bound exceeded"

end QueryPlanner
