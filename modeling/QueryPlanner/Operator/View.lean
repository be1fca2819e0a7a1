import QueryPlanner.Operator.Basic

/-!
# What an operator sees

The answers of an operator depend on its surroundings: the properties and statistics of its group,
those of its child groups, and, once children are optimized, what their best plans deliver. An
`ExprView` collects this for one alternative.
-/

namespace QueryPlanner

/-- What an operator sees of one child. -/
structure ChildView where
  group : GroupId
  properties : GroupProperties
  groupStatistics : Option Statistics := none
  /-- What the chosen plan of the child delivers. -/
  plan : Option PlanProperties := none
  /-- The statistics of the chosen plan of the child. -/
  planStatistics : Option Statistics := none

/-- Whether the child is a scalar. -/
def ChildView.isScalar (child : ChildView) : Bool := child.properties.isScalar

/-- What an operator sees of the alternative it is part of. -/
structure ExprView where
  expr : ExprId
  op : Operator
  group : GroupId
  /-- The logical properties of the group, those of an empty relation for a scalar. -/
  logical : RelationProperties
  groupStatistics : Option Statistics := none
  children : List ChildView
  required : Option PlanRequirement := none

namespace ExprView

/-- The number of children. -/
def arity (view : ExprView) : Nat := view.children.length

/-- The logical properties of a child, those of an empty relation for a scalar or missing one. -/
def childLogical (view : ExprView) (child : Nat) : RelationProperties :=
  ((view.children[child]?).map (·.properties.relationOrEmpty)).getD {}

/-- The scalar properties of a child. -/
def childScalar? (view : ExprView) (child : Nat) : Option ScalarProperties :=
  (view.children[child]?).bind (·.properties.scalar?)

/-- Whether a child is a scalar. -/
def isScalarChild (view : ExprView) (child : Nat) : Bool :=
  ((view.children[child]?).map (·.isScalar)).getD false

/-- The columns that the scalar children read. -/
def scalarColumns (view : ExprView) : ColumnSet :=
  (view.children.filterMap (·.properties.scalar?)).foldl
    (fun found scalar => found.union scalar.used) .empty

/-- The columns a child usually has to deliver: those required above and those that scalar children
read, as far as the child has them. -/
def usualChildColumns (view : ExprView) (required : ColumnSet) (child : Nat) : ColumnSet :=
  (required.union view.scalarColumns).inter (view.childLogical child).output

/-- What the chosen plan of a child delivers. -/
def childPlan? (view : ExprView) (child : Nat) : Option PlanProperties :=
  (view.children[child]?).bind (·.plan)

/-- The deliveries of the children that have a plan, in child order. -/
def childPlans (view : ExprView) : List PlanProperties := view.children.filterMap (·.plan)

/-- What the plan of the first relational child delivers. -/
def firstRelationalPlan? (view : ExprView) : Option PlanProperties :=
  (view.children.find? fun child => !child.isScalar).bind (·.plan)

/-- The statistics of the chosen plan of a child. -/
def childStatistics? (view : ExprView) (child : Nat) : Option Statistics :=
  (view.children[child]?).bind (·.planStatistics)

/-- The order that the chosen plan of a child delivers. -/
def childOrder (view : ExprView) (child : Nat) : SortOrder :=
  ((view.childPlan? child).map (·.order)).getD .any

end ExprView

end QueryPlanner
