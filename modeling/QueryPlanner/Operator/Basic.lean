import QueryPlanner.Operator.Physical

/-!
# Operators

An operator of the memo is logical, physical or scalar.
-/

namespace QueryPlanner

/-- An operator of the memo. -/
inductive Operator where
  | logical (op : LogicalOperator)
  | physical (op : PhysicalOperator)
  | scalar (op : ScalarOperator)

namespace Operator

/-- The name of the kind. -/
def kind : Operator → String
  | .logical op => op.kind
  | .physical op => op.kind
  | .scalar op => op.kind

/-- The number of children, when it is fixed. -/
def arity : Operator → Option Nat
  | .logical op => op.arity
  | .physical op => op.arity
  | .scalar op => op.arity

/-- The common table expression that the operator itself uses. -/
def cte : Operator → Option CteUse
  | .logical op => op.cte
  | .physical op => op.cte
  | .scalar op => op.cte

/-- Whether exchanging children changes the result. -/
def orderSensitive : Operator → Bool
  | .logical op => op.orderSensitive
  | _ => true

/-- Equality of operators. -/
def same : Operator → Operator → Bool
  | .logical left, .logical right => left.same right
  | .physical left, .physical right => left.same right
  | .scalar left, .scalar right => left.same right
  | _, _ => false

/-- The operator, if it is logical. -/
def logical? : Operator → Option LogicalOperator
  | .logical op => some op
  | _ => none

/-- The operator, if it is physical. -/
def physical? : Operator → Option PhysicalOperator
  | .physical op => some op
  | _ => none

/-- Whether the operator is logical. -/
def isLogical (op : Operator) : Bool := op.logical?.isSome

/-- Whether the operator is physical. -/
def isPhysical (op : Operator) : Bool := op.physical?.isSome

/-- Whether the operator is scalar. -/
def isScalar : Operator → Bool
  | .scalar _ => true
  | _ => false

/-- The predicate that a scalar operator holds. -/
def predicate? : Operator → Option Scalar
  | .scalar op => op.predicate?
  | _ => none

/-- The access of a logical table access. -/
def get? : Operator → Option TableAccess
  | .logical (.get access) => some access
  | _ => none

/-- Whether the operator enforces a property. -/
def isEnforcer : Operator → Bool
  | .physical op => op.isEnforcer
  | _ => false

/-- Whether the operator joins relations, logically or physically. -/
def isJoin : Operator → Bool
  | .logical op => op.isJoin
  | .physical op => op.isJoin
  | .scalar _ => false

end Operator

end QueryPlanner
