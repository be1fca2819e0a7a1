import QueryPlanner.Estimate

/-!
# Costs

The cost of a plan is one number, lower being better. Two costs closer than the distance between
one and the next double count as equal, so a plan replaces another only when it is cheaper beyond
rounding noise. The largest finite double stands for a plan that cannot be costed.
-/

namespace QueryPlanner

/-- The estimated expense of a plan. -/
structure Cost where
  total : Float

namespace Cost

def zero : Cost := ⟨0.0⟩

/-- The cost of a plan that is infeasible or not costed yet. -/
def infinite : Cost := ⟨Estimate.greatest⟩

instance : Inhabited Cost := ⟨infinite⟩

/-- Whether the cost stands for an infeasible plan. -/
def isInfinite (cost : Cost) : Bool := cost.total == Estimate.greatest

/-- Equality up to rounding noise. -/
def near (left right : Cost) : Bool := (left.total - right.total).abs < Estimate.epsilon

/-- Cheaper beyond rounding noise. -/
def lowerThan (left right : Cost) : Bool := left.total < right.total && !left.near right

/-- The difference of two costs, never below zero. An infinite cost stays infinite. -/
def saturatingSub (left right : Cost) : Cost :=
  if left.isInfinite then left else ⟨Estimate.larger (left.total - right.total) 0.0⟩

/-- The order of two costs without tolerance, undefined when one is not a number. -/
def compare? (left right : Cost) : Option Ordering :=
  if left.total < right.total then some .lt
  else if left.total == right.total then some .eq
  else if right.total < left.total then some .gt
  else none

/-- The text of a cost: three decimal places, or `inf` when it is infinite. -/
def text (cost : Cost) : String :=
  if cost.isInfinite then "inf" else Decimal.fixedText 3 cost.total

end Cost

/-- What is known about one relational child of a node that is costed. -/
structure ChildCosting where
  /-- The rows of the child on one host. -/
  rows : Float
  width : Float
  rebinds : Float
  cost : Cost

/-- The summary of a node that a cost model works on. -/
structure CostingInputs where
  /-- The output rows of the node on one host. -/
  rows : Float
  width : Float
  rebinds : Float
  /-- One entry for each relational child. -/
  children : List ChildCosting
  segments : Nat

/-- The costs of the children together. -/
def CostingInputs.childrenCost (inputs : CostingInputs) : Float :=
  Estimate.sum (inputs.children.map (·.cost.total))

end QueryPlanner
