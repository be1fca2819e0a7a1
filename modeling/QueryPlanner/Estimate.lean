import QueryPlanner.Decimal.Shortest

/-!
# Estimates

Row counts, widths, selectivities and costs are doubles. This module fixes how two of them are
compared and combined: a missing (not-a-number) operand loses against any other, sums start from
the neutral element of floating addition, and literals are compared by value.
-/

namespace QueryPlanner.Estimate

/-- The larger of two estimates, the right one of equals. An operand that is not a number is
ignored. -/
def larger (left right : Float) : Float :=
  if left.isNaN then right
  else if right.isNaN then left
  else if right < left then left
  else right

/-- The smaller of two estimates, the left one of equals. An operand that is not a number is
ignored. -/
def smaller (left right : Float) : Float :=
  if left.isNaN then right
  else if right.isNaN then left
  else if right < left then right
  else left

/-- The sum of a list, added from the left. Negative zero is the neutral element. -/
def sum (values : List Float) : Float := values.foldl (· + ·) (-0.0)

/-- The product of a list, multiplied from the left. -/
def product (values : List Float) : Float := values.foldl (· * ·) 1.0

/-- The largest finite double. -/
def greatest : Float := 1.7976931348623157e308

/-- The distance between one and the next double. -/
def epsilon : Float := 2.220446049250313e-16

/-- Equality of literals: by value, and a literal that is not a number equals itself. -/
def sameLiteral (left right : Float) : Bool :=
  (left.isNaN && right.isNaN) || left == right

/-- The number of hosts that share the work, at least one. -/
def hosts (segments : Nat) : Float := Float.ofNat (max segments 1)

end QueryPlanner.Estimate
