import QueryPlanner.Column
import QueryPlanner.Property.Partition

/-!
# Properties of equivalent expressions

All alternatives of a group agree on its logical properties: for a relation the columns it
delivers, a bound on its rows and the like, for a scalar the columns it reads.
-/

namespace QueryPlanner

/-- An upper bound on the number of rows, if there is one. -/
structure RowBound where
  limit : Option Nat := none
  deriving DecidableEq, Repr, Inhabited

namespace RowBound

/-- Bounds are kept as long as they are below this number. -/
def capacity : Nat := Nat.pow 2 64

/-- Whether there is at most one row. -/
def atMostOne (bound : RowBound) : Bool :=
  match bound.limit with
  | some limit => decide (limit ≤ 1)
  | none => false

/-- The bound on a product. A product that reaches the capacity counts as unbounded. -/
def times (left right : RowBound) : RowBound :=
  match left.limit, right.limit with
  | some first, some second => ⟨if first * second < capacity then some (first * second) else none⟩
  | _, _ => ⟨none⟩

end RowBound

/-- The logical properties of a relation. -/
structure RelationProperties where
  output : ColumnSet := .empty
  /-- Columns that are read here but produced elsewhere. -/
  outerReferences : ColumnSet := .empty
  rowBound : RowBound := {}
  /-- The number of joins below and including this one, counted in 32 bits. -/
  joinDepth : UInt32 := 0
  /-- The partitioned scans below. -/
  consumers : KeyedSet ScanId := .empty
  deriving DecidableEq, Inhabited

/-- The logical properties of a scalar. -/
structure ScalarProperties where
  used : ColumnSet := .empty
  /-- The number of conjuncts when the scalar is a predicate. -/
  conjuncts : Nat := 0
  deriving DecidableEq, Inhabited

/-- The logical properties of a group. -/
inductive GroupProperties where
  | relation (properties : RelationProperties)
  | scalar (properties : ScalarProperties)
  deriving DecidableEq

namespace GroupProperties

/-- The properties of a relation. -/
def relation? : GroupProperties → Option RelationProperties
  | .relation properties => some properties
  | .scalar _ => none

/-- The properties of a scalar. -/
def scalar? : GroupProperties → Option ScalarProperties
  | .relation _ => none
  | .scalar properties => some properties

/-- Whether the group holds scalars. -/
def isScalar : GroupProperties → Bool
  | .relation _ => false
  | .scalar _ => true

/-- The properties of a relation, or those of an empty one for a scalar. -/
def relationOrEmpty (properties : GroupProperties) : RelationProperties :=
  properties.relation?.getD {}

end GroupProperties

end QueryPlanner
