import QueryPlanner.Column
import QueryPlanner.Property.Enforced

/-!
# Sort orders

A sort order is a list of keys. A delivered order is sufficient when the required keys are the
first of its own.
-/

namespace QueryPlanner

/-- One key of a sort order. -/
structure SortKey where
  column : Column
  descending : Bool := false
  nullsFirst : Bool := false
  deriving DecidableEq, Repr

/-- A key that sorts downwards, with missing values first. -/
def SortKey.downward (column : Column) : SortKey := ⟨column, true, true⟩

/-- A sort order, the first key being the most significant one. -/
structure SortOrder where
  keys : List SortKey := []
  deriving DecidableEq, Repr, Inhabited

namespace SortOrder

/-- No order. -/
def any : SortOrder := ⟨[]⟩

/-- The ascending order on the given columns. -/
def ascending (columns : List Column) : SortOrder :=
  ⟨columns.map fun column => ⟨column, false, false⟩⟩

/-- Whether there is no key. -/
def isEmpty (order : SortOrder) : Bool := order.keys.isEmpty

/-- The columns of the keys. -/
def columns (order : SortOrder) : ColumnSet := .ofList (order.keys.map (·.column))

/-- The longest beginning of the order whose columns are all available. -/
def restrictedTo (order : SortOrder) (available : ColumnSet) : SortOrder :=
  ⟨order.keys.takeWhile fun key => available.contains key.column⟩

/-- The text of an order: its columns, with a mark on the descending ones. -/
def text (order : SortOrder) : String :=
  if order.isEmpty then "<any>"
  else ",".intercalate (order.keys.map fun key =>
    key.column.text ++ if key.descending then " desc" else "")

instance : PhysicalProperty SortOrder where
  satisfies delivered required matching :=
    match matching with
    | .exact => delivered == required
    | .satisfy | .subset => required.keys.isPrefixOf delivered.keys
  isRequired order := !order.isEmpty
  text := text

end SortOrder

end QueryPlanner
