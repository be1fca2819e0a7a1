import QueryPlanner.Keyed.Map

/-!
# Columns

A column is identified by a number that is unique in the query. Sets of columns are ordered, so
that equal sets are equal values and have one text.
-/

namespace QueryPlanner

/-- A column of the query. -/
structure Column where
  id : Nat
  deriving DecidableEq, Repr

/-- Columns are ordered by their identifier. -/
instance : Numbered Column where
  number column := column.id
  number_injective := by
    rintro ⟨left⟩ ⟨right⟩ same
    exact congrArg Column.mk same

/-- The text of a column, such as `c5`. -/
def Column.text (column : Column) : String := "c" ++ toString column.id

/-- A set of columns. -/
abbrev ColumnSet := KeyedSet Column

/-- The text of a list of columns, separated by commas. -/
def Column.listText (columns : List Column) : String :=
  ",".intercalate (columns.map Column.text)

/-- The text of a set of columns: its elements between braces. -/
def ColumnSet.text (columns : ColumnSet) : String :=
  "\x7b" ++ Column.listText columns.toList ++ "\x7d"

end QueryPlanner
