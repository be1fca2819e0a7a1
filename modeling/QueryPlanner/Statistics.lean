import QueryPlanner.Column
import QueryPlanner.Estimate

/-!
# Statistics

The statistics of a relation say how many rows it has, how often it is expected to be executed
again, and, for the columns some consumer asked about, their number of distinct values and their
width. A later request for more columns appends to what is there. Filters, equality joins and
aggregates estimate their output from the statistics of their inputs.
-/

namespace QueryPlanner

/-- What is known about one column of a relation. -/
structure ColumnStatistics where
  distinct : Float
  /-- The average width of a value in bytes. -/
  width : Float
  /-- The fraction of rows without a value. -/
  nullFraction : Float := 0.0

/-- The statistics of a relation. -/
structure Statistics where
  rows : Float
  /-- The expected number of executions. -/
  rebinds : Float := 1.0
  columns : KeyedMap Column ColumnStatistics := .empty

namespace Statistics

/-- The width of a column without statistics. -/
def defaultWidth : Float := 8.0

/-- The selectivity of a filter about which nothing is known. -/
def defaultSelectivity : Float := 0.1

/-- The statistics of scalars: no rows and no columns. -/
def empty : Statistics := ⟨0.0, 1.0, .empty⟩

instance : Inhabited Statistics := ⟨empty⟩

/-- Add or replace the statistics of a column. -/
def withColumn (column : Column) (found : ColumnStatistics) (stats : Statistics) : Statistics :=
  { stats with columns := stats.columns.insert column found }

/-- The columns that have statistics. -/
def columnSet (stats : Statistics) : ColumnSet := stats.columns.keySet

/-- The average width of a row over the given columns. -/
def width (stats : Statistics) (columns : ColumnSet) : Float :=
  Estimate.sum (columns.toList.map fun column =>
    ((stats.columns.get? column).map (·.width)).getD defaultWidth)

/-- The number of distinct values of a column. Without statistics every row is distinct. -/
def distinct (stats : Statistics) (column : Column) : Float :=
  ((stats.columns.get? column).map (·.distinct)).getD stats.rows

/-- Whether every given column has statistics. -/
def covers (stats : Statistics) (columns : ColumnSet) : Bool :=
  columns.toList.all stats.columns.contains

/-- The given columns that have no statistics. -/
def missing (stats : Statistics) (columns : ColumnSet) : ColumnSet :=
  columns.filter (fun column => !stats.columns.contains column)

/-- Add the columns of `other` that are not there yet. Rows and present columns stay. -/
def append (stats other : Statistics) : Statistics :=
  { stats with columns := other.columns.entries.foldl (fun columns entry =>
      if columns.contains entry.1 then columns else columns.insert entry.1 entry.2) stats.columns }

/-- Cap the distinct values of a column at a number of rows. -/
def capDistinct (rows : Float) (found : ColumnStatistics) : ColumnStatistics :=
  { found with distinct := Estimate.smaller found.distinct rows }

/-- Scale the rows by a factor. Distinct values scale along, between one and the new rows. -/
def scaled (stats : Statistics) (factor : Float) : Statistics :=
  let rows := Estimate.larger (stats.rows * factor) 1.0
  { stats with
    rows
    columns := stats.columns.mapValues fun found =>
      { found with
        distinct := Estimate.smaller (Estimate.larger (found.distinct * factor) 1.0) rows } }

/-- The rows that one host handles. -/
def rowsPerHost (stats : Statistics) (segments : Nat) : Float :=
  stats.rows / Estimate.hosts segments

/-- Keep only the statistics of the given columns. -/
def project (stats : Statistics) (columns : ColumnSet) : Statistics :=
  { stats with columns := stats.columns.filterKeys columns.contains }

/-- The statistics of a filter that keeps the given fraction of the rows, at least one row. -/
def filtered (input : Statistics) (selectivity : Float) : Statistics :=
  let ratio :=
    if input.rows > 0.0 then Estimate.larger (input.rows * selectivity) 1.0 / input.rows else 1.0
  input.scaled ratio

/-- The statistics of an equality join. Each pair of columns divides the cross product by the
larger number of distinct values, independently of the others. -/
def joined (outer inner : Statistics) (keys : List (Column × Column)) : Statistics :=
  let selectivity := keys.foldl (fun found key =>
    found / Estimate.larger (Estimate.larger (outer.distinct key.1) (inner.distinct key.2)) 1.0) 1.0
  let rows := Estimate.larger (outer.rows * inner.rows * selectivity) 1.0
  let merged := (outer.columns.entries ++ inner.columns.entries).foldl
    (fun columns entry => columns.insert entry.1 (capDistinct rows entry.2)) .empty
  { rows, rebinds := outer.rebinds, columns := merged }

/-- The statistics of a grouping aggregate: as many rows as there are combinations of the grouping
columns, at most the input rows and at least one. -/
def aggregated (input : Statistics) (grouping : List Column) : Statistics :=
  let combinations := grouping.foldl (fun rows column => rows * input.distinct column) 1.0
  let rows := Estimate.larger (Estimate.smaller combinations input.rows) 1.0
  let kept := grouping.foldl (fun columns column =>
    match input.columns.get? column with
    | some found => columns.insert column (capDistinct rows found)
    | none => columns) .empty
  { rows, rebinds := input.rebinds, columns := kept }

/-- The fraction of rows in which a column equals a given value. -/
def equalitySelectivity (stats : Statistics) (column : Column) : Float :=
  match stats.columns.get? column with
  | some found => 1.0 / Estimate.larger found.distinct 1.0
  | none => defaultSelectivity

end Statistics

end QueryPlanner
