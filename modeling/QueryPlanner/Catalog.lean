import QueryPlanner.Property.Distribution
import QueryPlanner.Property.SortOrder
import QueryPlanner.Property.Partition
import QueryPlanner.Statistics

/-!
# Catalog

The catalog knows the base tables: their columns with statistics, their row counts, how their rows
are distributed, their indexes and their partitioning.
-/

namespace QueryPlanner

/-- A column of a base table. -/
structure TableColumn where
  column : Column
  name : String
  distinct : Float
  /-- The average width in bytes. -/
  width : Float

/-- An index on a base table. -/
structure TableIndex where
  name : String
  keys : List Column
  deriving DecidableEq, Repr

/-- The order in which a scan of the index delivers rows. -/
def TableIndex.order (index : TableIndex) : SortOrder := .ascending index.keys

/-- A base table. -/
structure Table where
  id : Nat
  name : String
  rows : Float
  columns : List TableColumn := []
  /-- The distribution a full scan delivers. -/
  distribution : Distribution := .random
  indexes : List TableIndex := []
  /-- The partitioning columns, none for a table in one piece. -/
  partitionKeys : List Column := []

namespace Table

/-- Whether the table is partitioned. -/
def isPartitioned (table : Table) : Bool := !table.partitionKeys.isEmpty

/-- The description of a column. -/
def column? (table : Table) (column : Column) : Option TableColumn :=
  table.columns.find? fun found => found.column == column

/-- The columns in the order of the table. -/
def columnList (table : Table) : List Column := table.columns.map (·.column)

/-- The set of columns. -/
def columnSet (table : Table) : ColumnSet := .ofList table.columnList

/-- The width of a full row. -/
def width (table : Table) : Float := Estimate.sum (table.columns.map (·.width))

/-- The statistics of the requested columns. A column that the table does not have counts as
distinct in every row and gets the default width. -/
def statistics (table : Table) (required : ColumnSet) : Statistics :=
  required.toList.foldl (fun stats column =>
    stats.withColumn column
      (match table.column? column with
      | some found =>
        { distinct := Estimate.larger (Estimate.smaller found.distinct table.rows) 1.0
          width := found.width }
      | none =>
        { distinct := Estimate.larger table.rows 1.0
          width := Statistics.defaultWidth })) { rows := table.rows }

end Table

/-- The known tables, no two of them with the same name. -/
structure Catalog where
  tables : List Table := []

namespace Catalog

/-- Add a table, replacing the one with the same name. -/
def add (table : Table) (catalog : Catalog) : Catalog :=
  ⟨catalog.tables.filter (fun other => other.name != table.name) ++ [table]⟩

/-- The catalogue of several tables, added one after the other. -/
def ofList (tables : List Table) : Catalog :=
  tables.foldl (fun catalog table => catalog.add table) {}

/-- The table with a name. -/
def table? (catalog : Catalog) (name : String) : Option Table :=
  catalog.tables.find? fun table => table.name == name

/-- The number of tables. -/
def size (catalog : Catalog) : Nat := catalog.tables.length

/-- Whether there is no table. -/
def isEmpty (catalog : Catalog) : Bool := catalog.tables.isEmpty

end Catalog

/-- What a scan reads: a table, the columns it delivers, and the number of the scan when the query
tells its partitioned scans apart. -/
structure TableAccess where
  table : Table
  columns : List Column
  scan : Option ScanId := none

namespace TableAccess

/-- Two accesses are the same when they read the same columns of the same table under the same
scan number; the description of the table does not matter. -/
def same (left right : TableAccess) : Bool :=
  left.table.id == right.table.id && left.columns == right.columns && left.scan == right.scan

/-- The scan number of an access to a partitioned table. -/
def partitionScan? (access : TableAccess) : Option ScanId :=
  if access.table.isPartitioned then access.scan else none

/-- The partition state of a scan: a numbered scan of a partitioned table waits for its selector. -/
def partition (access : TableAccess) : PartitionPropagation :=
  match access.partitionScan? with
  | none => .none
  | some scan =>
    { scans := PartitionMap.empty.insert scan
        { role := .consumer
          expected := some 0
          relation := access.table.id
          keys := access.table.partitionKeys }
      filters := .empty }

end TableAccess

end QueryPlanner
