import QueryPlanner.Column
import QueryPlanner.Property.Enforced

/-!
# Partition propagation

A scan of a partitioned table consumes the partition ids that a selector above it propagates. A
`PartitionMap` tracks, for each scan of a plan, whether it still waits for selectors, and how many.
Combining the maps of two siblings lets a propagator on one side serve a consumer on the other.
-/

namespace QueryPlanner

/-- The number of a partitioned scan within a query. -/
abbrev ScanId := Nat

/-- The part a plan plays for a partitioned scan. -/
inductive PartitionRole where
  /-- It waits for partition ids. -/
  | consumer
  /-- It sends partition ids. -/
  | propagator
  /-- It holds the scan together with all its selectors. -/
  | resolver
  deriving DecidableEq, Repr, Inhabited

/-- The name of a role. -/
def PartitionRole.name : PartitionRole → String
  | .consumer => "Consumer"
  | .propagator => "Propagator"
  | .resolver => "Resolver"

/-- The state of one partitioned scan. -/
structure PartitionEntry where
  role : PartitionRole
  /-- The number of selectors still expected, when it is known. -/
  expected : Option Nat
  /-- The partitioned relation. -/
  relation : Nat
  /-- The partitioning columns. -/
  keys : List Column
  deriving DecidableEq, Repr

/-- An entry that waits for partition ids. -/
def PartitionEntry.isConsumer (entry : PartitionEntry) : Bool := entry.role == .consumer

/-- An entry that waits for partition ids and whose selector may be placed now. -/
def PartitionEntry.awaitsSelector (entry : PartitionEntry) : Bool :=
  entry.isConsumer && entry.expected == some 0

/-- The state of the partitioned scans of a plan. -/
structure PartitionMap where
  scans : KeyedMap ScanId PartitionEntry
  deriving DecidableEq

namespace PartitionMap

/-- No partitioned scan. -/
def empty : PartitionMap := ⟨.empty⟩

instance : Inhabited PartitionMap := ⟨empty⟩

/-- Record the state of a scan. -/
def insert (scan : ScanId) (entry : PartitionEntry) (map : PartitionMap) : PartitionMap :=
  ⟨map.scans.insert scan entry⟩

/-- The state of a scan. -/
def get? (map : PartitionMap) (scan : ScanId) : Option PartitionEntry := map.scans.get? scan

/-- Whether a scan is known. -/
def contains (map : PartitionMap) (scan : ScanId) : Bool := map.scans.contains scan

/-- Whether no scan is known. -/
def isEmpty (map : PartitionMap) : Bool := map.scans.isEmpty

/-- The known scans. -/
def scanIds (map : PartitionMap) : List ScanId := map.scans.keys

/-- The scans that wait for partition ids. -/
def consumerIds (map : PartitionMap) : List ScanId :=
  (map.scans.entries.filter fun entry => entry.2.isConsumer).map Prod.fst

/-- Whether some scan waits for partition ids. -/
def hasConsumer (map : PartitionMap) : Bool := map.scans.entries.any fun entry => entry.2.isConsumer

/-- Whether some scan waits for a selector that may be placed now. -/
def awaitsSelector (map : PartitionMap) : Bool :=
  map.scans.entries.any fun entry => entry.2.awaitsSelector

/-- The states of the given scans only. -/
def restrictedTo (map : PartitionMap) (scans : List ScanId) : PartitionMap :=
  scans.foldl (fun kept scan =>
    match map.get? scan with
    | some entry => kept.insert scan entry
    | none => kept) empty

/-- What a scan becomes when two sibling plans both know it. A propagator that meets its consumer
takes one from the number of expected selectors, and the last one resolves the scan. In every other
meeting the first side stays. -/
def meet (first second : PartitionEntry) : PartitionEntry :=
  let resolve (expected : Option Nat) : PartitionEntry :=
    match expected with
    | some (remaining + 1) =>
      { first with
        role := if remaining == 0 then .resolver else .consumer
        expected := some remaining }
    | _ => { first with role := .consumer, expected := none }
  match first.role, second.role with
  | .propagator, .consumer => resolve second.expected
  | .consumer, .propagator => resolve first.expected
  | _, _ => first

/-- Add the scans of `first` that are not recorded yet, after meeting those of `second`. -/
def addMeetings (first second : PartitionMap) (found : PartitionMap) : PartitionMap :=
  first.scans.entries.foldl (fun found entry =>
    if found.contains entry.1 then found
    else match second.get? entry.1 with
      | some other => found.insert entry.1 (meet entry.2 other)
      | none => found.insert entry.1 entry.2) found

/-- The map of two sibling plans together. -/
def combine (left right : PartitionMap) : PartitionMap :=
  addMeetings right left (addMeetings left right empty)

/-- Whether every scan has the same role and number of selectors in the other map. -/
def subset (left right : PartitionMap) : Bool :=
  decide (left.scans.size ≤ right.scans.size) &&
    left.scans.entries.all fun entry =>
      match right.get? entry.1 with
      | some other => other.role == entry.2.role && other.expected == entry.2.expected
      | none => false

/-- Whether the plan sends partition ids that nothing above asked for. -/
def hasRedundantSelectors (delivered required : PartitionMap) : Bool :=
  delivered.scans.entries.any fun entry =>
    entry.2.role == .propagator && !required.contains entry.1

/-- Whether a delivered state of a scan meets the required one. -/
def entrySatisfies (delivered required : PartitionEntry) : Bool :=
  match delivered.role with
  | .resolver | .propagator => true
  | .consumer =>
    match delivered.expected with
    | none => true
    | some 0 => false
    | some (count + 1) => required.expected == some (count + 1)

/-- Whether the delivered states meet the required ones. A scan that is not delivered is met, and
nothing is required when no scan waits. -/
def satisfies (delivered required : PartitionMap) : Bool :=
  !required.hasConsumer ||
    required.scans.entries.all fun entry =>
      match delivered.get? entry.1 with
      | some found => entrySatisfies found entry.2
      | none => true

/-- The map above a selector for a scan, with that many more selectors expected above it. -/
def withSelector (map : PartitionMap) (scan : ScanId) (expectedAbove : Nat) : PartitionMap :=
  match map.get? scan with
  | none => map
  | some entry =>
    map.insert scan { entry with
      role := if expectedAbove == 0 then .resolver else .consumer
      expected := some expectedAbove }

/-- The text of a map: each scan with its role. -/
def text (map : PartitionMap) : String :=
  "[" ++ ",".intercalate (map.scans.entries.map fun entry =>
    toString entry.1 ++ ":" ++ entry.2.role.name) ++ "]"

end PartitionMap

/-- The columns of the filters that can eliminate partitions, for each scan. -/
structure PartitionFilters where
  scans : KeyedMap ScanId ColumnSet
  deriving DecidableEq

namespace PartitionFilters

/-- No filter. -/
def empty : PartitionFilters := ⟨.empty⟩

instance : Inhabited PartitionFilters := ⟨empty⟩

/-- The filter columns of a scan. -/
def get? (filters : PartitionFilters) (scan : ScanId) : Option ColumnSet := filters.scans.get? scan

/-- Add filter columns to a scan. -/
def add (scan : ScanId) (columns : ColumnSet) (filters : PartitionFilters) : PartitionFilters :=
  ⟨filters.scans.insert scan (((filters.get? scan).getD .empty).union columns)⟩

/-- Whether no scan has an entry. -/
def isEmpty (filters : PartitionFilters) : Bool := filters.scans.isEmpty

/-- The filters of both sides. -/
def combine (left right : PartitionFilters) : PartitionFilters :=
  right.scans.entries.foldl (fun found entry => found.add entry.1 entry.2) left

end PartitionFilters

/-- The scans a plan requires to be resolved below, or delivers, with the filters their selectors
may use. -/
structure PartitionPropagation where
  scans : PartitionMap := .empty
  filters : PartitionFilters := .empty
  deriving DecidableEq, Inhabited

namespace PartitionPropagation

/-- No partitioned scan and no filter. -/
def none : PartitionPropagation := ⟨.empty, .empty⟩

instance : PhysicalProperty PartitionPropagation where
  satisfies delivered required _ := delivered.scans.satisfies required.scans
  isRequired propagation := propagation.scans.awaitsSelector
  text propagation := propagation.scans.text

end PartitionPropagation

end QueryPlanner
