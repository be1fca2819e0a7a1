import QueryPlanner.Operator.Basic
import QueryPlanner.Proofs.Meaning.Relation

/-!
# What operators mean

Logical and physical operators of the catalogue are read as the same few steps on bags of rows: a
scan is a table access, a filter a selection, both joins are inner joins, both aggregates are
grouping aggregates, and an enforcer passes on what is below it. `Interpretation.apply` is what a
step makes of the values of the children.
-/

namespace QueryPlanner

/-- What an operator does with bags of rows. -/
inductive Step where
  /-- The rows of a table: its number, the columns that are read, and the number of the scan. -/
  | access (table : Nat) (columns : List Column) (scan : Option ScanId)
  | selection
  | join
  | aggregate (grouping aggregates : List Column)
  /-- What is below is passed on. -/
  | unchanged
  | condition (predicate : Scalar)

/-- The step of a table access. -/
def TableAccess.step (access : TableAccess) : Step :=
  .access access.table.id access.columns access.scan

/-- Accesses to the same columns of a table take the same step. -/
theorem TableAccess.step_eq_of_same {left right : TableAccess} (h : left.same right = true) :
    left.step = right.step := by
  simp only [same, Bool.and_eq_true, beq_iff_eq] at h
  unfold step
  rw [h.1.1, h.1.2, h.2]

/-- The step of a logical operator. One that is described by data has none. -/
def LogicalOperator.step? : LogicalOperator → Option Step
  | .get access => some access.step
  | .select => some .selection
  | .innerJoin => some .join
  | .groupBy grouping aggregates => some (.aggregate grouping aggregates)
  | .custom _ => none

/-- The step of a physical operator. -/
def PhysicalOperator.step? : PhysicalOperator → Option Step
  | .tableScan access | .indexScan access _ => some access.step
  | .filter => some .selection
  | .hashJoin _ _ | .nestedLoopJoin => some .join
  | .hashAggregate grouping aggregates | .streamAggregate grouping aggregates =>
    some (.aggregate grouping aggregates)
  | .sort _ | .motion _ | .spool _ | .partitionSelector _ _ _ => some .unchanged
  | .custom _ => none

/-- The step of an operator. -/
def Operator.step? : Operator → Option Step
  | .logical op => op.step?
  | .physical op => op.step?
  | .scalar (.predicate condition) => some (.condition condition)
  | .scalar (.custom _) => none

variable {V : Type}

/-- What a group stands for. -/
inductive Value (V : Type) where
  | relation (rows : Multiset (Row V))
  | condition (holds : Row V → Option Bool)

namespace Interpretation

variable (meaning : Interpretation V)

/-- The rows of a table access, with the columns that are read. -/
def accessed (table : Nat) (columns : List Column) (scan : Option ScanId) : Multiset (Row V) :=
  (meaning.table table columns scan).map (Row.restrict columns)

/-- The rows of an aggregate, with the grouping columns and those of the aggregates. -/
def aggregated (grouping aggregates : List Column) (rows : Multiset (Row V)) : Multiset (Row V) :=
  (meaning.aggregate grouping aggregates rows).map (Row.restrict (grouping ++ aggregates))

/-- What a step makes of the values of the children. -/
def apply : Step → List (Value V) → Option (Value V)
  | .access table columns scan, [] => some (.relation (meaning.accessed table columns scan))
  | .selection, [.relation rows, .condition holds] => some (.relation (selected holds rows))
  | .join, [.relation outer, .relation inner, .condition holds] =>
    some (.relation (joined holds outer inner))
  | .aggregate grouping aggregates, [.relation rows] =>
    some (.relation (meaning.aggregated grouping aggregates rows))
  | .unchanged, [value] => some value
  | .condition predicate, [] => some (.condition (meaning.holds predicate))
  | _, _ => none

/-- The value that an operator computes from those of its children. -/
def compute (op : Operator) (values : List (Value V)) : Option (Value V) :=
  op.step?.bind fun step => meaning.apply step values

end Interpretation

/-! ## Kinds of operators -/

namespace Operator

variable {op : Operator}

/-- Only an inner join is of the kind of inner joins. -/
theorem eq_innerJoin (h : op.kind = "InnerJoin") : op = .logical .innerJoin := by
  cases op with
  | logical op => cases op <;> simp_all [kind, LogicalOperator.kind, CustomLogical.kind]
  | physical op =>
      cases op with
      | motion move => cases move <;> simp [kind, PhysicalOperator.kind, Motion.kind,
          MotionKind.name] at h
      | _ => simp [kind, PhysicalOperator.kind, CustomPhysical.kind] at h
  | scalar op => cases op <;> simp [kind, ScalarOperator.kind, CustomScalar.kind] at h

/-- Only a selection is of the kind of selections. -/
theorem eq_select (h : op.kind = "Select") : op = .logical .select := by
  cases op with
  | logical op => cases op <;> simp_all [kind, LogicalOperator.kind, CustomLogical.kind]
  | physical op =>
      cases op with
      | motion move => cases move <;> simp [kind, PhysicalOperator.kind, Motion.kind,
          MotionKind.name] at h
      | _ => simp [kind, PhysicalOperator.kind, CustomPhysical.kind] at h
  | scalar op => cases op <;> simp [kind, ScalarOperator.kind, CustomScalar.kind] at h

/-- Equal operators take the same step, or are equal predicates. -/
theorem step?_eq_of_same {left right : Operator} (h : left.same right = true) :
    left.step? = right.step? ∨ ∃ predicate predicate', left = .scalar (.predicate predicate) ∧
      right = .scalar (.predicate predicate') ∧ predicate.same predicate' = true := by
  cases left with
  | logical left =>
      cases right with
      | physical _ | scalar _ => simp [same] at h
      | logical right =>
          refine .inl ?_
          have h : left.same right = true := h
          cases left <;> cases right <;> first
            | exact congrArg some (TableAccess.step_eq_of_same h)
            | simp_all [LogicalOperator.same, step?, LogicalOperator.step?]
  | physical left =>
      cases right with
      | logical _ | scalar _ => simp [same] at h
      | physical right =>
          refine .inl ?_
          have h : left.same right = true := h
          cases left <;> cases right <;> first
            | exact congrArg some (TableAccess.step_eq_of_same h)
            | exact congrArg some (TableAccess.step_eq_of_same (Bool.and_eq_true_iff.mp h).1)
            | simp_all [PhysicalOperator.same, step?, PhysicalOperator.step?]
  | scalar left =>
      cases right with
      | logical _ | physical _ => simp [same] at h
      | scalar right =>
          cases left with
          | custom _ => cases right <;> simp_all [same, ScalarOperator.same, step?]
          | predicate predicate =>
              cases right with
              | custom _ => simp [same, ScalarOperator.same] at h
              | predicate predicate' => exact .inr ⟨predicate, predicate', rfl, rfl, h⟩

end Operator

end QueryPlanner
