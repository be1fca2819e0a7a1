import QueryPlanner.Proofs.Meaning.Operators
import QueryPlanner.Proofs.Rule.Laws

/-!
# The columns of groups

`Schema.reading` reads operators by the columns that they deliver, whatever the rows are. An aggregate
has a schema only if it groups by columns of its input, and a hash join only if its keys are columns
of its inputs. The rules are sound for this reading (`Schema.admitsRules`), so all hash joins that
they put into a memo have keys that their inputs deliver.
-/

namespace QueryPlanner

/-- What is known of a group by its columns: those of a relation, or that it is a condition. -/
inductive Schema where
  | relation (columns : Finset Column)
  | condition

/-- The pairs of join keys are an outer and an inner column. -/
theorem Scalar.of_mem_joinKeys {predicate : Scalar} {outer inner : ColumnSet}
    {key : Column × Column} (h : key ∈ predicate.joinKeys outer inner) :
    key.1 ∈ outer ∧ key.2 ∈ inner := by
  obtain ⟨conjunct, _, hkey⟩ := List.mem_filterMap.mp h
  unfold joinKey? at hkey
  split at hkey
  · split at hkey
    · rename_i hsides
      obtain rfl := Option.some.inj hkey
      simpa using hsides
    · split at hkey
      · rename_i hsides
        obtain rfl := Option.some.inj hkey
        simpa [and_comm] using hsides
      · exact absurd hkey (by simp)
  · exact absurd hkey (by simp)

namespace Schema

/-- What a step makes of schemas. -/
def step : Step → List Schema → Option Schema
  | .access _ columns _, [] => some (.relation columns.toFinset)
  | .selection, [.relation columns, .condition] => some (.relation columns)
  | .join, [.relation outer, .relation inner, .condition] => some (.relation (outer ∪ inner))
  | .aggregate grouping aggregates, [.relation columns] =>
    if grouping.toFinset ⊆ columns then some (.relation (grouping ++ aggregates).toFinset) else none
  | .unchanged, [schema] => some schema
  | .condition _, [] => some .condition
  | _, _ => none

/-- Whether the keys of a hash join are columns of its inputs. Other operators have no keys. -/
def HasKeys : Operator → List Schema → Prop
  | .physical (.hashJoin outerKeys innerKeys), schemas =>
    ∃ outer inner test, schemas = [.relation outer, .relation inner, test] ∧
      outerKeys.toFinset ⊆ outer ∧ innerKeys.toFinset ⊆ inner
  | _, _ => True

open Classical in
/-- The schema that an operator delivers over those of its children. -/
noncomputable def apply (op : Operator) (schemas : List Schema) : Option Schema :=
  if HasKeys op schemas then op.step?.bind (step · schemas) else none

/-- The columns of a relation are the output of its group. -/
def Fits : GroupProperties → Schema → Prop
  | .relation properties, .relation columns => ∀ column, column ∈ columns ↔ column ∈ properties.output
  | .scalar _, .condition => True
  | _, _ => False

/-- Properties that fit columns are those of a relation. -/
theorem Fits.of_relation {properties : GroupProperties} {columns : Finset Column}
    (h : Fits properties (.relation columns)) : ∃ found, properties = .relation found ∧
      ∀ column, column ∈ columns ↔ column ∈ found.output := by
  cases properties with
  | relation found => exact ⟨found, rfl, h⟩
  | scalar _ => exact h.elim

/-! ## What steps need -/

variable {schemas : List Schema} {schema : Schema}

theorem step_access {table : Nat} {columns : List Column} {scan : Option ScanId}
    (h : step (.access table columns scan) schemas = some schema) :
    schemas = [] ∧ schema = .relation columns.toFinset := by
  unfold step at h
  split at h <;> simp_all

theorem step_selection (h : step .selection schemas = some schema) :
    ∃ columns, schemas = [.relation columns, .condition] ∧ schema = .relation columns := by
  unfold step at h
  split at h <;> first | exact ⟨_, rfl, (Option.some.inj h).symm⟩ | simp_all

theorem step_join (h : step .join schemas = some schema) :
    ∃ outer inner, schemas = [.relation outer, .relation inner, .condition] ∧
      schema = .relation (outer ∪ inner) := by
  unfold step at h
  split at h <;> simp_all

theorem step_aggregate {grouping aggregates : List Column}
    (h : step (.aggregate grouping aggregates) schemas = some schema) :
    ∃ columns, schemas = [.relation columns] ∧ grouping.toFinset ⊆ columns ∧
      schema = .relation (grouping ++ aggregates).toFinset := by
  unfold step at h
  split at h <;> simp_all

theorem step_unchanged (h : step .unchanged schemas = some schema) : schemas = [schema] := by
  unfold step at h
  split at h <;> simp_all

theorem step_condition {predicate : Scalar} (h : step (.condition predicate) schemas = some schema) :
    schemas = [] ∧ schema = .condition := by
  unfold step at h
  split at h <;> simp_all

/-- An operator that delivers a schema takes a step, and its keys are columns of its inputs. -/
theorem apply_eq_some {op : Operator} :
    apply op schemas = some schema ↔
      HasKeys op schemas ∧ ∃ taken, op.step? = some taken ∧ step taken schemas = some schema := by
  unfold apply
  split
  · rename_i hkeys
    simp [hkeys, Option.bind_eq_some_iff]
  · rename_i hkeys
    simp [hkeys]

/-- Logical operators deliver the output of their group. -/
theorem fits_properties {op : LogicalOperator} {below : List GroupProperties}
    (hbelow : List.Forall₂ Fits below schemas)
    (hschema : apply (.logical op) schemas = some schema) :
    Fits (.relation (op.properties below)) schema := by
  obtain ⟨_, taken, htaken, hstep⟩ := apply_eq_some.mp hschema
  cases op with
  | custom _ => simp [Operator.step?, LogicalOperator.step?] at htaken
  | get access =>
      obtain rfl := Option.some.inj htaken
      obtain ⟨rfl, rfl⟩ := step_access hstep
      intro column
      simp [LogicalOperator.properties]
  | select =>
      obtain rfl := Option.some.inj htaken
      obtain ⟨columns, rfl, rfl⟩ := step_selection hstep
      obtain _ | ⟨hinput, _⟩ := hbelow
      obtain ⟨found, rfl, hcolumns⟩ := hinput.of_relation
      exact hcolumns
  | innerJoin =>
      obtain rfl := Option.some.inj htaken
      obtain ⟨outer, inner, rfl, rfl⟩ := step_join hstep
      obtain _ | ⟨houter, _ | ⟨hinner, _⟩⟩ := hbelow
      obtain ⟨outerFound, rfl, houter⟩ := houter.of_relation
      obtain ⟨innerFound, rfl, hinner⟩ := hinner.of_relation
      intro column
      rw [Finset.mem_union, houter, hinner, ← KeyedSet.mem_union]
      rfl
  | groupBy grouping aggregates =>
      obtain rfl := Option.some.inj htaken
      obtain ⟨columns, rfl, _, rfl⟩ := step_aggregate hstep
      intro column
      simp [LogicalOperator.properties]

/-- Equal hash joins have equal keys. -/
theorem hasKeys_of_same {left right : Operator} (h : left.same right = true) :
    HasKeys left schemas ↔ HasKeys right schemas := by
  cases left with
  | physical left =>
      cases right with
      | physical right =>
          cases left <;> cases right <;>
            simp_all [Operator.same, PhysicalOperator.same, HasKeys]
      | logical _ | scalar _ => simp [Operator.same] at h
  | logical left =>
      cases right with
      | logical _ => exact Iff.rfl
      | physical _ | scalar _ => simp [Operator.same] at h
  | scalar left =>
      cases right with
      | scalar _ => exact Iff.rfl
      | physical _ | logical _ => simp [Operator.same] at h

/-- Operators by the columns that they deliver. -/
noncomputable def reading : Reading Schema where
  apply := apply
  fits := Fits
  apply_same left right schemas h := by
    refine Option.ext fun schema => ?_
    rw [apply_eq_some, apply_eq_some, hasKeys_of_same h]
    rcases Operator.step?_eq_of_same h with hstep | ⟨predicate, predicate', rfl, rfl, _⟩
    · rw [hstep]
    · cases schemas <;> simp [Operator.step?, step]
  apply_perm op left right h _ := by
    cases op with
    | logical op => cases op <;> first | rfl | simp [Operator.orderSensitive,
        LogicalOperator.orderSensitive] at h
    | physical _ | scalar _ => simp [Operator.orderSensitive] at h
  fits_relation _ _ _ _ hbelow hschema := fits_properties hbelow hschema
  fits_scalar op below schemas schema _ hschema := by
    obtain ⟨_, taken, htaken, hstep⟩ := apply_eq_some.mp hschema
    cases op with
    | custom _ => simp [Operator.step?] at htaken
    | predicate predicate =>
        obtain rfl := Option.some.inj htaken
        obtain ⟨_, rfl⟩ := step_condition hstep
        trivial
  apply_enforcer op schema hcatalogued henforcer := by
    refine apply_eq_some.mpr ⟨?_, .unchanged, ?_, rfl⟩ <;> cases op <;>
      simp_all [PhysicalOperator.isCatalogued, PhysicalOperator.isEnforcer,
        PhysicalOperator.enforcerKind?, HasKeys, Operator.step?, PhysicalOperator.step?]

/-! ## Laws -/

theorem reading_join {outer inner test joined : Schema} :
    reading.join outer inner test = some joined ↔
      ∃ left right, outer = .relation left ∧ inner = .relation right ∧ test = .condition ∧
        joined = .relation (left ∪ right) := by
  refine apply_eq_some.trans ⟨?_, ?_⟩
  · rintro ⟨_, taken, htaken, hstep⟩
    obtain rfl := Option.some.inj htaken
    obtain ⟨left, right, hschemas, rfl⟩ := step_join hstep
    simp only [List.cons.injEq, and_true] at hschemas
    exact ⟨left, right, hschemas.1, hschemas.2.1, hschemas.2.2, rfl⟩
  · rintro ⟨left, right, rfl, rfl, rfl, rfl⟩
    exact ⟨trivial, .join, rfl, rfl⟩

theorem reading_select {input test kept : Schema} :
    reading.select input test = some kept ↔
      ∃ columns, input = .relation columns ∧ test = .condition ∧
        kept = .relation columns := by
  refine apply_eq_some.trans ⟨?_, ?_⟩
  · rintro ⟨_, taken, htaken, hstep⟩
    obtain rfl := Option.some.inj htaken
    obtain ⟨columns, hschemas, rfl⟩ := step_selection hstep
    simp only [List.cons.injEq, and_true] at hschemas
    exact ⟨columns, hschemas.1, hschemas.2, rfl⟩
  · rintro ⟨columns, rfl, rfl, rfl⟩
    exact ⟨trivial, .selection, rfl, rfl⟩

theorem reading_condition {predicate : Scalar} :
    reading.condition predicate = some .condition :=
  apply_eq_some.mpr ⟨trivial, .condition predicate, rfl, rfl⟩

theorem reading_joinBy {outer inner : Finset Column} {parts : List Scalar} :
    reading.joinBy (.relation outer) (.relation inner) parts = some (.relation (outer ∪ inner)) := by
  unfold Reading.joinBy
  rw [reading_condition, Option.bind_some]
  exact reading_join.mpr ⟨outer, inner, rfl, rfl, rfl, rfl⟩

theorem reading_selectBy {columns : Finset Column} {parts : List Scalar} :
    reading.selectBy (.relation columns) parts = some (.relation columns) := by
  unfold Reading.selectBy
  split
  · rfl
  · rw [reading_condition, Option.bind_some]
    exact reading_select.mpr ⟨columns, rfl, rfl, rfl⟩

/-- Only predicates are conditions. -/
theorem reading_predicates {op : Operator} (hphysical : op.isPhysical = false)
    (hschema : reading.apply op schemas = some schema) (hcondition : reading.IsCondition schema) :
    ∃ predicate, op = .scalar (.predicate predicate) := by
  obtain rfl : schema = .condition := by
    rcases hcondition with ⟨outer, inner, joined, h⟩ | ⟨input, kept, h⟩
    · obtain ⟨_, _, _, _, hcondition, _⟩ := reading_join.mp h
      exact hcondition
    · obtain ⟨_, _, hcondition, _⟩ := reading_select.mp h
      exact hcondition
  obtain ⟨_, taken, htaken, hstep⟩ := apply_eq_some.mp hschema
  cases op with
  | physical op => simp [Operator.isPhysical, Operator.physical?] at hphysical
  | scalar op =>
      cases op with
      | predicate predicate => exact ⟨predicate, rfl⟩
      | custom _ => simp [Operator.step?] at htaken
  | logical op =>
      cases op with
      | get access =>
          obtain rfl := Option.some.inj htaken
          cases (step_access hstep).2
      | select =>
          obtain rfl := Option.some.inj htaken
          obtain ⟨_, _, h⟩ := step_selection hstep
          cases h
      | innerJoin =>
          obtain rfl := Option.some.inj htaken
          obtain ⟨_, _, _, h⟩ := step_join hstep
          cases h
      | groupBy _ _ =>
          obtain rfl := Option.some.inj htaken
          obtain ⟨_, _, _, h⟩ := step_aggregate hstep
          cases h
      | custom _ => simp [Operator.step?, LogicalOperator.step?] at htaken

/-- The rules keep the columns of groups. -/
theorem admitsRules : reading.AdmitsRules where
  predicates := reading_predicates
  joinComm h := by
    obtain ⟨outer, inner, rfl, rfl, rfl, rfl⟩ := reading_join.mp h
    rw [Finset.union_comm]
    exact reading_join.mpr ⟨inner, outer, rfl, rfl, rfl, rfl⟩
  joinAssoc _ _ _ _ hbelow habove := by
    obtain ⟨stay, moved, rfl, rfl, _, rfl⟩ := reading_join.mp hbelow
    obtain ⟨below, last, hbelow, rfl, _, rfl⟩ := reading_join.mp habove
    obtain rfl := Schema.relation.inj hbelow
    dsimp only
    rw [reading_joinBy, Option.bind_some, reading_joinBy, Finset.union_assoc]
  selectJoin _ _ _ _ hbelow habove := by
    obtain ⟨outer, inner, rfl, rfl, _, rfl⟩ := reading_join.mp hbelow
    obtain ⟨columns, hbelow, _, rfl⟩ := reading_select.mp habove
    obtain rfl := Schema.relation.inj hbelow
    dsimp only
    rw [reading_selectBy, Option.bind_some, reading_selectBy, Option.bind_some, reading_joinBy]
  scans h := ⟨h, fun _ => h⟩
  filters h := h
  nestedLoops h := h
  hashJoins {outer inner test value predicate outerProperties innerProperties} houter hinner _
      hjoin := by
    obtain ⟨left, right, rfl, rfl, rfl, rfl⟩ := reading_join.mp hjoin
    obtain ⟨outerFound, rfl, houter⟩ := Fits.of_relation houter
    obtain ⟨innerFound, rfl, hinner⟩ := Fits.of_relation hinner
    refine apply_eq_some.mpr ⟨⟨left, right, .condition, rfl, ?_, ?_⟩, .join, rfl, rfl⟩
    · intro column hcolumn
      obtain ⟨key, hkey, rfl⟩ := List.mem_map.mp (List.mem_toFinset.mp hcolumn)
      exact (houter key.1).mpr (Scalar.of_mem_joinKeys hkey).1
    · intro column hcolumn
      obtain ⟨key, hkey, rfl⟩ := List.mem_map.mp (List.mem_toFinset.mp hcolumn)
      exact (hinner key.2).mpr (Scalar.of_mem_joinKeys hkey).2
  aggregates h := ⟨h, h⟩

end Schema

end QueryPlanner
