import QueryPlanner.Proofs.Meaning.Operators
import QueryPlanner.Proofs.Meaning.Scope
import QueryPlanner.Proofs.Rule.Laws

/-!
# The reading of operators as relational algebra

`Interpretation.reading` reads operators as the algebra of relations with their columns, where a
join has a value only if its inputs can be joined. The laws that the rules rest on hold for it
(`Interpretation.admitsRules`): predicates move by conjuncts, and together the conjuncts read and
keep the same.
-/

namespace QueryPlanner

variable {V : Type}

/-- What a group stands for, with columns. -/
inductive ScopedValue (V : Type) where
  | relation (relation : Relation V)
  | condition (condition : Condition V)

namespace Interpretation

variable (meaning : Interpretation V)

/-- A table access as a relation. -/
def accessRelation (table : Nat) (columns : List Column) (scan : Option ScanId) : Relation V where
  columns := columns.toFinset
  joins := false
  outside := ∅
  rows := meaning.accessed table columns scan
  within row hrow := by
    obtain ⟨read, _, rfl⟩ := Multiset.mem_map.mp hrow
    exact Row.within_restrict columns read

/-- An aggregate as a relation. -/
def aggregateRelation (grouping aggregates : List Column) (input : Relation V) : Relation V where
  columns := (grouping ++ aggregates).toFinset
  joins := false
  outside := ∅
  rows := meaning.aggregated grouping aggregates input.rows
  within row hrow := by
    obtain ⟨read, _, rfl⟩ := Multiset.mem_map.mp hrow
    exact Row.within_restrict _ read

/-- What a step makes of values with columns. A join needs inputs that can be joined. -/
def applyScoped : Step → List (ScopedValue V) → Option (ScopedValue V)
  | .access table columns scan, [] => some (.relation (meaning.accessRelation table columns scan))
  | .selection, [.relation input, .condition condition] => some (.relation (input.select condition))
  | .join, [.relation outer, .relation inner, .condition condition] =>
    if outer.Joinable inner then some (.relation (outer.join inner condition)) else none
  | .aggregate grouping aggregates, [.relation input] =>
    some (.relation (meaning.aggregateRelation grouping aggregates input))
  | .unchanged, [value] => some value
  | .condition predicate, [] => some (.condition (meaning.condition predicate))
  | _, _ => none

/-- Equal predicates are the same condition. -/
theorem condition_eq_of_same {predicate predicate' : Scalar} (h : predicate.same predicate' = true) :
    meaning.condition predicate = meaning.condition predicate' := by
  refine Condition.ext ?_ ?_
  · exact congrArg List.toFinset (Scalar.columnList_eq_of_same predicate predicate' h)
  · exact funext fun row => congrArg (·.map meaning.truth) (eval_eq_of_same row predicate predicate' h)

/-- The columns of a relation are the output of its group. -/
def Fits : GroupProperties → ScopedValue V → Prop
  | .relation properties, .relation relation =>
    ∀ column, column ∈ relation.columns ↔ column ∈ properties.output
  | .scalar _, .condition _ => True
  | _, _ => False

/-- Properties that fit a relation are those of one. -/
theorem Fits.of_relation {properties : GroupProperties} {relation : Relation V}
    (h : Fits properties (.relation relation)) : ∃ found, properties = .relation found ∧
      ∀ column, column ∈ relation.columns ↔ column ∈ found.output := by
  cases properties with
  | relation found => exact ⟨found, rfl, h⟩
  | scalar _ => exact h.elim

/-! ## What steps need -/

variable {meaning} {values : List (ScopedValue V)} {value : ScopedValue V}

theorem applyScoped_access {table : Nat} {columns : List Column} {scan : Option ScanId}
    (h : meaning.applyScoped (.access table columns scan) values = some value) :
    values = [] ∧ value = .relation (meaning.accessRelation table columns scan) := by
  unfold applyScoped at h
  split at h <;> simp_all

theorem applyScoped_selection (h : meaning.applyScoped .selection values = some value) :
    ∃ input condition, values = [.relation input, .condition condition] ∧
      value = .relation (input.select condition) := by
  unfold applyScoped at h
  split at h <;> simp_all

theorem applyScoped_join (h : meaning.applyScoped .join values = some value) :
    ∃ outer inner condition, values = [.relation outer, .relation inner, .condition condition] ∧
      outer.Joinable inner ∧ value = .relation (outer.join inner condition) := by
  unfold applyScoped at h
  split at h <;> simp_all

theorem applyScoped_aggregate {grouping aggregates : List Column}
    (h : meaning.applyScoped (.aggregate grouping aggregates) values = some value) :
    ∃ input, values = [.relation input] ∧
      value = .relation (meaning.aggregateRelation grouping aggregates input) := by
  unfold applyScoped at h
  split at h <;> simp_all

theorem applyScoped_condition {predicate : Scalar}
    (h : meaning.applyScoped (.condition predicate) values = some value) :
    values = [] ∧ value = .condition (meaning.condition predicate) := by
  unfold applyScoped at h
  split at h <;> simp_all

/-- Logical operators compute relations whose columns are the output of their group. -/
theorem fits_applyScoped {op : LogicalOperator} {below : List GroupProperties}
    (hbelow : List.Forall₂ Fits below values)
    (hvalue : op.step?.bind (meaning.applyScoped · values) = some value) :
    Fits (.relation (op.properties below)) value := by
  cases op with
  | custom _ => simp [LogicalOperator.step?] at hvalue
  | get access =>
      obtain ⟨rfl, rfl⟩ := applyScoped_access hvalue
      intro column
      simp [accessRelation, LogicalOperator.properties]
  | select =>
      obtain ⟨input, condition, rfl, rfl⟩ := applyScoped_selection hvalue
      obtain _ | ⟨hinput, _⟩ := hbelow
      obtain ⟨found, rfl, hcolumns⟩ := hinput.of_relation
      exact hcolumns
  | innerJoin =>
      obtain ⟨outer, inner, condition, rfl, _, rfl⟩ := applyScoped_join hvalue
      obtain _ | ⟨houter, _ | ⟨hinner, _⟩⟩ := hbelow
      obtain ⟨outerFound, rfl, houter⟩ := houter.of_relation
      obtain ⟨innerFound, rfl, hinner⟩ := hinner.of_relation
      intro column
      rw [Relation.columns_join, Finset.mem_union, houter, hinner, ← KeyedSet.mem_union]
      rfl
  | groupBy grouping aggregates =>
      obtain ⟨input, rfl, rfl⟩ := applyScoped_aggregate hvalue
      intro column
      simp [aggregateRelation, LogicalOperator.properties]

variable (meaning)

/-- Operators as the algebra of relations with their columns. -/
def reading : Reading (ScopedValue V) where
  apply op values := op.step?.bind (meaning.applyScoped · values)
  fits := Fits
  apply_same left right values h := by
    rcases Operator.step?_eq_of_same h with hstep | ⟨predicate, predicate', rfl, rfl, hsame⟩
    · rw [hstep]
    · cases values with
      | nil =>
          exact congrArg (fun condition => some (ScopedValue.condition condition))
            (meaning.condition_eq_of_same hsame)
      | cons _ _ => rfl
  apply_perm op left right h _ := by
    cases op with
    | logical op => cases op <;> first | rfl | simp [Operator.orderSensitive,
        LogicalOperator.orderSensitive] at h
    | physical _ | scalar _ => simp [Operator.orderSensitive] at h
  fits_relation _ _ _ _ hbelow hvalue := fits_applyScoped hbelow hvalue
  fits_scalar op below values value _ hvalue := by
    cases op with
    | custom _ => simp [Operator.step?] at hvalue
    | predicate predicate =>
        obtain ⟨_, rfl⟩ := applyScoped_condition hvalue
        trivial
  apply_enforcer op value hcatalogued henforcer := by
    cases op <;> first | rfl | simp_all [PhysicalOperator.isCatalogued, PhysicalOperator.isEnforcer,
      PhysicalOperator.enforcerKind?]

/-! ## Conjuncts as conditions -/

variable {meaning} {predicate : Scalar} {parts parts' : List Scalar} {column : Column} {row : Row V}

theorem mem_reads_condition : column ∈ (meaning.condition predicate).reads ↔
    ∃ part ∈ predicate.conjuncts, column ∈ part.columnList :=
  List.mem_toFinset.trans (Scalar.mem_columnList_iff_conjuncts predicate)

theorem mem_reads_conjunction : column ∈ (meaning.condition (.conjunction parts)).reads ↔
    ∃ part ∈ parts, column ∈ part.columnList :=
  List.mem_toFinset.trans Scalar.mem_columnList_conjunction

theorem holds_condition : (meaning.condition predicate).holds row = some true ↔
    ∀ part ∈ predicate.conjuncts, meaning.keeps part row :=
  keeps_iff_conjuncts predicate

theorem holds_conjunction : (meaning.condition (.conjunction parts)).holds row = some true ↔
    ∀ part ∈ parts, meaning.keeps part row :=
  keeps_conjunction

/-- A conjunction of predicates that read from some columns only. -/
theorem reads_conjunction_subset {columns : Finset Column}
    (h : ∀ part ∈ parts, ∀ column ∈ part.columnList, column ∈ columns) :
    (meaning.condition (.conjunction parts)).reads ⊆ columns := by
  intro column hcolumn
  obtain ⟨part, hpart, hread⟩ := mem_reads_conjunction.mp hcolumn
  exact h part hpart column hread

/-- A conjunct for which the test says that it is on one side of a partition. -/
theorem partition_subset (available : ColumnSet) {test : Scalar → Bool} {columns : Finset Column}
    (htest : ∀ part, test part = true → part.columns.subset available = true)
    (havailable : ∀ column ∈ available, column ∈ columns) :
    (meaning.condition (.conjunction (parts.partition test).1)).reads ⊆ columns := by
  refine reads_conjunction_subset fun part hpart column hcolumn => havailable column ?_
  rw [List.partition_eq_filter_filter] at hpart
  have hsubset := KeyedSet.subset_iff.mp (htest part (List.mem_filter.mp hpart).2)
  exact hsubset column (KeyedSet.mem_ofList.mpr hcolumn)

/-! ## Laws -/

theorem reading_join {outer inner condition joined : ScopedValue V} :
    meaning.reading.join outer inner condition = some joined ↔
      ∃ left right test, outer = .relation left ∧ inner = .relation right ∧
        condition = .condition test ∧ left.Joinable right ∧ joined = .relation (left.join right test) := by
  constructor
  · intro h
    obtain ⟨left, right, test, hvalues, hjoinable, rfl⟩ := applyScoped_join h
    simp only [List.cons.injEq, and_true] at hvalues
    exact ⟨left, right, test, hvalues.1, hvalues.2.1, hvalues.2.2, hjoinable, rfl⟩
  · rintro ⟨left, right, test, rfl, rfl, rfl, hjoinable, rfl⟩
    exact if_pos hjoinable

theorem reading_select {relation condition kept : ScopedValue V} :
    meaning.reading.select relation condition = some kept ↔
      ∃ input test, relation = .relation input ∧ condition = .condition test ∧
        kept = .relation (input.select test) := by
  constructor
  · intro h
    obtain ⟨input, test, hvalues, rfl⟩ := applyScoped_selection h
    simp only [List.cons.injEq, and_true] at hvalues
    exact ⟨input, test, hvalues.1, hvalues.2, rfl⟩
  · rintro ⟨input, test, rfl, rfl, rfl⟩
    rfl

theorem reading_condition : meaning.reading.condition predicate =
    some (.condition (meaning.condition predicate)) := rfl

theorem reading_joinBy {outer inner : Relation V} (h : outer.Joinable inner) :
    meaning.reading.joinBy (.relation outer) (.relation inner) parts =
      some (.relation (outer.join inner (meaning.condition (.conjunction parts)))) :=
  reading_join.mpr ⟨outer, inner, _, rfl, rfl, rfl, h, rfl⟩

/-- Selecting by no predicate at all is selecting by one that always holds. -/
theorem reading_selectBy {relation : Relation V} :
    meaning.reading.selectBy (.relation relation) parts =
      some (.relation (relation.select (meaning.condition (.conjunction parts)))) := by
  cases parts with
  | nil =>
      exact congrArg (fun kept => some (ScopedValue.relation kept))
        (Relation.select_always meaning relation).symm
  | cons _ _ => rfl

/-- Predicates read what the conjunction of their conjuncts reads. -/
theorem reads_union {lower upper : Scalar} :
    (meaning.condition lower).reads ∪ (meaning.condition upper).reads =
      (meaning.condition (.conjunction (lower.conjuncts ++ upper.conjuncts))).reads := by
  ext column
  rw [Finset.mem_union, mem_reads_condition, mem_reads_condition, mem_reads_conjunction]
  simp only [List.mem_append, or_and_right, exists_or]

theorem reads_conjunction_append :
    (meaning.condition (.conjunction (parts ++ parts'))).reads =
      (meaning.condition (.conjunction parts)).reads ∪
        (meaning.condition (.conjunction parts')).reads := by
  ext column
  rw [Finset.mem_union, mem_reads_conjunction, mem_reads_conjunction, mem_reads_conjunction]
  simp only [List.mem_append, or_and_right, exists_or]

/-- Predicates hold where the conjunction of their conjuncts holds. -/
theorem holds_and {lower upper : Scalar} :
    (meaning.condition lower).holds row = some true ∧
        (meaning.condition upper).holds row = some true ↔
      (meaning.condition (.conjunction (lower.conjuncts ++ upper.conjuncts))).holds row =
        some true := by
  rw [holds_condition, holds_condition, holds_conjunction, List.forall_mem_append]

theorem holds_conjunction_append :
    (meaning.condition (.conjunction (parts ++ parts'))).holds row = some true ↔
      (meaning.condition (.conjunction parts)).holds row = some true ∧
        (meaning.condition (.conjunction parts')).holds row = some true := by
  rw [holds_conjunction, holds_conjunction, holds_conjunction, List.forall_mem_append]

/-- The order of conjuncts is no matter. -/
theorem reads_conjunction_perm (h : parts.Perm parts') :
    (meaning.condition (.conjunction parts)).reads =
      (meaning.condition (.conjunction parts')).reads := by
  ext column
  rw [mem_reads_conjunction, mem_reads_conjunction]
  exact exists_congr fun part => and_congr_left fun _ => h.mem_iff

theorem holds_conjunction_perm (h : parts.Perm parts') :
    (meaning.condition (.conjunction parts)).holds row = some true ↔
      (meaning.condition (.conjunction parts')).holds row = some true := by
  rw [holds_conjunction, holds_conjunction]
  exact forall_congr' fun part => imp_congr_left h.mem_iff

/-- Both sides of a partition make up the list. -/
theorem partition_perm (test : Scalar → Bool) (parts : List Scalar) :
    ((parts.partition test).1 ++ (parts.partition test).2).Perm parts := by
  rw [List.partition_eq_filter_filter]
  exact List.filter_append_perm test parts

/-- Joins associate as the rule does it. -/
theorem reading_joinAssoc {stay moved last lowerValue upperValue lowerJoin joined : ScopedValue V}
    {lower upper : Scalar} {movedProperties lastProperties : GroupProperties}
    (hmoved : Fits movedProperties moved) (hlast : Fits lastProperties last)
    (hlower : meaning.reading.condition lower = some lowerValue)
    (hupper : meaning.reading.condition upper = some upperValue)
    (hbelow : meaning.reading.join stay moved lowerValue = some lowerJoin)
    (habove : meaning.reading.join lowerJoin last upperValue = some joined) :
    let connecting := Rule.connects movedProperties.relationOrEmpty.output
      lastProperties.relationOrEmpty.output
    let split := upper.conjuncts.partition connecting
    (meaning.reading.joinBy moved last split.1).bind (fun below =>
      meaning.reading.joinBy stay below (lower.conjuncts ++ split.2)) = some joined := by
  intro connecting split
  obtain rfl := Option.some.inj hlower
  obtain rfl := Option.some.inj hupper
  obtain ⟨stay, moved, test, rfl, rfl, htest, hlowerJoinable, rfl⟩ := reading_join.mp hbelow
  obtain ⟨below, last, test', hbelow, rfl, htest', hjoinable, rfl⟩ := reading_join.mp habove
  obtain rfl := ScopedValue.relation.inj hbelow
  obtain rfl := ScopedValue.condition.inj htest
  obtain rfl := ScopedValue.condition.inj htest'
  obtain ⟨movedFound, rfl, hmoved⟩ := hmoved.of_relation
  obtain ⟨lastFound, rfl, hlast⟩ := hlast.of_relation
  have hconnects : (meaning.condition (.conjunction split.1)).reads ⊆ moved.columns ∪ last.columns := by
    refine partition_subset (movedFound.output.union lastFound.output)
      (fun part hpart => ?_) (fun column hcolumn => ?_)
    · simp only [connecting, Rule.connects, Bool.and_eq_true] at hpart
      exact hpart.1.1
    · rw [Finset.mem_union, hmoved, hlast]
      exact KeyedSet.mem_union.mp hcolumn
  have hregrouped : (lower.conjuncts ++ upper.conjuncts).Perm
      (split.1 ++ (lower.conjuncts ++ split.2)) :=
    ((partition_perm connecting upper.conjuncts).symm.append_left _).trans
      (List.perm_append_comm_assoc _ _ _)
  rw [reading_joinBy hjoinable.moved_last, Option.bind_some,
    reading_joinBy (hlowerJoinable.stay_join hjoinable hconnects)]
  refine congrArg (fun relation => some (ScopedValue.relation relation)) (Eq.symm ?_)
  refine Relation.join_assoc hlowerJoinable hjoinable hconnects ?_ fun row => ?_
  · rw [reads_union, reads_conjunction_perm hregrouped, reads_conjunction_append]
  · rw [holds_and, holds_conjunction_perm hregrouped, holds_conjunction_append]

/-- A selection above a join is split as the rule does it. -/
theorem reading_selectJoin {outer inner lowerValue upperValue lowerJoin kept : ScopedValue V}
    {lower upper : Scalar} {outerProperties innerProperties : GroupProperties}
    (houter : Fits outerProperties outer) (hinner : Fits innerProperties inner)
    (hlower : meaning.reading.condition lower = some lowerValue)
    (hupper : meaning.reading.condition upper = some upperValue)
    (hbelow : meaning.reading.join outer inner lowerValue = some lowerJoin)
    (habove : meaning.reading.select lowerJoin upperValue = some kept) :
    let split := Rule.splitConjuncts upper outerProperties.relationOrEmpty.output
      innerProperties.relationOrEmpty.output
    (meaning.reading.selectBy outer split.outer).bind (fun left =>
      (meaning.reading.selectBy inner split.inner).bind fun right =>
        meaning.reading.joinBy left right (lower.conjuncts ++ split.join)) = some kept := by
  intro split
  obtain rfl := Option.some.inj hlower
  obtain rfl := Option.some.inj hupper
  obtain ⟨outer, inner, test, rfl, rfl, htest, hjoinable, rfl⟩ := reading_join.mp hbelow
  obtain ⟨below, test', hbelow, htest', rfl⟩ := reading_select.mp habove
  obtain rfl := ScopedValue.relation.inj hbelow
  obtain rfl := ScopedValue.condition.inj htest
  obtain rfl := ScopedValue.condition.inj htest'
  obtain ⟨outerFound, rfl, houter⟩ := houter.of_relation
  obtain ⟨innerFound, rfl, hinner⟩ := hinner.of_relation
  have hleft : (meaning.condition (.conjunction split.outer)).reads ⊆ outer.columns :=
    partition_subset _ (fun _ hpart => hpart) fun column => (houter column).mpr
  have hright : (meaning.condition (.conjunction split.inner)).reads ⊆ inner.columns :=
    partition_subset _ (fun _ hpart => hpart) fun column => (hinner column).mpr
  have hregrouped : (lower.conjuncts ++ upper.conjuncts).Perm
      (split.outer ++ split.inner ++ (lower.conjuncts ++ split.join)) := by
    have hsides : (split.outer ++ (split.inner ++ split.join)).Perm upper.conjuncts :=
      ((partition_perm _ _).append_left _).trans (partition_perm _ _)
    rw [← List.append_assoc] at hsides
    exact (hsides.symm.append_left _).trans (List.perm_append_comm_assoc _ _ _)
  rw [reading_selectBy, Option.bind_some, reading_selectBy, Option.bind_some,
    reading_joinBy (hjoinable.select hleft hright)]
  refine congrArg (fun relation => some (ScopedValue.relation relation)) (Eq.symm ?_)
  refine Relation.select_join hjoinable hleft hright ?_ fun row => ?_
  · rw [reads_union, reads_conjunction_perm hregrouped, reads_conjunction_append,
      reads_conjunction_append]
  · rw [holds_and, holds_conjunction_perm hregrouped, holds_conjunction_append,
      holds_conjunction_append, and_assoc]

/-- Only predicates are conditions. -/
theorem reading_predicates {op : Operator} {values : List (ScopedValue V)} {value : ScopedValue V}
    (hphysical : op.isPhysical = false) (hvalue : meaning.reading.apply op values = some value)
    (hcondition : meaning.reading.IsCondition value) :
    ∃ predicate, op = .scalar (.predicate predicate) := by
  obtain ⟨test, rfl⟩ : ∃ test, value = .condition test := by
    rcases hcondition with ⟨outer, inner, joined, h⟩ | ⟨relation, kept, h⟩
    · obtain ⟨_, _, test, _, _, htest, _⟩ := reading_join.mp h
      exact ⟨test, htest⟩
    · obtain ⟨_, test, _, htest, _⟩ := reading_select.mp h
      exact ⟨test, htest⟩
  cases op with
  | physical op => simp [Operator.isPhysical, Operator.physical?] at hphysical
  | scalar op =>
      cases op with
      | predicate predicate => exact ⟨predicate, rfl⟩
      | custom _ => simp [reading, Operator.step?] at hvalue
  | logical op =>
      cases op with
      | get access => cases (applyScoped_access hvalue).2
      | select =>
          obtain ⟨_, _, _, h⟩ := applyScoped_selection hvalue
          cases h
      | innerJoin =>
          obtain ⟨_, _, _, _, _, h⟩ := applyScoped_join hvalue
          cases h
      | groupBy _ _ =>
          obtain ⟨_, _, h⟩ := applyScoped_aggregate hvalue
          cases h
      | custom _ => simp [reading, Operator.step?, LogicalOperator.step?] at hvalue

/-- The algebra of relations has the laws that the rules rest on. -/
theorem admitsRules (meaning : Interpretation V) : meaning.reading.AdmitsRules where
  predicates := reading_predicates
  joinComm h := by
    obtain ⟨outer, inner, test, rfl, rfl, rfl, hjoinable, rfl⟩ := reading_join.mp h
    rw [Relation.join_comm test hjoinable.columns]
    exact reading_join.mpr ⟨inner, outer, test, rfl, rfl, rfl, hjoinable.symm, rfl⟩
  joinAssoc := reading_joinAssoc
  selectJoin := reading_selectJoin
  scans h := ⟨h, fun _ => h⟩
  filters h := h
  nestedLoops h := h
  hashJoins _ _ _ h := h
  aggregates h := ⟨h, h⟩

end Interpretation

end QueryPlanner
