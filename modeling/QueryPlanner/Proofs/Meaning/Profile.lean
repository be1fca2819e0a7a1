import QueryPlanner.Proofs.Meaning.Operators
import QueryPlanner.Proofs.Rule.Laws

/-!
# Logical properties as values

The logical properties of a relation follow from the accesses that it reads, its columns, whether it
has one row at most and the number of its joins. `Profile.reading` reads operators by what they do to
these. Joins combine them in any order, and neither predicates nor selections change them, so the
rules keep profiles (`Profile.admitsRules`). Which scans consume partitions is known of the accesses
only, since two accesses are the same whatever is known of their table; `Profile.Fits` says what the
properties of a group with a profile are once that is settled, and
`Profile.fits_properties` that operators derive such properties from such properties.
-/

namespace QueryPlanner

/-- What tells accesses apart: the number of the table, the columns and the scan. -/
abbrev AccessKey := Nat × List Column × Option ScanId

/-- The key of an access. -/
def TableAccess.key (access : TableAccess) : AccessKey :=
  (access.table.id, access.columns, access.scan)

theorem TableAccess.same_iff {left right : TableAccess} :
    left.same right = true ↔ left.key = right.key := by
  simp [same, key, and_assoc]

/-- What the logical properties of a relation depend on. -/
structure RelationProfile where
  accesses : Finset AccessKey
  output : ColumnSet
  /-- Whether there is at most one row. -/
  single : Bool
  joins : UInt32

namespace RelationProfile

/-- The bound on the rows. -/
def bound (profile : RelationProfile) : RowBound := if profile.single then ⟨some 1⟩ else {}

/-- A table access. -/
def access (key : AccessKey) : RelationProfile := ⟨{key}, .ofList key.2.1, false, 0⟩

/-- A join. -/
def join (outer inner : RelationProfile) : RelationProfile where
  accesses := outer.accesses ∪ inner.accesses
  output := outer.output.union inner.output
  single := outer.single && inner.single
  joins := outer.joins + inner.joins + 1

/-- A grouping aggregate. -/
def aggregate (grouping aggregates : List Column) (input : RelationProfile) : RelationProfile where
  accesses := input.accesses
  output := .ofList (grouping ++ aggregates)
  single := grouping.isEmpty || input.single
  joins := input.joins

theorem join_comm (outer inner : RelationProfile) : outer.join inner = inner.join outer := by
  unfold join
  congr 1
  · exact Finset.union_comm ..
  · exact KeyedSet.eq_of_mem_iff fun column => by simp [or_comm]
  · exact Bool.and_comm ..
  · rw [UInt32.add_comm outer.joins]

theorem join_assoc (stay moved last : RelationProfile) :
    (stay.join moved).join last = stay.join (moved.join last) := by
  unfold join
  congr 1
  · exact Finset.union_assoc ..
  · exact KeyedSet.eq_of_mem_iff fun column => by simp [or_assoc]
  · exact Bool.and_assoc ..
  · dsimp only
    ac_rfl

theorem bound_join (outer inner : RelationProfile) :
    (outer.join inner).bound = outer.bound.times inner.bound := by
  unfold bound join
  dsimp only
  cases outer.single <;> cases inner.single <;> rfl

theorem bound_aggregate (grouping aggregates : List Column) (input : RelationProfile) :
    (input.aggregate grouping aggregates).bound =
      if grouping.isEmpty then ⟨some 1⟩ else input.bound := by
  unfold bound aggregate
  dsimp only
  cases grouping.isEmpty <;> simp

end RelationProfile

/-- What the logical properties of a group depend on. -/
inductive Profile where
  | relation (relation : RelationProfile)
  | condition (condition : ScalarProperties)

namespace Profile

/-- What a step makes of profiles. -/
def step : Step → List Profile → Option Profile
  | .access table columns scan, [] => some (.relation (.access (table, columns, scan)))
  | .selection, [.relation input, .condition _] => some (.relation input)
  | .join, [.relation outer, .relation inner, .condition _] => some (.relation (outer.join inner))
  | .aggregate grouping aggregates, [.relation input] =>
    some (.relation (input.aggregate grouping aggregates))
  | .unchanged, [profile] => some profile
  | .condition predicate, [] => some (.condition predicate.properties)
  | _, _ => none

/-- The profile of an operator over those of its children. -/
def apply (op : Operator) (profiles : List Profile) : Option Profile :=
  op.step?.bind (step · profiles)

/-! ## What steps need -/

variable {profiles : List Profile} {profile : Profile}

theorem step_access {table : Nat} {columns : List Column} {scan : Option ScanId}
    (h : step (.access table columns scan) profiles = some profile) :
    profiles = [] ∧ profile = .relation (.access (table, columns, scan)) := by
  unfold step at h
  split at h <;> simp_all

theorem step_selection (h : step .selection profiles = some profile) :
    ∃ input condition, profiles = [.relation input, .condition condition] ∧
      profile = .relation input := by
  unfold step at h
  split at h
  · simp_all
  · exact ⟨_, _, rfl, (Option.some.inj h).symm⟩
  all_goals simp_all

theorem step_join (h : step .join profiles = some profile) :
    ∃ outer inner condition, profiles = [.relation outer, .relation inner, .condition condition] ∧
      profile = .relation (outer.join inner) := by
  unfold step at h
  split at h <;> simp_all

theorem step_aggregate {grouping aggregates : List Column}
    (h : step (.aggregate grouping aggregates) profiles = some profile) :
    ∃ input, profiles = [.relation input] ∧
      profile = .relation (input.aggregate grouping aggregates) := by
  unfold step at h
  split at h <;> simp_all

theorem step_condition {predicate : Scalar}
    (h : step (.condition predicate) profiles = some profile) :
    profiles = [] ∧ profile = .condition predicate.properties := by
  unfold step at h
  split at h <;> simp_all

theorem apply_eq_some {op : Operator} : apply op profiles = some profile ↔
    ∃ taken, op.step? = some taken ∧ step taken profiles = some profile :=
  Option.bind_eq_some_iff

/-! ## The reading -/

/-- Operators by what they do to profiles. -/
def reading : Reading Profile where
  apply := apply
  fits _ _ := True
  apply_same left right profiles h := by
    unfold apply
    rcases Operator.step?_eq_of_same h with hstep | ⟨predicate, predicate', rfl, rfl, hsame⟩
    · rw [hstep]
    · have hcolumns := Scalar.columnList_eq_of_same predicate predicate' hsame
      have hlength := Scalar.length_conjuncts_of_same predicate predicate' hsame
      cases profiles <;> simp [Operator.step?, step, Scalar.properties, Scalar.columns, hcolumns,
        hlength]
  apply_perm op left right h _ := by
    cases op with
    | logical op => cases op <;> first | rfl | simp [Operator.orderSensitive,
        LogicalOperator.orderSensitive] at h
    | physical _ | scalar _ => simp [Operator.orderSensitive] at h
  fits_relation _ _ _ _ _ _ := trivial
  fits_scalar _ _ _ _ _ _ := trivial
  apply_enforcer op profile hcatalogued henforcer := by
    refine apply_eq_some.mpr ⟨.unchanged, ?_, rfl⟩
    cases op <;>
      simp_all [PhysicalOperator.isCatalogued, PhysicalOperator.isEnforcer,
        PhysicalOperator.enforcerKind?, Operator.step?, PhysicalOperator.step?]

/-! ## Laws -/

theorem reading_join {outer inner test joined : Profile} :
    reading.join outer inner test = some joined ↔
      ∃ left right condition, outer = .relation left ∧ inner = .relation right ∧
        test = .condition condition ∧ joined = .relation (left.join right) := by
  show apply (.logical .innerJoin) [outer, inner, test] = some joined ↔ _
  refine apply_eq_some.trans ⟨?_, ?_⟩
  · rintro ⟨taken, htaken, hstep⟩
    obtain rfl := Option.some.inj htaken
    obtain ⟨left, right, condition, hprofiles, rfl⟩ := step_join hstep
    simp only [List.cons.injEq, and_true] at hprofiles
    exact ⟨left, right, condition, hprofiles.1, hprofiles.2.1, hprofiles.2.2, rfl⟩
  · rintro ⟨left, right, condition, rfl, rfl, rfl, rfl⟩
    exact ⟨.join, rfl, rfl⟩

theorem reading_select {input test kept : Profile} :
    reading.select input test = some kept ↔
      ∃ relation condition, input = .relation relation ∧ test = .condition condition ∧
        kept = .relation relation := by
  show apply (.logical .select) [input, test] = some kept ↔ _
  refine apply_eq_some.trans ⟨?_, ?_⟩
  · rintro ⟨taken, htaken, hstep⟩
    obtain rfl := Option.some.inj htaken
    obtain ⟨relation, condition, hprofiles, rfl⟩ := step_selection hstep
    simp only [List.cons.injEq, and_true] at hprofiles
    exact ⟨relation, condition, hprofiles.1, hprofiles.2, rfl⟩
  · rintro ⟨relation, condition, rfl, rfl, rfl⟩
    exact ⟨.selection, rfl, rfl⟩

theorem reading_joinBy (outer inner : RelationProfile) (parts : List Scalar) :
    reading.joinBy (.relation outer) (.relation inner) parts =
      some (.relation (outer.join inner)) := rfl

theorem reading_selectBy (input : RelationProfile) (parts : List Scalar) :
    reading.selectBy (.relation input) parts = some (.relation input) := by
  cases parts <;> rfl

/-- Only predicates are conditions. -/
theorem reading_predicates {op : Operator} (hphysical : op.isPhysical = false)
    (hprofile : reading.apply op profiles = some profile) (hcondition : reading.IsCondition profile) :
    ∃ predicate, op = .scalar (.predicate predicate) := by
  obtain ⟨condition, rfl⟩ : ∃ condition, profile = .condition condition := by
    rcases hcondition with ⟨outer, inner, joined, h⟩ | ⟨input, kept, h⟩
    · obtain ⟨_, _, condition, _, _, hcondition, _⟩ := reading_join.mp h
      exact ⟨condition, hcondition⟩
    · obtain ⟨_, condition, _, hcondition, _⟩ := reading_select.mp h
      exact ⟨condition, hcondition⟩
  obtain ⟨taken, htaken, hstep⟩ := apply_eq_some.mp hprofile
  cases op with
  | physical op => simp [Operator.isPhysical, Operator.physical?] at hphysical
  | scalar op =>
      cases op with
      | predicate predicate => exact ⟨predicate, rfl⟩
      | custom _ => simp [Operator.step?] at htaken
  | logical op =>
      cases op with
      | get access =>
          obtain rfl := Option.some.inj htaken
          cases (step_access hstep).2
      | select =>
          obtain rfl := Option.some.inj htaken
          obtain ⟨_, _, _, h⟩ := step_selection hstep
          cases h
      | innerJoin =>
          obtain rfl := Option.some.inj htaken
          obtain ⟨_, _, _, _, h⟩ := step_join hstep
          cases h
      | groupBy _ _ =>
          obtain rfl := Option.some.inj htaken
          obtain ⟨_, _, h⟩ := step_aggregate hstep
          cases h
      | custom _ => simp [Operator.step?, LogicalOperator.step?] at htaken

/-- The rules keep profiles, whatever the conjuncts of the predicates are. -/
theorem admitsRules : reading.AdmitsRules where
  predicates := reading_predicates
  joinComm h := by
    obtain ⟨outer, inner, condition, rfl, rfl, rfl, rfl⟩ := reading_join.mp h
    exact reading_join.mpr ⟨inner, outer, condition, rfl, rfl, rfl, by rw [outer.join_comm]⟩
  joinAssoc _ _ _ _ hbelow habove := by
    obtain ⟨stay, moved, _, rfl, rfl, _, rfl⟩ := reading_join.mp hbelow
    obtain ⟨_, last, _, hlower, rfl, _, rfl⟩ := reading_join.mp habove
    obtain rfl := Profile.relation.inj hlower
    dsimp only
    rw [reading_joinBy, Option.bind_some, reading_joinBy, stay.join_assoc]
  selectJoin _ _ _ _ hbelow habove := by
    obtain ⟨outer, inner, _, rfl, rfl, _, rfl⟩ := reading_join.mp hbelow
    obtain ⟨_, _, hlower, _, rfl⟩ := reading_select.mp habove
    obtain rfl := Profile.relation.inj hlower
    dsimp only
    rw [reading_selectBy, Option.bind_some, reading_selectBy, Option.bind_some, reading_joinBy]
  scans h := ⟨h, fun _ => h⟩
  filters h := h
  nestedLoops h := h
  hashJoins _ _ _ h := h
  aggregates h := ⟨h, h⟩

/-! ## Properties -/

variable {consumes : AccessKey → ScanId → Prop} {properties properties' : GroupProperties}

/-- The properties are those of a group with the profile, when the accesses consume the given
scans. -/
def Fits (consumes : AccessKey → ScanId → Prop) : GroupProperties → Profile → Prop
  | .relation properties, .relation profile =>
    properties.output = profile.output ∧ properties.outerReferences = .empty ∧
      properties.rowBound = profile.bound ∧ properties.joinDepth = profile.joins ∧
      ∀ scan, scan ∈ properties.consumers ↔ ∃ key ∈ profile.accesses, consumes key scan
  | .scalar properties, .condition found => properties = found
  | _, _ => False

/-- A profile settles the properties. -/
theorem Fits.unique (h : Fits consumes properties profile) (h' : Fits consumes properties' profile) :
    properties = properties' := by
  cases profile with
  | condition condition =>
      cases properties with
      | relation _ => exact h.elim
      | scalar found =>
          cases properties' with
          | relation _ => exact h'.elim
          | scalar found' => exact congrArg GroupProperties.scalar (Eq.trans h h'.symm)
  | relation profile =>
      cases properties with
      | scalar _ => exact h.elim
      | relation found =>
          cases properties' with
          | scalar _ => exact h'.elim
          | relation found' =>
              obtain ⟨houtput, houter, hbound, hjoins, hconsumers⟩ := h
              obtain ⟨houtput', houter', hbound', hjoins', hconsumers'⟩ := h'
              have hsame : found.consumers = found'.consumers :=
                KeyedSet.eq_of_mem_iff fun scan => (hconsumers scan).trans (hconsumers' scan).symm
              cases found
              cases found'
              simp_all

/-- Properties that fit a relation are those of one. -/
theorem Fits.relationOrEmpty {relation : RelationProfile}
    (h : Fits consumes properties (.relation relation)) :
    Fits consumes (.relation properties.relationOrEmpty) (.relation relation) := by
  cases properties with
  | relation _ => exact h
  | scalar _ => exact h.elim

/-- Operators derive properties that fit from properties that fit, if an access consumes the scans
that its key is said to consume. -/
theorem fits_properties {op : LogicalOperator} {below : List GroupProperties}
    (hbelow : List.Forall₂ (Fits consumes) below profiles)
    (haccess : ∀ access, op = .get access →
      ∀ scan, access.partitionScan? = some scan ↔ consumes access.key scan)
    (hprofile : apply (.logical op) profiles = some profile) :
    Fits consumes (.relation (op.properties below)) profile := by
  obtain ⟨taken, htaken, hstep⟩ := apply_eq_some.mp hprofile
  cases op with
  | custom _ => simp [Operator.step?, LogicalOperator.step?] at htaken
  | get access =>
      obtain rfl := Option.some.inj htaken
      obtain ⟨_, rfl⟩ := step_access hstep
      refine ⟨rfl, rfl, rfl, rfl, fun scan => ?_⟩
      have hconsumes := haccess access rfl scan
      simp only [RelationProfile.access, Finset.mem_singleton, exists_eq_left]
      rw [← show access.key = (access.table.id, access.columns, access.scan) from rfl, ← hconsumes]
      unfold LogicalOperator.properties
      dsimp only
      cases access.partitionScan? with
      | none => simp
      | some found => simp [eq_comm]
  | select =>
      obtain rfl := Option.some.inj htaken
      obtain ⟨input, condition, rfl, rfl⟩ := step_selection hstep
      obtain _ | ⟨hinput, _⟩ := hbelow
      exact hinput.relationOrEmpty
  | innerJoin =>
      obtain rfl := Option.some.inj htaken
      obtain ⟨outer, inner, condition, rfl, rfl⟩ := step_join hstep
      obtain _ | ⟨houter, _ | ⟨hinner, _⟩⟩ := hbelow
      obtain ⟨houtput, hreferences, hbound, hjoins, hconsumers⟩ := houter.relationOrEmpty
      obtain ⟨houtput', hreferences', hbound', hjoins', hconsumers'⟩ := hinner.relationOrEmpty
      refine ⟨congrArg₂ KeyedSet.union houtput houtput', ?_, ?_, ?_, fun scan => ?_⟩
      · exact congrArg₂ KeyedSet.union hreferences hreferences'
      · exact (congrArg₂ RowBound.times hbound hbound').trans (outer.bound_join inner).symm
      · exact congrArg₂ (fun left right => left + right + 1) hjoins hjoins'
      · refine KeyedSet.mem_union.trans ((or_congr (hconsumers scan) (hconsumers' scan)).trans ?_)
        simp only [RelationProfile.join, Finset.mem_union, or_and_right, exists_or]
  | groupBy grouping aggregates =>
      obtain rfl := Option.some.inj htaken
      obtain ⟨input, rfl, rfl⟩ := step_aggregate hstep
      obtain _ | ⟨hinput, _⟩ := hbelow
      obtain ⟨_, hreferences, hbound, hjoins, hconsumers⟩ := hinput.relationOrEmpty
      refine ⟨rfl, hreferences, ?_, hjoins, hconsumers⟩
      rw [RelationProfile.bound_aggregate, ← hbound]
      rfl

end Profile

end QueryPlanner
