import QueryPlanner.Proofs.Meaning.Operators
import QueryPlanner.Proofs.Rule.Laws

/-!
# The extent of groups

`Extent.reading` reads an expression by its size: one for a table access or an aggregate, and one for
every conjunct of a selection or a join. The rules only move conjuncts from one operator to another,
so they keep the sizes (`Extent.admitsRules`), and all alternatives of a group have the size of the
group. An operator is then larger than what it reads (`Extent.height_lt_of_step`). The exception is a
selection without conjuncts, which may stand above a relation of the same size. The reading can be
told to give such idle selections no extent at all.
-/

namespace QueryPlanner

/-- The size of a relation, or the number of conjuncts of a condition. -/
inductive Extent where
  | relation (size : ℕ)
  | condition (conjuncts : ℕ)

namespace Extent

/-- What counts when extents are compared: conditions are below all relations. -/
def height : Extent → ℕ
  | relation size => size
  | condition _ => 0

/-- What a step makes of extents. Selections without conjuncts have one only if idle selections are
allowed. -/
def step (idle : Bool) : Step → List Extent → Option Extent
  | .access _ _ _, [] => some (.relation 1)
  | .selection, [.relation size, .condition conjuncts] =>
    if idle || 0 < conjuncts then some (.relation (size + conjuncts)) else none
  | .join, [.relation outer, .relation inner, .condition conjuncts] =>
    some (.relation (outer + inner + conjuncts))
  | .aggregate _ _, [.relation size] => some (.relation (size + 1))
  | .unchanged, [extent] => some extent
  | .condition predicate, [] => some (.condition predicate.conjuncts.length)
  | _, _ => none

/-- The extent that an operator has over those of its children. -/
def apply (idle : Bool) (op : Operator) (extents : List Extent) : Option Extent :=
  op.step?.bind (step idle · extents)

/-- Relations are not empty, and the properties of a condition count its conjuncts. -/
def Fits : GroupProperties → Extent → Prop
  | .relation _, .relation size => 0 < size
  | .scalar properties, .condition conjuncts => properties.conjuncts = conjuncts
  | _, _ => False

/-! ## What steps need -/

variable {idle : Bool} {extents : List Extent} {extent : Extent}

theorem step_access {table : Nat} {columns : List Column} {scan : Option ScanId}
    (h : step idle (.access table columns scan) extents = some extent) :
    extents = [] ∧ extent = .relation 1 := by
  unfold step at h
  split at h <;> simp_all

theorem step_selection (h : step idle .selection extents = some extent) :
    ∃ size conjuncts, extents = [.relation size, .condition conjuncts] ∧
      (idle = true ∨ 0 < conjuncts) ∧ extent = .relation (size + conjuncts) := by
  unfold step at h
  split at h <;> simp_all

theorem step_join (h : step idle .join extents = some extent) :
    ∃ outer inner conjuncts, extents = [.relation outer, .relation inner, .condition conjuncts] ∧
      extent = .relation (outer + inner + conjuncts) := by
  unfold step at h
  split at h <;> simp_all

theorem step_aggregate {grouping aggregates : List Column}
    (h : step idle (.aggregate grouping aggregates) extents = some extent) :
    ∃ size, extents = [.relation size] ∧ extent = .relation (size + 1) := by
  unfold step at h
  split at h <;> simp_all

theorem step_condition {predicate : Scalar}
    (h : step idle (.condition predicate) extents = some extent) :
    extents = [] ∧ extent = .condition predicate.conjuncts.length := by
  unfold step at h
  split at h <;> simp_all

theorem apply_eq_some {op : Operator} : apply idle op extents = some extent ↔
    ∃ taken, op.step? = some taken ∧ step idle taken extents = some extent :=
  Option.bind_eq_some_iff

/-- Whatever a step reads is below what it makes, unless it passes on what it reads or selects
without conjuncts. -/
theorem height_lt_of_step {taken : Step} {below : Extent}
    (h : step idle taken extents = some extent) (hbelow : below ∈ extents)
    (hchanges : taken ≠ .unchanged) (hpositive : ∀ size, .relation size ∈ extents → 0 < size) :
    below.height < extent.height ∨
      taken = .selection ∧ idle = true ∧ extents = [extent, .condition 0] ∧ below = extent := by
  cases taken with
  | access table columns scan => simp [(step_access h).1] at hbelow
  | selection =>
      obtain ⟨size, conjuncts, rfl, hidle, rfl⟩ := step_selection h
      have hsize := hpositive size (by simp)
      rcases Nat.eq_zero_or_pos conjuncts with rfl | hconjuncts
      · simp only [List.mem_cons, List.not_mem_nil, or_false] at hbelow
        rcases hbelow with rfl | rfl
        · exact .inr ⟨rfl, by simpa using hidle, rfl, rfl⟩
        · exact .inl hsize
      · simp only [List.mem_cons, List.not_mem_nil, or_false] at hbelow
        rcases hbelow with rfl | rfl <;> simp only [height] <;> omega
  | join =>
      obtain ⟨outer, inner, conjuncts, rfl, rfl⟩ := step_join h
      have houter := hpositive outer (by simp)
      have hinner := hpositive inner (by simp)
      simp only [List.mem_cons, List.not_mem_nil, or_false] at hbelow
      rcases hbelow with rfl | rfl | rfl <;> simp only [height] <;> omega
  | aggregate grouping aggregates =>
      obtain ⟨size, rfl, rfl⟩ := step_aggregate h
      obtain rfl := List.mem_singleton.mp hbelow
      exact .inl (Nat.lt_succ_self size)
  | unchanged => exact absurd rfl hchanges
  | condition predicate => simp [(step_condition h).1] at hbelow

/-! ## The reading -/

/-- Logical operators have sizes. -/
theorem fits_properties {op : LogicalOperator} {below : List GroupProperties}
    (hbelow : List.Forall₂ Fits below extents)
    (hextent : apply idle (.logical op) extents = some extent) :
    Fits (.relation (op.properties below)) extent := by
  have hpositive : ∀ size, .relation size ∈ extents → 0 < size := by
    intro size hsize
    obtain ⟨position, hat⟩ := List.get_of_mem hsize
    have hlt : position.1 < below.length := hbelow.length_eq.symm ▸ position.2
    have hfits := (List.forall₂_iff_get.mp hbelow).2 position.1 hlt position.2
    rw [Fin.eta, hat] at hfits
    cases hproperties : below.get ⟨position.1, hlt⟩ with
    | relation _ => rwa [hproperties] at hfits
    | scalar _ =>
        rw [hproperties] at hfits
        exact hfits.elim
  obtain ⟨taken, htaken, hstep⟩ := apply_eq_some.mp hextent
  cases op with
  | custom _ => simp [Operator.step?, LogicalOperator.step?] at htaken
  | get access =>
      obtain rfl := Option.some.inj htaken
      obtain ⟨_, rfl⟩ := step_access hstep
      exact Nat.one_pos
  | select =>
      obtain rfl := Option.some.inj htaken
      obtain ⟨size, conjuncts, rfl, _, rfl⟩ := step_selection hstep
      exact Nat.add_pos_left (hpositive size (by simp)) _
  | innerJoin =>
      obtain rfl := Option.some.inj htaken
      obtain ⟨outer, inner, conjuncts, rfl, rfl⟩ := step_join hstep
      exact Nat.add_pos_left (Nat.add_pos_left (hpositive outer (by simp)) _) _
  | groupBy grouping aggregates =>
      obtain rfl := Option.some.inj htaken
      obtain ⟨size, rfl, rfl⟩ := step_aggregate hstep
      exact Nat.succ_pos size

/-- Operators by their size. -/
def reading (idle : Bool) : Reading Extent where
  apply := apply idle
  fits := Fits
  apply_same left right extents h := by
    unfold apply
    rcases Operator.step?_eq_of_same h with hstep | ⟨predicate, predicate', rfl, rfl, hsame⟩
    · rw [hstep]
    · have hlength := Scalar.length_conjuncts_of_same predicate predicate' hsame
      cases extents <;> simp [Operator.step?, step, hlength]
  apply_perm op left right h _ := by
    cases op with
    | logical op => cases op <;> first | rfl | simp [Operator.orderSensitive,
        LogicalOperator.orderSensitive] at h
    | physical _ | scalar _ => simp [Operator.orderSensitive] at h
  fits_relation _ _ _ _ hbelow hextent := fits_properties hbelow hextent
  fits_scalar op below extents extent _ hextent := by
    obtain ⟨taken, htaken, hstep⟩ := apply_eq_some.mp hextent
    cases op with
    | custom _ => simp [Operator.step?] at htaken
    | predicate predicate =>
        obtain rfl := Option.some.inj htaken
        obtain ⟨_, rfl⟩ := step_condition hstep
        rfl
  apply_enforcer op extent hcatalogued henforcer := by
    refine apply_eq_some.mpr ⟨.unchanged, ?_, rfl⟩
    cases op <;>
      simp_all [PhysicalOperator.isCatalogued, PhysicalOperator.isEnforcer,
        PhysicalOperator.enforcerKind?, Operator.step?, PhysicalOperator.step?]

/-! ## Laws -/

theorem reading_join {outer inner test joined : Extent} :
    (reading idle).join outer inner test = some joined ↔
      ∃ left right conjuncts, outer = .relation left ∧ inner = .relation right ∧
        test = .condition conjuncts ∧ joined = .relation (left + right + conjuncts) := by
  show apply idle (.logical .innerJoin) [outer, inner, test] = some joined ↔ _
  refine apply_eq_some.trans ⟨?_, ?_⟩
  · rintro ⟨taken, htaken, hstep⟩
    obtain rfl := Option.some.inj htaken
    obtain ⟨left, right, conjuncts, hextents, rfl⟩ := step_join hstep
    simp only [List.cons.injEq, and_true] at hextents
    exact ⟨left, right, conjuncts, hextents.1, hextents.2.1, hextents.2.2, rfl⟩
  · rintro ⟨left, right, conjuncts, rfl, rfl, rfl, rfl⟩
    exact ⟨.join, rfl, rfl⟩

theorem reading_select {input test kept : Extent} :
    (reading idle).select input test = some kept ↔
      ∃ size conjuncts, input = .relation size ∧ test = .condition conjuncts ∧
        (idle = true ∨ 0 < conjuncts) ∧ kept = .relation (size + conjuncts) := by
  show apply idle (.logical .select) [input, test] = some kept ↔ _
  refine apply_eq_some.trans ⟨?_, ?_⟩
  · rintro ⟨taken, htaken, hstep⟩
    obtain rfl := Option.some.inj htaken
    obtain ⟨size, conjuncts, hextents, hidle, rfl⟩ := step_selection hstep
    simp only [List.cons.injEq, and_true] at hextents
    exact ⟨size, conjuncts, hextents.1, hextents.2, hidle, rfl⟩
  · rintro ⟨size, conjuncts, rfl, rfl, hidle, rfl⟩
    exact ⟨.selection, rfl, if_pos (by simpa using hidle)⟩

theorem reading_condition {predicate : Scalar} :
    (reading idle).condition predicate = some (.condition predicate.conjuncts.length) := rfl

theorem reading_joinBy {outer inner : ℕ} {parts : List Scalar}
    (hparts : ∀ part ∈ parts, part.IsConjunct) :
    (reading idle).joinBy (.relation outer) (.relation inner) parts =
      some (.relation (outer + inner + parts.length)) := by
  unfold Reading.joinBy
  rw [reading_condition, Option.bind_some, Scalar.conjuncts_conjunction hparts]
  exact reading_join.mpr ⟨outer, inner, parts.length, rfl, rfl, rfl, rfl⟩

theorem reading_selectBy {size : ℕ} {parts : List Scalar}
    (hparts : ∀ part ∈ parts, part.IsConjunct) :
    (reading idle).selectBy (.relation size) parts = some (.relation (size + parts.length)) := by
  unfold Reading.selectBy
  cases parts with
  | nil => rfl
  | cons first rest =>
      rw [if_neg (by simp), reading_condition, Option.bind_some, Scalar.conjuncts_conjunction hparts]
      exact reading_select.mpr ⟨size, _, rfl, rfl, .inr (Nat.succ_pos _), rfl⟩

/-- Only predicates are conditions. -/
theorem reading_predicates {op : Operator} (hphysical : op.isPhysical = false)
    (hextent : (reading idle).apply op extents = some extent)
    (hcondition : (reading idle).IsCondition extent) :
    ∃ predicate, op = .scalar (.predicate predicate) := by
  obtain ⟨conjuncts, rfl⟩ : ∃ conjuncts, extent = .condition conjuncts := by
    rcases hcondition with ⟨outer, inner, joined, h⟩ | ⟨input, kept, h⟩
    · obtain ⟨_, _, conjuncts, _, _, hcondition, _⟩ := reading_join.mp h
      exact ⟨conjuncts, hcondition⟩
    · obtain ⟨_, conjuncts, _, hcondition, _⟩ := reading_select.mp h
      exact ⟨conjuncts, hcondition⟩
  obtain ⟨taken, htaken, hstep⟩ := apply_eq_some.mp hextent
  -- all relational operators answer a relation
  cases op with
  | physical op => simp [Operator.isPhysical, Operator.physical?] at hphysical
  | scalar op =>
      cases op with
      | predicate predicate => exact ⟨predicate, rfl⟩
      | custom _ => simp [Operator.step?] at htaken
  | logical op =>
      cases op with
      | get access =>
          obtain rfl := Option.some.inj htaken
          cases (step_access hstep).2
      | select =>
          obtain rfl := Option.some.inj htaken
          obtain ⟨_, _, _, _, h⟩ := step_selection hstep
          cases h
      | innerJoin =>
          obtain rfl := Option.some.inj htaken
          obtain ⟨_, _, _, _, h⟩ := step_join hstep
          cases h
      | groupBy _ _ =>
          obtain rfl := Option.some.inj htaken
          obtain ⟨_, _, h⟩ := step_aggregate hstep
          cases h
      | custom _ => simp [Operator.step?, LogicalOperator.step?] at htaken

/-- A list is as long as the two parts that a test splits it into. -/
theorem length_partition {α : Type} (test : α → Bool) (items : List α) :
    (items.partition test).1.length + (items.partition test).2.length = items.length := by
  rw [List.partition_eq_filter_filter]
  exact (List.length_eq_length_filter_add test).symm

/-- What holds of all items holds of those in the two parts. -/
theorem forall_partition {α : Type} {items : List α} {P : α → Prop} (h : ∀ item ∈ items, P item)
    (test : α → Bool) : (∀ item ∈ (items.partition test).1, P item) ∧
      ∀ item ∈ (items.partition test).2, P item := by
  rw [List.partition_eq_filter_filter]
  exact ⟨fun item hitem => h item (List.mem_of_mem_filter hitem),
    fun item hitem => h item (List.mem_of_mem_filter hitem)⟩

/-- The rules keep sizes: every conjunct of the operators they look at stands in the result once. -/
theorem admitsRules : (reading idle).AdmitsRules where
  predicates := reading_predicates
  joinComm h := by
    obtain ⟨outer, inner, conjuncts, rfl, rfl, rfl, rfl⟩ := reading_join.mp h
    rw [Nat.add_comm outer]
    exact reading_join.mpr ⟨inner, outer, conjuncts, rfl, rfl, rfl, rfl⟩
  joinAssoc {stay moved last lowerValue upperValue lowerJoin joined lower upper movedProperties
      lastProperties} _ _ hlower hupper hbelow habove := by
    rw [reading_condition] at hlower hupper
    obtain rfl := Option.some.inj hlower
    obtain rfl := Option.some.inj hupper
    obtain ⟨stay, moved, _, rfl, rfl, hlowerCount, rfl⟩ := reading_join.mp hbelow
    obtain ⟨below, last, _, hbelow, rfl, hupperCount, rfl⟩ := reading_join.mp habove
    obtain rfl := Extent.relation.inj hbelow
    obtain rfl := Extent.condition.inj hlowerCount
    obtain rfl := Extent.condition.inj hupperCount
    -- the predicates that the rule splits up are as many as before
    have hlength := length_partition (Rule.connects movedProperties.relationOrEmpty.output
      lastProperties.relationOrEmpty.output) upper.conjuncts
    have hparts : ∀ part ∈ upper.conjuncts, part.IsConjunct := fun part =>
      Scalar.isConjunct_of_mem_conjuncts upper
    obtain ⟨hconnecting, hothers⟩ := forall_partition hparts (Rule.connects
      movedProperties.relationOrEmpty.output lastProperties.relationOrEmpty.output)
    dsimp only
    rw [reading_joinBy hconnecting, Option.bind_some, reading_joinBy, List.length_append]
    · congr 2
      omega
    · exact List.forall_mem_append.mpr
        ⟨fun part => Scalar.isConjunct_of_mem_conjuncts lower, hothers⟩
  selectJoin {outer inner lowerValue upperValue lowerJoin kept lower upper outerProperties
      innerProperties} _ _ hlower hupper hbelow habove := by
    rw [reading_condition] at hlower hupper
    obtain rfl := Option.some.inj hlower
    obtain rfl := Option.some.inj hupper
    obtain ⟨outer, inner, _, rfl, rfl, hlowerCount, rfl⟩ := reading_join.mp hbelow
    obtain ⟨below, _, hbelow, hupperCount, _, rfl⟩ := reading_select.mp habove
    obtain rfl := Extent.relation.inj hbelow
    obtain rfl := Extent.condition.inj hlowerCount
    obtain rfl := Extent.condition.inj hupperCount
    have hparts : ∀ part ∈ upper.conjuncts, part.IsConjunct := fun part =>
      Scalar.isConjunct_of_mem_conjuncts upper
    unfold Rule.splitConjuncts
    dsimp only
    have hlength := length_partition (fun conjunct : Scalar =>
      conjunct.columns.subset outerProperties.relationOrEmpty.output) upper.conjuncts
    obtain ⟨houter, hothers⟩ := forall_partition hparts fun conjunct : Scalar =>
      conjunct.columns.subset outerProperties.relationOrEmpty.output
    generalize upper.conjuncts.partition _ = split at hlength houter hothers ⊢
    obtain ⟨outerParts, others⟩ := split
    dsimp only at hlength houter hothers ⊢
    have hlength' := length_partition (fun conjunct : Scalar =>
      conjunct.columns.subset innerProperties.relationOrEmpty.output) others
    obtain ⟨hinner, hjoin⟩ := forall_partition hothers fun conjunct : Scalar =>
      conjunct.columns.subset innerProperties.relationOrEmpty.output
    rw [reading_selectBy houter, Option.bind_some, reading_selectBy hinner, Option.bind_some,
      reading_joinBy, List.length_append]
    · congr 2
      omega
    · exact List.forall_mem_append.mpr
        ⟨fun part => Scalar.isConjunct_of_mem_conjuncts lower, hjoin⟩
  scans h := ⟨h, fun _ => h⟩
  filters h := h
  nestedLoops h := h
  hashJoins _ _ _ h := h
  aggregates h := ⟨h, h⟩

end Extent

end QueryPlanner
