import QueryPlanner.Optimizer

/-!
# Enforcement and satisfaction

`EnforcementDecision.decide` says whether anything has to be enforced above an alternative, and
`PlanRequirement.isSatisfiedBy` says whether a plan meets a requirement. For an operator that
prohibits nothing, `EnforcementDecision.hasProperties_iff` compares the two: what a plan has is
never enforced again, and what it lacks is enforced, except for an exact requirement of no order over an
ordered delivery and for partitioned scans whose requirement places no selector now. These are
overlooked: nothing is enforced although the requirement is missed.
-/

namespace QueryPlanner

namespace Enforced

variable {S : Type} [PhysicalProperty S] {required : Enforced S} {delivered : S}

/-- An alternative is costed without an enforcer when nothing is required or the requirement is
met. -/
theorem allowsCosting_enforcement_iff :
    (required.enforcement delivered).allowsCosting = true ↔
      PhysicalProperty.isRequired required.spec = false ∨
        required.isSatisfiedBy delivered = true := by
  unfold enforcement
  split
  · rename_i hunnecessary
    simpa [Enforcement.allowsCosting] using hunnecessary
  · rename_i hrequired
    simpa [Enforcement.allowsCosting] using hrequired

/-- A distribution that imposes nothing is met by every distribution. -/
theorem distribution_allowsCosting_iff {required : Enforced Distribution}
    {delivered : Distribution} :
    (required.enforcement delivered).allowsCosting = true ↔
      required.isSatisfiedBy delivered = true := by
  rw [allowsCosting_enforcement_iff, or_iff_right_of_imp]
  intro hany
  obtain ⟨spec, matching⟩ := required
  obtain rfl : spec = .any := by simpa [PhysicalProperty.isRequired] using hany
  cases delivered <;> rfl

/-- A level that imposes nothing is met by every level, also exactly. -/
theorem rewindability_allowsCosting_iff {required : Enforced Rewindability}
    {delivered : Rewindability} :
    (required.enforcement delivered).allowsCosting = true ↔
      required.isSatisfiedBy delivered = true := by
  rw [allowsCosting_enforcement_iff, or_iff_right_of_imp]
  intro hnone
  obtain ⟨spec, matching⟩ := required
  obtain rfl : spec = .notRewindable := by simpa [PhysicalProperty.isRequired] using hnone
  cases matching <;> cases delivered <;> rfl

/-- An exact requirement of no order, over a delivery in some order. -/
def OverlooksOrder (required : Enforced SortOrder) (delivered : SortOrder) : Prop :=
  required = ⟨.any, .exact⟩ ∧ delivered ≠ .any

/-- What is overlooked is missed. -/
theorem OverlooksOrder.not_isSatisfiedBy {required : Enforced SortOrder} {delivered : SortOrder}
    (h : required.OverlooksOrder delivered) : required.isSatisfiedBy delivered ≠ true := by
  obtain ⟨rfl, hdelivered⟩ := h
  simpa [isSatisfiedBy, PhysicalProperty.satisfies] using hdelivered

/-- No order is met by every order, unless it is required exactly. -/
theorem order_allowsCosting_iff {required : Enforced SortOrder} {delivered : SortOrder} :
    (required.enforcement delivered).allowsCosting = true ↔
      required.isSatisfiedBy delivered = true ∨ required.OverlooksOrder delivered := by
  rw [allowsCosting_enforcement_iff]
  obtain ⟨⟨keys⟩, matching⟩ := required
  cases keys with
  | cons key rest =>
      simp [PhysicalProperty.isRequired, SortOrder.isEmpty, OverlooksOrder, SortOrder.any]
  | nil =>
      refine iff_of_true (.inl rfl) ?_
      cases matching with
      | exact =>
          by_cases hdelivered : delivered = .any
          · exact .inl (by rw [hdelivered]; rfl)
          · exact .inr ⟨rfl, hdelivered⟩
      | satisfy | subset => exact .inl rfl

end Enforced

namespace PartitionMap

variable {delivered required : PartitionMap}

/-- The delivered state of a scan does not meet the required one when it waits for a known number of
selectors, and none is left or another number is required. -/
theorem entrySatisfies_eq_false_iff {found wanted : PartitionEntry} :
    entrySatisfies found wanted = false ↔ found.role = .consumer ∧
      ∃ count, found.expected = some count ∧ (count = 0 ∨ wanted.expected ≠ some count) := by
  obtain ⟨role, expected, _, _⟩ := found
  cases role with
  | propagator | resolver => simp [entrySatisfies]
  | consumer =>
      cases expected with
      | none => simp [entrySatisfies]
      | some count => cases count <;> simp [entrySatisfies]

/-- Delivered states miss the required ones when some scan waits and the delivered state of one of
the required scans does not meet the required one. -/
theorem satisfies_eq_false_iff :
    delivered.satisfies required = false ↔ required.hasConsumer = true ∧
      ∃ scan wanted found, (scan, wanted) ∈ required.scans.entries ∧
        delivered.get? scan = some found ∧ entrySatisfies found wanted = false := by
  unfold satisfies
  rw [Bool.or_eq_false_iff, Bool.not_eq_false', List.all_eq_false]
  refine and_congr_right fun _ => ⟨?_, ?_⟩
  · rintro ⟨⟨scan, wanted⟩, hmem, hmisses⟩
    cases hfound : delivered.get? scan with
    | none => simp [hfound] at hmisses
    | some found => exact ⟨scan, wanted, found, hmem, hfound, by simpa [hfound] using hmisses⟩
  · rintro ⟨scan, wanted, found, hmem, hfound, hmisses⟩
    exact ⟨(scan, wanted), hmem, by simp [hfound, hmisses]⟩

end PartitionMap

namespace Enforced

/-- A required scan is delivered in a state that does not meet the required one, but no required
scan waits for a selector that may be placed now. -/
def OverlooksPartition (required : Enforced PartitionPropagation)
    (delivered : PartitionPropagation) : Prop :=
  required.spec.scans.awaitsSelector = false ∧ required.spec.scans.hasConsumer = true ∧
    ∃ scan wanted found count, (scan, wanted) ∈ required.spec.scans.scans.entries ∧
      delivered.scans.get? scan = some found ∧ found.role = .consumer ∧
      found.expected = some count ∧ (count = 0 ∨ wanted.expected ≠ some count)

/-- What is overlooked is what is missed while no required scan waits for a selector now. -/
theorem overlooksPartition_iff {required : Enforced PartitionPropagation}
    {delivered : PartitionPropagation} : required.OverlooksPartition delivered ↔
      required.spec.scans.awaitsSelector = false ∧ required.isSatisfiedBy delivered = false := by
  refine and_congr_right fun _ => Iff.trans ?_ PartitionMap.satisfies_eq_false_iff.symm
  simp only [PartitionMap.entrySatisfies_eq_false_iff, exists_and_left]

theorem OverlooksPartition.not_isSatisfiedBy {required : Enforced PartitionPropagation}
    {delivered : PartitionPropagation} (h : required.OverlooksPartition delivered) :
    required.isSatisfiedBy delivered ≠ true := by
  rw [(overlooksPartition_iff.mp h).2]
  decide

/-- The states of partitioned scans are enforced when they are missed, unless no required scan waits
for a selector now. -/
theorem partition_allowsCosting_iff {required : Enforced PartitionPropagation}
    {delivered : PartitionPropagation} :
    (required.enforcement delivered).allowsCosting = true ↔
      required.isSatisfiedBy delivered = true ∨ required.OverlooksPartition delivered := by
  rw [allowsCosting_enforcement_iff, overlooksPartition_iff]
  show required.spec.scans.awaitsSelector = false ∨ _ ↔ _
  cases required.isSatisfiedBy delivered <;> simp

end Enforced

namespace PlanRequirement

/-- A plan for a relation has the physical properties that are required. The order does not matter
when there is at most one row. -/
structure HasProperties (required : PlanRequirement) (logical : RelationProperties)
    (delivered : PlanProperties) : Prop where
  order : logical.rowBound.atMostOne = true ∨ required.order.isSatisfiedBy delivered.order = true
  distribution : required.distribution.isSatisfiedBy delivered.distribution = true
  rewindability : required.rewindability.isSatisfiedBy delivered.rewindability = true
  partition : required.partition.isSatisfiedBy delivered.partition = true

/-- A plan lacks a physical property for which nothing is enforced. -/
def Overlooks (required : PlanRequirement) (logical : RelationProperties)
    (delivered : PlanProperties) : Prop :=
  logical.rowBound.atMostOne = false ∧ required.order.OverlooksOrder delivered.order ∨
    required.partition.OverlooksPartition delivered.partition

variable {required : PlanRequirement} {logical : RelationProperties} {delivered : PlanProperties}

/-- A requirement is met by a plan that has the columns, the physical properties and the common
table expressions. -/
theorem isSatisfiedBy_iff :
    required.isSatisfiedBy logical delivered = true ↔
      required.columns.subset logical.output = true ∧ required.HasProperties logical delivered ∧
        delivered.ctes.satisfies required.ctes = true := by
  unfold isSatisfiedBy
  simp only [Bool.and_eq_true, Bool.or_eq_true]
  constructor
  · rintro ⟨⟨⟨⟨⟨hcolumns, horder⟩, hdistribution⟩, hrewindability⟩, hpartition⟩, hctes⟩
    exact ⟨hcolumns, ⟨horder, hdistribution, hrewindability, hpartition⟩, hctes⟩
  · rintro ⟨hcolumns, ⟨horder, hdistribution, hrewindability, hpartition⟩, hctes⟩
    exact ⟨⟨⟨⟨⟨hcolumns, horder⟩, hdistribution⟩, hrewindability⟩, hpartition⟩, hctes⟩

end PlanRequirement

namespace EnforcementDecision

variable {op : PhysicalOperator} {logical : RelationProperties} {required : PlanRequirement}
  {delivered : PlanProperties}

/-- An operator that prohibits nothing is costed when no property needs an enforcer. -/
theorem allowsCosting_decide_iff (hop : op.prohibitions = []) :
    (decide op logical required delivered).allowsCosting = true ↔
      (logical.rowBound.atMostOne = true ∨
        (required.order.enforcement delivered.order).allowsCosting = true) ∧
      (required.distribution.enforcement delivered.distribution).allowsCosting = true ∧
      (required.rewindability.enforcement delivered.rewindability).allowsCosting = true ∧
      (required.partition.enforcement delivered.partition).allowsCosting = true := by
  have horder : (if logical.rowBound.atMostOne then Enforcement.unnecessary
      else required.order.enforcement delivered.order).allowsCosting = true ↔
        logical.rowBound.atMostOne = true ∨
          (required.order.enforcement delivered.order).allowsCosting = true := by
    cases logical.rowBound.atMostOne <;> simp [Enforcement.allowsCosting]
  simp only [decide, allowsCosting, all, hop, List.contains_nil, Bool.false_eq_true, if_false,
    List.all_cons, List.all_nil, Bool.and_true, Bool.and_eq_true, horder]

/-- Whether a plan has the required properties, compared with whether its alternative is costed
without an enforcer. A plan with the required properties always is, and any other only if what it
lacks is overlooked. So an alternative that is costed because nothing needs enforcing misses the
requirement exactly when something is overlooked. -/
theorem hasProperties_iff (hop : op.prohibitions = []) (logical : RelationProperties)
    (required : PlanRequirement) (delivered : PlanProperties) :
    (required.HasProperties logical delivered ↔
      (decide op logical required delivered).allowsCosting = true ∧
        ¬ required.Overlooks logical delivered) ∧
    ∀ view : ExprView, view.logical = logical →
      Optimizer.servesRequirement op view required = true →
      Optimizer.leavesWay op required delivered = true →
      (decide op logical required delivered).allowsCosting = true →
      (required.isSatisfiedBy logical delivered = false ↔
        required.Overlooks logical delivered) := by
  have hproperties : required.HasProperties logical delivered ↔
      (decide op logical required delivered).allowsCosting = true ∧
        ¬ required.Overlooks logical delivered := by
    rw [allowsCosting_decide_iff hop, Enforced.order_allowsCosting_iff,
      Enforced.distribution_allowsCosting_iff, Enforced.rewindability_allowsCosting_iff,
      Enforced.partition_allowsCosting_iff]
    constructor
    · rintro ⟨horder, hdistribution, hrewindability, hpartition⟩
      refine ⟨⟨horder.imp_right .inl, hdistribution, hrewindability, .inl hpartition⟩, ?_⟩
      rintro (⟨hmany, hoverlooked⟩ | hoverlooked)
      · exact hoverlooked.not_isSatisfiedBy (horder.resolve_left (by simp [hmany]))
      · exact hoverlooked.not_isSatisfiedBy hpartition
    · rintro ⟨⟨horder, hdistribution, hrewindability, hpartition⟩, hoverlooks⟩
      rw [PlanRequirement.Overlooks, not_or] at hoverlooks
      refine ⟨?_, hdistribution, hrewindability, hpartition.resolve_right hoverlooks.2⟩
      cases hmany : logical.rowBound.atMostOne with
      | true => exact .inl rfl
      | false =>
          exact .inr ((horder.resolve_left (by simp [hmany])).resolve_right
            fun horder => hoverlooks.1 ⟨hmany, horder⟩)
  refine ⟨hproperties, ?_⟩
  rintro view rfl hserves hway hallows
  have hcolumns : required.columns.subset view.logical.output = true := by
    unfold Optimizer.servesRequirement at hserves
    exact (Bool.and_eq_true_iff.mp hserves).1
  have hctes : delivered.ctes.satisfies required.ctes = true := by
    unfold Optimizer.leavesWay at hway
    exact (Bool.and_eq_true_iff.mp (Bool.and_eq_true_iff.mp hway).1).1
  rw [← Bool.not_eq_true, PlanRequirement.isSatisfiedBy_iff, hproperties]
  simp only [hcolumns, hctes, hallows, true_and, and_true, Classical.not_not]

/-- Both ways in which something is overlooked: an ordered delivery where no order is required
exactly, and a scan that waits for a selector where one selector is expected above it. Each time the
filter is costed, and its plan misses the requirement. -/
theorem overlooked_costed :
    let view : ExprView :=
      { expr := ⟨1⟩, op := .physical .filter, group := ⟨0⟩, logical := {}, children := [] }
    (let required : PlanRequirement := { order := ⟨.any, .exact⟩ }
     let delivered : PlanProperties := { order := .ascending [⟨0⟩] }
     Optimizer.servesRequirement .filter view required = true ∧
       (decide .filter {} required delivered).allowsCosting = true ∧
       ¬ required.HasProperties {} delivered ∧
       required.isSatisfiedBy {} delivered = false) ∧
    (let scan (expected : Nat) : PartitionPropagation :=
       { scans := PartitionMap.empty.insert 0 ⟨.consumer, some expected, 0, []⟩ }
     let required : PlanRequirement := { partition := ⟨scan 1, .satisfy⟩ }
     let delivered : PlanProperties := { partition := scan 0 }
     Optimizer.servesRequirement .filter view required = true ∧
       (decide .filter {} required delivered).allowsCosting = true ∧
       ¬ required.HasProperties {} delivered ∧
       required.isSatisfiedBy {} delivered = false) := by
  intro view
  constructor
  · intro required delivered
    have hoverlooks : required.Overlooks {} delivered := .inl ⟨rfl, rfl, by decide⟩
    obtain ⟨hproperties, hdiscarded⟩ :=
      @hasProperties_iff .filter rfl {} required delivered
    exact ⟨by decide, by decide, fun hhas => (hproperties.mp hhas).2 hoverlooks,
      (hdiscarded view rfl (by decide) (by decide) (by decide)).mpr hoverlooks⟩
  · intro scan required delivered
    have hoverlooks : required.Overlooks {} delivered :=
      .inr ⟨by decide, by decide, 0, ⟨.consumer, some 1, 0, []⟩, ⟨.consumer, some 0, 0, []⟩, 0,
        by decide, rfl, rfl, rfl, .inl rfl⟩
    obtain ⟨hproperties, hdiscarded⟩ :=
      @hasProperties_iff .filter rfl {} required delivered
    exact ⟨by decide, by decide, fun hhas => (hproperties.mp hhas).2 hoverlooks,
      (hdiscarded view rfl (by decide) (by decide) (by decide)).mpr hoverlooks⟩

end EnforcementDecision

end QueryPlanner
