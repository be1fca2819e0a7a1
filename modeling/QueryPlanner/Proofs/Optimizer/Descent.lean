import Mathlib.Data.List.Basic
import Mathlib.Order.Defs.Unbundled
import QueryPlanner.Optimizer

/-!
# Why optimization goes down

An alternative that enforces nothing asks a group below its own. An enforcer of the catalogue asks
its own group, but for less: it is considered only for a requirement on the property that it
enforces, and does not pass that requirement on. `PlanRequirement.weight` measures what is left to
be enforced, and `Asks` combines the two ways down to one order.
-/

namespace QueryPlanner

namespace PhysicalOperator

/-- Whether the operator is one of the catalogue. -/
def isCatalogued : PhysicalOperator → Bool
  | .custom _ => false
  | _ => true

variable {op : PhysicalOperator}

/-- An enforcer of the catalogue has one child. -/
theorem arity_of_enforcer (hcatalogued : op.isCatalogued = true)
    (henforcer : op.isEnforcer = true) : op.arity = some 1 := by
  cases op <;> simp_all [isCatalogued, isEnforcer, enforcerKind?, arity]

/-- The children of an operator of the catalogue are optimized from the first to the last. -/
theorem visitOrder_of_catalogued (hcatalogued : op.isCatalogued = true) (count : Nat) :
    op.visitOrder count = List.range count := by
  cases op with
  | custom _ => simp [isCatalogued] at hcatalogued
  | _ => rfl

end PhysicalOperator

/-- How much of a requirement is left to be enforced. A motion may add a requirement on the order,
so the distribution weighs more than that. -/
def PlanRequirement.weight (required : PlanRequirement) : Nat :=
  (if required.distribution.spec = .any then 0 else 8) +
    (if required.partition.spec.scans.awaitsSelector then 4 else 0) +
    (if required.order.spec.isEmpty then 0 else 2) +
    if required.rewindability.spec = .notRewindable then 0 else 1

theorem PlanRequirement.weight_lt (required : PlanRequirement) : required.weight < 16 := by
  unfold weight
  split <;> split <;> split <;> split <;> omega

/-! ## Less is required of the child of an enforcer -/

/-- The restriction to some scans holds no other entries. -/
theorem PartitionMap.mem_of_mem_restrictedTo {map : PartitionMap} {scans : List ScanId}
    {entry : ScanId × PartitionEntry} (h : entry ∈ (map.restrictedTo scans).scans.entries) :
    entry ∈ map.scans.entries := by
  have hkept : ∀ entry ∈ (map.restrictedTo scans).scans.entries, entry ∈ map.scans.entries := by
    refine List.foldlRecOn (motive := fun kept : PartitionMap =>
      ∀ entry ∈ kept.scans.entries, entry ∈ map.scans.entries) scans _ (fun _ hmem => ?_)
      (fun kept hkept scan _ => ?_)
    · simp [empty, KeyedMap.empty] at hmem
    · cases hfound : map.get? scan with
      | none => exact hkept
      | some found =>
          intro other hother
          rcases KeyedMap.mem_of_mem_insertInto hother with rfl | hother
          · obtain ⟨before, after, hentries, _⟩ := List.lookup_eq_some_iff.mp hfound
            simp [hentries]
          · exact hkept other hother
  exact hkept entry h

/-- Restricting a map adds no scan that waits for a selector. -/
theorem PartitionMap.awaitsSelector_of_restrictedTo (map : PartitionMap) (scans : List ScanId)
    (h : (map.restrictedTo scans).awaitsSelector = true) : map.awaitsSelector = true := by
  obtain ⟨entry, hentry, hawaits⟩ := List.any_eq_true.mp h
  exact List.any_eq_true.mpr ⟨entry, mem_of_mem_restrictedTo hentry, hawaits⟩

namespace Optimizer

variable {op : PhysicalOperator} {view : ExprView} {required : PlanRequirement}

/-- An enforcer of the catalogue requires less of its child than is required of itself. -/
theorem weight_childRequirement_lt {child request : Nat} {siblings : List PlanProperties}
    (hcatalogued : op.isCatalogued = true) (henforcer : op.isEnforcer = true)
    (hserves : servesRequirement op view required = true) :
    (op.childRequirement view required child siblings request).weight < required.weight := by
  have hwanted := (Bool.and_eq_true_iff.mp hserves).2
  have hpartition := PartitionMap.awaitsSelector_of_restrictedTo
    required.partition.spec.scans (view.childLogical child).consumers.toList
  unfold PlanRequirement.weight
  cases op with
  | sort order =>
      simp only [PhysicalOperator.enforcerKind?, Bool.not_eq_true'] at hwanted
      simp only [PhysicalOperator.childRequirement, PhysicalOperator.childDistribution,
        PhysicalOperator.childOrder, PhysicalOperator.childRewindability,
        PhysicalOperator.childPartition, hwanted]
      grind [SortOrder.isEmpty, SortOrder.any]
  | motion move =>
      simp only [PhysicalOperator.enforcerKind?, bne_iff_ne, ne_eq] at hwanted
      simp only [PhysicalOperator.childRequirement, PhysicalOperator.childDistribution,
        PhysicalOperator.childRewindability, PhysicalOperator.childPartition, hwanted]
      grind
  | spool rewindability =>
      simp only [PhysicalOperator.enforcerKind?, bne_iff_ne, ne_eq] at hwanted
      simp only [PhysicalOperator.childRequirement, PhysicalOperator.childDistribution,
        PhysicalOperator.childOrder, PhysicalOperator.childRewindability,
        PhysicalOperator.childPartition, hwanted]
      grind
  | partitionSelector scan relation keys =>
      have hwanted : required.partition.spec.scans.awaitsSelector = true := hwanted
      simp only [PhysicalOperator.childRequirement, PhysicalOperator.childDistribution,
        PhysicalOperator.childOrder, PhysicalOperator.childRewindability,
        PhysicalOperator.childPartition, hwanted]
      grind [PartitionPropagation.none, PartitionMap.awaitsSelector, PartitionMap.empty,
        KeyedMap.empty]
  | custom data => simp [PhysicalOperator.isCatalogued] at hcatalogued
  | _ => simp [PhysicalOperator.isEnforcer, PhysicalOperator.enforcerKind?] at henforcer

end Optimizer

/-! ## The order of contexts -/

/-- An alternative of the parent that enforces nothing reads the child. Both are masters. -/
def Memo.Reads (memo : Memo) (parent child : GroupId) : Prop :=
  memo.master parent = parent ∧ ∃ id expr, id ∈ memo.alternativesOf parent ∧
    memo.expr? id = some expr ∧ expr.op.isEnforcer = false ∧
    ∃ below ∈ expr.children, memo.master below = child

/-- What a context is about: a group and what is required of it. -/
def Context.goal (context : Context) : GroupId × PlanRequirement :=
  (context.group, context.required)

/-- A goal comes below another one: its group is below, or less is required of the same group. -/
def Asks (below : GroupId → GroupId → Prop) (upper lower : GroupId × PlanRequirement) : Prop :=
  below upper.1 lower.1 ∨ upper.1 = lower.1 ∧ lower.2.weight < upper.2.weight

/-- No goal comes below itself, neither directly nor on the way. -/
instance Asks.isStrictOrder {below : GroupId → GroupId → Prop} [IsStrictOrder GroupId below] :
    IsStrictOrder (GroupId × PlanRequirement) (Asks below) where
  irrefl goal h := by
    rcases h with h | ⟨_, h⟩
    · exact irrefl_of below goal.1 h
    · exact Nat.lt_irrefl _ h
  trans upper middle lower h h' := by
    rcases h with h | ⟨hgroup, hweight⟩ <;> rcases h' with h' | ⟨hgroup', hweight'⟩
    · exact .inl (trans_of below h h')
    · exact .inl (hgroup' ▸ h)
    · exact .inl (hgroup ▸ h')
    · exact .inr ⟨hgroup.trans hgroup', Nat.lt_trans hweight' hweight⟩

end QueryPlanner
