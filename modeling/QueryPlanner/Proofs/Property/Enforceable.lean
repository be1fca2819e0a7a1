import QueryPlanner.Operator.Delivery
import QueryPlanner.Proofs.Optimizer.Descent
import QueryPlanner.Proofs.Property.Enforcement

/-!
# What enforcers make of a delivery

Motions towards a required distribution all deliver the same one (`Distribution.moved?`), and sorts and
spools keep the distribution that is below them. Enforcers pass a required distribution on without
its matching discipline, so a requirement is met dependably only when the discipline makes no
difference (`Distribution.Dependable`).
-/

namespace QueryPlanner

namespace Distribution

variable {delivered required : Distribution} {matching : MatchDiscipline}

/-- What the motions towards a required distribution deliver, if there are any. -/
def moved? : Distribution → Option Distribution
  | .singleton => some .singleton
  | .hashed columns _ => some (.hashedOn columns)
  | .replicated => some .replicated
  | .random | .nonSingleton => some .random
  | .any | .universal => none

/-- A delivered distribution meets a required one, or the target of some motion does. -/
def CanMeet (delivered required : Distribution) (matching : MatchDiscipline) : Prop :=
  delivered.satisfies required matching = true ∨
    ∃ move : Motion, move.target.satisfies required matching = true

/-- Every distribution is one anywhere. -/
@[simp] theorem satisfies_any : delivered.satisfies .any matching = true := by
  cases delivered <;> rfl

/-- What is met in part of the required columns is met when it is sufficient. -/
theorem satisfies_eq_satisfy (h : matching ≠ .exact) :
    delivered.satisfies required matching = delivered.satisfies required .satisfy := by
  cases matching with
  | exact => exact absurd rfl h
  | satisfy => rfl
  | subset => cases delivered <;> cases required <;> rfl

/-- A required distribution that is met as well by what enforcers deliver who know nothing of the
matching discipline. -/
structure Dependable (delivered required : Distribution) (matching : MatchDiscipline) : Prop where
  alike : delivered.satisfies required matching = delivered.satisfies required .satisfy
  met : delivered.satisfies required .satisfy = true ∨ required.moved?.isSome
  moved : ∀ target ∈ required.moved?, target.satisfies required matching = true ∧
    target.satisfies required .satisfy = true

namespace Dependable

theorem any : delivered.Dependable .any .satisfy :=
  ⟨rfl, .inl satisfies_any, fun _ h => by simp [moved?] at h⟩

/-- The discipline may be dropped. -/
theorem relaxed (h : delivered.Dependable required matching) :
    delivered.Dependable required .satisfy :=
  ⟨rfl, h.met, fun target htarget => ⟨(h.moved target htarget).2, (h.moved target htarget).2⟩⟩

/-- What the delivered distribution and the motions make of it meet without the discipline, they meet
with it. -/
theorem satisfies (h : delivered.Dependable required matching) {other : Distribution}
    (hother : other = delivered ∨ required.moved? = some other)
    (hlax : other.satisfies required .satisfy = true) :
    other.satisfies required matching = true := by
  rcases hother with rfl | hmoved
  · rw [h.alike, hlax]
  · exact (h.moved other hmoved).1

end Dependable

/-- A hashing that can be met hashes on some column. -/
theorem CanMeet.ne_nil {columns : List Column} {nulls : Bool}
    (h : delivered.CanMeet (.hashed columns nulls) .satisfy) : columns ≠ [] := by
  have hsuffices (found : Distribution)
      (hmeets : found.satisfies (.hashed columns nulls) .satisfy = true) : columns ≠ [] := by
    rintro rfl
    cases found with
    | hashed own ownNulls => cases own <;> simp [Distribution.satisfies, hashingSuffices] at hmeets
    | _ => simp [Distribution.satisfies] at hmeets
  rcases h with hmeets | ⟨move, hmeets⟩
  · exact hsuffices _ hmeets
  · exact hsuffices _ hmeets

/-- Only a distribution on several hosts is exactly that; no motion delivers it. -/
theorem CanMeet.eq_nonSingleton (h : delivered.CanMeet .nonSingleton .exact) :
    delivered = .nonSingleton := by
  rcases h with hmeets | ⟨move, hmeets⟩
  · cases delivered <;> simp [Distribution.satisfies] at hmeets ⊢
  · cases move <;> simp [Motion.target, Distribution.satisfies, hashedOn] at hmeets

/-- Apart from that, what can be met is met by the motions towards it. -/
theorem CanMeet.satisfies_of_moved? (h : delivered.CanMeet required matching)
    (hother : ¬ (required = .nonSingleton ∧ matching = .exact)) {target : Distribution}
    (htarget : required.moved? = some target) : target.satisfies required matching = true := by
  cases required with
  | any | universal => simp [moved?] at htarget
  | singleton | replicated | random =>
      obtain rfl := Option.some.inj htarget
      cases matching <;> rfl
  | hashed columns nulls =>
      obtain rfl := Option.some.inj htarget
      have hsuffices (hlax : delivered.CanMeet (.hashed columns nulls) .satisfy) :
          hashingSuffices columns true columns nulls = true := by
        simp [hashingSuffices, hlax.ne_nil]
      cases matching with
      | exact => cases nulls <;> simp [hashedOn, Distribution.satisfies]
      | satisfy => exact hsuffices h
      | subset => exact hsuffices h
  | nonSingleton =>
      obtain rfl := Option.some.inj htarget
      cases matching with
      | satisfy | subset => rfl
      | exact => exact absurd ⟨rfl, rfl⟩ hother

/-- What can be met is met already, or there are motions towards it. -/
theorem CanMeet.satisfies_or_moved (h : delivered.CanMeet required matching) :
    delivered.satisfies required matching = true ∨ required.moved?.isSome := by
  cases required with
  | any => exact .inl satisfies_any
  | universal =>
      refine h.imp_right fun ⟨move, hmeets⟩ => ?_
      cases move <;> cases matching <;>
        simp [Motion.target, Distribution.satisfies, hashedOn] at hmeets
  | _ => exact .inr rfl

/-- What can be met, with the discipline as well as without it, is met dependably as long as the
discipline makes no difference to the delivered distribution. -/
theorem CanMeet.dependable (h : delivered.CanMeet required matching)
    (hlax : delivered.CanMeet required .satisfy)
    (halike : delivered.satisfies required matching = delivered.satisfies required .satisfy) :
    delivered.Dependable required matching := by
  refine ⟨halike, hlax.satisfies_or_moved, fun target htarget => ⟨h.satisfies_of_moved? ?_ htarget,
    hlax.satisfies_of_moved? (by simp) htarget⟩⟩
  rintro ⟨rfl, rfl⟩
  obtain rfl := h.eq_nonSingleton
  simp [Distribution.satisfies] at halike

/-- What is on one host is so under every discipline. -/
theorem satisfies_singleton (h : delivered.satisfies .singleton matching = true) :
    delivered.satisfies .singleton .satisfy = true := by
  cases delivered <;> cases matching <;> simp_all [Distribution.satisfies]

/-- Rows that are spread over the hosts are on several of them. Unless they are hashed, they are spread
at random under every discipline. -/
theorem isPartitioned_eq_false (hunmet : delivered.satisfies required matching = false)
    (hrequired : required = .random ∧ (matching = .exact → delivered.isHashed = false) ∨
      required = .nonSingleton ∧ matching ≠ .exact) : delivered.isPartitioned = false := by
  rcases hrequired with ⟨rfl, hspread⟩ | ⟨rfl, hlax⟩
  · cases delivered <;> cases matching <;> simp_all [Distribution.satisfies, isPartitioned, isHashed]
  · cases delivered <;> simp_all [Distribution.satisfies, isPartitioned]

end Distribution

/-! ## Which enforcers are offered -/

namespace EnforcerSettings

variable {settings : EnforcerSettings} {required delivered : Distribution} {order : SortOrder}

/-- The motions on offer deliver one distribution, and keep at most the required order. -/
theorem mem_motions {enforcer : PhysicalOperator}
    (h : enforcer ∈ settings.motions required delivered order) :
    ∃ move, enforcer = .motion move ∧ required.moved? = some move.target ∧
      (move.order = .any ∨ move.order = order) := by
  cases required with
  | singleton =>
      rcases List.mem_cons.mp h with rfl | h
      · exact ⟨.gather, rfl, rfl, .inl rfl⟩
      · split at h
        · obtain rfl := List.mem_singleton.mp h
          exact ⟨.gatherMerge order, rfl, rfl, .inr rfl⟩
        · simp at h
  | hashed columns nulls =>
      obtain rfl := List.mem_singleton.mp h
      exact ⟨.redistribute columns, rfl, rfl, .inl rfl⟩
  | replicated =>
      obtain rfl := List.mem_singleton.mp h
      exact ⟨.broadcast, rfl, rfl, .inl rfl⟩
  | random | nonSingleton =>
      unfold motions at h
      dsimp only at h
      split at h
      · simp at h
      · obtain rfl := List.mem_singleton.mp h
        exact ⟨.random, rfl, rfl, .inl rfl⟩
  | any | universal => simp [motions] at h

/-- The motions for one distribution are among those over a single host and with any order to keep. -/
theorem motions_subset {kept : SortOrder} (horder : order = .any ∨ order = kept) :
    settings.motions required delivered order ⊆ settings.motions required .singleton kept := by
  intro enforcer h
  cases required with
  | singleton =>
      rcases horder with rfl | rfl
      · rcases List.mem_cons.mp h with rfl | h
        · exact List.mem_cons_self ..
        · simp [SortOrder.any, SortOrder.isEmpty] at h
      · exact h
  | random | nonSingleton =>
      unfold motions at h
      dsimp only at h
      split at h
      · simp at h
      · exact h
  | _ => exact h

/-- A motion that keeps no order is on offer for a distribution that motions deliver, unless rows that
are spread already are to be spread at random. -/
theorem exists_motion (hmoved : required.moved?.isSome)
    (hwhole : required = .random ∨ required = .nonSingleton → delivered.isPartitioned = false) :
    ∃ move, .motion move ∈ settings.motions required delivered order ∧
      move.kind ≠ .gatherMerge := by
  cases required with
  | singleton => exact ⟨.gather, List.mem_cons_self .., by decide⟩
  | hashed columns nulls => exact ⟨.redistribute columns, List.mem_singleton.mpr rfl, nofun⟩
  | replicated => exact ⟨.broadcast, List.mem_singleton.mpr rfl, by decide⟩
  | random => exact ⟨.random, by simp [motions, hwhole (.inl rfl)], by decide⟩
  | nonSingleton => exact ⟨.random, by simp [motions, hwhole (.inr rfl)], by decide⟩
  | any | universal => simp [Distribution.moved?] at hmoved

/-- A motion that keeps the order is on offer as well when there is no order to keep, or when merging on
one host is allowed. -/
theorem exists_ordered_motion (hmoved : required.moved?.isSome)
    (hwhole : required = .random ∨ required = .nonSingleton → delivered.isPartitioned = false)
    (horder : order = .any ∨ settings.gatherMerge = true ∧ required = .singleton) :
    ∃ move, .motion move ∈ settings.motions required delivered order ∧ move.order = order := by
  by_cases hnone : order = .any
  · obtain ⟨move, hmove, hkind⟩ :
        ∃ move, .motion move ∈ settings.motions required delivered order ∧
          move.kind ≠ .gatherMerge := exists_motion hmoved hwhole
    refine ⟨move, hmove, ?_⟩
    cases move with
    | gatherMerge _ => exact absurd rfl hkind
    | _ => exact hnone.symm
  · obtain ⟨hmerge, rfl⟩ := horder.resolve_left hnone
    have hkeys : order.isEmpty = false := by
      rw [← Bool.not_eq_true]
      exact fun hempty => hnone (congrArg SortOrder.mk (List.isEmpty_iff.mp hempty))
    exact ⟨.gatherMerge order, by simp [motions, hkeys, hmerge], rfl⟩

end EnforcerSettings

/-- What is required and missed is enforced. -/
theorem Enforced.enforcement_eq_required {S : Type} [PhysicalProperty S] {wanted : Enforced S}
    {found : S} (hunmet : wanted.isSatisfiedBy found = false)
    (hrequired : PhysicalProperty.isRequired wanted.spec = true) :
    wanted.enforcement found = .required := by
  simp [enforcement, hunmet, hrequired]

/-- Every plan can be read at least once. -/
theorem Enforced.isSatisfiedBy_notRewindable {wanted : Enforced Rewindability}
    {found : Rewindability} (h : wanted.spec = .notRewindable) : wanted.isSatisfiedBy found = true := by
  simp only [isSatisfiedBy, PhysicalProperty.satisfies, h]
  cases wanted.matching <;> simp [Rewindability.rank]

namespace EnforcementDecision

variable {op : PhysicalOperator} {logical : RelationProperties} {required : PlanRequirement}
  {delivered : PlanProperties} {settings : EnforcerSettings}

/-- An operator that prohibits nothing lets every property be enforced. -/
theorem anyProhibited_decide (hop : op.prohibitions = []) :
    (decide op logical required delivered).anyProhibited = false := by
  have hnever {S : Type} [PhysicalProperty S] (wanted : Enforced S) (found : S) :
      (wanted.enforcement found).isProhibited = false := by
    unfold Enforced.enforcement
    split <;> rfl
  unfold decide anyProhibited all
  simp only [hop, List.contains_nil, Bool.false_eq_true, if_false, List.any_cons, List.any_nil,
    hnever, Bool.or_false]
  split
  · rfl
  · exact hnever _ _

/-- What is met needs no enforcer. -/
theorem allowsCosting_of_isSatisfiedBy (hop : op.prohibitions = [])
    (h : required.isSatisfiedBy logical delivered = true) :
    (decide op logical required delivered).allowsCosting = true := by
  obtain ⟨_, hhas, _⟩ := PlanRequirement.isSatisfiedBy_iff.mp h
  rw [allowsCosting_decide_iff hop, Enforced.order_allowsCosting_iff,
    Enforced.distribution_allowsCosting_iff, Enforced.rewindability_allowsCosting_iff,
    Enforced.partition_allowsCosting_iff]
  exact ⟨hhas.order.imp_right .inl, hhas.distribution, hhas.rewindability, .inl hhas.partition⟩

/-- A sort is offered for an order that is missed. -/
theorem sort_mem_enforcers (hop : op.prohibitions = []) (hmany : logical.rowBound.atMostOne = false)
    (hkeys : required.order.spec.isEmpty = false)
    (hunmet : required.order.isSatisfiedBy delivered.order = false) :
    .sort required.order.spec ∈
      (decide op logical required delivered).enforcers settings required delivered := by
  have hneed : (decide op logical required delivered).order = .required := by
    simp only [decide, hop, hmany, List.contains_nil, Bool.false_eq_true, if_false]
    exact Enforced.enforcement_eq_required hunmet (by simp [PhysicalProperty.isRequired, hkeys])
  simp [enforcers, hneed, EnforcerSettings.sorts, hkeys]

/-- The motions are offered for a distribution that is missed. -/
theorem motion_mem_enforcers (hop : op.prohibitions = [])
    (hunmet : required.distribution.isSatisfiedBy delivered.distribution = false)
    {enforcer : PhysicalOperator} (h : enforcer ∈ settings.motions required.distribution.spec
      delivered.distribution required.order.spec) :
    enforcer ∈ (decide op logical required delivered).enforcers settings required delivered := by
  have hspec : required.distribution.spec ≠ .any := by
    intro hany
    simp [Enforced.isSatisfiedBy, PhysicalProperty.satisfies, hany] at hunmet
  have hneed : (decide op logical required delivered).distribution = .required := by
    simp only [decide, hop, List.contains_nil, Bool.false_eq_true, if_false]
    exact Enforced.enforcement_eq_required hunmet (by simpa [PhysicalProperty.isRequired] using hspec)
  simp [enforcers, hneed, h]

/-- A spool is offered for a rewindability that is missed. -/
theorem spool_mem_enforcers (hop : op.prohibitions = [])
    (hunmet : required.rewindability.isSatisfiedBy delivered.rewindability = false) :
    .spool required.rewindability.spec ∈
      (decide op logical required delivered).enforcers settings required delivered := by
  have hspec : required.rewindability.spec ≠ .notRewindable := by
    intro hnone
    rw [Enforced.isSatisfiedBy_notRewindable hnone] at hunmet
    exact absurd hunmet (by simp)
  have hneed : (decide op logical required delivered).rewindability = .required := by
    simp only [decide, hop, List.contains_nil, Bool.false_eq_true, if_false]
    exact Enforced.enforcement_eq_required hunmet (by simpa [PhysicalProperty.isRequired] using hspec)
  simp [enforcers, hneed, EnforcerSettings.spools, hspec]

end EnforcementDecision

/-! ## What an enforcer delivers -/

namespace PhysicalOperator

/-- What an operator over one relational child delivers above a plan of the child. -/
def above (op : PhysicalOperator) (below : PlanProperties) : PlanProperties :=
  op.delivered
    { expr := ⟨0⟩, op := .physical op, group := ⟨0⟩, logical := {}
      children := [{ group := ⟨0⟩, properties := .relation {}, plan := some below }] }

variable {op : PhysicalOperator} {below : PlanProperties}

/-- What is delivered over one relational child depends on the plan of that child only. -/
theorem delivered_eq_above {view : ExprView} {child : ChildView} (hchildren : view.children = [child])
    (hrelation : child.isScalar = false) (hplan : child.plan = some below) :
    op.delivered view = op.above below := by
  have hfirst : view.firstRelationalPlan? = some below := by
    simp [ExprView.firstRelationalPlan?, hchildren, hrelation, hplan]
  have hplans : view.childPlans = [below] := by simp [ExprView.childPlans, hchildren, hplan]
  have hzero : view.childPlan? 0 = some below := by simp [ExprView.childPlan?, hchildren, hplan]
  have hone : view.childPlan? 1 = none := by simp [ExprView.childPlan?, hchildren]
  unfold above delivered deliveredOrder deliveredDistribution deliveredRewindability
    deliveredPartition deliveredCtes passedDistribution passedRewindability combinedPartition
    ExprView.childOrder
  rw [hfirst, hplans, hzero, hone]
  rfl

/-- The partition states of a plan without partitioned scans, below an enforcer. -/
theorem combinedPartition_above {view : ExprView} (hplans : view.childPlans = [below])
    (hpartition : below.partition = .none) : combinedPartition view = .none := by
  simp only [combinedPartition, hplans, List.foldl_cons, List.foldl_nil, hpartition]
  decide

section Above

variable (hpartition : below.partition = .none) (hctes : below.ctes = .empty)
include hpartition hctes

/-- A sort keeps the distribution, and its result can be read again. -/
theorem above_sort (order : SortOrder) : (sort order).above below =
    { order, distribution := below.distribution, rewindability := .rewindable } :=
  (PlanProperties.mk.injEq ..).mpr ⟨rfl, rfl, rfl, combinedPartition_above rfl hpartition,
    congrArg CteMap.empty.combine hctes⟩

/-- A motion delivers its target; only a gather that merges keeps the order. -/
theorem above_motion (move : Motion) : (motion move).above below =
    { order := if move.kind = .gatherMerge then below.order else .any, distribution := move.target } :=
  (PlanProperties.mk.injEq ..).mpr ⟨by cases move <;> rfl, rfl, rfl,
    combinedPartition_above rfl hpartition, congrArg CteMap.empty.combine hctes⟩

/-- A spool changes nothing but the rewindability. -/
theorem above_spool (level : Rewindability) : (spool level).above below =
    { order := below.order, distribution := below.distribution, rewindability := level } :=
  (PlanProperties.mk.injEq ..).mpr ⟨rfl, rfl, rfl, combinedPartition_above rfl hpartition,
    congrArg CteMap.empty.combine hctes⟩

end Above

end PhysicalOperator

end QueryPlanner
