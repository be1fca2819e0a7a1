import Mathlib.Data.List.Perm.Subperm
import QueryPlanner.Proofs.Optimizer.Run
import QueryPlanner.Proofs.Property.Enforceable

/-!
# The group of a table

A group with the access to a table and its scan gets only enforcers while it is optimized, and of
those only a few can be of use below the requirement that the optimization started with
(`TableRun.Helps`). All contexts of the group are about requirements that this one leads to
(`TableRun.Relates`), and all that is delivered for them is the distribution of the table or the
target of a motion (`TableRun.Delivers`).
-/

namespace QueryPlanner

open Memo (SameContent SameQuery)

/-- An optimization of the group of a table under a requirement. -/
structure TableRun where
  group : GroupId
  access : TableAccess
  logical : RelationProperties
  planner : Planner
  stage : Nat
  /-- The requirement that the optimization starts with. -/
  base : PlanRequirement

namespace TableRun

variable {run : TableRun} {required : PlanRequirement} {delivered : PlanProperties}
  {op : PhysicalOperator}

/-- What the scan of the table delivers. -/
def scanned (run : TableRun) : PlanProperties :=
  { distribution := run.access.table.distribution, rewindability := .rewindable }

/-! ## Enforcers that help -/

/-- The enforcers that can be of use below the requirement. -/
def helpers (run : TableRun) : List PhysicalOperator :=
  EnforcerSettings.sorts run.base.order.spec ++
    run.planner.enforcers.motions run.base.distribution.spec .singleton run.base.order.spec ++
    EnforcerSettings.spools run.base.rewindability.spec

/-- What the enforcers are that can be of use below the requirement. -/
inductive Helps (run : TableRun) : PhysicalOperator → Prop
  | sort (keys : run.base.order.spec.isEmpty = false) : Helps run (.sort run.base.order.spec)
  | motion {move : Motion} (target : run.base.distribution.spec.moved? = some move.target)
      (order : move.order = .any ∨ move.order = run.base.order.spec) : Helps run (.motion move)
  | spool (level : run.base.rewindability.spec ≠ .notRewindable) :
      Helps run (.spool run.base.rewindability.spec)

theorem helps_of_mem (h : op ∈ run.helpers) : run.Helps op := by
  simp only [helpers, List.mem_append] at h
  rcases h with (h | h) | h
  · unfold EnforcerSettings.sorts at h
    split at h
    · simp at h
    · rename_i hkeys
      obtain rfl := List.mem_singleton.mp h
      exact .sort (by simpa using hkeys)
  · obtain ⟨move, rfl, htarget, horder⟩ := EnforcerSettings.mem_motions h
    exact .motion htarget horder
  · unfold EnforcerSettings.spools at h
    split at h
    · simp at h
    · rename_i hlevel
      obtain rfl := List.mem_singleton.mp h
      exact .spool (by simpa using hlevel)

/-- There are at most four of them: a sort, two gathers and a spool. -/
theorem length_helpers_le (run : TableRun) : run.helpers.length ≤ 4 := by
  have hsorts : (EnforcerSettings.sorts run.base.order.spec).length ≤ 1 := by
    unfold EnforcerSettings.sorts
    split <;> simp
  have hmotions : (run.planner.enforcers.motions run.base.distribution.spec .singleton
      run.base.order.spec).length ≤ 2 := by
    unfold EnforcerSettings.motions
    split <;> (try split) <;> simp
  have hspools : (EnforcerSettings.spools run.base.rewindability.spec).length ≤ 1 := by
    unfold EnforcerSettings.spools
    split <;> simp
  simp only [helpers, List.length_append]
  omega

namespace Helps

theorem isCatalogued (h : run.Helps op) : op.isCatalogued = true := by cases h <;> rfl

theorem isEnforcer (h : run.Helps op) : op.isEnforcer = true := by cases h <;> rfl

theorem prohibitions (h : run.Helps op) : op.prohibitions = [] := by cases h <;> rfl

end Helps

/-! ## Requirements that a requirement leads to -/

/-- The requirement is one that the enforcers that help lead to: each property is required as at
first, or not at all. -/
structure Relates (run : TableRun) (required : PlanRequirement) : Prop where
  columns : required.columns.subset run.logical.output = true
  order : required.order.spec = .any ∨ required.order.spec = run.base.order.spec
  distribution : required.distribution.spec = .any ∨
    required.distribution.spec = run.base.distribution.spec
  rewindability : required.rewindability.spec = .notRewindable ∨
    required.rewindability.spec = run.base.rewindability.spec
  partition : required.partition.spec = .none
  ctes : required.ctes = .empty
  /-- No order is required exactly only if no order is required at first. -/
  unordered : required.order = ⟨.any, .exact⟩ → run.base.order.spec = .any

/-- What is delivered for a requirement: in the order required at first or in none, and distributed
like the table unless a motion was asked for. -/
structure Delivers (run : TableRun) (required : PlanRequirement) (delivered : PlanProperties) :
    Prop where
  order : delivered.order = .any ∨ delivered.order = run.base.order.spec
  distribution : delivered.distribution = run.access.table.distribution ∨
    required.distribution.spec ≠ .any ∧
      run.base.distribution.spec.moved? = some delivered.distribution
  partition : delivered.partition = .none
  ctes : delivered.ctes = .empty

namespace Relates

/-- The enforcers on offer for a requirement help below the first one. -/
theorem mem_helpers (h : run.Relates required) {decision : EnforcementDecision}
    (hop : op ∈ decision.enforcers run.planner.enforcers required delivered) :
    op ∈ run.helpers := by
  simp only [helpers, List.mem_append]
  rcases EnforcementDecision.offers_of_mem_enforcers hop with hop | hop | hop | hop
  · refine .inl (.inl ?_)
    rcases h.order with hspec | hspec
    · simp [hspec, EnforcerSettings.sorts, SortOrder.any, SortOrder.isEmpty] at hop
    · rwa [hspec] at hop
  · refine .inl (.inr ?_)
    rcases h.distribution with hspec | hspec
    · simp [hspec, EnforcerSettings.motions] at hop
    · rw [hspec] at hop
      exact EnforcerSettings.motions_subset h.order hop
  · refine .inr ?_
    rcases h.rewindability with hspec | hspec
    · simp [hspec, EnforcerSettings.spools] at hop
    · rwa [hspec] at hop
  · simp [h.partition, EnforcerSettings.selectors, PartitionPropagation.none, PartitionMap.empty,
      KeyedMap.empty] at hop

/-- What an enforcer that helps asks of its child. -/
theorem childRequirement (h : run.Relates required) (hop : run.Helps op) {view : ExprView}
    (hchild : view.childLogical 0 = run.logical) (request : Nat) :
    run.Relates (op.childRequirement view required 0 [] request) where
  columns := by
    have hcolumns : (view.usualChildColumns required.columns 0).subset run.logical.output = true := by
      rw [KeyedSet.subset_iff]
      intro column hcolumn
      rw [ExprView.usualChildColumns, hchild, KeyedSet.mem_inter] at hcolumn
      exact hcolumn.2
    cases hop <;> exact hcolumns
  order := by
    cases hop with
    | sort _ => exact .inl rfl
    | motion _ horder => exact horder
    | spool _ => exact h.order
  distribution := by
    cases hop with
    | sort _ | spool _ => exact h.distribution
    | motion _ _ => exact .inl rfl
  rewindability := by cases hop <;> exact .inl rfl
  partition := by
    have hnone (scans : List ScanId) : PartitionMap.empty.restrictedTo scans = .empty := by
      unfold PartitionMap.restrictedTo
      exact List.foldlRecOn (motive := fun kept => kept = PartitionMap.empty) scans _ rfl
        fun kept hkept scan _ => hkept
    have hpushed (scans : List ScanId) : ({ scans := required.partition.spec.scans.restrictedTo scans
                                            filters := required.partition.spec.filters } :
        PartitionPropagation) = .none := by
      rw [h.partition]
      exact congrArg (PartitionPropagation.mk · .empty) (hnone scans)
    cases hop <;> exact hpushed _
  ctes := by
    show required.ctes.allOptional = .empty
    rw [h.ctes]
    rfl
  unordered hexact := by cases hop <;> simp [PhysicalOperator.childRequirement,
    PhysicalOperator.orderMatching] at hexact

/-- A plan without common table expressions meets the requirement when order, distribution and
rewindability do. -/
theorem isSatisfiedBy_iff (h : run.Relates required) (hctes : delivered.ctes = .empty) :
    required.isSatisfiedBy run.logical delivered = true ↔
      (run.logical.rowBound.atMostOne = true ∨
        required.order.isSatisfiedBy delivered.order = true) ∧
      required.distribution.isSatisfiedBy delivered.distribution = true ∧
      required.rewindability.isSatisfiedBy delivered.rewindability = true := by
  rw [PlanRequirement.isSatisfiedBy_iff]
  constructor
  · rintro ⟨_, hhas, _⟩
    exact ⟨hhas.order, hhas.distribution, hhas.rewindability⟩
  · rintro ⟨horder, hdistribution, hrewindability⟩
    refine ⟨h.columns, ⟨horder, hdistribution, hrewindability, ?_⟩, ?_⟩
    · show delivered.partition.scans.satisfies required.partition.spec.scans = true
      rw [h.partition]
      rfl
    · rw [hctes, h.ctes]
      rfl

/-- A plan without partitions and common table expressions leaves a way to meet the requirement. -/
theorem leavesWay (h : run.Relates required) (hpartition : delivered.partition = .none)
    (hctes : delivered.ctes = .empty) : Optimizer.leavesWay op required delivered = true := by
  unfold Optimizer.leavesWay
  rw [hpartition, hctes, h.ctes]
  simp [CteMap.satisfies, CteMap.empty, CteRequirement.empty, KeyedMap.empty,
    PartitionPropagation.none, PartitionMap.hasConsumer, PartitionMap.hasRedundantSelectors,
    PartitionMap.empty]

end Relates

/-! ## What is delivered -/

theorem delivers_scanned : run.Delivers required run.scanned :=
  ⟨.inl rfl, .inl rfl, rfl, rfl⟩

namespace Delivers

variable {below : PlanProperties} {view : ExprView} {request : Nat}

/-- What an enforcer delivers that is considered for a requirement. -/
theorem above (hop : run.Helps op) (hserves : Optimizer.servesRequirement op view required = true)
    (h : run.Delivers (op.childRequirement view required 0 [] request) below) :
    run.Delivers required (op.above below) := by
  cases hop with
  | sort _ =>
      rw [PhysicalOperator.above_sort h.partition h.ctes]
      exact ⟨.inr rfl, h.distribution, rfl, rfl⟩
  | @motion move htarget _ =>
      rw [PhysicalOperator.above_motion h.partition h.ctes]
      refine ⟨?_, .inr ⟨?_, htarget⟩, rfl, rfl⟩
      · show (if move.kind = .gatherMerge then below.order else .any) = _ ∨ _
        split
        · exact h.order
        · exact .inl rfl
      · have hwanted : (required.distribution.spec != .any) = true :=
          (Bool.and_eq_true_iff.mp hserves).2
        simpa using hwanted
  | spool _ =>
      rw [PhysicalOperator.above_spool h.partition h.ctes]
      exact ⟨h.order, h.distribution, rfl, rfl⟩

/-- An order that is sufficient is the required one, so it is met under every discipline. -/
theorem order_met (h : run.Delivers required delivered) {wanted : PlanRequirement}
    (hwanted : run.Relates wanted)
    (hlax : (⟨wanted.order.spec, .satisfy⟩ : Enforced SortOrder).isSatisfiedBy delivered.order = true) :
    wanted.order.isSatisfiedBy delivered.order = true := by
  rcases horder : wanted.order with ⟨⟨keys⟩, matching⟩
  rw [horder] at hlax
  cases matching with
  | satisfy | subset => exact hlax
  | exact =>
      have hspec := horder ▸ hwanted.order
      show (delivered.order == ⟨keys⟩) = true
      rw [beq_iff_eq]
      cases keys with
      | nil =>
          have hbase := hwanted.unordered horder
          rcases h.order with hnone | hkept
          · exact hnone
          · exact hkept.trans hbase
      | cons key rest =>
          have hbase : (⟨key :: rest⟩ : SortOrder) = run.base.order.spec :=
            hspec.resolve_left (by simp [SortOrder.any])
          rcases h.order with hnone | hkept
          · rw [hnone] at hlax
            simp [Enforced.isSatisfiedBy, PhysicalProperty.satisfies, SortOrder.any] at hlax
          · rw [hkept, hbase]

/-- A distribution that is sufficient is met under the discipline as well, if that makes no
difference to the table and the motions. -/
theorem distribution_met (h : run.Delivers required delivered) {wanted : PlanRequirement}
    (hwanted : run.Relates wanted)
    (hdependable : run.access.table.distribution.Dependable wanted.distribution.spec
      wanted.distribution.matching)
    (hlax : delivered.distribution.satisfies wanted.distribution.spec .satisfy = true) :
    wanted.distribution.isSatisfiedBy delivered.distribution = true := by
  rcases hwanted.distribution with hnone | hspec
  · show delivered.distribution.satisfies wanted.distribution.spec _ = true
    rw [hnone, Distribution.satisfies_any]
  · refine hdependable.satisfies (h.distribution.imp_right fun hmoved => ?_) hlax
    rw [hspec]
    exact hmoved.2

end Delivers

/-- If no order is required, none is needed under the discipline either. -/
theorem Relates.order_any (h : run.Relates required) (horder : required.order.spec = .any) :
    required.order.isSatisfiedBy .any = true :=
  have hscanned : run.Delivers required run.scanned := delivers_scanned
  hscanned.order_met h (by rw [horder]; rfl)

/-! ## Requirements that can be met -/

/-- A requirement that the scan meets, or a single motion over it, or one that enforcers meet
dependably. -/
def Feasible (run : TableRun) (required : PlanRequirement) : Prop :=
  required.isSatisfiedBy run.logical run.scanned = true ∨
    (required.distribution.isSatisfiedBy run.access.table.distribution = false ∧
      required.rewindability.spec = .notRewindable ∧ ∃ move,
        .motion move ∈ run.planner.enforcers.motions required.distribution.spec
          run.access.table.distribution required.order.spec ∧ move.order = required.order.spec ∧
        move.target.satisfies required.distribution.spec required.distribution.matching = true) ∨
    run.access.table.distribution.Dependable required.distribution.spec
      required.distribution.matching

/-- What a motion asks for can be met, and so can what any enforcer asks for on the way to something
dependable. -/
theorem feasible_childRequirement (hop : run.Helps op)
    (h : (∃ move, op = .motion move) ∨ run.access.table.distribution.Dependable
      required.distribution.spec required.distribution.matching) (view : ExprView) (request : Nat) :
    run.Feasible (op.childRequirement view required 0 [] request) := by
  refine .inr (.inr ?_)
  cases hop with
  | sort _ | spool _ => exact (h.resolve_left (by simp)).relaxed
  | motion _ _ => exact .any

/-- The group lists an enforcer. -/
def Lists (run : TableRun) (memo : Memo) (op : PhysicalOperator) : Prop :=
  ∃ id ∈ memo.alternativesOf run.group, memo.op? id = some (.physical op)

/-- The enforcers on offer above an alternative that delivers something. -/
def offers (run : TableRun) (required : PlanRequirement) (delivered : PlanProperties) :
    List PhysicalOperator :=
  (EnforcementDecision.decide (.tableScan run.access) run.logical required delivered).enforcers
    run.planner.enforcers required delivered

/-- What follows in a context once an alternative was tried in it that delivers something: the
enforcers on offer are listed, and the context has a best plan if the alternative is one. -/
structure Concludes (run : TableRun) (memo : Memo) (own : ContextId) (required : PlanRequirement)
    (fits : Bool) (delivered : PlanProperties) : Prop where
  best : fits = true → required.isSatisfiedBy run.logical delivered = true → (memo.best? own).isSome
  listed : ∀ op ∈ run.offers required delivered, run.Lists memo op

end TableRun

/-- An operator fits above a plan unless it gathers what is on one host already. -/
def PhysicalOperator.suits (op : PhysicalOperator) (below : PlanProperties) : Bool :=
  match op.enforcerKind? with
  | some (.motion .gather) | some (.motion .gatherMerge) => !below.distribution.isSingleton
  | _ => true

namespace TableRun

variable {run : TableRun} {required : PlanRequirement} {delivered : PlanProperties}
  {op : PhysicalOperator}

/-- An enforcer was tried in a context: if what it asks for can be met, it was tried over a plan
for that. -/
def Tried (run : TableRun) (memo : Memo) (own : ContextId) (required : PlanRequirement)
    (op : PhysicalOperator) : Prop :=
  ∃ view request, view.childLogical 0 = run.logical ∧
    (run.Feasible (op.childRequirement view required 0 [] request) → ∃ below,
      run.Delivers (op.childRequirement view required 0 [] request) below ∧
      (op.childRequirement view required 0 [] request).isSatisfiedBy run.logical below = true ∧
      run.Concludes memo own required (op.suits below) (op.above below))

namespace Tried

variable {memo : Memo} {own : ContextId}

/-- A sort that was tried is a plan when its result can be read again often enough. -/
theorem sort (h : run.Tried memo own required (.sort required.order.spec))
    (hrelates : run.Relates required) (hkeys : required.order.spec.isEmpty = false)
    (hdependable : run.access.table.distribution.Dependable required.distribution.spec
      required.distribution.matching)
    (hrewindable : required.rewindability.isSatisfiedBy .rewindable = true) :
    (memo.best? own).isSome := by
  have hspec : required.order.spec = run.base.order.spec :=
    hrelates.order.resolve_left fun hany => by simp [hany, SortOrder.any, SortOrder.isEmpty] at hkeys
  have hop : run.Helps (.sort required.order.spec) := by
    rw [hspec] at hkeys ⊢
    exact .sort hkeys
  obtain ⟨view, request, hview, htried⟩ := h
  obtain ⟨below, hbelow, hmeets, hconcludes⟩ :=
    htried (feasible_childRequirement hop (.inr hdependable) view request)
  have hasked := (hrelates.childRequirement hop hview request).isSatisfiedBy_iff hbelow.ctes
  obtain ⟨_, hdistribution, _⟩ := hasked.mp hmeets
  refine hconcludes.best rfl ?_
  rw [PhysicalOperator.above_sort hbelow.partition hbelow.ctes]
  refine (hrelates.isSatisfiedBy_iff rfl).mpr ⟨.inr ?_, ?_, hrewindable⟩
  · show PhysicalProperty.satisfies _ required.order.spec required.order.matching = true
    cases required.order.matching <;> simp [PhysicalProperty.satisfies]
  · have hkept : run.Delivers required below := ⟨hbelow.order, hbelow.distribution, hbelow.partition,
      hbelow.ctes⟩
    exact hkept.distribution_met hrelates hdependable hdistribution

/-- A spool that was tried is a plan. -/
theorem spool (h : run.Tried memo own required (.spool required.rewindability.spec))
    (hrelates : run.Relates required) (hlevel : required.rewindability.spec ≠ .notRewindable)
    (hdependable : run.access.table.distribution.Dependable required.distribution.spec
      required.distribution.matching) :
    (memo.best? own).isSome := by
  have hspec := hrelates.rewindability.resolve_left hlevel
  have hop : run.Helps (.spool required.rewindability.spec) := by
    rw [hspec] at hlevel ⊢
    exact .spool hlevel
  obtain ⟨view, request, hview, htried⟩ := h
  obtain ⟨below, hbelow, hmeets, hconcludes⟩ :=
    htried (feasible_childRequirement hop (.inr hdependable) view request)
  have hasked := (hrelates.childRequirement hop hview request).isSatisfiedBy_iff hbelow.ctes
  obtain ⟨horder, hdistribution, _⟩ := hasked.mp hmeets
  have hkept : run.Delivers required below := ⟨hbelow.order, hbelow.distribution, hbelow.partition,
    hbelow.ctes⟩
  refine hconcludes.best rfl ?_
  rw [PhysicalOperator.above_spool hbelow.partition hbelow.ctes]
  refine (hrelates.isSatisfiedBy_iff rfl).mpr ⟨?_, ?_, ?_⟩
  · exact horder.imp_right (hkept.order_met hrelates)
  · exact hkept.distribution_met hrelates hdependable hdistribution
  · show PhysicalProperty.satisfies _ _ required.rewindability.matching = true
    cases required.rewindability.matching <;> simp [PhysicalProperty.satisfies]

/-- What follows when a motion was tried for a distribution that the table misses. -/
theorem motion {move : Motion} (h : run.Tried memo own required (.motion move))
    (hrelates : run.Relates required) (hop : run.Helps (.motion move))
    (htarget : required.distribution.spec.moved? = some move.target)
    (hunmet : required.distribution.isSatisfiedBy run.access.table.distribution = false) :
    ∃ below, run.Delivers required below ∧
      (run.logical.rowBound.atMostOne = true ∨
        (⟨move.order, .satisfy⟩ : Enforced SortOrder).isSatisfiedBy below.order = true) ∧
      run.Concludes memo own required true
        { order := if move.kind = .gatherMerge then below.order else .any
          distribution := move.target } := by
  obtain ⟨view, request, hview, htried⟩ := h
  obtain ⟨below, hbelow, hmeets, hconcludes⟩ :=
    htried (feasible_childRequirement hop (.inl ⟨move, rfl⟩) view request)
  have hasked := (hrelates.childRequirement hop hview request).isSatisfiedBy_iff hbelow.ctes
  obtain ⟨horder, _, _⟩ := hasked.mp hmeets
  -- the child is asked for no distribution, so it has that of the table
  have htable : below.distribution = run.access.table.distribution :=
    hbelow.distribution.resolve_right fun hmoved => hmoved.1 rfl
  have hsuits : (PhysicalOperator.motion move).suits below = true := by
    have hgather (hsingle : move.target = .singleton) : below.distribution.isSingleton = false := by
      rw [hsingle] at htarget
      rw [htable]
      cases hrequired : required.distribution.spec <;>
        simp [hrequired, Distribution.moved?, Distribution.hashedOn] at htarget
      cases hfound : run.access.table.distribution <;>
        simp [Distribution.isSingleton, Enforced.isSatisfiedBy, PhysicalProperty.satisfies,
          Distribution.satisfies, hrequired, hfound] at hunmet ⊢
    cases move with
    | gather | gatherMerge _ =>
        show (!below.distribution.isSingleton) = true
        rw [hgather rfl]
        rfl
    | _ => rfl
  refine ⟨below, ⟨hbelow.order, .inl htable, hbelow.partition, hbelow.ctes⟩, horder, ?_⟩
  rw [← PhysicalOperator.above_motion hbelow.partition hbelow.ctes, ← hsuits]
  exact hconcludes

end Tried

/-- The view of an enforcer of the group without plans. -/
def seen (run : TableRun) (op : PhysicalOperator) : ExprView :=
  { expr := ⟨0⟩, op := .physical op, group := run.group, logical := run.logical
    children := [{ group := run.group, properties := .relation run.logical }] }

section Best

variable {memo : Memo} {own : ContextId} (hrelates : run.Relates required)
  (hscan : run.Concludes memo own required true run.scanned)
  (htried : ∀ op, run.Helps op → run.Lists memo op →
    Optimizer.servesRequirement op (run.seen op) required = true → run.Tried memo own required op)
include hrelates htried

/-- A spool is a plan as soon as something is tried that misses the rewindability. -/
theorem best_of_spool (hdependable : run.access.table.distribution.Dependable
      required.distribution.spec required.distribution.matching)
    (hunmet : required.rewindability.isSatisfiedBy delivered.rewindability = false) {fits : Bool}
    (hconcludes : run.Concludes memo own required fits delivered) : (memo.best? own).isSome := by
  have hlevel : required.rewindability.spec ≠ .notRewindable := fun hnone => by
    rw [Enforced.isSatisfiedBy_notRewindable hnone] at hunmet
    exact absurd hunmet (by simp)
  have hop : run.Helps (.spool required.rewindability.spec) := by
    have hspec := hrelates.rewindability.resolve_left hlevel
    rw [hspec] at hlevel ⊢
    exact .spool hlevel
  have hlisted := hconcludes.listed _ (EnforcementDecision.spool_mem_enforcers rfl hunmet)
  have hserves : Optimizer.servesRequirement (.spool required.rewindability.spec)
      (run.seen (.spool required.rewindability.spec)) required = true :=
    Bool.and_eq_true_iff.mpr ⟨hrelates.columns, bne_iff_ne.mpr hlevel⟩
  exact (htried _ hop hlisted hserves).spool hrelates hlevel hdependable

include hscan

/-- A sort is a plan when only the order is missing, or the distribution as well. -/
theorem best_of_sort (hdependable : run.access.table.distribution.Dependable
      required.distribution.spec required.distribution.matching)
    (hmany : run.logical.rowBound.atMostOne = false) (hkeys : required.order.spec.isEmpty = false)
    (hunmet : required.order.isSatisfiedBy .any = false)
    (hrewindable : required.rewindability.isSatisfiedBy .rewindable = true) :
    (memo.best? own).isSome := by
  have hoffered : .sort required.order.spec ∈ run.offers required run.scanned :=
    EnforcementDecision.sort_mem_enforcers rfl hmany hkeys hunmet
  have hop := helps_of_mem (hrelates.mem_helpers hoffered)
  have hserves : Optimizer.servesRequirement (.sort required.order.spec)
      (run.seen (.sort required.order.spec)) required = true :=
    Bool.and_eq_true_iff.mpr ⟨hrelates.columns, congrArg Bool.not hkeys⟩
  exact (htried _ hop (hscan.listed _ hoffered) hserves).sort hrelates hkeys hdependable hrewindable

/-- What a motion leads to for a distribution that the table misses. -/
theorem exists_moved {move : Motion}
    (hunmet : required.distribution.isSatisfiedBy run.access.table.distribution = false)
    (hmove : .motion move ∈ run.planner.enforcers.motions required.distribution.spec
      run.access.table.distribution required.order.spec) :
    ∃ below, run.Delivers required below ∧
      (run.logical.rowBound.atMostOne = true ∨
        (⟨move.order, .satisfy⟩ : Enforced SortOrder).isSatisfiedBy below.order = true) ∧
      run.Concludes memo own required true
        { order := if move.kind = .gatherMerge then below.order else .any
          distribution := move.target } := by
  have hoffered : .motion move ∈ run.offers required run.scanned :=
    EnforcementDecision.motion_mem_enforcers rfl hunmet hmove
  have hop := helps_of_mem (hrelates.mem_helpers hoffered)
  obtain ⟨_, hsame, htarget, _⟩ := EnforcerSettings.mem_motions hmove
  obtain rfl := PhysicalOperator.motion.inj hsame
  have hspec : required.distribution.spec ≠ .any := fun hany => by
    simp [hany, Distribution.moved?] at htarget
  have hserves : Optimizer.servesRequirement (.motion move) (run.seen (.motion move)) required =
      true := Bool.and_eq_true_iff.mpr ⟨hrelates.columns, bne_iff_ne.mpr hspec⟩
  exact (htried _ hop (hscan.listed _ hoffered) hserves).motion hrelates hop htarget hunmet

/-- A context whose requirement can be met has a best plan once the scan was tried in it and every
enforcer that the group lists. -/
theorem best_of_tried (hfeasible : run.Feasible required) : (memo.best? own).isSome := by
  by_cases hscanned : required.isSatisfiedBy run.logical run.scanned = true
  · exact hscan.best rfl hscanned
  rcases hfeasible with hmet | ⟨hunmet, hlevel, move, hmove, hkept, htarget⟩ | hdependable
  · exact absurd hmet hscanned
  · obtain ⟨below, hbelow, hordered, hmoved⟩ := exists_moved hrelates hscan htried hunmet hmove
    refine hmoved.best rfl ((hrelates.isSatisfiedBy_iff rfl).mpr
      ⟨hordered.imp_right fun hordered => ?_, htarget, Enforced.isSatisfiedBy_notRewindable hlevel⟩)
    rw [hkept] at hordered
    dsimp only
    split
    · exact hbelow.order_met hrelates hordered
    · rename_i hkind
      refine hrelates.order_any (hkept ▸ ?_)
      cases move with
      | gatherMerge _ => exact absurd rfl hkind
      | _ => rfl
  · by_cases hrewindable : required.rewindability.isSatisfiedBy .rewindable = true
    · by_cases hordered : run.logical.rowBound.atMostOne = true ∨
          required.order.isSatisfiedBy .any = true
      · -- only the distribution is missing, and after a motion perhaps the rewindability
        have hunmet : required.distribution.isSatisfiedBy run.access.table.distribution = false := by
          rw [← Bool.not_eq_true]
          exact fun hmet => hscanned
            ((hrelates.isSatisfiedBy_iff rfl).mpr ⟨hordered, hmet, hrewindable⟩)
        have hmissed : run.access.table.distribution.satisfies required.distribution.spec .satisfy =
            false := hdependable.alike ▸ hunmet
        obtain ⟨move, hmove, hkind⟩ := EnforcerSettings.exists_motion
          (hdependable.met.resolve_left (by simp [hmissed])) fun hspread =>
            Distribution.isPartitioned_eq_false hmissed (hspread.imp (⟨·, nofun⟩) (⟨·, nofun⟩))
        obtain ⟨_, _, _, hmoved⟩ := exists_moved hrelates hscan htried hunmet hmove
        rw [if_neg hkind] at hmoved
        obtain ⟨_, hsame, htarget, _⟩ := EnforcerSettings.mem_motions hmove
        obtain rfl := PhysicalOperator.motion.inj hsame
        by_cases honce : required.rewindability.isSatisfiedBy .notRewindable = true
        · exact hmoved.best rfl ((hrelates.isSatisfiedBy_iff rfl).mpr
            ⟨hordered, (hdependable.moved _ htarget).1, honce⟩)
        · exact best_of_spool hrelates htried hdependable (Bool.not_eq_true _ ▸ honce) hmoved
      · rw [not_or, Bool.not_eq_true, Bool.not_eq_true] at hordered
        have hkeys : required.order.spec.isEmpty = false := by
          rw [← Bool.not_eq_true]
          intro hempty
          rw [hrelates.order_any (congrArg SortOrder.mk (List.isEmpty_iff.mp hempty))] at hordered
          exact absurd hordered.2 (by simp)
        exact best_of_sort hrelates hscan htried hdependable hordered.1 hkeys hordered.2 hrewindable
    · exact best_of_spool hrelates htried hdependable (Bool.not_eq_true _ ▸ hrewindable) hscan

end Best

end TableRun

end QueryPlanner
