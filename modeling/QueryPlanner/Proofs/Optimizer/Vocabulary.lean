import Mathlib.Data.Set.Finite.Lattice
import Mathlib.Data.Set.Finite.List
import QueryPlanner.Proofs.Optimizer.Columns
import QueryPlanner.Proofs.Optimizer.Run

/-!
# The words of a run

Requirements and enforcers are put together from what is there already: orders, hash columns and
partition selectors of the first requirement, of the operators in the memo and of the plans that were
costed before. A `Vocabulary` collects these words. What an operator asks of its children stays within
them (`Vocabulary.admits_childRequirement`), so do the enforcers that are offered
(`Vocabulary.makes_of_mem_enforcers`), and only finitely many enforcers can be made of them
(`Vocabulary.finite_makes`).
-/

namespace QueryPlanner

/-- What `mapM` finds is as long as the list that it looks through. -/
theorem length_of_mapM {α β : Type} {find : α → Option β} {items : List α} {found : List β}
    (h : items.mapM find = some found) : found.length = items.length := by
  induction items generalizing found with
  | nil =>
      obtain rfl := Option.some.inj h
      rfl
  | cons item rest ih =>
      simp only [List.mapM_cons, Option.bind_eq_bind, Option.bind_eq_some_iff] at h
      obtain ⟨first, _, others, hothers, h⟩ := h
      obtain rfl := Option.some.inj h
      exact congrArg (· + 1) (ih hothers)

/-! ## Words of operators -/

namespace PhysicalOperator

/-- The order that an operator asks its child for on its own account. -/
def ownOrder : PhysicalOperator → SortOrder
  | streamAggregate grouping _ => .ascending grouping
  | motion move => move.order
  | _ => .any

/-- The lists of columns that an operator delivers or asks for hashing on by itself. -/
def ownHashings : PhysicalOperator → List (List Column)
  | tableScan access | indexScan access _ => access.table.distribution.hashColumns?.toList
  | hashJoin outerKeys innerKeys => [outerKeys, innerKeys]
  | hashAggregate grouping _ | streamAggregate grouping _ => [grouping]
  | motion move => move.target.hashColumns?.toList
  | _ => []

end PhysicalOperator

/-- The orders, hash columns and selectors that a run may mention. -/
structure Vocabulary where
  orders : List SortOrder
  columns : List Column
  selectors : List (ScanId × Nat × List Column)
  any_mem : .any ∈ orders

namespace Vocabulary

/-- A list of known columns, not longer than all of them. A column may be repeated in it. -/
structure Hashes (words : Vocabulary) (columns : List Column) : Prop where
  length : columns.length ≤ words.columns.length
  known : columns ⊆ words.columns

/-- A distribution that hashes on known columns, if it hashes at all. -/
def Places (words : Vocabulary) (distribution : Distribution) : Prop :=
  ∀ columns, distribution.hashColumns? = some columns → words.Hashes columns

/-- A requirement in the words. -/
structure Admits (words : Vocabulary) (required : PlanRequirement) : Prop where
  order : required.order.spec ∈ words.orders
  distribution : words.Places required.distribution.spec
  selectors : ∀ entry ∈ required.partition.spec.scans.scans.entries,
    (entry.1, entry.2.relation, entry.2.keys) ∈ words.selectors

/-- An operator that brings no other words in. -/
structure Knows (words : Vocabulary) (op : PhysicalOperator) : Prop where
  order : op.ownOrder ∈ words.orders
  hashings : ∀ columns ∈ op.ownHashings, words.Hashes columns

/-- The enforcers that can be made of the words. -/
inductive Makes (words : Vocabulary) : PhysicalOperator → Prop
  | sort {order : SortOrder} (known : order ∈ words.orders) : Makes words (.sort order)
  | motion {move : Motion} (order : move.order ∈ words.orders) (target : words.Places move.target) :
      Makes words (.motion move)
  | spool (rewindability : Rewindability) : Makes words (.spool rewindability)
  | selector {scan : ScanId} {relation : Nat} {keys : List Column}
      (known : (scan, relation, keys) ∈ words.selectors) :
      Makes words (.partitionSelector scan relation keys)

variable {words : Vocabulary} {op : PhysicalOperator}

theorem places_of_none {distribution : Distribution} (h : distribution.hashColumns? = none) :
    words.Places distribution := fun columns hcolumns => by simp [h] at hcolumns

theorem places_hashedOn {columns : List Column} (h : words.Hashes columns) :
    words.Places (.hashedOn columns) := fun _ hcolumns => Option.some.inj hcolumns ▸ h

/-- Enforcers in the words bring no other words in. -/
theorem Makes.knows (h : words.Makes op) : words.Knows op := by
  cases h with
  | sort _ | spool _ | selector _ => exact ⟨words.any_mem, by simp [PhysicalOperator.ownHashings]⟩
  | motion order target => exact ⟨order, fun columns hcolumns => target columns (by
      simpa [PhysicalOperator.ownHashings] using hcolumns)⟩

/-- Enforcers in the words equal themselves. -/
theorem Makes.same (h : words.Makes op) : op.same op = true := by
  cases h <;> simp [PhysicalOperator.same]

/-- Only finitely many lists of known columns are short enough. -/
theorem finite_hashes (words : Vocabulary) : {columns | words.Hashes columns}.Finite := by
  refine ((List.finite_length_le {column // column ∈ words.columns} words.columns.length).image
    (List.map Subtype.val)).subset fun columns h => ?_
  refine ⟨columns.attach.map fun column => ⟨column.1, h.known column.2⟩, ?_, ?_⟩
  · simpa using h.length
  · simp [List.map_map, Function.comp_def]

/-- Only finitely many enforcers can be made of the words. -/
theorem finite_makes (words : Vocabulary) : {op | words.Makes op}.Finite := by
  have horders := words.orders.finite_toSet
  have hsorts := horders.image PhysicalOperator.sort
  have hmoves : ({.gather, .broadcast, .random} ∪ Motion.gatherMerge '' {order | order ∈ words.orders} ∪
      Motion.redistribute '' {columns | words.Hashes columns}).Finite :=
    ((Set.toFinite _).union (horders.image _)).union (words.finite_hashes.image _)
  have hspools := ((Set.toFinite {Rewindability.notRewindable, .rewindable, .markRestore}).image
    PhysicalOperator.spool)
  have hselectors := words.selectors.finite_toSet.image fun selector =>
    PhysicalOperator.partitionSelector selector.1 selector.2.1 selector.2.2
  refine (((hsorts.union (hmoves.image .motion)).union hspools).union hselectors).subset
    fun op h => ?_
  cases h with
  | sort known => exact .inl (.inl (.inl ⟨_, known, rfl⟩))
  | @motion move order target =>
      refine .inl (.inl (.inr ⟨move, ?_, rfl⟩))
      cases move with
      | gather | broadcast | random => simp
      | gatherMerge _ => exact .inl (.inr ⟨_, order, rfl⟩)
      | redistribute _ => exact .inr ⟨_, target _ rfl, rfl⟩
  | spool rewindability => exact .inl (.inr ⟨_, by cases rewindability <;> simp, rfl⟩)
  | selector known => exact .inr ⟨_, known, rfl⟩

/-! ## Requirements of children -/

/-- What is asked of the inner side of a hash join over an outer side in the words. -/
theorem hashes_partnerKeys {outerKeys innerKeys : List Column} {outer : Option PlanProperties}
    (hinner : words.Hashes innerKeys)
    (houter : ∀ plan, outer = some plan → words.Places plan.distribution) :
    words.Hashes (PhysicalOperator.partnerKeys outerKeys innerKeys outer) where
  length := by
    unfold PhysicalOperator.partnerKeys
    cases hhashed : outer.bind (·.distribution.hashColumns?) with
    | none => exact hinner.length
    | some hashed =>
        obtain ⟨plan, hplan, hcolumns⟩ := Option.bind_eq_some_iff.mp hhashed
        dsimp only
        cases hpartners : hashed.mapM fun column =>
            (outerKeys.idxOf? column).bind fun position => innerKeys[position]? with
        | none => exact hinner.length
        | some partners =>
            rw [Option.getD_some, length_of_mapM hpartners]
            exact (houter plan hplan hashed hcolumns).length
  known := List.Subset.trans (PhysicalOperator.partnerKeys_subset _ _ _) hinner.known

/-- The order that an operator asks a child for. -/
theorem childOrder_mem (hcatalogued : op.isCatalogued = true) (hknows : words.Knows op)
    {required : SortOrder} (hrequired : required ∈ words.orders) (child request : Nat) :
    op.childOrder required child request ∈ words.orders := by
  have hany := words.any_mem
  cases op with
  | custom _ => simp [PhysicalOperator.isCatalogued] at hcatalogued
  | streamAggregate grouping _ | motion move => exact hknows.order
  | nestedLoopJoin =>
      unfold PhysicalOperator.childOrder
      dsimp only
      split <;> assumption
  | _ => assumption

/-- The distribution that an operator asks a child for, after siblings in the words. -/
theorem places_childDistribution (hcatalogued : op.isCatalogued = true) (hknows : words.Knows op)
    {required : Distribution} (hrequired : words.Places required) (child request : Nat)
    {siblings : List PlanProperties} (hsiblings : ∀ plan ∈ siblings, words.Places plan.distribution) :
    words.Places (op.childDistribution required child siblings request) := by
  have haggregate {grouping : List Column} (h : words.Hashes grouping) (digit : Nat) :
      words.Places (PhysicalOperator.aggregateChildDistribution grouping digit) := fun columns hcolumns =>
    PhysicalOperator.aggregate_hashColumns? hcolumns ▸ h
  cases op with
  | custom _ => simp [PhysicalOperator.isCatalogued] at hcatalogued
  | filter | sort _ | spool _ | partitionSelector _ _ _ => exact hrequired
  | tableScan _ | indexScan _ _ | motion _ => exact places_of_none rfl
  | nestedLoopJoin => exact places_of_none PhysicalOperator.nestedLoopJoin_hashColumns?
  | hashAggregate grouping _ | streamAggregate grouping _ =>
      exact haggregate (hknows.hashings grouping (List.mem_singleton_self _)) _
  | hashJoin outerKeys innerKeys =>
      have houter := hknows.hashings outerKeys (by simp [PhysicalOperator.ownHashings])
      have hinner := hknows.hashings innerKeys (by simp [PhysicalOperator.ownHashings])
      unfold PhysicalOperator.childDistribution
      dsimp only
      split
      · exact places_hashedOn houter
      · exact places_hashedOn (hashes_partnerKeys hinner fun plan hplan =>
          hsiblings plan (List.mem_of_mem_head? hplan))
      all_goals exact places_of_none rfl

/-- What an operator asks of its children stays within the words. -/
theorem admits_childRequirement (hcatalogued : op.isCatalogued = true) (hknows : words.Knows op)
    {required : PlanRequirement} (hrequired : words.Admits required) (view : ExprView)
    (child request : Nat) {siblings : List PlanProperties}
    (hsiblings : ∀ plan ∈ siblings, words.Places plan.distribution) :
    words.Admits (op.childRequirement view required child siblings request) where
  order := childOrder_mem hcatalogued hknows hrequired.order child request
  distribution :=
    places_childDistribution hcatalogued hknows hrequired.distribution child request hsiblings
  selectors entry hentry := by
    change entry ∈ (op.childPartition view required.partition.spec child).scans.scans.entries
      at hentry
    unfold PhysicalOperator.childPartition at hentry
    split at hentry
    · simp [PartitionPropagation.none, PartitionMap.empty, KeyedMap.empty] at hentry
    · exact hrequired.selectors entry (PartitionMap.mem_of_mem_restrictedTo hentry)

/-! ## Deliveries and enforcers -/

/-- The plans that an alternative sees below it deliver distributions in the words. -/
def Sees (words : Vocabulary) (view : ExprView) : Prop :=
  ∀ child ∈ view.children, ∀ plan, child.plan = some plan → words.Places plan.distribution

/-- An operator over plans in the words delivers a distribution in the words. -/
theorem places_delivered (hcatalogued : op.isCatalogued = true) (hknows : words.Knows op)
    {view : ExprView} (hplans : words.Sees view) : words.Places (op.delivered view).distribution := by
  have hsingleton : words.Places .singleton := places_of_none rfl
  have hplan (position : Nat) (plan : PlanProperties) (h : view.childPlan? position = some plan) :
      words.Places plan.distribution := by
    obtain ⟨child, hchild, hplan⟩ := Option.bind_eq_some_iff.mp h
    exact hplans child (List.mem_of_getElem? hchild) plan hplan
  have hpassed : words.Places (PhysicalOperator.passedDistribution view) := by
    unfold PhysicalOperator.passedDistribution
    cases hfirst : view.firstRelationalPlan? with
    | none => exact hsingleton
    | some plan =>
        obtain ⟨child, hchild, hplan⟩ := Option.bind_eq_some_iff.mp hfirst
        exact hplans child (List.mem_of_find?_eq_some hchild) plan hplan
  show words.Places (op.deliveredDistribution view)
  cases op with
  | custom _ => simp [PhysicalOperator.isCatalogued] at hcatalogued
  | tableScan access | indexScan access _ =>
      exact fun columns hcolumns => hknows.hashings columns (Option.mem_toList.mpr hcolumns)
  | motion move => exact fun columns hcolumns => hknows.hashings columns (Option.mem_toList.mpr hcolumns)
  | hashJoin _ _ =>
      unfold PhysicalOperator.deliveredDistribution
      dsimp only
      cases houter : view.childPlan? 0 with
      | none => exact hsingleton
      | some outer =>
          have hinner : words.Places
              (((view.childPlan? 1).map (·.distribution)).getD .singleton) := by
            cases hinner : view.childPlan? 1 with
            | none => exact hsingleton
            | some inner => exact hplan 1 inner hinner
          dsimp only
          split
          · exact hinner
          · exact hinner
          · exact hplan 0 outer houter
  | _ => exact hpassed

/-- The enforcers on offer for a requirement in the words can be made of them. -/
theorem makes_of_mem_enforcers {decision : EnforcementDecision} {settings : EnforcerSettings}
    {required : PlanRequirement} {delivered : PlanProperties} {enforcer : PhysicalOperator}
    (h : enforcer ∈ decision.enforcers settings required delivered)
    (hadmits : words.Admits required) : words.Makes enforcer := by
  have hmotion {move : Motion} (horder : move.order = .any)
      (htarget : move.target.hashColumns? = none) : words.Makes (.motion move) :=
    .motion (horder ▸ words.any_mem) (places_of_none htarget)
  rcases EnforcementDecision.offers_of_mem_enforcers h with h | h | h | h
  · unfold EnforcerSettings.sorts at h
    split at h
    · simp at h
    · obtain rfl := List.mem_singleton.mp h
      exact .sort hadmits.order
  · unfold EnforcerSettings.motions at h
    split at h
    · rcases List.mem_cons.mp h with rfl | h
      · exact hmotion rfl rfl
      · split at h
        · obtain rfl := List.mem_singleton.mp h
          exact .motion hadmits.order (places_of_none rfl)
        · simp at h
    · rename_i columns nulls hdistribution
      obtain rfl := List.mem_singleton.mp h
      refine .motion words.any_mem (places_hashedOn (hadmits.distribution columns ?_))
      rw [hdistribution]
      rfl
    · obtain rfl := List.mem_singleton.mp h
      exact hmotion rfl rfl
    · split at h
      · simp at h
      · obtain rfl := List.mem_singleton.mp h
        exact hmotion rfl rfl
    · split at h
      · simp at h
      · obtain rfl := List.mem_singleton.mp h
        exact hmotion rfl rfl
    · simp at h
    · simp at h
  · unfold EnforcerSettings.spools at h
    split at h
    · simp at h
    · obtain rfl := List.mem_singleton.mp h
      exact .spool _
  · obtain ⟨entry, hentry, hselector⟩ := List.mem_filterMap.mp h
    split at hselector
    · split at hselector
      · obtain rfl := Option.some.inj hselector
        exact .selector (hadmits.selectors entry hentry)
      · simp at hselector
    · simp at hselector

/-! ## The words that are there -/

/-- Lists of columns can be hashed on when the words have all their columns. -/
theorem hashes_of_mem {lists : List (List Column)} (hwords : words.columns = lists.flatten)
    {columns : List Column} (hcolumns : columns ∈ lists) : words.Hashes columns := by
  have hsublist := List.sublist_flatten_of_mem hcolumns
  rw [← hwords] at hsublist
  exact ⟨hsublist.length_le, hsublist.subset⟩

/-- Some words are enough for a memo, for its costings and for a requirement. -/
theorem exists_words (memo : Memo) (required : PlanRequirement) : ∃ words : Vocabulary,
    words.Admits required ∧
    (∀ id expr op, memo.expr? id = some expr → expr.op = .physical op → words.Knows op) ∧
    ∀ id costing plan, memo.costing? id = some costing → costing.delivered = some plan →
      words.Places plan.distribution := by
  let ops := memo.exprs.toList.filterMap (·.op.physical?)
  let plans := memo.costings.toList.filterMap (·.delivered)
  let lists := required.distribution.spec.hashColumns?.toList ++ ops.flatMap (·.ownHashings) ++
    plans.flatMap (·.distribution.hashColumns?.toList)
  refine ⟨{
    orders := .any :: required.order.spec :: ops.map (·.ownOrder)
    columns := lists.flatten
    selectors := required.partition.spec.scans.scans.entries.map fun entry =>
      (entry.1, entry.2.relation, entry.2.keys)
    any_mem := List.mem_cons_self .. }, ⟨by simp, ?_, ?_⟩, ?_, ?_⟩
  · exact fun columns hcolumns => hashes_of_mem rfl (by simp [lists, hcolumns])
  · exact fun entry hentry => List.mem_map_of_mem hentry
  · intro id expr op hexpr hop
    have hmem : op ∈ ops := List.mem_filterMap.mpr
      ⟨expr, Array.mem_toList_iff.mpr (Array.mem_of_getElem? hexpr), by rw [hop]; rfl⟩
    refine ⟨?_, fun columns hcolumns => hashes_of_mem rfl ?_⟩
    · exact List.mem_cons_of_mem _ (List.mem_cons_of_mem _ (List.mem_map_of_mem hmem))
    · exact List.mem_append_left _ (List.mem_append_right _ (List.mem_flatMap.mpr ⟨op, hmem, hcolumns⟩))
  · intro id costing plan hcosting hplan columns hcolumns
    have hmem : plan ∈ plans := List.mem_filterMap.mpr
      ⟨costing, Array.mem_toList_iff.mpr (Array.mem_of_getElem? hcosting), hplan⟩
    exact hashes_of_mem rfl (List.mem_append_right _
      (List.mem_flatMap.mpr ⟨plan, hmem, Option.mem_toList.mpr hcolumns⟩))

end Vocabulary

end QueryPlanner
