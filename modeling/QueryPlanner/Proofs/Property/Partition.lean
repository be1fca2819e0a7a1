import Mathlib.Data.List.Basic
import QueryPlanner.Proofs.Optimizer.Descent

/-!
# Partitioned scans in a plan

What an operator delivers of the partitioned scans below it comes from its children. When one child
alone knows a scan, its state is passed on as it is by every operator of the catalogue but a scan, or
a selector for this scan (`PhysicalOperator.get?_deliveredPartition`). A scan that is known is one
below, or the operator itself (`PhysicalOperator.knows_deliveredPartition`).
-/

namespace QueryPlanner

namespace PartitionMap

variable {map left right : PartitionMap} {scan other : ScanId} {entry : PartitionEntry}

theorem get?_empty : empty.get? scan = none := rfl

theorem get?_insert : (map.insert scan entry).get? other =
    if other = scan then some entry else map.get? other :=
  KeyedMap.get?_insert

/-- Some scan waits when the state of a scan does. -/
theorem hasConsumer_of_get? (h : map.get? scan = some entry) (hwaits : entry.isConsumer = true) :
    map.hasConsumer = true := by
  obtain ⟨before, after, hentries, _⟩ := List.lookup_eq_some_iff.mp h
  exact List.any_eq_true.mpr ⟨(scan, entry), by simp [hentries], hwaits⟩

/-! ## Several maps together -/

theorem addMeetings_eq {found : PartitionMap} : addMeetings left right found =
    left.scans.entries.foldl (fun found entry => if found.contains entry.1 then found
      else found.insert entry.1 (((right.get? entry.1).map (meet entry.2)).getD entry.2)) found := by
  unfold addMeetings
  congr 1
  funext found entry
  cases right.get? entry.1 <;> rfl

/-- What is recorded already stays; other scans come with what they become when they meet. -/
theorem get?_addMeetings {found : PartitionMap} :
    (addMeetings left right found).get? scan = (found.get? scan).or
      ((left.get? scan).map fun entry => ((right.get? scan).map (meet entry)).getD entry) := by
  have hentries : ∀ (entries : List (ScanId × PartitionEntry)) (found : PartitionMap),
      (entries.foldl (fun found entry => if found.contains entry.1 then found
        else found.insert entry.1 (((right.get? entry.1).map (meet entry.2)).getD entry.2))
          found).get? scan = (found.get? scan).or
        ((entries.lookup scan).map fun entry => ((right.get? scan).map (meet entry)).getD entry) := by
    intro entries
    induction entries with
    | nil => simp
    | cons head rest ih =>
        intro found
        obtain ⟨key, value⟩ := head
        rw [List.foldl_cons, ih]
        by_cases hkey : scan = key
        · subst hkey
          rw [List.lookup_cons_self]
          cases hfound : found.get? scan with
          | some known =>
              rw [if_pos (show found.contains scan = true by simp [contains, KeyedMap.contains,
                show found.scans.get? scan = some known from hfound]), hfound]
              rfl
          | none =>
              rw [if_neg (show ¬ found.contains scan = true by simp [contains, KeyedMap.contains,
                show found.scans.get? scan = none from hfound]), get?_insert, if_pos rfl]
              rfl
        · rw [List.lookup_cons, show (scan == key) = false by simpa using hkey]
          dsimp only
          congr 1
          split
          · rfl
          · rw [get?_insert, if_neg hkey]
  rw [addMeetings_eq]
  exact hentries left.scans.entries found

/-- What becomes of a scan in two sibling plans together. -/
theorem get?_combine : (combine left right).get? scan =
    match left.get? scan, right.get? scan with
    | some mine, some theirs => some (meet mine theirs)
    | some mine, none => some mine
    | none, theirs => theirs := by
  unfold combine
  rw [get?_addMeetings, get?_addMeetings, get?_empty]
  cases left.get? scan <;> cases right.get? scan <;> rfl

variable {maps before after : List PartitionMap} {start : PartitionMap}

/-- A scan that several plans know together is known to one of them. -/
theorem exists_of_get?_foldl_combine (h : ((maps.foldl combine start).get? scan).isSome) :
    (start.get? scan).isSome ∨ ∃ map ∈ maps, (map.get? scan).isSome := by
  induction maps generalizing start with
  | nil => exact .inl h
  | cons map rest ih =>
      rcases ih h with hfirst | ⟨found, hfound, hknown⟩
      · rw [get?_combine] at hfirst
        cases hmap : map.get? scan with
        | none =>
            cases hstart : start.get? scan with
            | none => simp [hmap, hstart] at hfirst
            | some _ => exact .inl rfl
        | some _ => exact .inr ⟨map, by simp, by simp [hmap]⟩
      · exact .inr ⟨found, by simp [hfound], hknown⟩

/-- Plans that do not know a scan leave its state. -/
theorem get?_foldl_combine_of_none (h : ∀ map ∈ maps, map.get? scan = none) :
    (maps.foldl combine start).get? scan = start.get? scan := by
  induction maps generalizing start with
  | nil => rfl
  | cons map rest ih =>
      rw [List.foldl_cons, ih fun other hother => h other (by simp [hother]), get?_combine,
        h map (by simp)]
      cases start.get? scan <;> rfl

/-- A scan that one plan alone knows stays in its state. -/
theorem get?_foldl_combine_of_alone
    (halone : ∀ other ∈ before ++ after, other.get? scan = none) :
    ((before ++ map :: after).foldl combine empty).get? scan = map.get? scan := by
  rw [List.foldl_append, List.foldl_cons,
    get?_foldl_combine_of_none fun other hother => halone other (by simp [hother]), get?_combine,
    get?_foldl_combine_of_none fun other hother => halone other (by simp [hother]), get?_empty]

/-! ## Selectors -/

theorem get?_withSelector_of_ne {above : Nat} (hother : other ≠ scan) :
    (map.withSelector scan above).get? other = map.get? other := by
  unfold withSelector
  split
  · rfl
  · rw [get?_insert, if_neg hother]

theorem isSome_get?_withSelector {above : Nat} :
    ((map.withSelector scan above).get? other).isSome = (map.get? other).isSome := by
  unfold withSelector
  cases hfound : map.get? scan with
  | none => rfl
  | some found =>
      dsimp only
      rw [get?_insert]
      split
      · rename_i hsame
        rw [hsame, hfound]
        rfl
      · rfl

end PartitionMap

/-! ## What operators deliver -/

namespace PhysicalOperator

variable {op : PhysicalOperator} {view : ExprView} {scan : ScanId}

/-- The number of the partitioned scan that the operator is. -/
def partitionScan? : PhysicalOperator → Option ScanId
  | .tableScan access | .indexScan access _ => access.partitionScan?
  | _ => none

theorem get?_partition {access : TableAccess} : access.partition.scans.get? scan =
    if access.partitionScan? = some scan then
      some { role := .consumer, expected := some 0, relation := access.table.id,
             keys := access.table.partitionKeys }
    else none := by
  unfold TableAccess.partition
  cases hscan : access.partitionScan? with
  | none => simp [PartitionPropagation.none, PartitionMap.get?_empty]
  | some found =>
      simp only [PartitionMap.get?_insert, PartitionMap.get?_empty, Option.some.injEq]
      simp only [eq_comm]

theorem scans_combinedPartition : (combinedPartition view).scans =
    (view.childPlans.map (·.partition.scans)).foldl PartitionMap.combine .empty := by
  have hplans : ∀ (plans : List PlanProperties) (start : PartitionPropagation),
      (plans.foldl (fun found child =>
        ({ scans := found.scans.combine child.partition.scans
           filters := found.filters.combine child.partition.filters } : PartitionPropagation))
        start).scans = (plans.map (·.partition.scans)).foldl PartitionMap.combine start.scans := by
    intro plans
    induction plans with
    | nil => exact fun _ => rfl
    | cons plan rest ih =>
        intro start
        rw [List.foldl_cons, ih]
        rfl
  exact hplans _ _

theorem scans_partitionSelector {resolved : ScanId} {relation : Nat} {keys : List Column} :
    ((partitionSelector resolved relation keys).deliveredPartition view).scans =
      PartitionMap.withSelector (((view.childPlan? 0).map PlanProperties.partition).getD
        PartitionPropagation.none).scans resolved 0 := rfl

/-- The plan of a child is one of the plans of the children. -/
theorem mem_childPlans {child : Nat} {plan : PlanProperties} (h : view.childPlan? child = some plan) :
    plan ∈ view.childPlans := by
  obtain ⟨found, hfound, hplan⟩ := Option.bind_eq_some_iff.mp h
  exact List.mem_filterMap.mpr ⟨found, List.mem_of_getElem? hfound, hplan⟩

/-- A scan that an operator knows is the operator itself, or one of the plans below knows it. -/
theorem knows_deliveredPartition (hcatalogued : op.isCatalogued = true)
    (hknown : ((op.deliveredPartition view).scans.get? scan).isSome) :
    op.partitionScan? = some scan ∨
      ∃ plan ∈ view.childPlans, (plan.partition.scans.get? scan).isSome := by
  have hscan (access : TableAccess) (h : (access.partition.scans.get? scan).isSome) :
      access.partitionScan? = some scan := by
    rw [get?_partition] at h
    split at h
    · assumption
    · simp at h
  have hcombined (h : ((combinedPartition view).scans.get? scan).isSome) :
      ∃ plan ∈ view.childPlans, (plan.partition.scans.get? scan).isSome := by
    rw [scans_combinedPartition] at h
    rcases PartitionMap.exists_of_get?_foldl_combine h with hempty | ⟨map, hmap, hmapped⟩
    · simp [PartitionMap.get?_empty] at hempty
    · obtain ⟨plan, hplan, rfl⟩ := List.mem_map.mp hmap
      exact ⟨plan, hplan, hmapped⟩
  cases op with
  | tableScan access => exact .inl (hscan access hknown)
  | indexScan access index => exact .inl (hscan access hknown)
  | partitionSelector resolved relation keys =>
      rw [scans_partitionSelector, PartitionMap.isSome_get?_withSelector] at hknown
      cases hplan : view.childPlan? 0 with
      | none => simp [hplan, PartitionPropagation.none, PartitionMap.get?_empty] at hknown
      | some plan => exact .inr ⟨plan, mem_childPlans hplan, by simpa [hplan] using hknown⟩
  | custom data => simp [isCatalogued] at hcatalogued
  | _ => exact .inr (hcombined hknown)

/-- A scan delivers itself as waiting. -/
theorem exists_consumer_of_scan (hscan : op.partitionScan? = some scan) :
    ∃ entry, (op.deliveredPartition view).scans.get? scan = some entry ∧
      entry.isConsumer = true := by
  cases op with
  | tableScan access | indexScan access =>
      exact ⟨_, get?_partition.trans (if_pos hscan), rfl⟩
  | _ => simp [partitionScan?] at hscan

/-- A scan enforces nothing. -/
theorem isEnforcer_of_scan (hscan : op.partitionScan? = some scan) : op.isEnforcer = false := by
  cases op with
  | tableScan | indexScan => rfl
  | _ => simp [partitionScan?] at hscan

/-- What one child alone knows of a scan is passed on, except by a selector for this scan. -/
theorem get?_deliveredPartition {before after : List PlanProperties} {plan : PlanProperties}
    (hcatalogued : op.isCatalogued = true)
    (harity : ∀ count, op.arity = some count → view.arity = count)
    (hother : ∀ relation keys, op ≠ .partitionSelector scan relation keys)
    (hplans : view.childPlans = before ++ plan :: after)
    (halone : ∀ other ∈ before ++ after, other.partition.scans.get? scan = none) :
    (op.deliveredPartition view).scans.get? scan = plan.partition.scans.get? scan := by
  have hleaf (hzero : view.arity = 0) : False := by
    unfold ExprView.childPlans at hplans
    rw [List.length_eq_zero_iff.mp hzero] at hplans
    simp at hplans
  have hcombined : (combinedPartition view).scans.get? scan = plan.partition.scans.get? scan := by
    rw [scans_combinedPartition, hplans, List.map_append, List.map_cons,
      PartitionMap.get?_foldl_combine_of_alone]
    intro map hmap
    rw [← List.map_append] at hmap
    obtain ⟨other, hmem, rfl⟩ := List.mem_map.mp hmap
    exact halone other hmem
  cases op with
  | tableScan | indexScan => exact (hleaf (harity 0 rfl)).elim
  | partitionSelector resolved relation keys =>
      have hne : scan ≠ resolved := fun h => hother relation keys (by rw [h])
      obtain ⟨child, hchild⟩ := List.length_eq_one_iff.mp (harity 1 rfl)
      have hplan : child.plan = some plan := by
        unfold ExprView.childPlans at hplans
        rw [hchild] at hplans
        have hmem : plan ∈ [child].filterMap (·.plan) := hplans ▸ by simp
        simpa using hmem
      have hbelow : view.childPlan? 0 = some plan := by
        unfold ExprView.childPlan?
        rw [hchild]
        exact hplan
      rw [scans_partitionSelector, PartitionMap.get?_withSelector_of_ne hne, hbelow]
      rfl
  | custom data => simp [isCatalogued] at hcatalogued
  | _ => exact hcombined

end PhysicalOperator

end QueryPlanner
