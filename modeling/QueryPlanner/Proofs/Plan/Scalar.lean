import Mathlib.Data.Finset.Card
import QueryPlanner.Proofs.Memo.Quiet
import QueryPlanner.Proofs.Optimizer.Evolution

/-!
# Extracting scalars

A scalar child of a plan is extracted as the first tree of its group. In a tame memo every group has
one: its first alternative is not physical, and the groups that this alternative reads come further
down.
-/

namespace QueryPlanner

/-- A strict order among finitely many elements has a rank that falls along it. -/
theorem exists_rank {α : Type} (before : α → α → Prop) [IsStrictOrder α before]
    (element : Nat → α) (count : Nat) :
    ∃ rank : α → Nat, (∀ upper, rank upper ≤ count) ∧
      ∀ upper index, index < count → before upper (element index) →
        rank (element index) < rank upper := by
  classical
  -- the rank counts the elements that come after
  refine ⟨fun upper => ((Finset.range count).filter fun index => before upper (element index)).card,
    fun upper => (Finset.card_filter_le _ _).trans_eq (Finset.card_range count), ?_⟩
  intro upper index hindex hbefore
  refine Finset.card_lt_card (Finset.ssubset_iff_of_subset (fun other hother => ?_) |>.mpr
    ⟨index, ?_, ?_⟩)
  · obtain ⟨hother, hafter⟩ := Finset.mem_filter.mp hother
    exact Finset.mem_filter.mpr ⟨hother, trans_of before hbefore hafter⟩
  · exact Finset.mem_filter.mpr ⟨Finset.mem_range.mpr hindex, hbefore⟩
  · exact fun hmem => irrefl_of before _ (Finset.mem_filter.mp hmem).2

/-! ## First trees -/

/-- The bound tree is a plan of scalars. -/
def BoundExpr.IsScalarPlan (bound : BoundExpr) : Prop :=
  ∃ plan : PlanNode, Planning.scalarPlan bound = pure plan ∧ plan.delivered = none

/-- If something is found for every element, it is found for all. -/
theorem exists_mapM_eq_some {α β : Type} {items : List α} {find : α → Option β} {P : β → Prop}
    (h : ∀ item ∈ items, ∃ value, find item = some value ∧ P value) :
    ∃ values, items.mapM find = some values ∧ ∀ value ∈ values, P value := by
  induction items with
  | nil => exact ⟨[], rfl, by simp⟩
  | cons item rest ih =>
      obtain ⟨value, hvalue, hfirst⟩ := h item (by simp)
      obtain ⟨values, hvalues, hrest⟩ := ih fun other hother => h other (by simp [hother])
      refine ⟨value :: values, by rw [List.mapM_cons, hvalue, hvalues]; rfl, ?_⟩
      simpa using ⟨hfirst, hrest⟩

/-- Several bound trees that are plans of scalars. -/
theorem Planning.exists_scalarPlans {cursors : List Cursor}
    (h : ∀ cursor ∈ cursors, cursor.current.IsScalarPlan) :
    ∃ plans, Planning.scalarPlans (Cursor.currentAll cursors) = pure plans := by
  induction cursors with
  | nil => exact ⟨[], rfl⟩
  | cons cursor rest ih =>
      obtain ⟨plan, hplan, _⟩ := h cursor (by simp)
      obtain ⟨plans, hplans⟩ := ih fun other hother => h other (by simp [hother])
      refine ⟨plan :: plans, ?_⟩
      unfold Cursor.currentAll scalarPlans
      rw [hplan, hplans]
      rfl

namespace Memo

variable {below : GroupId → GroupId → Prop} {memo : Memo}

/-- The first of the alternatives that can be bound is chosen. -/
theorem choose_cons (bind : ExprId → Option Cursor) {pattern : Pattern} {all rest : List ExprId}
    {first : ExprId} {present : Cursor} (h : bind first = some present) :
    Cursor.choose bind pattern all (first :: rest) = some (.choice pattern all rest present) := by
  unfold Cursor.choose
  rw [h]

/-- The first alternative of a master has a tree, by induction on the levels that are looked at. -/
theorem Tame.exists_firstTree (h : memo.Tame below) {rank : GroupId → Nat}
    (hrank : ∀ upper index, index < memo.groups.size → below upper ⟨index⟩ →
      rank ⟨index⟩ < rank upper) {fuel : Nat} {id : GroupId} (hid : id.index < memo.groups.size)
    (hmaster : memo.master id = id) (hfuel : rank id < fuel) :
    ∃ first rest cursor, memo.alternativesOf id = first :: rest ∧
      memo.firstTreeUpTo fuel .tree first = some cursor ∧ cursor.current.IsScalarPlan := by
  induction fuel generalizing id with
  | zero => omega
  | succ fuel ih =>
      obtain ⟨group, hgroup⟩ := exists_group?_eq_some.mpr hid
      obtain ⟨first, expr, hfirst, hexpr, hop⟩ := h.wellFormed.supplied id group hgroup hmaster
      obtain ⟨rest, halternatives⟩ := List.head?_eq_some_iff.mp hfirst
      have hlisted : memo.alternativesOf id = first :: rest := by
        unfold alternativesOf
        rw [hgroup]
        exact halternatives
      -- every child is a group further down, whose first alternative has a tree
      have hchild (item : GroupId × Nat) (hitem : item ∈ expr.children.zipIdx) :
          ∃ cursor, Cursor.choose (memo.firstTreeUpTo fuel .tree) .tree
              (memo.alternativesOf (memo.master item.1)) (memo.alternativesOf (memo.master item.1)) =
            some cursor ∧ cursor.current.IsScalarPlan := by
        have hmem : item.1 ∈ expr.children := List.fst_mem_of_mem_zipIdx hitem
        have hknown := h.wellFormed.masterKnown _ (h.wellFormed.childKnown first expr hexpr _ hmem)
        have hreads : memo.Reads id (memo.master item.1) := by
          refine ⟨hmaster, first, expr, by simp [hlisted], hexpr, ?_, item.1, hmem, rfl⟩
          cases hkind : expr.op with
          | physical _ => simp [hkind, Operator.isPhysical, Operator.physical?] at hop
          | _ => rfl
        have hlower : rank (memo.master item.1) < rank id :=
          hrank id _ hknown (h.descending _ _ hreads)
        obtain ⟨head, tail, cursor, hbelow, hcursor, hplan⟩ :=
          ih hknown (h.wellFormed.linksEnd.master_master _) (by omega)
        rw [hbelow]
        exact ⟨_, choose_cons _ hcursor, hplan⟩
      obtain ⟨cursors, hcursors, hplans⟩ := exists_mapM_eq_some hchild
      obtain ⟨plans, hscalars⟩ := Planning.exists_scalarPlans hplans
      refine ⟨first, rest, .tree first (memo.master expr.group) expr.op cursors, hlisted, ?_, ?_⟩
      · unfold firstTreeUpTo
        have hadmits : Pattern.tree.admits expr.op expr.arity = true := by
          simpa [Pattern.admits] using hop
        simp only [hexpr, Option.bind_eq_bind, Option.bind_some, hadmits, if_true]
        exact congrArg (fun found : Option (List Cursor) => found.bind fun children =>
          some (Cursor.tree first (memo.master expr.group) expr.op children)) hcursors
      · refine ⟨⟨expr.op, memo.master expr.group, first, .zero, none, none, plans⟩, ?_, rfl⟩
        unfold Cursor.current Planning.scalarPlan
        rw [hscalars]
        rfl

end Memo

/-- Extracting the child of a plan that is a scalar. -/
theorem Planning.Post.extractScalar {below : GroupId → GroupId → Prop}
    [IsStrictOrder GroupId below] {memo : Memo} (h : memo.Tame below) (id : GroupId)
    (hid : id.index < memo.groups.size) :
    Post (extractScalar id) memo
      (fun plan final => memo.SameContent final ∧ plan.delivered = none) (fun _ _ => False) := by
  refine Post.bind ((Post.resolve hid).andThen (fun _ _ hfail => hfail) ?_)
  rintro _ looked ⟨rfl, hsame⟩
  have hlooked := hsame.sameQuery.tame h
  have hknown := h.wellFormed.masterKnown id hid
  rw [← hsame.groups_size] at hknown
  obtain ⟨rank, hbound, hfalls⟩ := exists_rank below GroupId.mk looked.groups.size
  obtain ⟨first, rest, cursor, halternatives, hcursor, plan, hplan, hscalar⟩ :=
    hlooked.exists_firstTree (fun upper index => hfalls upper index) hknown
      (by rw [hsame.master h.wellFormed.linksEnd, h.wellFormed.linksEnd.master_master])
      (show _ < looked.treeDepth .tree from Nat.lt_succ_of_le (hbound _))
  refine Post.bind (Post.group (fun group hgroup => ?_) (fun hnone => ?_))
  · have hlisted : group.alternatives = first :: rest := by
      rw [← halternatives]
      unfold Memo.alternativesOf
      rw [hgroup]
      rfl
    refine Post.bind (Post.get (Post.bind (Post.set (Post.pure ?_))))
    have htrees : looked.treesAmong .tree group.alternatives 1 = [cursor.current] := by
      unfold Memo.treesAmong Memo.firstChoice
      rw [hlisted, Memo.choose_cons (looked.firstTree .tree) hcursor]
      rfl
    rw [Option.getD_some, htrees]
    show Post (scalarPlan cursor.current) _ _ _
    rw [hplan]
    exact Post.pure ⟨hsame.trans Memo.sameContent_compressAll, hscalar⟩
  · rw [Memo.group?_eq_none] at hnone
    omega

end QueryPlanner
