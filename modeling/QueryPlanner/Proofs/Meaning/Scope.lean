import Mathlib.Data.Finset.Lattice.Lemmas
import QueryPlanner.Proofs.Meaning.Relation

/-!
# Relations with their columns

Rules look at columns to see where a predicate can be evaluated. A `Relation` is a bag of rows with
the columns that it delivers and those that its join predicates read from elsewhere. Two relations
can be joined if they deliver different columns and neither reads what the other delivers; then
joins commute, associate and take up selections, columns included.
-/

namespace QueryPlanner

variable {V : Type}

/-- A truth value for every row, with the columns that it depends on. -/
@[ext]
structure Condition (V : Type) where
  reads : Finset Column
  holds : Row V → Option Bool
  congr : ∀ {row row' : Row V}, (∀ column ∈ reads, row column = row' column) →
    holds row = holds row'

/-- A bag of rows with its columns. -/
@[ext]
structure Relation (V : Type) where
  columns : Finset Column
  /-- Whether it is a join, possibly with selections above it. -/
  joins : Bool
  /-- Columns that predicates of its joins read and none of their inputs delivers. -/
  outside : Finset Column
  rows : Multiset (Row V)
  within : ∀ row ∈ rows, row.Within columns

/-- The condition that a predicate is. -/
def Interpretation.condition (meaning : Interpretation V) (predicate : Scalar) : Condition V where
  reads := predicate.columnList.toFinset
  holds := meaning.holds predicate
  congr h := congrArg (·.map meaning.truth)
    (Interpretation.eval_congr predicate fun column hcolumn => h column (List.mem_toFinset.mpr hcolumn))

namespace Relation

/-- The rows of a relation for which a condition is true. Above a join the condition may be taken
into the join. -/
def select (relation : Relation V) (condition : Condition V) : Relation V where
  columns := relation.columns
  joins := relation.joins
  outside := relation.outside ∪ if relation.joins then condition.reads \ relation.columns else ∅
  rows := selected condition.holds relation.rows
  within := within_selected relation.within

/-- The pairs of rows for which a condition is true. -/
def join (outer inner : Relation V) (condition : Condition V) : Relation V where
  columns := outer.columns ∪ inner.columns
  joins := true
  outside := outer.outside ∪ inner.outside ∪ (condition.reads \ (outer.columns ∪ inner.columns))
  rows := joined condition.holds outer.rows inner.rows
  within := within_joined outer.within inner.within

@[simp]
theorem columns_join {outer inner : Relation V} {condition : Condition V} :
    (outer.join inner condition).columns = outer.columns ∪ inner.columns := rfl

theorem outside_join {outer inner : Relation V} {condition : Condition V} :
    (outer.join inner condition).outside = outer.outside ∪ inner.outside ∪
      (condition.reads \ (outer.columns ∪ inner.columns)) := rfl

/-- The relations have different columns, and neither reads those of the other. -/
structure Joinable (outer inner : Relation V) : Prop where
  columns : Disjoint outer.columns inner.columns
  outerReads : Disjoint outer.outside inner.columns
  innerReads : Disjoint inner.outside outer.columns

instance (outer inner : Relation V) : Decidable (Joinable outer inner) :=
  decidable_of_iff (Disjoint outer.columns inner.columns ∧ Disjoint outer.outside inner.columns ∧
      Disjoint inner.outside outer.columns)
    ⟨fun ⟨columns, outerReads, innerReads⟩ => ⟨columns, outerReads, innerReads⟩,
      fun ⟨columns, outerReads, innerReads⟩ => ⟨columns, outerReads, innerReads⟩⟩

variable {outer inner stay moved last : Relation V} {upper lower upper' lower' : Condition V}

theorem Joinable.symm (h : Joinable outer inner) : Joinable inner outer :=
  ⟨h.columns.symm, h.innerReads, h.outerReads⟩

/-- A condition on columns of the relation only reads nothing from elsewhere. -/
theorem outside_select {condition : Condition V} (h : condition.reads ⊆ outer.columns) :
    (outer.select condition).outside = outer.outside := by
  have hnone : (if outer.joins then condition.reads \ outer.columns else ∅) = ∅ := by
    rw [Finset.sdiff_eq_empty_iff_subset.mpr h, ite_self]
  exact (congrArg (outer.outside ∪ ·) hnone).trans (Finset.union_empty _)

/-- Selecting by a predicate that always holds. -/
theorem select_always (meaning : Interpretation V) (relation : Relation V) :
    relation.select (meaning.condition .always) = relation := by
  have hreads : (meaning.condition .always).reads = ∅ := rfl
  refine Relation.ext rfl rfl (outside_select ?_) ?_
  · rw [hreads]
    exact Finset.empty_subset _
  · exact selected_eq_self fun row _ => Interpretation.keeps_always

/-- Joins commute. -/
theorem join_comm (condition : Condition V) (h : Disjoint outer.columns inner.columns) :
    outer.join inner condition = inner.join outer condition := by
  refine Relation.ext (Finset.union_comm _ _) rfl ?_ ?_
  · show outer.outside ∪ inner.outside ∪ (condition.reads \ (outer.columns ∪ inner.columns)) = _
    rw [Finset.union_comm outer.outside, Finset.union_comm outer.columns]
    rfl
  · refine joined_comm fun left hleft right hright => ?_
    exact Row.merge_comm (outer.within left hleft) (inner.within right hright) h

/-! ## Joins of joins -/

/-- A lower join reads nothing that the last relation delivers. -/
theorem Joinable.lower_reads (h : Joinable (stay.join moved lower) last) :
    Disjoint lower.reads last.columns := by
  refine Finset.disjoint_left.mpr fun column hread hlast => ?_
  by_cases hcolumn : column ∈ stay.columns ∪ moved.columns
  · exact Finset.disjoint_left.mp h.columns hcolumn hlast
  · refine Finset.disjoint_left.mp h.outerReads ?_ hlast
    exact Finset.mem_union_right _ (Finset.mem_sdiff.mpr ⟨hread, hcolumn⟩)

/-- The second of three relations that can be joined can be joined with the last. -/
theorem Joinable.moved_last (h : Joinable (stay.join moved lower) last) : Joinable moved last where
  columns := h.columns.mono_left Finset.subset_union_right
  outerReads := h.outerReads.mono_left (Finset.subset_union_right.trans Finset.subset_union_left)
  innerReads := h.innerReads.mono_right Finset.subset_union_right

/-- The first of three relations that can be joined can be joined with the others. -/
theorem Joinable.stay_join (hlower : Joinable stay moved)
    (hupper : Joinable (stay.join moved lower) last)
    (hreads : lower'.reads ⊆ moved.columns ∪ last.columns) :
    Joinable stay (moved.join last lower') where
  columns := Finset.disjoint_union_right.mpr
    ⟨hlower.columns, hupper.columns.mono_left Finset.subset_union_left⟩
  outerReads := Finset.disjoint_union_right.mpr
    ⟨hlower.outerReads, hupper.outerReads.mono_left (Finset.subset_union_left.trans Finset.subset_union_left)⟩
  innerReads := by
    rw [outside_join, Finset.sdiff_eq_empty_iff_subset.mpr hreads, Finset.union_empty]
    exact Finset.disjoint_union_left.mpr
      ⟨hlower.innerReads, hupper.innerReads.mono_right Finset.subset_union_left⟩

/-- Joins associate: together, the predicates read and keep the same as before, and the new lower
one reads from its own inputs only. -/
theorem join_assoc (hlower : Joinable stay moved) (hupper : Joinable (stay.join moved lower) last)
    (hinner : lower'.reads ⊆ moved.columns ∪ last.columns)
    (hreads : lower.reads ∪ upper.reads = lower'.reads ∪ upper'.reads)
    (hholds : ∀ row, (lower.holds row = some true ∧ upper.holds row = some true ↔
      lower'.holds row = some true ∧ upper'.holds row = some true)) :
    (stay.join moved lower).join last upper = stay.join (moved.join last lower') upper' := by
  refine Relation.ext (Finset.union_assoc _ _ _) rfl ?_ (joined_assoc ?_)
  · ext column
    have hlast : column ∈ lower.reads → column ∉ last.columns :=
      fun hcolumn => Finset.disjoint_left.mp hupper.lower_reads hcolumn
    have hread := Finset.ext_iff.mp hreads column
    have hown := @hinner column
    simp only [outside_join, columns_join, Finset.mem_union, Finset.mem_sdiff] at hread hown ⊢
    grind
  · intro first hfirst second hsecond third hthird
    have hbefore : lower.holds (first.merge second) =
        lower.holds ((first.merge second).merge third) :=
      lower.congr fun column hcolumn => (Row.merge_eq_left (last.within third hthird)
        (Finset.disjoint_left.mp hupper.lower_reads hcolumn)).symm
    have hstay : Disjoint (moved.columns ∪ last.columns) stay.columns :=
      (hlower.stay_join hupper hinner).columns.symm
    have hafter : lower'.holds (second.merge third) =
        lower'.holds ((first.merge second).merge third) := by
      rw [Row.merge_assoc]
      exact lower'.congr fun column hcolumn => (Row.merge_eq_right (stay.within first hfirst)
        (Finset.disjoint_left.mp hstay (hinner hcolumn))).symm
    rw [hbefore, hafter]
    exact hholds _

/-! ## Selections above joins -/

/-- Selections leave relations joinable if they read from their relation only. -/
theorem Joinable.select {left right : Condition V} (h : Joinable outer inner)
    (hleft : left.reads ⊆ outer.columns) (hright : right.reads ⊆ inner.columns) :
    Joinable (outer.select left) (inner.select right) where
  columns := h.columns
  outerReads := (outside_select hleft).symm ▸ h.outerReads
  innerReads := (outside_select hright).symm ▸ h.innerReads

/-- A selection above a join may be split over its sides and the join: together, the predicates read
and keep the same as before, and those of the sides read from their side only. -/
theorem select_join {left right condition : Condition V} (h : Joinable outer inner)
    (hleft : left.reads ⊆ outer.columns) (hright : right.reads ⊆ inner.columns)
    (hreads : lower.reads ∪ upper.reads = left.reads ∪ right.reads ∪ condition.reads)
    (hholds : ∀ row, (lower.holds row = some true ∧ upper.holds row = some true ↔
      left.holds row = some true ∧ right.holds row = some true ∧ condition.holds row = some true)) :
    (outer.join inner lower).select upper = (outer.select left).join (inner.select right) condition := by
  refine Relation.ext rfl rfl ?_ (selected_joined ?_)
  · ext column
    have hread := Finset.ext_iff.mp hreads column
    have hsplit : column ∈ left.reads ∪ right.reads → column ∈ outer.columns ∪ inner.columns :=
      fun hcolumn => Finset.union_subset_union hleft hright hcolumn
    rw [outside_join, outside_select hleft, outside_select hright]
    simp only [select, join, if_true, Finset.mem_union, Finset.mem_sdiff] at hread hsplit ⊢
    grind
  · intro first hfirst second hsecond
    have hfirst : left.holds first = left.holds (first.merge second) :=
      left.congr fun column hcolumn => (Row.merge_eq_left (inner.within second hsecond)
        (Finset.disjoint_left.mp h.columns (hleft hcolumn))).symm
    have hsecond : right.holds second = right.holds (first.merge second) :=
      right.congr fun column hcolumn => (Row.merge_eq_right (outer.within first ‹_›)
        (Finset.disjoint_left.mp h.columns.symm (hright hcolumn))).symm
    rw [hfirst, hsecond]
    exact hholds _

end Relation

end QueryPlanner
