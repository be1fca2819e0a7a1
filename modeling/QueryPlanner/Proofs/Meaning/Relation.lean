import Mathlib.Data.Finset.Basic
import Mathlib.Data.Finset.Dedup
import QueryPlanner.Proofs.Meaning.Predicate

/-!
# Selections and joins of bags of rows

Relations are bags of rows. A join merges every row of one side with every row of the other and
keeps the merged rows for which its predicate is true. Joins of rows without common columns commute
and associate, and a selection above a join may be split over the two sides and the join itself, as
long as every merged row passes the same conditions.
-/

namespace QueryPlanner

variable {V : Type}

namespace Row

/-- The columns of two rows together. -/
def merge (left right : Row V) : Row V := fun column => (left column).or (right column)

/-- A row with the given columns only. -/
def restrict (columns : List Column) (row : Row V) : Row V :=
  fun column => if column ∈ columns then row column else none

/-- The row has no other columns. -/
def Within (row : Row V) (columns : Finset Column) : Prop :=
  ∀ column, column ∉ columns → row column = none

variable {left right : Row V} {columns columns' : Finset Column}

theorem merge_assoc (first second third : Row V) :
    (first.merge second).merge third = first.merge (second.merge third) :=
  funext fun _ => Option.or_assoc

/-- A merged row has the columns of both sides. -/
theorem Within.merge (hleft : left.Within columns) (hright : right.Within columns') :
    (left.merge right).Within (columns ∪ columns') := by
  intro column hcolumn
  rw [Finset.mem_union, not_or] at hcolumn
  unfold Row.merge
  rw [hleft column hcolumn.1, hright column hcolumn.2]
  rfl

/-- Where the other side has no columns, a merged row reads as the left one. -/
theorem merge_eq_left {column : Column} (hright : right.Within columns')
    (hcolumn : column ∉ columns') : left.merge right column = left column := by
  unfold merge
  rw [hright column hcolumn, Option.or_none]

/-- Where the other side has no columns, a merged row reads as the right one. -/
theorem merge_eq_right {column : Column} (hleft : left.Within columns)
    (hcolumn : column ∉ columns) : left.merge right column = right column := by
  unfold merge
  rw [hleft column hcolumn, Option.none_or]

/-- Rows without common columns can be merged in either order. -/
theorem merge_comm (hleft : left.Within columns) (hright : right.Within columns')
    (hdisjoint : Disjoint columns columns') : left.merge right = right.merge left := by
  funext column
  by_cases hcolumn : column ∈ columns
  · have haway := Finset.disjoint_left.mp hdisjoint hcolumn
    rw [merge_eq_left hright haway, merge_eq_right hright haway]
  · rw [merge_eq_right hleft hcolumn, merge_eq_left hleft hcolumn]

theorem within_restrict (columns : List Column) (row : Row V) :
    (row.restrict columns).Within columns.toFinset := by
  intro column hcolumn
  rw [List.mem_toFinset] at hcolumn
  exact if_neg hcolumn

end Row

/-- The rows for which a predicate is true. -/
def selected (holds : Row V → Option Bool) (rows : Multiset (Row V)) : Multiset (Row V) :=
  rows.filter fun row => holds row = some true

/-- The merged pairs of rows for which a predicate is true. -/
def joined (holds : Row V → Option Bool) (outer inner : Multiset (Row V)) : Multiset (Row V) :=
  outer.bind fun left => selected holds (inner.map left.merge)

variable {holds upper lower : Row V → Option Bool} {outer inner : Multiset (Row V)}

/-- Selecting by a predicate that is true of all rows. -/
theorem selected_eq_self (h : ∀ row ∈ outer, holds row = some true) :
    selected holds outer = outer :=
  Multiset.filter_eq_self.mpr h

/-- A join one merged row at a time. -/
theorem joined_eq_bind : joined holds outer inner = outer.bind fun left => inner.bind fun right =>
    if holds (left.merge right) = some true then {left.merge right} else 0 := by
  unfold joined selected
  refine Multiset.bind_congr fun left _ => ?_
  rw [Multiset.filter_eq_bind, Multiset.bind_map]

/-- A condition may be tested in every round of a loop. -/
theorem ite_bind {α β : Type} (condition : Prop) [Decidable condition] (rows : Multiset α)
    (body : α → Multiset β) : (if condition then rows.bind body else 0) =
      rows.bind fun row => if condition then body row else 0 := by
  split
  · rfl
  · rw [Multiset.bind_zero]

theorem joined_comm (hmerge : ∀ left ∈ outer, ∀ right ∈ inner,
    left.merge right = right.merge left) : joined holds outer inner = joined holds inner outer := by
  rw [joined_eq_bind, joined_eq_bind, Multiset.bind_bind]
  refine Multiset.bind_congr fun right hright => Multiset.bind_congr fun left hleft => ?_
  rw [hmerge left hleft right hright]

/-- A join of a join may be joined in the other order, if its rows pass the same predicates. -/
theorem joined_assoc {stay moved last : Multiset (Row V)} {upper' lower' : Row V → Option Bool}
    (hsame : ∀ first ∈ stay, ∀ second ∈ moved, ∀ third ∈ last,
      (lower (first.merge second) = some true ∧
          upper ((first.merge second).merge third) = some true ↔
        lower' (second.merge third) = some true ∧
          upper' ((first.merge second).merge third) = some true)) :
    joined upper (joined lower stay moved) last = joined upper' stay (joined lower' moved last) := by
  simp only [joined_eq_bind, Multiset.bind_assoc]
  refine Multiset.bind_congr fun first hfirst => Multiset.bind_congr fun second hsecond => ?_
  have hround (condition : Prop) [Decidable condition] (row : Row V)
      (body : Row V → Multiset (Row V)) :
      (if condition then {row} else (0 : Multiset (Row V))).bind body =
        if condition then body row else 0 := by
    split
    · rw [Multiset.singleton_bind]
    · rw [Multiset.zero_bind]
  rw [hround, ite_bind]
  refine Multiset.bind_congr fun third hthird => ?_
  rw [hround, ← Row.merge_assoc, ← ite_and, ← ite_and]
  exact if_congr (hsame first hfirst second hsecond third hthird) rfl rfl

/-- A selection above a join may be split over the sides and the join, if the merged rows pass the
same predicates. -/
theorem selected_joined {left right holds' : Row V → Option Bool}
    (hsame : ∀ first ∈ outer, ∀ second ∈ inner,
      (lower (first.merge second) = some true ∧ upper (first.merge second) = some true ↔
        left first = some true ∧ right second = some true ∧
          holds' (first.merge second) = some true)) :
    selected upper (joined lower outer inner) =
      joined holds' (selected left outer) (selected right inner) := by
  unfold selected
  rw [joined_eq_bind, joined_eq_bind, Multiset.filter_bind, Multiset.bind_filter]
  refine Multiset.bind_congr fun first hfirst => ?_
  rw [Multiset.filter_bind, Multiset.bind_filter, ite_bind]
  refine Multiset.bind_congr fun second hsecond => ?_
  have hfilter : Multiset.filter (fun row => upper row = some true)
      (if lower (first.merge second) = some true then {first.merge second} else 0) =
      if lower (first.merge second) = some true ∧ upper (first.merge second) = some true then
        {first.merge second} else 0 := by
    by_cases hlower : lower (first.merge second) = some true
    · simp [hlower, Multiset.filter_singleton]
    · simp [hlower]
  rw [hfilter, ← ite_and, ← ite_and]
  exact if_congr ((hsame first hfirst second hsecond).trans and_assoc.symm) rfl rfl

/-! ## Columns of the rows -/

theorem within_selected {columns : Finset Column} (h : ∀ row ∈ outer, row.Within columns) :
    ∀ row ∈ selected holds outer, row.Within columns :=
  fun row hrow => h row (Multiset.mem_of_mem_filter hrow)

theorem within_joined {columns columns' : Finset Column} (houter : ∀ row ∈ outer, row.Within columns)
    (hinner : ∀ row ∈ inner, row.Within columns') :
    ∀ row ∈ joined holds outer inner, row.Within (columns ∪ columns') := by
  intro row hrow
  obtain ⟨left, hleft, hrow⟩ := Multiset.mem_bind.mp hrow
  obtain ⟨right, hright, rfl⟩ := Multiset.mem_map.mp (Multiset.mem_of_mem_filter hrow)
  exact (houter left hleft).merge (hinner right hright)

end QueryPlanner
