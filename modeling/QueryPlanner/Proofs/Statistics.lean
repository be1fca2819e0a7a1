import QueryPlanner.Operator.Estimation
import QueryPlanner.Proofs.Meaning.Predicate

/-!
# Statistics of some of the columns

Statistics are asked for column by column, so what is known of a relation is a part of what could be
known of it. `Statistics.PartOf` compares the two. `Statistics.Samples` says besides that a part has
the columns that were asked for, and then nothing computed from these columns can tell the part from
the whole: the selectivity of a predicate over them is the same, and filters, joins and aggregates
of parts are parts of those of the wholes.
-/

namespace QueryPlanner

/-! ## Maps filled entry by entry -/

namespace KeyedMap

variable {κ α β : Type} [Numbered κ] [DecidableEq κ] {key : κ}

@[simp] theorem get?_empty : (empty : KeyedMap κ β).get? key = none := rfl

theorem get?_mapValues {change : β → α} {map : KeyedMap κ β} :
    (map.mapValues change).get? key = (map.get? key).map change := by
  obtain ⟨entries, sorted⟩ := map
  show (entries.map fun entry => (entry.1, change entry.2)).lookup key =
    (entries.lookup key).map change
  clear sorted
  induction entries with
  | nil => rfl
  | cons entry rest ih =>
      rw [List.map_cons, List.lookup_cons, List.lookup_cons]
      split
      · rfl
      · exact ih

/-- Entries with ascending keys are added to a map one after the other. -/
theorem get?_foldl_insert {change : β → α} {entries : List (κ × β)} {start : KeyedMap κ α}
    (sorted : entries.Pairwise entryBefore) :
    (entries.foldl (fun found entry => found.insert entry.1 (change entry.2)) start).get? key =
      ((entries.lookup key).map change).or (start.get? key) := by
  induction entries generalizing start with
  | nil => rfl
  | cons entry rest ih =>
      obtain ⟨hfirst, hrest⟩ := List.pairwise_cons.mp sorted
      rw [List.foldl_cons, ih hrest, get?_insert, List.lookup_cons]
      by_cases hkey : key = entry.1
      · have hlater : rest.lookup key = none := List.lookup_eq_none_iff.mpr fun other hother => by
          have hlt : Numbered.number entry.1 < Numbered.number other.1 := hfirst other hother
          rw [hkey, bne_iff_ne]
          intro hsame
          exact absurd (hsame ▸ hlt) (Nat.lt_irrefl _)
        rw [hlater, if_pos hkey, beq_iff_eq.mpr hkey]
        rfl
      · rw [if_neg hkey, beq_eq_false_iff_ne.mpr hkey]

/-- Entries are added to a map unless it has one with the same key. -/
theorem get?_foldl_insertNew {entries : List (κ × β)} {start : KeyedMap κ β} :
    (entries.foldl (fun found entry =>
      if found.contains entry.1 then found else found.insert entry.1 entry.2) start).get? key =
      (start.get? key).or (entries.lookup key) := by
  induction entries generalizing start with
  | nil => simp
  | cons entry rest ih =>
      rw [List.foldl_cons, ih, List.lookup_cons]
      unfold contains
      by_cases hkey : key = entry.1
      · subst hkey
        cases hstart : start.get? entry.1 with
        | none => simp [get?_insert]
        | some found => simp [hstart]
      · split <;> simp only [get?_insert, if_neg hkey, beq_eq_false_iff_ne.mpr hkey]

/-- A loop over keys that adds the value of each, if it has one. -/
theorem get?_foldl_keys (keys : List κ) (start : KeyedMap κ β) {value : κ → Option β}
    {step : KeyedMap κ β → κ → KeyedMap κ β}
    (hstep : ∀ found next other, (step found next).get? other =
      if other = next then (value next).or (found.get? other) else found.get? other) :
    (keys.foldl step start).get? key =
      if key ∈ keys then (value key).or (start.get? key) else start.get? key := by
  induction keys generalizing start with
  | nil => rfl
  | cons first rest ih =>
      rw [List.foldl_cons, ih, hstep]
      by_cases hkey : key = first
      · subst hkey
        cases hvalue : value key <;> simp
      · simp [hkey]

end KeyedMap

namespace Statistics

variable {part part' whole whole' : Statistics} {asked output other : ColumnSet} {column : Column}

/-! ## Parts -/

/-- The statistics are those of the whole, except that some columns may be missing. -/
structure PartOf (part whole : Statistics) : Prop where
  rows : part.rows = whole.rows
  rebinds : part.rebinds = whole.rebinds
  columns : ∀ column found, part.columns.get? column = some found →
    whole.columns.get? column = some found

/-- The statistics say the same of the rows, and of every column that both know. -/
structure AgreesWith (left right : Statistics) : Prop where
  rows : left.rows = right.rows
  rebinds : left.rebinds = right.rebinds
  columns : ∀ column found found', left.columns.get? column = some found →
    right.columns.get? column = some found' → found = found'

namespace PartOf

protected theorem refl (stats : Statistics) : stats.PartOf stats := ⟨rfl, rfl, fun _ _ h => h⟩

protected theorem trans (h : part.PartOf part') (h' : part'.PartOf whole) : part.PartOf whole :=
  ⟨h.rows.trans h'.rows, h.rebinds.trans h'.rebinds,
    fun column found hfound => h'.columns column found (h.columns column found hfound)⟩

theorem contains (h : part.PartOf whole) (hcolumn : part.columns.contains column = true) :
    whole.columns.contains column = true := by
  obtain ⟨found, hfound⟩ := Option.isSome_iff_exists.mp hcolumn
  exact Option.isSome_iff_exists.mpr ⟨found, h.columns column found hfound⟩

/-- Two parts of the same statistics agree. -/
theorem agreesWith (h : part.PartOf whole) (h' : part'.PartOf whole) : part.AgreesWith part' where
  rows := h.rows.trans h'.rows.symm
  rebinds := h.rebinds.trans h'.rebinds.symm
  columns column found found' hfound hfound' := Option.some.inj
    ((h.columns column found hfound).symm.trans (h'.columns column found' hfound'))

end PartOf

theorem get?_append : (part.append part').columns.get? column =
    (part.columns.get? column).or (part'.columns.get? column) :=
  KeyedMap.get?_foldl_insertNew

/-- What is appended changes nothing of what is there. -/
theorem partOf_append (stats derived : Statistics) : stats.PartOf (stats.append derived) :=
  ⟨rfl, rfl, fun column found hfound => by rw [get?_append, hfound]; rfl⟩

/-- Two parts make a larger one. -/
theorem PartOf.append (h : part.PartOf whole) (h' : part'.PartOf whole) :
    (part.append part').PartOf whole := by
  refine ⟨h.rows, h.rebinds, fun column found hfound => ?_⟩
  rw [get?_append] at hfound
  obtain hpart | ⟨_, hpart'⟩ := Option.or_eq_some_iff.mp hfound
  · exact h.columns column found hpart
  · exact h'.columns column found hpart'

theorem contains_append_right (hcolumn : part'.columns.contains column = true) :
    (part.append part').columns.contains column = true := by
  unfold KeyedMap.contains at hcolumn ⊢
  rw [get?_append, Option.isSome_or, hcolumn, Bool.or_true]

/-- A part with the columns of the output that were asked for. The whole has only columns of the
output. -/
structure Samples (part whole : Statistics) (asked output : ColumnSet) : Prop extends
    part.PartOf whole where
  within : ∀ column, whole.columns.contains column = true → column ∈ output
  asked : ∀ column ∈ asked, column ∈ output → part.columns.contains column = true

namespace Samples

/-- On a column that was asked for the part says what the whole does. -/
theorem get?_eq (h : part.Samples whole asked output) (hcolumn : column ∈ asked) :
    part.columns.get? column = whole.columns.get? column := by
  by_cases houtput : column ∈ output
  · obtain ⟨found, hfound⟩ := Option.isSome_iff_exists.mp (h.asked column hcolumn houtput)
    rw [hfound, h.columns column found hfound]
  · have hwhole : whole.columns.get? column = none := by
      by_contra hsome
      exact houtput (h.within column (Option.isSome_iff_ne_none.mpr hsome))
    cases hpart : part.columns.get? column with
    | none => exact hwhole.symm
    | some found => exact (h.columns column found hpart).symm

theorem distinct_eq (h : part.Samples whole asked output) (hcolumn : column ∈ asked) :
    part.distinct column = whole.distinct column := by
  unfold distinct
  rw [h.get?_eq hcolumn, h.rows]

/-- Fewer columns are asked for. -/
theorem mono (h : part.Samples whole asked output)
    (hother : ∀ column ∈ other, column ∈ output → column ∈ asked) :
    part.Samples whole other output :=
  { h with asked := fun column hcolumn houtput => h.asked column (hother column hcolumn houtput) houtput }

/-- Nothing is known of an input that is not a relation. -/
protected theorem empty : empty.Samples empty asked .empty :=
  ⟨.refl _, fun _ h => by simp [empty, KeyedMap.contains] at h,
    fun _ _ h => absurd h (by simp)⟩

end Samples

/-! ## Estimates of a part -/

theorem equalitySelectivity_congr
    (hcolumn : part.columns.get? column = whole.columns.get? column) :
    part.equalitySelectivity column = whole.equalitySelectivity column := by
  unfold equalitySelectivity
  rw [hcolumn]

theorem distinct_congr (hrows : part.rows = whole.rows)
    (hcolumn : part.columns.get? column = whole.columns.get? column) :
    part.distinct column = whole.distinct column := by
  unfold distinct
  rw [hcolumn, hrows]

/-- A changed number of distinct values for every column, over changed rows. -/
theorem Samples.mapColumns (h : part.Samples whole asked output) {rows rebinds : Float}
    {change : ColumnStatistics → ColumnStatistics} :
    Samples ⟨rows, rebinds, part.columns.mapValues change⟩
      ⟨rows, rebinds, whole.columns.mapValues change⟩ asked output := by
  have hcontains (map : KeyedMap Column ColumnStatistics) (column : Column) :
      (map.mapValues change).contains column = map.contains column := by
    unfold KeyedMap.contains
    rw [KeyedMap.get?_mapValues, Option.isSome_map]
  refine ⟨⟨rfl, rfl, fun column found hfound => ?_⟩, fun column hcolumn => ?_,
    fun column hcolumn houtput => ?_⟩
  · rw [KeyedMap.get?_mapValues] at hfound ⊢
    obtain ⟨before, hbefore, rfl⟩ := Option.map_eq_some_iff.mp hfound
    rw [h.columns column before hbefore]
    rfl
  · rw [hcontains] at hcolumn
    exact h.within column hcolumn
  · rw [hcontains]
    exact h.asked column hcolumn houtput

theorem Samples.filtered (h : part.Samples whole asked output) (selectivity : Float) :
    (part.filtered selectivity).Samples (whole.filtered selectivity) asked output := by
  unfold Statistics.filtered scaled
  rw [h.rows, h.rebinds]
  exact h.mapColumns

end Statistics

/-! ## Selectivities -/

namespace Scalar

variable {part whole : Statistics}

theorem comparisonSelectivity_congr (hrows : part.rows = whole.rows) {comparison : Comparison}
    {left right : Scalar} (hcolumns : ∀ column ∈ left.columnList ++ right.columnList,
      part.columns.get? column = whole.columns.get? column) :
    comparisonSelectivity part comparison left right =
      comparisonSelectivity whole comparison left right := by
  unfold comparisonSelectivity
  split
  · rw [Statistics.distinct_congr hrows (hcolumns _ (by simp [columnList])),
      Statistics.distinct_congr hrows (hcolumns _ (by simp [columnList]))]
  · rw [Statistics.equalitySelectivity_congr (hcolumns _ (by simp [columnList]))]
  · rw [Statistics.equalitySelectivity_congr (hcolumns _ (by simp [columnList]))]
  · rw [Statistics.equalitySelectivity_congr (hcolumns _ (by simp [columnList]))]
  all_goals rfl

mutual

/-- The fraction of rows that a conjunct keeps depends on its columns only. -/
theorem conjunctSelectivity_congr (hrows : part.rows = whole.rows) : (conjunct : Scalar) →
    (∀ column ∈ conjunct.columnList, part.columns.get? column = whole.columns.get? column) →
    conjunctSelectivity part conjunct = conjunctSelectivity whole conjunct
  | .compare _ _ _, hcolumns => by
      rw [conjunctSelectivity, conjunctSelectivity]
      exact comparisonSelectivity_congr hrows hcolumns
  | .or operands, hcolumns => by
      rw [conjunctSelectivity, conjunctSelectivity,
        failureSelectivity_congr hrows operands 1.0 hcolumns]
  | .literal (.bool false), _ | .literal (.bool true), _ | .literal .null, _
  | .literal (.integer _), _ | .literal (.real _), _ | .literal (.text _), _
  | .literal (.date _), _ | .column _, _ | .isNull _, _ | .not _, _ | .and _, _ => rfl

theorem failureSelectivity_congr (hrows : part.rows = whole.rows) : (operands : List Scalar) →
    (found : Float) →
    (∀ column ∈ columnLists operands, part.columns.get? column = whole.columns.get? column) →
    failureSelectivity part found operands = failureSelectivity whole found operands
  | [], _, _ => rfl
  | operand :: rest, found, hcolumns => by
      rw [columnLists] at hcolumns
      rw [failureSelectivity, failureSelectivity,
        conjunctSelectivity_congr hrows operand fun column h => hcolumns column (by simp [h]),
        failureSelectivity_congr hrows rest _ fun column h => hcolumns column (by simp [h])]

end

/-- The fraction of rows that a predicate keeps depends on its columns only. -/
theorem selectivity_congr (hrows : part.rows = whole.rows) {predicate : Scalar}
    (hcolumns : ∀ column ∈ predicate.columnList,
      part.columns.get? column = whole.columns.get? column) :
    predicate.selectivity part = predicate.selectivity whole := by
  unfold selectivity
  congr 1
  refine List.map_congr_left fun conjunct hconjunct =>
    conjunctSelectivity_congr hrows conjunct fun column hcolumn => hcolumns column ?_
  exact (mem_columnList_iff_conjuncts predicate).mpr ⟨conjunct, hconjunct, hcolumn⟩

end Scalar

end QueryPlanner
