import Mathlib.Data.List.Basic
import QueryPlanner.Proofs.Statistics

/-!
# Estimates from statistics of some of the columns

A logical operator asks its children for the statistics of some columns. Whatever else is known of
the children, its estimate for the columns that were asked of it is the same
(`LogicalOperator.samples_statistics`). The inputs of joins and the new columns of aggregates have
to be told apart for that (`LogicalOperator.Distinguishes`).
-/

namespace QueryPlanner

namespace Statistics

variable {part part' whole whole' : Statistics} {asked output output' : ColumnSet} {column : Column}

/-! ## Joins -/

theorem get?_joined {keys : List (Column × Column)} :
    (part.joined part' keys).columns.get? column =
      ((part'.columns.get? column).map (capDistinct (part.joined part' keys).rows)).or
        ((part.columns.get? column).map (capDistinct (part.joined part' keys).rows)) := by
  unfold joined
  dsimp only
  rw [List.foldl_append, KeyedMap.get?_foldl_insert part'.columns.ascending,
    KeyedMap.get?_foldl_insert part.columns.ascending, KeyedMap.get?_empty, Option.or_none]
  rfl

theorem contains_joined {keys : List (Column × Column)} :
    (part.joined part' keys).columns.contains column =
      (part'.columns.contains column || part.columns.contains column) := by
  unfold KeyedMap.contains
  rw [get?_joined, Option.isSome_or, Option.isSome_map, Option.isSome_map]

namespace Samples

/-- The rows of a join are estimated from the columns that it compares. -/
theorem rows_joined (h : part.Samples whole asked output) (h' : part'.Samples whole' asked output')
    {keys : List (Column × Column)} (hkeys : ∀ key ∈ keys, key.1 ∈ asked ∧ key.2 ∈ asked) :
    (part.joined part' keys).rows = (whole.joined whole' keys).rows := by
  have hselectivity : keys.foldl (fun found key => found / Estimate.larger
        (Estimate.larger (part.distinct key.1) (part'.distinct key.2)) 1.0) 1.0 =
      keys.foldl (fun found key => found / Estimate.larger
        (Estimate.larger (whole.distinct key.1) (whole'.distinct key.2)) 1.0) 1.0 :=
    List.foldl_ext _ _ _ fun found key hkey => by
      rw [h.distinct_eq (hkeys key hkey).1, h'.distinct_eq (hkeys key hkey).2]
  unfold joined
  dsimp only
  rw [hselectivity, h.rows, h'.rows]

/-- A join of parts is a part of the join when no column comes from both sides. -/
theorem joined (h : part.Samples whole asked output) (h' : part'.Samples whole' asked output')
    {keys : List (Column × Column)} (hkeys : ∀ key ∈ keys, key.1 ∈ asked ∧ key.2 ∈ asked)
    (hdisjoint : ∀ column ∈ output, column ∉ output') :
    (part.joined part' keys).Samples (whole.joined whole' keys) asked (output.union output') := by
  refine ⟨⟨h.rows_joined h' hkeys, h.rebinds, fun column found hfound => ?_⟩,
    fun column hcolumn => ?_, fun column hcolumn houtput => ?_⟩
  · rw [get?_joined, h.rows_joined h' hkeys] at hfound
    rw [get?_joined]
    obtain hinner | ⟨_, houter⟩ := Option.or_eq_some_iff.mp hfound
    · obtain ⟨before, hbefore, rfl⟩ := Option.map_eq_some_iff.mp hinner
      rw [h'.columns column before hbefore]
      rfl
    · obtain ⟨before, hbefore, rfl⟩ := Option.map_eq_some_iff.mp houter
      have hwhole := h.columns column before hbefore
      have hside : column ∈ output := h.within column (Option.isSome_of_eq_some hwhole)
      have hnone : whole'.columns.get? column = none := by
        by_contra hsome
        exact hdisjoint column hside (h'.within column (Option.isSome_iff_ne_none.mpr hsome))
      rw [hwhole, hnone]
      rfl
  · rw [contains_joined, Bool.or_eq_true] at hcolumn
    rw [KeyedSet.mem_union]
    exact hcolumn.symm.imp (h.within column) (h'.within column)
  · rw [KeyedSet.mem_union] at houtput
    rw [contains_joined, Bool.or_eq_true]
    exact (houtput.imp (h.asked column hcolumn) (h'.asked column hcolumn)).symm

end Samples

/-! ## Aggregates and tables -/

theorem get?_aggregated {grouping : List Column} :
    (part.aggregated grouping).columns.get? column =
      if column ∈ grouping then
        (part.columns.get? column).map (capDistinct (part.aggregated grouping).rows)
      else none := by
  unfold aggregated
  dsimp only
  generalize Estimate.larger _ _ = rows
  refine (KeyedMap.get?_foldl_keys grouping (.empty : KeyedMap Column ColumnStatistics)
    fun columns next other => ?_).trans (by rw [KeyedMap.get?_empty, Option.or_none])
  cases part.columns.get? next with
  | none => simp
  | some found => simp [KeyedMap.get?_insert]

/-- Grouping looks at the grouping columns only. -/
theorem Samples.aggregated (h : part.Samples whole asked output) (grouping : List Column)
    (hgrouping : ∀ column ∈ grouping, column ∈ asked ∧ column ∈ output) (asked' : ColumnSet) :
    (part.aggregated grouping).Samples (whole.aggregated grouping) asked' (.ofList grouping) := by
  have hrows : (part.aggregated grouping).rows = (whole.aggregated grouping).rows := by
    have hcombinations : grouping.foldl (fun rows column => rows * part.distinct column) 1.0 =
        grouping.foldl (fun rows column => rows * whole.distinct column) 1.0 :=
      List.foldl_ext _ _ _ fun rows column hcolumn => by
        rw [h.distinct_eq (hgrouping column hcolumn).1]
    unfold Statistics.aggregated
    dsimp only
    rw [hcombinations, h.rows]
  refine ⟨⟨hrows, h.rebinds, fun column found hfound => ?_⟩, fun column hcolumn => ?_,
    fun column _ houtput => ?_⟩
  · rw [get?_aggregated, hrows] at hfound
    rw [get?_aggregated]
    split at hfound
    · rename_i hmem
      obtain ⟨before, hbefore, rfl⟩ := Option.map_eq_some_iff.mp hfound
      rw [if_pos hmem, h.columns column before hbefore]
      rfl
    · exact absurd hfound (by simp)
  · unfold KeyedMap.contains at hcolumn
    rw [get?_aggregated] at hcolumn
    rw [KeyedSet.mem_ofList]
    by_contra hmem
    simp [hmem] at hcolumn
  · have hmem := KeyedSet.mem_ofList.mp houtput
    unfold KeyedMap.contains
    rw [get?_aggregated, if_pos hmem, Option.isSome_map]
    exact h.asked column (hgrouping column hmem).1 (hgrouping column hmem).2

theorem foldl_withColumn {value : Column → ColumnStatistics} {columns : List Column} :
    (columns.foldl (fun stats column => stats.withColumn column (value column)) part).rows =
        part.rows ∧
      (columns.foldl (fun stats column => stats.withColumn column (value column)) part).rebinds =
        part.rebinds ∧
      ∀ column, (columns.foldl (fun stats column =>
          stats.withColumn column (value column)) part).columns.get? column =
        if column ∈ columns then some (value column) else part.columns.get? column := by
  induction columns generalizing part with
  | nil => exact ⟨rfl, rfl, fun _ => rfl⟩
  | cons first rest ih =>
      obtain ⟨hrows, hrebinds, hcolumns⟩ := @ih (part.withColumn first (value first))
      refine ⟨hrows, hrebinds, fun column => ?_⟩
      rw [List.foldl_cons, hcolumns]
      unfold withColumn
      rw [KeyedMap.get?_insert]
      by_cases hcolumn : column = first <;> simp [hcolumn]

/-- New columns are added, to the part as far as they are asked for. -/
theorem Samples.withColumns (h : part.Samples whole asked output)
    {value : Column → ColumnStatistics} {few all : List Column} (hfew : ∀ column ∈ few, column ∈ all)
    (hasked : ∀ column ∈ all, column ∈ asked → column ∈ few)
    (hnew : ∀ column ∈ all, column ∉ output)
    (houtput : ∀ column, column ∈ output' ↔ column ∈ output ∨ column ∈ all) :
    (few.foldl (fun stats column => stats.withColumn column (value column)) part).Samples
      (all.foldl (fun stats column => stats.withColumn column (value column)) whole) asked
      output' := by
  obtain ⟨hrows, hrebinds, hcolumns⟩ := @foldl_withColumn part value few
  obtain ⟨hrows', hrebinds', hcolumns'⟩ := @foldl_withColumn whole value all
  refine ⟨⟨hrows.trans (h.rows.trans hrows'.symm), hrebinds.trans (h.rebinds.trans hrebinds'.symm),
    fun column found hfound => ?_⟩, fun column hcolumn => ?_, fun column hcolumn hside => ?_⟩
  · rw [hcolumns] at hfound
    rw [hcolumns']
    split at hfound
    · rename_i hmem
      rwa [if_pos (hfew column hmem)]
    · have hwhole := h.columns column found hfound
      rwa [if_neg fun hmem => hnew column hmem
        (h.within column (Option.isSome_of_eq_some hwhole))]
  · rw [houtput]
    unfold KeyedMap.contains at hcolumn
    rw [hcolumns'] at hcolumn
    split at hcolumn
    · exact .inr ‹_›
    · exact .inl (h.within column hcolumn)
  · unfold KeyedMap.contains
    rw [hcolumns]
    split
    · rfl
    · rename_i hmem
      refine h.asked column hcolumn (((houtput column).mp hside).resolve_right fun hall => ?_)
      exact hmem (hasked column hall hcolumn)

end Statistics

/-! ## Operators -/

namespace Scalar

/-- The columns that a predicate equates are among those that it mentions. -/
theorem mem_columnList_of_mem_joinKeys {predicate : Scalar} {outer inner : ColumnSet}
    {key : Column × Column} (h : key ∈ predicate.joinKeys outer inner) :
    key.1 ∈ predicate.columnList ∧ key.2 ∈ predicate.columnList := by
  obtain ⟨conjunct, hconjunct, hkey⟩ := List.mem_filterMap.mp h
  rw [mem_columnList_iff_conjuncts, mem_columnList_iff_conjuncts]
  suffices key.1 ∈ conjunct.columnList ∧ key.2 ∈ conjunct.columnList from
    ⟨⟨conjunct, hconjunct, this.1⟩, conjunct, hconjunct, this.2⟩
  unfold joinKey? at hkey
  split at hkey
  · split at hkey
    · obtain rfl := Option.some.inj hkey
      simp [columnList]
    · split at hkey
      · obtain rfl := Option.some.inj hkey
        simp [columnList]
      · exact absurd hkey (by simp)
  · exact absurd hkey (by simp)

end Scalar

namespace LogicalOperator

/-- The operator belongs to the relational algebra, and it can tell its columns apart: no column of
a join comes from both sides, and an aggregate groups by columns of its input and adds new ones. -/
def Distinguishes (op : LogicalOperator) (children : List GroupProperties) : Prop :=
  match op with
  | .get _ | .select => True
  | .innerJoin =>
    ∀ column ∈ (relationAt children 0).output.toList, column ∉ (relationAt children 1).output
  | .groupBy grouping aggregates =>
    (∀ column ∈ grouping, column ∈ (relationAt children 0).output) ∧
      ∀ column ∈ aggregates, column ∉ (relationAt children 0).output
  | .custom _ => False

instance (op : LogicalOperator) (children : List GroupProperties) :
    Decidable (op.Distinguishes children) := by
  cases op <;> unfold Distinguishes <;> infer_instance

/-- Two inputs of an estimate: in the second one everything is known of the children, in the first
one what the operator asks for. -/
structure SamplesInput (op : LogicalOperator) (part whole : StatisticsInput) : Prop where
  properties : part.properties = whole.properties
  scalars : part.scalars = whole.scalars
  children : ∀ position, (part.childStatistics position).Samples (whole.childStatistics position)
    (op.childStatisticsColumns part.required position part.properties)
    (relationAt part.properties position).output
  /-- Predicates mention the columns recorded with their group. -/
  predicates : ∀ (position : Nat) (scalar : Operator) (condition : Scalar),
    part.scalars[position]? = some (some scalar) → scalar.predicate? = some condition →
      ∃ recorded : ScalarProperties, part.properties[position]? = some (.scalar recorded) ∧
        recorded.used = condition.columns

/-- The columns that were asked for, and those that predicates among the children mention. -/
def wanted (input : StatisticsInput) : ColumnSet :=
  (input.properties.filterMap (·.scalar?)).foldl (fun found scalar => found.union scalar.used)
    input.required

theorem mem_wanted {input : StatisticsInput} {column : Column} :
    column ∈ wanted input ↔ column ∈ input.required ∨
      ∃ scalar : ScalarProperties, .scalar scalar ∈ input.properties ∧ column ∈ scalar.used := by
  have hfold (scalars : List ScalarProperties) (start : ColumnSet) :
      column ∈ scalars.foldl (fun found scalar => found.union scalar.used) start ↔
        column ∈ start ∨ ∃ scalar ∈ scalars, column ∈ scalar.used := by
    induction scalars generalizing start with
    | nil => simp
    | cons scalar rest ih =>
        rw [List.foldl_cons, ih, KeyedSet.mem_union, List.exists_mem_cons_iff, or_assoc]
  have hscalar (scalar : ScalarProperties) : scalar ∈ input.properties.filterMap (·.scalar?) ↔
      .scalar scalar ∈ input.properties := by
    rw [List.mem_filterMap]
    constructor
    · rintro ⟨properties, hmem, hscalar⟩
      cases properties with
      | relation _ => exact absurd hscalar (by simp [GroupProperties.scalar?])
      | scalar found => exact Option.some.inj hscalar ▸ hmem
    · exact fun hmem => ⟨_, hmem, rfl⟩
  unfold wanted
  rw [hfold]
  simp only [hscalar]

/-- A filter by columns that were asked for or are mentioned by a predicate. -/
theorem samples_filtered {input : StatisticsInput} {output : ColumnSet} {found found' : Statistics}
    {predicate : Scalar} (hfound : found.Samples found' (wanted input) output)
    (hpredicate : ∀ column ∈ predicate.columnList, column ∈ wanted input) :
    (found.filtered (predicate.selectivity found)).Samples
      (found'.filtered (predicate.selectivity found')) input.required output := by
  rw [Scalar.selectivity_congr hfound.rows fun column hcolumn =>
    hfound.get?_eq (hpredicate column hcolumn)]
  exact (hfound.filtered _).mono fun column hcolumn _ => mem_wanted.mpr (.inl hcolumn)

namespace SamplesInput

variable {op : LogicalOperator} {part whole : StatisticsInput} (h : op.SamplesInput part whole)
include h

/-- A child provides what was asked for and what predicates mention, as far as it has it. -/
theorem child (hop : ∀ grouping aggregates, op ≠ .groupBy grouping aggregates) (position : Nat) :
    (part.childStatistics position).Samples (whole.childStatistics position) (wanted part)
      (relationAt part.properties position).output := by
  refine (h.children position).mono fun column hwanted houtput => ?_
  unfold relationAt at houtput
  cases hrelation : (part.properties[position]?).bind (·.relation?) with
  | none =>
      rw [hrelation] at houtput
      exact absurd houtput KeyedSet.mem_empty.mp
  | some relation =>
      rw [hrelation] at houtput
      have hasked : column ∈ (wanted part).inter relation.output :=
        KeyedSet.mem_inter.mpr ⟨hwanted, houtput⟩
      cases op with
      | groupBy grouping aggregates => exact absurd rfl (hop grouping aggregates)
      | _ =>
          unfold childStatisticsColumns
          rw [hrelation]
          exact hasked

theorem childPredicate (position : Nat) :
    part.childPredicate position = whole.childPredicate position := by
  unfold StatisticsInput.childPredicate
  rw [h.scalars]

theorem wanted_of_mem_childPredicate {position : Nat} {column : Column}
    (hcolumn : column ∈ (part.childPredicate position).columnList) : column ∈ wanted part := by
  unfold StatisticsInput.childPredicate at hcolumn
  cases hscalar : ((part.scalars[position]?).bind id).bind (·.predicate?) with
  | none =>
      rw [hscalar] at hcolumn
      exact absurd hcolumn (by simp [Scalar.always, Scalar.columnList])
  | some condition =>
      rw [hscalar] at hcolumn
      obtain ⟨scalar, hfound, hcondition⟩ := Option.bind_eq_some_iff.mp hscalar
      obtain ⟨_, hposition, rfl⟩ := Option.bind_eq_some_iff.mp hfound
      obtain ⟨recorded, hrecorded, hused⟩ := h.predicates position scalar condition hposition hcondition
      refine mem_wanted.mpr (.inr ⟨recorded, List.mem_of_getElem? hrecorded, ?_⟩)
      rw [hused]
      exact KeyedSet.mem_ofList.mpr hcolumn

theorem joinKeys : part.joinKeys = whole.joinKeys := by
  unfold StatisticsInput.joinKeys StatisticsInput.childOutput?
  rw [h.properties, h.childPredicate]

theorem wanted_of_mem_joinKeys {key : Column × Column} (hkey : key ∈ part.joinKeys) :
    key.1 ∈ wanted part ∧ key.2 ∈ wanted part := by
  unfold StatisticsInput.joinKeys at hkey
  split at hkey
  · have hcolumns := Scalar.mem_columnList_of_mem_joinKeys hkey
    exact hcolumns.imp h.wanted_of_mem_childPredicate h.wanted_of_mem_childPredicate
  · exact absurd hkey (by simp)

/-- A join, and a filter by what is left of its predicate. -/
theorem innerJoin (hop : op = .innerJoin)
    (hdisjoint : ∀ column ∈ (relationAt part.properties 0).output,
      column ∉ (relationAt part.properties 1).output) :
    ∃ found found', op.statistics part = .ok found ∧ op.statistics whole = .ok found' ∧
      found.Samples found' part.required (op.properties part.properties).output := by
  subst hop
  have hjoined := (h.child (by simp) 0).joined (h.child (by simp) 1)
    (fun _ => h.wanted_of_mem_joinKeys) hdisjoint
  unfold statistics
  dsimp only
  rw [← h.joinKeys, ← h.childPredicate]
  have hresidual : ∀ column ∈ (Scalar.conjunction
      (residualConjuncts (part.childPredicate 2) part.joinKeys)).columnList,
        column ∈ wanted part := by
    intro column hcolumn
    obtain ⟨conjunct, hconjunct, hmentions⟩ := Scalar.mem_columnList_conjunction.mp hcolumn
    exact h.wanted_of_mem_childPredicate ((Scalar.mem_columnList_iff_conjuncts _).mpr
      ⟨conjunct, List.mem_of_mem_filter hconjunct, hmentions⟩)
  cases hleft : residualConjuncts (part.childPredicate 2) part.joinKeys with
  | nil =>
      exact ⟨_, _, rfl, rfl, hjoined.mono fun column hcolumn _ => mem_wanted.mpr (.inl hcolumn)⟩
  | cons first rest =>
      rw [hleft] at hresidual
      exact ⟨_, _, rfl, rfl, samples_filtered hjoined hresidual⟩

end SamplesInput

/-- The estimate for some columns of the output is a part of the one for all of them, and it covers
the columns asked for. -/
theorem samples_statistics {op : LogicalOperator} {part whole : StatisticsInput}
    (h : op.SamplesInput part whole) (hop : op.Distinguishes part.properties)
    (hwhole : whole.required = (op.properties part.properties).output) :
    ∃ found found', op.statistics part = .ok found ∧ op.statistics whole = .ok found' ∧
      found.Samples found' part.required (op.properties part.properties).output := by
  cases op with
  | get access =>
      refine ⟨_, _, rfl, rfl, ?_⟩
      have hstart : Statistics.Samples { rows := access.table.rows } { rows := access.table.rows }
          part.required .empty :=
        ⟨.refl _, fun _ hcolumn => absurd hcolumn (by simp [KeyedMap.contains]),
          fun _ _ houtput => absurd houtput (by simp)⟩
      refine hstart.withColumns (fun column hcolumn => ?_) (fun column hcolumn hasked => ?_)
        (fun _ _ => by simp) fun column => ?_
      all_goals
        simp only [← KeyedSet.mem_iff, KeyedSet.mem_inter, KeyedSet.mem_ofList, hwhole, properties,
          KeyedSet.mem_empty, false_or, and_self] at *
      · exact hcolumn.2
      · exact ⟨hasked, hcolumn⟩
  | select =>
      refine ⟨_, _, rfl, rfl, ?_⟩
      rw [← h.childPredicate]
      exact samples_filtered (h.child (by simp) 0) fun column => h.wanted_of_mem_childPredicate
  | innerJoin => exact h.innerJoin rfl hop
  | groupBy grouping aggregates =>
      refine ⟨_, _, rfl, rfl, ?_⟩
      obtain ⟨hgrouping, haggregates⟩ := hop
      have hgrouped := (h.children 0).aggregated grouping (fun column hcolumn =>
        ⟨by simpa [childStatisticsColumns, hcolumn] using hgrouping column hcolumn,
          hgrouping column hcolumn⟩) part.required
      rw [hgrouped.rows]
      refine hgrouped.withColumns (fun column hcolumn => ?_) (fun column hcolumn hasked => ?_)
        (fun column hcolumn hgroup => ?_) fun column => ?_
      all_goals
        simp only [List.mem_filter, KeyedSet.contains_iff, KeyedSet.mem_ofList, hwhole, properties,
          List.mem_append] at *
      · exact ⟨hcolumn.1, .inr hcolumn.1⟩
      · exact ⟨hcolumn.1, hasked⟩
      · exact haggregates column hcolumn.1 (hgrouping column hgroup)
      · tauto
  | custom op => exact hop.elim

end LogicalOperator

end QueryPlanner
