import Mathlib.Data.List.Basic
import QueryPlanner.Operator.Estimation

/-!
# Conjuncts in the estimate of a join

Conjuncts that equate an outer with an inner column go into the estimate of a join as key pairs, and
the others filter what is joined. Which conjuncts filter is found out by a second look: a comparison
of two columns that cover a key pair is taken for the conjunct that the pair came from
(`isKeyConjunct`). `StatisticsInput.residual_accounts` says which conjuncts filter in the end. A
comparison of any kind that mentions the two columns of a pair is lost, and a column that is equated
with itself counts twice.
-/

namespace QueryPlanner

/-- A set has two elements when some two keys are its elements. -/
theorem KeyedSet.size_eq_two_iff {κ : Type} [Numbered κ] {set : KeyedSet κ} :
    set.size = 2 ↔
      ∃ first second, first ≠ second ∧ ∀ key, key ∈ set ↔ key = first ∨ key = second := by
  have hdistinct : set.toList.Nodup := set.ascending.imp fun hbefore => by
    rintro rfl
    exact Nat.lt_irrefl _ hbefore
  constructor
  · intro hsize
    obtain ⟨first, second, hlist⟩ := List.length_eq_two.mp hsize
    rw [hlist] at hdistinct
    exact ⟨first, second, by simpa using hdistinct, fun key => by simp [mem_iff, hlist]⟩
  · rintro ⟨first, second, hne, hmem⟩
    have hperm : set.toList.Perm [first, second] :=
      (List.perm_ext_iff_of_nodup hdistinct (by simpa using hne)).mpr fun key => by
        rw [← mem_iff, hmem]
        simp
    exact hperm.length_eq

namespace StatisticsInput

variable {input : StatisticsInput} {conjunct : Scalar} {key : Column × Column}

/-- The conjuncts of a join predicate. -/
def conjuncts (input : StatisticsInput) : List Scalar := (input.childPredicate 2).conjuncts

/-- The columns of one side of a join, none for a scalar. -/
def side (input : StatisticsInput) (child : Nat) : ColumnSet :=
  (input.childOutput? child).getD .empty

/-- The outer and the inner column that a conjunct equates. -/
def keyOf? (input : StatisticsInput) (conjunct : Scalar) : Option (Column × Column) :=
  conjunct.joinKey? (input.side 0) (input.side 1)

/-- The conjuncts that filter what is joined. -/
def residual (input : StatisticsInput) : List Scalar :=
  residualConjuncts (input.childPredicate 2) input.joinKeys

/-- The estimate of a join on key pairs with a filter above it. -/
def joinEstimate (input : StatisticsInput) (keys : List (Column × Column)) (filters : List Scalar) :
    Statistics :=
  let joined := (input.childStatistics 0).joined (input.childStatistics 1) keys
  if filters.isEmpty then joined
  else joined.filtered ((Scalar.conjunction filters).selectivity joined)

/-- A comparison that equates no pair, but mentions two columns that cover a pair. -/
structure Overlooks (input : StatisticsInput) (conjunct : Scalar) : Prop where
  unkeyed : input.keyOf? conjunct = none
  compares : ∃ comparison left right, conjunct = .compare comparison left right
  mentionsTwo : ∃ first second, first ≠ second ∧
    ∀ column, column ∈ conjunct.columns ↔ column = first ∨ column = second
  covers : ∃ key ∈ input.joinKeys, key.1 ∈ conjunct.columns ∧ key.2 ∈ conjunct.columns

/-- A conjunct that equates a column of both sides with itself. -/
def EquatesItself (input : StatisticsInput) (conjunct : Scalar) : Prop :=
  ∃ column, conjunct = .compare .equal (.column column) (.column column) ∧
    column ∈ input.side 0 ∧ column ∈ input.side 1

/-! ## Key pairs -/

theorem keyOf?_eq_some (h : input.keyOf? conjunct = some key) :
    ∃ left right, conjunct = .compare .equal (.column left) (.column right) ∧
      key.1 ∈ input.side 0 ∧ key.2 ∈ input.side 1 ∧ (key = (left, right) ∨ key = (right, left)) := by
  unfold keyOf? Scalar.joinKey? at h
  split at h
  · rename_i left right
    simp only [Bool.and_eq_true, KeyedSet.contains_iff] at h
    split at h
    · rename_i hsides
      obtain rfl := Option.some.inj h
      exact ⟨left, right, rfl, hsides.1, hsides.2, .inl rfl⟩
    · split at h
      · rename_i hsides
        obtain rfl := Option.some.inj h
        exact ⟨left, right, rfl, hsides.2, hsides.1, .inr rfl⟩
      · simp at h
  · simp at h

/-- What equates a column of both sides with itself equates a pair. -/
theorem EquatesItself.keyOf?_ne_none (h : input.EquatesItself conjunct) :
    input.keyOf? conjunct ≠ none := by
  obtain ⟨column, rfl, houter, hinner⟩ := h
  simp [keyOf?, Scalar.joinKey?, houter, hinner]

/-- The key pairs of a join are those of its conjuncts, each as often as it is equated. -/
theorem joinKeys_eq (input : StatisticsInput) :
    input.joinKeys = input.conjuncts.filterMap input.keyOf? := by
  have hkeys (outer inner : ColumnSet) : (input.childPredicate 2).joinKeys outer inner =
      input.conjuncts.filterMap (Scalar.joinKey? outer inner) := rfl
  have hnone (conjunct : Scalar) (hempty : input.side 0 = .empty ∨ input.side 1 = .empty) :
      input.keyOf? conjunct = none := by
    by_contra hsome
    obtain ⟨key, hkey⟩ := Option.ne_none_iff_exists'.mp hsome
    obtain ⟨_, _, _, houter, hinner, _⟩ := keyOf?_eq_some hkey
    rcases hempty with hempty | hempty <;> simp_all
  unfold joinKeys
  split
  · rename_i outer inner houter hinner
    have hside : input.keyOf? = Scalar.joinKey? outer inner := by
      funext conjunct
      simp [keyOf?, side, houter, hinner]
    rw [hside]
    exact hkeys outer inner
  · rename_i hmissing
    refine (List.filterMap_eq_nil_iff.mpr fun conjunct _ => hnone conjunct ?_).symm
    cases houter : input.childOutput? 0 with
    | none => exact .inl (by simp [side, houter])
    | some outer =>
        cases hinner : input.childOutput? 1 with
        | none => exact .inr (by simp [side, hinner])
        | some inner => exact absurd hinner (hmissing outer inner houter)

/-! ## Conjuncts taken for those of key pairs -/

theorem isKeyConjunct_iff {keys : List (Column × Column)} : isKeyConjunct keys conjunct = true ↔
    (∃ comparison left right, conjunct = .compare comparison left right) ∧
      (∃ first second, first ≠ second ∧
        ∀ column, column ∈ conjunct.columns ↔ column = first ∨ column = second) ∧
      ∃ key ∈ keys, key.1 ∈ conjunct.columns ∧ key.2 ∈ conjunct.columns := by
  unfold isKeyConjunct
  split
  · rw [Bool.and_eq_true, beq_iff_eq, KeyedSet.size_eq_two_iff, List.any_eq_true]
    simp only [Bool.and_eq_true, KeyedSet.contains_iff]
    exact ⟨fun h => ⟨⟨_, _, _, rfl⟩, h⟩, fun h => h.2⟩
  · rename_i hother
    simp only [Bool.false_eq_true, false_iff]
    rintro ⟨⟨comparison, left, right, rfl⟩, _⟩
    exact hother _ _ _ rfl

/-- Conjuncts that equate no pair are taken for others exactly if they are overlooked. -/
theorem isKeyConjunct_of_unkeyed (h : input.keyOf? conjunct = none) :
    isKeyConjunct input.joinKeys conjunct = true ↔ input.Overlooks conjunct := by
  rw [isKeyConjunct_iff]
  exact ⟨fun ⟨hcompares, hmentions, hcovers⟩ => ⟨h, hcompares, hmentions, hcovers⟩,
    fun hoverlooked => ⟨hoverlooked.compares, hoverlooked.mentionsTwo, hoverlooked.covers⟩⟩

/-- Conjuncts that equate a pair are found again unless they equate a column with itself. -/
theorem isKeyConjunct_of_keyed (hconjunct : conjunct ∈ input.conjuncts)
    (h : input.keyOf? conjunct = some key) :
    isKeyConjunct input.joinKeys conjunct = true ↔ ¬ input.EquatesItself conjunct := by
  have hlisted : key ∈ input.joinKeys := by
    rw [joinKeys_eq]
    exact List.mem_filterMap.mpr ⟨conjunct, hconjunct, h⟩
  obtain ⟨left, right, rfl, houter, hinner, hpair⟩ := keyOf?_eq_some h
  have hmentions (column : Column) :
      column ∈ (Scalar.compare .equal (.column left) (.column right)).columns ↔
        column = left ∨ column = right := by
    simp [Scalar.columns, Scalar.columnList]
  rw [isKeyConjunct_iff]
  constructor
  · rintro ⟨_, ⟨first, second, hne, hcolumns⟩, _⟩ ⟨column, hequal, _⟩
    -- a set with one column has no two elements
    simp only [Scalar.compare.injEq, Scalar.column.injEq, true_and] at hequal
    obtain ⟨rfl, rfl⟩ := hequal
    simp only [hmentions, or_self] at hcolumns
    exact hne (((hcolumns first).mpr (.inl rfl)).trans ((hcolumns second).mpr (.inr rfl)).symm)
  · intro hitself
    refine ⟨⟨_, _, _, rfl⟩, ⟨left, right, ?_, hmentions⟩, key, hlisted, ?_⟩
    · rintro rfl
      refine hitself ⟨left, rfl, ?_⟩
      rcases hpair with rfl | rfl <;> exact ⟨houter, hinner⟩
    · rw [hmentions, hmentions]
      rcases hpair with rfl | rfl <;> simp

/-- A conjunct filters exactly if it equates no pair and is not overlooked, or equates a column with
itself. -/
theorem applies_iff (hconjunct : conjunct ∈ input.conjuncts) :
    (!isKeyConjunct input.joinKeys conjunct) = true ↔
      input.keyOf? conjunct = none ∧ ¬ input.Overlooks conjunct ∨ input.EquatesItself conjunct := by
  rw [Bool.not_eq_true', ← Bool.not_eq_true]
  cases hkey : input.keyOf? conjunct with
  | none =>
      have hitself : ¬ input.EquatesItself conjunct := fun hitself =>
        hitself.keyOf?_ne_none hkey
      rw [isKeyConjunct_of_unkeyed hkey]
      simp [hitself]
  | some key =>
      rw [isKeyConjunct_of_keyed hconjunct hkey]
      simp

/-- The estimate of a join joins on the pairs that its conjuncts equate and filters by its residual.
A conjunct stays in the residual, as often as it stands in the predicate, if it equates no pair and
is not overlooked, or if it equates a column with itself. So the residual consists of exactly the
conjuncts that equate no pair if no conjunct is overlooked and none equates a column with itself. -/
theorem residual_accounts (input : StatisticsInput) :
    LogicalOperator.innerJoin.statistics input =
        .ok (input.joinEstimate (input.conjuncts.filterMap input.keyOf?) input.residual) ∧
      (∃ applies : Scalar → Bool, input.residual = input.conjuncts.filter applies ∧
        ∀ conjunct ∈ input.conjuncts, applies conjunct = true ↔
          input.keyOf? conjunct = none ∧ ¬ input.Overlooks conjunct ∨
            input.EquatesItself conjunct) ∧
      (input.residual = input.conjuncts.filter (fun conjunct => (input.keyOf? conjunct).isNone) ↔
        ∀ conjunct ∈ input.conjuncts,
          ¬ input.Overlooks conjunct ∧ ¬ input.EquatesItself conjunct) := by
  have hfilter : input.residual =
      input.conjuncts.filter fun conjunct => !isKeyConjunct input.joinKeys conjunct := rfl
  refine ⟨?_, ⟨_, hfilter, fun conjunct => applies_iff⟩, ?_⟩
  · rw [← joinKeys_eq]
    unfold LogicalOperator.statistics joinEstimate residual
    dsimp only
    split <;> rename_i hresidual <;> simp_all
  · rw [hfilter]
    constructor
    · intro hsame conjunct hconjunct
      have hmem := congrArg (conjunct ∈ ·) hsame
      simp only [List.mem_filter, hconjunct, true_and, applies_iff hconjunct,
        Option.isNone_iff_eq_none, eq_iff_iff] at hmem
      refine ⟨fun hoverlooked => ?_, fun hitself => ?_⟩
      · rcases hmem.mpr hoverlooked.unkeyed with ⟨_, hnot⟩ | hitself
        · exact hnot hoverlooked
        · exact hitself.keyOf?_ne_none hoverlooked.unkeyed
      · exact hitself.keyOf?_ne_none (hmem.mp (.inr hitself))
    · intro hnone
      refine List.filter_congr fun conjunct hconjunct => ?_
      rw [Bool.eq_iff_iff, applies_iff hconjunct, Option.isNone_iff_eq_none]
      simp [hnone conjunct hconjunct]

/-- Beside the equality of two columns, any other comparison of the two is lost. -/
example :
    let equal := Scalar.compare .equal (.column ⟨0⟩) (.column ⟨1⟩)
    let less := Scalar.compare .less (.column ⟨0⟩) (.column ⟨1⟩)
    let keys := (Scalar.and [equal, less]).joinKeys (.ofList [⟨0⟩]) (.ofList [⟨1⟩])
    keys = [(⟨0⟩, ⟨1⟩)] ∧ residualConjuncts (.and [equal, less]) keys = [] ∧
      residualConjuncts less [] = [less] :=
  ⟨rfl, rfl, rfl⟩

end StatisticsInput

end QueryPlanner
