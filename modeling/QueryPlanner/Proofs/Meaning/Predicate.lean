import Mathlib.Data.Multiset.Bind
import QueryPlanner.Scalar

/-!
# What predicates mean

Predicates are read in the three-valued logic of SQL. `Interpretation.eval` gives the value of a
scalar over a row, NULL being `none`, and `Interpretation.holds` its truth, unknown being `none`. A
predicate is true exactly if all its conjuncts are, so conjuncts may be split and joined again, and
its truth depends on the columns it mentions only.
-/

namespace QueryPlanner

namespace Scalar

/-- Only one predicate counts as always holding. -/
theorem eq_always {predicate : Scalar} (h : predicate.isAlways = true) : predicate = always := by
  unfold isAlways at h
  split at h
  · rfl
  · simp at h

/-- What a predicate contributes to the operands of a conjunction. -/
def contribution (part : Scalar) : List Scalar :=
  match part with
  | .and operands => operands
  | other => if other.isAlways then [] else [other]

theorem conjunction_eq (parts : List Scalar) : conjunction parts =
    match parts.flatMap contribution with
    | [] => always
    | [single] => single
    | several => .and several := rfl

end Scalar

/-- A row: the columns it has with their values, NULL being the inner `none`. -/
abbrev Row (V : Type) := Column → Option (Option V)

/-- How literals, comparisons, tables and aggregates are read, over some domain of values. -/
structure Interpretation (V : Type) where
  /-- The value of a literal, `none` for NULL. -/
  literal : Literal → Option V
  compare : Comparison → V → V → Bool
  /-- Whether a value counts as true. -/
  truth : V → Bool
  ofTruth : Bool → V
  truth_ofTruth : ∀ value, truth (ofTruth value) = value
  literal_bool : ∀ value, literal (.bool value) = some (ofTruth value)
  /-- Literals that are taken for the same have the same value. -/
  literal_same : ∀ left right, left.same right = true → literal left = literal right
  /-- What a column reads as that no input delivers. -/
  absent : Column → Option V
  /-- The rows of a table: its number, the columns that are read, and the number of the scan. -/
  table : Nat → List Column → Option ScanId → Multiset (Row V)
  /-- The rows of an aggregate: the grouping columns, the aggregates, and the rows of the input. -/
  aggregate : List Column → List Column → Multiset (Row V) → Multiset (Row V)

namespace Interpretation

/-- The conjunction of truth values: false as soon as one is false, and true if all are. -/
def allTrue (truths : List (Option Bool)) : Option Bool :=
  if some false ∈ truths then some false else if none ∈ truths then none else some true

/-- The disjunction of truth values: true as soon as one is true, and false if all are. -/
def anyTrue (truths : List (Option Bool)) : Option Bool :=
  if some true ∈ truths then some true else if none ∈ truths then none else some false

/-- A conjunction is true exactly if all its parts are. -/
theorem allTrue_eq_true {truths : List (Option Bool)} :
    allTrue truths = some true ↔ ∀ truth ∈ truths, truth = some true := by
  unfold allTrue
  constructor
  · intro h truth hmem
    split at h
    · simp at h
    · split at h
      · simp at h
      · rename_i hfalse hunknown
        rcases truth with _ | _ | _
        · exact absurd hmem hunknown
        · exact absurd hmem hfalse
        · rfl
  · intro h
    rw [if_neg fun hmem => by simpa using h _ hmem, if_neg fun hmem => by simpa using h _ hmem]

variable {V : Type} (meaning : Interpretation V)

mutual

/-- The value of a scalar over a row, `none` for NULL. -/
def eval (row : Row V) : Scalar → Option V
  | .column read => (row read).getD (meaning.absent read)
  | .literal value => meaning.literal value
  | .compare comparison left right => do
    let first ← eval row left
    let second ← eval row right
    return meaning.ofTruth (meaning.compare comparison first second)
  | .isNull operand => some (meaning.ofTruth (eval row operand).isNone)
  | .not operand => (eval row operand).map fun value => meaning.ofTruth (!meaning.truth value)
  | .and operands => (allTrue (truths row operands)).map meaning.ofTruth
  | .or operands => (anyTrue (truths row operands)).map meaning.ofTruth

/-- The truth values of several predicates over a row, `none` for unknown. -/
def truths (row : Row V) : List Scalar → List (Option Bool)
  | [] => []
  | operand :: rest => (eval row operand).map meaning.truth :: truths row rest

end

/-- The truth value of a predicate over a row, `none` for unknown. -/
def holds (predicate : Scalar) (row : Row V) : Option Bool :=
  (meaning.eval row predicate).map meaning.truth

/-- A predicate keeps the rows over which it is true. -/
def keeps (predicate : Scalar) (row : Row V) : Prop := meaning.holds predicate row = some true

variable {meaning} {row row' : Row V}

theorem truths_eq_map (operands : List Scalar) :
    meaning.truths row operands = operands.map fun operand => meaning.holds operand row := by
  induction operands with
  | nil => rfl
  | cons operand rest ih =>
      rw [truths, ih]
      rfl

/-! ## Conjuncts -/

theorem keeps_always : meaning.keeps .always row := by
  unfold keeps holds Scalar.always
  rw [eval, meaning.literal_bool, Option.map_some, meaning.truth_ofTruth]

/-- A conjunction keeps what all its operands keep. -/
theorem keeps_and {operands : List Scalar} :
    meaning.keeps (.and operands) row ↔ ∀ operand ∈ operands, meaning.keeps operand row := by
  unfold keeps holds
  rw [eval, truths_eq_map, Option.map_map,
    show meaning.truth ∘ meaning.ofTruth = id from funext meaning.truth_ofTruth, Option.map_id_fun,
    id, allTrue_eq_true, List.forall_mem_map]
  rfl

mutual

/-- A predicate keeps what all its conjuncts keep. -/
theorem keeps_iff_conjuncts : (predicate : Scalar) →
    (meaning.keeps predicate row ↔ ∀ conjunct ∈ predicate.conjuncts, meaning.keeps conjunct row)
  | .and operands => by
      rw [keeps_and, Scalar.conjuncts]
      exact keeps_iff_conjunctLists operands
  | .literal (.bool true) => iff_of_true keeps_always (by simp [Scalar.conjuncts])
  | .literal (.bool false) | .literal .null | .literal (.integer _) | .literal (.real _)
  | .literal (.text _) | .literal (.date _) | .column _ | .compare _ _ _ | .isNull _ | .not _
  | .or _ => by simp [Scalar.conjuncts]

theorem keeps_iff_conjunctLists : (operands : List Scalar) →
    ((∀ operand ∈ operands, meaning.keeps operand row) ↔
      ∀ conjunct ∈ Scalar.conjunctLists operands, meaning.keeps conjunct row)
  | [] => by simp [Scalar.conjunctLists]
  | operand :: rest => by
      rw [Scalar.conjunctLists, List.forall_mem_cons, List.forall_mem_append,
        keeps_iff_conjuncts operand, keeps_iff_conjunctLists rest]

end

/-- What a part keeps, all that it contributes to a conjunction keeps. -/
theorem keeps_iff_contribution {part : Scalar} :
    meaning.keeps part row ↔ ∀ operand ∈ part.contribution, meaning.keeps operand row := by
  unfold Scalar.contribution
  split
  · exact keeps_and
  · split
    · rename_i hsame
      rw [Scalar.eq_always hsame]
      exact iff_of_true keeps_always (by simp)
    · rw [List.forall_mem_singleton]

/-- The conjunction of several predicates keeps what all of them keep. -/
theorem keeps_conjunction {parts : List Scalar} :
    meaning.keeps (Scalar.conjunction parts) row ↔ ∀ part ∈ parts, meaning.keeps part row := by
  have hparts : (∀ part ∈ parts, meaning.keeps part row) ↔
      ∀ operand ∈ parts.flatMap Scalar.contribution, meaning.keeps operand row := by
    rw [List.forall_mem_flatMap]
    exact forall₂_congr fun part _ => keeps_iff_contribution
  rw [hparts, Scalar.conjunction_eq]
  generalize parts.flatMap Scalar.contribution = operands
  match operands with
  | [] => exact iff_of_true keeps_always (by simp)
  | [_] => rw [List.forall_mem_singleton]
  | _ :: _ :: _ => exact keeps_and

end Interpretation

/-! ## Columns -/

namespace Scalar

/-- A list of predicates mentions what one of them mentions. -/
theorem mem_columnLists {operands : List Scalar} {column : Column} :
    column ∈ columnLists operands ↔ ∃ operand ∈ operands, column ∈ operand.columnList := by
  induction operands with
  | nil => simp [columnLists]
  | cons operand rest ih => rw [columnLists, List.mem_append, ih, List.exists_mem_cons_iff]

mutual

/-- A predicate mentions what its conjuncts mention. -/
theorem mem_columnList_iff_conjuncts {column : Column} : (predicate : Scalar) →
    (column ∈ predicate.columnList ↔
      ∃ conjunct ∈ predicate.conjuncts, column ∈ conjunct.columnList)
  | .and operands => by
      rw [columnList, conjuncts, mem_columnLists]
      exact mem_columnList_iff_conjunctLists operands
  | .literal (.bool true) => by simp [columnList, conjuncts]
  | .literal (.bool false) | .literal .null | .literal (.integer _) | .literal (.real _)
  | .literal (.text _) | .literal (.date _) | .column _ | .compare _ _ _ | .isNull _ | .not _
  | .or _ => by simp [conjuncts]

theorem mem_columnList_iff_conjunctLists {column : Column} : (operands : List Scalar) →
    ((∃ operand ∈ operands, column ∈ operand.columnList) ↔
      ∃ conjunct ∈ conjunctLists operands, column ∈ conjunct.columnList)
  | [] => by simp [conjunctLists]
  | operand :: rest => by
      rw [conjunctLists, List.exists_mem_cons_iff, mem_columnList_iff_conjuncts operand,
        mem_columnList_iff_conjunctLists rest]
      simp only [List.mem_append, or_and_right, exists_or]

end

/-- A part mentions what it contributes to a conjunction. -/
theorem mem_columnList_iff_contribution {part : Scalar} {column : Column} :
    column ∈ part.columnList ↔ ∃ operand ∈ part.contribution, column ∈ operand.columnList := by
  unfold contribution
  split
  · exact mem_columnLists
  · split
    · rename_i hsame
      rw [eq_always hsame]
      simp [always, columnList]
    · simp

/-- The conjunction of several predicates mentions what they mention. -/
theorem mem_columnList_conjunction {parts : List Scalar} {column : Column} :
    column ∈ (conjunction parts).columnList ↔ ∃ part ∈ parts, column ∈ part.columnList := by
  have hparts : (∃ part ∈ parts, column ∈ part.columnList) ↔
      ∃ operand ∈ parts.flatMap contribution, column ∈ operand.columnList := by
    rw [exists_congr fun part => and_congr_right fun _ => mem_columnList_iff_contribution]
    constructor
    · rintro ⟨part, hpart, operand, hoperand, hcolumn⟩
      exact ⟨operand, List.mem_flatMap.mpr ⟨part, hpart, hoperand⟩, hcolumn⟩
    · rintro ⟨operand, hoperand, hcolumn⟩
      obtain ⟨part, hpart, hoperand⟩ := List.mem_flatMap.mp hoperand
      exact ⟨part, hpart, operand, hoperand, hcolumn⟩
  rw [hparts, conjunction_eq]
  generalize parts.flatMap contribution = operands
  match operands with
  | [] => simp [always, columnList]
  | [_] => simp
  | _ :: _ :: _ => exact mem_columnLists

mutual

/-- Equal expressions mention the same columns. -/
theorem columnList_eq_of_same : (left right : Scalar) → left.same right = true →
    left.columnList = right.columnList
  | .column _, .column _, h => by simpa [same, columnList] using h
  | .literal _, .literal _, _ => rfl
  | .compare _ left right, .compare _ left' right', h => by
      simp only [same, Bool.and_eq_true] at h
      rw [columnList, columnList, columnList_eq_of_same left left' h.1.2,
        columnList_eq_of_same right right' h.2]
  | .isNull left, .isNull right, h => by
      rw [columnList, columnList, columnList_eq_of_same left right (by simpa [same] using h)]
  | .not left, .not right, h => by
      rw [columnList, columnList, columnList_eq_of_same left right (by simpa [same] using h)]
  | .and left, .and right, h => by
      rw [columnList, columnList, columnLists_eq_of_sameList left right (by simpa [same] using h)]
  | .or left, .or right, h => by
      rw [columnList, columnList, columnLists_eq_of_sameList left right (by simpa [same] using h)]

theorem columnLists_eq_of_sameList : (left right : List Scalar) → sameList left right = true →
    columnLists left = columnLists right
  | [], [], _ => rfl
  | left :: lefts, right :: rights, h => by
      simp only [sameList, Bool.and_eq_true] at h
      rw [columnLists, columnLists, columnList_eq_of_same left right h.1,
        columnLists_eq_of_sameList lefts rights h.2]

end

/-! ## The number of conjuncts -/

/-- A predicate is its own only conjunct, also among the operands of a conjunction. -/
def IsConjunct (predicate : Scalar) : Prop :=
  predicate.conjuncts = [predicate] ∧ predicate.contribution = [predicate]

mutual

/-- Conjuncts cannot be taken apart any more. -/
theorem isConjunct_of_mem_conjuncts {conjunct : Scalar} : (predicate : Scalar) →
    conjunct ∈ predicate.conjuncts → conjunct.IsConjunct
  | .and operands, h => isConjunct_of_mem_conjunctLists operands (by simpa [conjuncts] using h)
  | .literal (.bool true), h => by simp [conjuncts] at h
  | .literal (.bool false), h | .literal .null, h | .literal (.integer _), h
  | .literal (.real _), h | .literal (.text _), h | .literal (.date _), h | .column _, h
  | .compare _ _ _, h | .isNull _, h | .not _, h | .or _, h => by
      simp only [conjuncts, List.mem_singleton] at h
      subst h
      exact ⟨rfl, rfl⟩

theorem isConjunct_of_mem_conjunctLists {conjunct : Scalar} : (operands : List Scalar) →
    conjunct ∈ conjunctLists operands → conjunct.IsConjunct
  | [], h => by simp [conjunctLists] at h
  | operand :: rest, h => by
      rw [conjunctLists, List.mem_append] at h
      exact h.elim (isConjunct_of_mem_conjuncts operand) (isConjunct_of_mem_conjunctLists rest)

end

/-- The conjunction of conjuncts has just these. -/
theorem conjuncts_conjunction {parts : List Scalar} (h : ∀ part ∈ parts, part.IsConjunct) :
    (conjunction parts).conjuncts = parts := by
  have hflat : parts.flatMap contribution = parts := by
    rw [List.flatMap_congr fun part hpart => (h part hpart).2]
    exact List.flatMap_singleton' parts
  have hlists : ∀ operands : List Scalar, (∀ operand ∈ operands, operand.IsConjunct) →
      conjunctLists operands = operands := by
    intro operands hoperands
    induction operands with
    | nil => rfl
    | cons operand rest ih =>
        obtain ⟨hfirst, hrest⟩ := List.forall_mem_cons.mp hoperands
        rw [conjunctLists, hfirst.1, ih hrest]
        rfl
  rw [conjunction_eq, hflat]
  match parts, h with
  | [], _ => rfl
  | [single], h => exact (h single (by simp)).1
  | first :: second :: rest, h => exact hlists _ h

mutual

/-- Equal predicates have as many conjuncts. -/
theorem length_conjuncts_of_same : (left right : Scalar) → left.same right = true →
    left.conjuncts.length = right.conjuncts.length
  | .and left, .and right, h => by
      rw [conjuncts, conjuncts]
      exact length_conjunctLists_of_sameList left right (by simpa [same] using h)
  | .literal left, .literal right, h => by
      have hsame : left.same right = true := by simpa [same] using h
      cases left <;> cases right <;> first
        | exact absurd hsame Bool.false_ne_true
        | rfl
        | rw [beq_iff_eq.mp hsame]
  | .column _, .column _, _ | .compare _ _ _, .compare _ _ _, _ | .isNull _, .isNull _, _
  | .not _, .not _, _ | .or _, .or _, _ => rfl

theorem length_conjunctLists_of_sameList : (left right : List Scalar) →
    sameList left right = true → (conjunctLists left).length = (conjunctLists right).length
  | [], [], _ => rfl
  | left :: lefts, right :: rights, h => by
      simp only [sameList, Bool.and_eq_true] at h
      rw [conjunctLists, conjunctLists, List.length_append, List.length_append,
        length_conjuncts_of_same left right h.1, length_conjunctLists_of_sameList lefts rights h.2]

end

end Scalar

namespace Interpretation

variable {V : Type} {meaning : Interpretation V}

mutual

/-- Equal expressions have the same value. -/
theorem eval_eq_of_same (row : Row V) : (left right : Scalar) → left.same right = true →
    meaning.eval row left = meaning.eval row right
  | .column left, .column right, h => by
      have hcolumn : left = right := by simpa [Scalar.same] using h
      rw [hcolumn]
  | .literal left, .literal right, h => by
      rw [eval, eval, meaning.literal_same left right (by simpa [Scalar.same] using h)]
  | .compare _ left right, .compare _ left' right', h => by
      simp only [Scalar.same, Bool.and_eq_true, beq_iff_eq] at h
      rw [eval, eval, h.1.1, eval_eq_of_same row left left' h.1.2,
        eval_eq_of_same row right right' h.2]
  | .isNull left, .isNull right, h => by
      rw [eval, eval, eval_eq_of_same row left right (by simpa [Scalar.same] using h)]
  | .not left, .not right, h => by
      rw [eval, eval, eval_eq_of_same row left right (by simpa [Scalar.same] using h)]
  | .and left, .and right, h => by
      rw [eval, eval, truths_eq_of_sameList row left right (by simpa [Scalar.same] using h)]
  | .or left, .or right, h => by
      rw [eval, eval, truths_eq_of_sameList row left right (by simpa [Scalar.same] using h)]

theorem truths_eq_of_sameList (row : Row V) : (left right : List Scalar) →
    Scalar.sameList left right = true → meaning.truths row left = meaning.truths row right
  | [], [], _ => rfl
  | left :: lefts, right :: rights, h => by
      simp only [Scalar.sameList, Bool.and_eq_true] at h
      rw [truths, truths, eval_eq_of_same row left right h.1,
        truths_eq_of_sameList row lefts rights h.2]

end

mutual

/-- The value of an expression depends on the columns that it mentions. -/
theorem eval_congr {row row' : Row V} : (predicate : Scalar) →
    (∀ column ∈ predicate.columnList, row column = row' column) →
    meaning.eval row predicate = meaning.eval row' predicate
  | .column read, h => by rw [eval, eval, h read (by simp [Scalar.columnList])]
  | .literal _, _ => by rw [eval, eval]
  | .compare _ left right, h => by
      simp only [Scalar.columnList, List.mem_append] at h
      rw [eval, eval, eval_congr left fun column hcolumn => h column (.inl hcolumn),
        eval_congr right fun column hcolumn => h column (.inr hcolumn)]
  | .isNull operand, h => by rw [eval, eval, eval_congr operand h]
  | .not operand, h => by rw [eval, eval, eval_congr operand h]
  | .and operands, h => by rw [eval, eval, truths_congr operands h]
  | .or operands, h => by rw [eval, eval, truths_congr operands h]

theorem truths_congr {row row' : Row V} : (operands : List Scalar) →
    (∀ column ∈ Scalar.columnLists operands, row column = row' column) →
    meaning.truths row operands = meaning.truths row' operands
  | [], _ => rfl
  | operand :: rest, h => by
      simp only [Scalar.columnLists, List.mem_append] at h
      rw [truths, truths, eval_congr operand fun column hcolumn => h column (.inl hcolumn),
        truths_congr rest fun column hcolumn => h column (.inr hcolumn)]

end

/-- Whether a predicate keeps a row depends on the columns that it mentions. -/
theorem keeps_congr {predicate : Scalar} {row row' : Row V}
    (h : ∀ column ∈ predicate.columnList, row column = row' column) :
    meaning.keeps predicate row ↔ meaning.keeps predicate row' := by
  unfold keeps holds
  rw [eval_congr predicate h]

end Interpretation

end QueryPlanner
