import QueryPlanner.Operator.Basic

/-!
# Statistics of logical operators

A logical operator estimates the statistics of its output from those of its relational children and
from the predicates of its scalar children.
-/

namespace QueryPlanner

/-- What a logical operator estimates its output from. -/
structure StatisticsInput where
  /-- The columns whose statistics are asked for. -/
  required : ColumnSet
  /-- The statistics of the children, none for scalars. -/
  children : List (Option Statistics)
  properties : List GroupProperties
  /-- The operators of the scalar children. -/
  scalars : List (Option Operator)

namespace StatisticsInput

/-- The rows of a child, none for a scalar. -/
def childRows (input : StatisticsInput) (child : Nat) : Float :=
  (((input.children[child]?).bind id).map (·.rows)).getD 0.0

/-- The statistics of a child, empty ones when it has none. -/
def childStatistics (input : StatisticsInput) (child : Nat) : Statistics :=
  ((input.children[child]?).bind id).getD .empty

/-- The predicate of a scalar child; one that always holds when there is none. -/
def childPredicate (input : StatisticsInput) (child : Nat) : Scalar :=
  (((input.scalars[child]?).bind id).bind (·.predicate?)).getD .always

/-- The output columns of a relational child. -/
def childOutput? (input : StatisticsInput) (child : Nat) : Option ColumnSet :=
  ((input.properties[child]?).bind (·.relation?)).map (·.output)

end StatisticsInput

/-- Whether a conjunct is one of the comparisons that a join estimate already accounts for: it
mentions exactly two columns, and they are one of the pairs. -/
def isKeyConjunct (keys : List (Column × Column)) (conjunct : Scalar) : Bool :=
  match conjunct with
  | .compare _ _ _ =>
    let mentioned := conjunct.columns
    mentioned.size == 2 &&
      keys.any fun key => mentioned.contains key.1 && mentioned.contains key.2
  | _ => false

/-- The conjuncts of a join predicate that remain to be applied after the equality join. -/
def residualConjuncts (predicate : Scalar) (keys : List (Column × Column)) : List Scalar :=
  predicate.conjuncts.filter fun conjunct => !isKeyConjunct keys conjunct

/-- The column pairs that a join predicate equates across its two inputs. -/
def StatisticsInput.joinKeys (input : StatisticsInput) : List (Column × Column) :=
  match input.childOutput? 0, input.childOutput? 1 with
  | some outer, some inner => (input.childPredicate 2).joinKeys outer inner
  | _, _ => []

namespace LogicalOperator

/-- The columns whose statistics a child has to provide. -/
def childStatisticsColumns (op : LogicalOperator) (required : ColumnSet) (child : Nat)
    (children : List GroupProperties) : ColumnSet :=
  match op with
  | .groupBy grouping _ =>
    let available := (relationAt children child).output
    KeyedSet.ofList (grouping.filter available.contains)
  | _ =>
    match (children[child]?).bind (·.relation?) with
    | none => .empty
    | some relation =>
      ((children.filterMap (·.scalar?)).foldl (fun found scalar => found.union scalar.used)
        required).inter relation.output

/-- The statistics of the output. -/
def statistics (op : LogicalOperator) (input : StatisticsInput) :
    Except InsertionFault Statistics :=
  match op with
  | .get access =>
    .ok (access.table.statistics (input.required.inter (.ofList access.columns)))
  | .select =>
    let child := input.childStatistics 0
    .ok (child.filtered ((input.childPredicate 1).selectivity child))
  | .innerJoin =>
    let keys := input.joinKeys
    let joined := (input.childStatistics 0).joined (input.childStatistics 1) keys
    match residualConjuncts (input.childPredicate 2) keys with
    | [] => .ok joined
    | residual => .ok (joined.filtered ((Scalar.conjunction residual).selectivity joined))
  | .groupBy grouping aggregates =>
    let grouped := (input.childStatistics 0).aggregated grouping
    .ok ((aggregates.filter input.required.contains).foldl (fun stats column =>
      stats.withColumn column { distinct := grouped.rows, width := Statistics.defaultWidth })
      grouped)
  | .custom data =>
    if data.refusesStatistics then
      .error (.statisticsRefused CustomLogical.kind data.tag)
    else
      let rows := (List.range input.children.length).foldl
        (fun found child => found + input.childRows child) data.rows
      .ok (input.required.toList.foldl (fun stats column =>
        stats.withColumn column { distinct := rows / 2.0, width := 4.0 }) { rows })

end LogicalOperator

end QueryPlanner
