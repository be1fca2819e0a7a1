import QueryPlanner.Property.Group
import QueryPlanner.Statistics

/-!
# Scalar expressions

Predicates are trees of comparisons and connectives over columns and literals. A predicate is seen
as the list of its conjuncts: `conjuncts` and `conjunction` go between the two. Joins use the
column pairs that conjuncts equate, and statistics use an estimate of the fraction of rows a
predicate keeps.
-/

namespace QueryPlanner

/-- A constant value. -/
inductive Literal where
  | null
  | bool (value : Bool)
  | integer (value : Int)
  | real (value : Float)
  | text (value : String)
  /-- A day, counted from the first of January 1970. -/
  | date (day : Int)

namespace Literal

/-- Equality of literals. Reals are compared by value, and one that is not a number equals
itself. -/
def same : Literal → Literal → Bool
  | .null, .null => true
  | .bool left, .bool right => left == right
  | .integer left, .integer right => left == right
  | .real left, .real right => Estimate.sameLiteral left right
  | .text left, .text right => left == right
  | .date left, .date right => left == right
  | _, _ => false

/-- The text of a literal. -/
def render : Literal → String
  | .null => "NULL"
  | .bool true => "true"
  | .bool false => "false"
  | .integer value => toString value
  | .real value => Decimal.shortestText value
  | .text value => "'" ++ value ++ "'"
  | .date day => "date(" ++ toString day ++ ")"

end Literal

/-- The ways to compare two values. -/
inductive Comparison where
  | equal
  | notEqual
  | less
  | lessOrEqual
  | greater
  | greaterOrEqual
  deriving DecidableEq, Repr, Inhabited

namespace Comparison

/-- The comparison with its operands exchanged. -/
def commuted : Comparison → Comparison
  | .less => .greater
  | .lessOrEqual => .greaterOrEqual
  | .greater => .less
  | .greaterOrEqual => .lessOrEqual
  | other => other

/-- The sign of a comparison. -/
def symbol : Comparison → String
  | .equal => "="
  | .notEqual => "<>"
  | .less => "<"
  | .lessOrEqual => "<="
  | .greater => ">"
  | .greaterOrEqual => ">="

end Comparison

/-- A scalar expression. -/
inductive Scalar where
  | column (column : Column)
  | literal (value : Literal)
  | compare (comparison : Comparison) (left right : Scalar)
  | isNull (operand : Scalar)
  | not (operand : Scalar)
  | and (operands : List Scalar)
  | or (operands : List Scalar)
  deriving Inhabited

namespace Scalar

/-- The predicate that always holds. -/
def always : Scalar := .literal (.bool true)

/-- Whether a predicate is the literal that always holds. -/
def isAlways : Scalar → Bool
  | .literal (.bool true) => true
  | _ => false

mutual

/-- Equality of expressions. -/
def same : Scalar → Scalar → Bool
  | .column left, .column right => left == right
  | .literal left, .literal right => left.same right
  | .compare comparison left right, .compare otherComparison otherLeft otherRight =>
    comparison == otherComparison && left.same otherLeft && right.same otherRight
  | .isNull left, .isNull right => left.same right
  | .not left, .not right => left.same right
  | .and left, .and right => sameList left right
  | .or left, .or right => sameList left right
  | _, _ => false

/-- Equality of lists of expressions, position by position. -/
def sameList : List Scalar → List Scalar → Bool
  | [], [] => true
  | left :: lefts, right :: rights => left.same right && sameList lefts rights
  | _, _ => false

end

mutual

/-- The columns an expression mentions, from left to right with repeats. -/
def columnList : Scalar → List Column
  | .column read => [read]
  | .literal _ => []
  | .compare _ left right => left.columnList ++ right.columnList
  | .isNull operand => operand.columnList
  | .not operand => operand.columnList
  | .and operands => columnLists operands
  | .or operands => columnLists operands

/-- The columns a list of expressions mentions. -/
def columnLists : List Scalar → List Column
  | [] => []
  | operand :: rest => operand.columnList ++ columnLists rest

end

/-- The set of columns an expression mentions. -/
def columns (expr : Scalar) : ColumnSet := .ofList expr.columnList

mutual

/-- The conjuncts of a predicate, through nested conjunctions. A predicate that always holds has
none. -/
def conjuncts : Scalar → List Scalar
  | .and operands => conjunctLists operands
  | .literal (.bool true) => []
  | other => [other]

/-- The conjuncts of a list of predicates. -/
def conjunctLists : List Scalar → List Scalar
  | [] => []
  | operand :: rest => operand.conjuncts ++ conjunctLists rest

end

/-- The conjunction of a list of predicates. Conjunctions in the list are merged, predicates that
always hold are dropped, and a single one stands for itself. -/
def conjunction (parts : List Scalar) : Scalar :=
  let flat := parts.flatMap fun part =>
    match part with
    | .and operands => operands
    | other => if other.isAlways then [] else [other]
  match flat with
  | [] => always
  | [single] => single
  | several => .and several

/-- The columns that a conjunct equates, when one is of the outer and one of the inner side: first
the outer, then the inner one. -/
def joinKey? (outer inner : ColumnSet) : Scalar → Option (Column × Column)
  | .compare .equal (.column left) (.column right) =>
    if outer.contains left && inner.contains right then some (left, right)
    else if inner.contains left && outer.contains right then some (right, left)
    else none
  | _ => none

/-- The pairs of an outer and an inner column that the conjuncts equate. -/
def joinKeys (predicate : Scalar) (outer inner : ColumnSet) : List (Column × Column) :=
  predicate.conjuncts.filterMap (joinKey? outer inner)

mutual

/-- The same predicate with the operands of its comparisons exchanged. -/
def commuted : Scalar → Scalar
  | .compare comparison left right => .compare comparison.commuted right left
  | .and operands => .and (commutedList operands)
  | other => other

/-- Every predicate of a list with exchanged operands. -/
def commutedList : List Scalar → List Scalar
  | [] => []
  | operand :: rest => operand.commuted :: commutedList rest

end

/-- The fraction of rows that a range comparison keeps. -/
def rangeSelectivity : Float := 1.0 / 3.0

/-- The fraction of rows that a comparison keeps. -/
def comparisonSelectivity (stats : Statistics) : Comparison → Scalar → Scalar → Float
  | .equal, .column left, .column right =>
    1.0 / Estimate.larger (Estimate.larger (stats.distinct left) (stats.distinct right)) 1.0
  | .equal, .column read, .literal _ => stats.equalitySelectivity read
  | .equal, .literal _, .column read => stats.equalitySelectivity read
  | .notEqual, .column read, .literal _ => 1.0 - stats.equalitySelectivity read
  | .less, _, _ | .lessOrEqual, _, _ | .greater, _, _ | .greaterOrEqual, _, _ => rangeSelectivity
  | _, _, _ => Statistics.defaultSelectivity

mutual

/-- The fraction of rows that a conjunct keeps. A disjunction fails when all its operands fail
independently. -/
def conjunctSelectivity (stats : Statistics) : Scalar → Float
  | .compare comparison left right => comparisonSelectivity stats comparison left right
  | .or operands => 1.0 - failureSelectivity stats 1.0 operands
  | .literal (.bool false) => 0.0
  | _ => Statistics.defaultSelectivity

/-- The fraction of rows that none of the operands keeps, multiplied onto `found`. -/
def failureSelectivity (stats : Statistics) (found : Float) : List Scalar → Float
  | [] => found
  | operand :: rest =>
    failureSelectivity stats (found * (1.0 - conjunctSelectivity stats operand)) rest

end

/-- The fraction of rows that a predicate keeps, its conjuncts being independent. -/
def selectivity (predicate : Scalar) (stats : Statistics) : Float :=
  Estimate.product (predicate.conjuncts.map (conjunctSelectivity stats))

mutual

/-- The text of an expression. -/
def render : Scalar → String
  | .column read => read.text
  | .literal value => value.render
  | .compare comparison left right =>
    left.render ++ " " ++ comparison.symbol ++ " " ++ right.render
  | .isNull operand => operand.render ++ " IS NULL"
  | .not operand => "NOT " ++ operand.render
  | .and operands => "(" ++ " AND ".intercalate (renderList operands) ++ ")"
  | .or operands => "(" ++ " OR ".intercalate (renderList operands) ++ ")"

/-- The texts of a list of expressions. -/
def renderList : List Scalar → List String
  | [] => []
  | operand :: rest => operand.render :: renderList rest

end

/-- The logical properties of a predicate: the columns it reads and the number of its conjuncts. -/
def properties (predicate : Scalar) : ScalarProperties :=
  { used := predicate.columns, conjuncts := predicate.conjuncts.length }

end Scalar

end QueryPlanner
