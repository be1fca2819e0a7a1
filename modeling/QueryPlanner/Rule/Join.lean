import QueryPlanner.Rule.Basic

/-!
# Transformations of joins

Inner joins commute and associate, and a selection above a join moves into and below it. Predicates
move by conjuncts, each to a join that has all the columns it reads.
-/

namespace QueryPlanner

namespace Rule

/-- An inner join whose predicate is expanded. -/
def joinPattern : Pattern := .node (.kind "InnerJoin") [.leaf, .leaf, .tree]

/-- `A ⋈ B` as `B ⋈ A`, under the same predicate. -/
def joinCommutativity : Rule where
  name := "JoinCommutativity"
  kind := .transformation
  pattern := .overLeaves "InnerJoin" 3
  apply _ bound :=
    match bound.childGroups with
    | [outer, inner, predicate] => [.over (.logical .innerJoin) [inner, outer, predicate]]
    | _ => []

/-- Whether a conjunct connects two sets of columns: it reads from both and nothing else. -/
def connects (left right : ColumnSet) (conjunct : Scalar) : Bool :=
  let read := conjunct.columns
  read.subset (left.union right) && !(read.inter left).isEmpty && !(read.inter right).isEmpty

/-- `(stay ⋈ moved) ⋈ last` as `stay ⋈ (moved ⋈ last)`. The conjuncts of the upper predicate that
connect `moved` and `last` go to the new lower join, all others to the new upper one. Without such
a conjunct nothing is done, because the new lower join would be a cross product. -/
def reassociate? (memo : Memo) (upper lower : Scalar) (stay moved last : GroupId) :
    Option RuleResult :=
  let (inner, rest) := upper.conjuncts.partition
    (connects (memo.logical moved).output (memo.logical last).output)
  if inner.isEmpty then none
  else
    some
      { op := .logical .innerJoin
        children :=
          [.group stay,
            .new (.logical .innerJoin)
              [.group moved, .group last, .predicate (Scalar.conjunction inner)],
            .predicate (Scalar.conjunction (lower.conjuncts ++ rest))] }

/-- `(A ⋈ B) ⋈ C` as `A ⋈ (B ⋈ C)` and as `B ⋈ (A ⋈ C)`. -/
def joinAssociativity : Rule where
  name := "JoinAssociativity"
  kind := .transformation
  pattern := .node (.kind "InnerJoin") [joinPattern, .leaf, .tree]
  apply memo bound :=
    match bound.children with
    | lower :: upperRight :: _ =>
      match lower.childGroups with
      | first :: second :: _ =>
        let reassociated := reassociate? memo (bound.predicate 2) (lower.predicate 2)
        (reassociated first second upperRight.group).toList ++
          (reassociated second first upperRight.group).toList
      | _ => []
    | _ => []

/-- The conjuncts of a selection above a join, by where they can be evaluated. -/
structure SplitConjuncts where
  /-- Conjuncts that read from the outer side only. -/
  outer : List Scalar
  /-- Other conjuncts that read from the inner side only. -/
  inner : List Scalar
  /-- All others. -/
  join : List Scalar

/-- Split the conjuncts of a selection above a join. -/
def splitConjuncts (predicate : Scalar) (outer inner : ColumnSet) : SplitConjuncts :=
  let (outerOnly, others) := predicate.conjuncts.partition fun conjunct =>
    conjunct.columns.subset outer
  let (innerOnly, join) := others.partition fun conjunct => conjunct.columns.subset inner
  ⟨outerOnly, innerOnly, join⟩

/-- A group with a selection above it, or the group itself when there is nothing to select. -/
def selected (group : GroupId) (conjuncts : List Scalar) : RuleChild :=
  if conjuncts.isEmpty then .group group
  else .new (.logical .select) [.group group, .predicate (Scalar.conjunction conjuncts)]

/-- `σ(A ⋈ B)` as a join of selections: every conjunct goes as far down as its columns allow. -/
def predicatePushdown : Rule where
  name := "PredicatePushdown"
  kind := .transformation
  pattern := .node (.kind "Select") [joinPattern, .tree]
  apply memo bound :=
    match bound.children with
    | join :: _ =>
      match join.childGroups with
      | outer :: inner :: _ =>
        let split := splitConjuncts (bound.predicate 1) (memo.logical outer).output
          (memo.logical inner).output
        [{ op := .logical .innerJoin
           children :=
            [selected outer split.outer, selected inner split.inner,
              .predicate (Scalar.conjunction ((join.predicate 2).conjuncts ++ split.join))] }]
      | _ => []
    | _ => []

end Rule

end QueryPlanner
