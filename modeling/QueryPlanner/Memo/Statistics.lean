import QueryPlanner.Memo.Duplicates
import QueryPlanner.Operator.Estimation

/-!
# Statistics of groups

The statistics of a group are derived when they are asked for, column by column, from its most
promising logical alternative and the statistics of that alternative's children.
`Planning.resetStatistics` drops statistics that new logical alternatives made outdated.
-/

namespace QueryPlanner

/-- A logical alternative as a source of statistics. -/
structure StatisticsSource where
  expr : ExprId
  promise : StatisticsPromise
  isJoin : Bool
  /-- The conjuncts of the scalar children together. -/
  conjuncts : Nat

namespace StatisticsSource

/-- Whether a source is preferred to one found before: it promises more, or both are joins and it
has fewer conjuncts. -/
def beats (candidate current : StatisticsSource) : Bool :=
  decide (current.promise.rank < candidate.promise.rank) ||
    (candidate.promise == current.promise && candidate.isJoin && current.isJoin &&
      decide (candidate.conjuncts < current.conjuncts))

/-- The preferred one of several sources, the first among equals. -/
def best? (sources : List StatisticsSource) : Option StatisticsSource :=
  sources.foldl (fun best candidate =>
    match best with
    | none => some candidate
    | some current => if candidate.beats current then some candidate else best) none

end StatisticsSource

namespace Memo

/-- The conjuncts of the scalar groups among the children of an alternative, counted in 64 bits. -/
def conjunctsBelow (memo : Memo) (expr : MemoExpr) : Nat :=
  let counts := expr.children.filterMap fun child =>
    ((memo.group? (memo.master child)).bind (·.properties.scalar?)).map (·.conjuncts)
  counts.foldl (· + ·) 0 % Nat.pow 2 64

/-- An alternative as a source of statistics, if it is logical and promises anything. In a group
with outer references no promise is more than low. -/
def statisticsSource? (memo : Memo) (limited : Bool) (id : ExprId) : Option StatisticsSource := do
  let expr ← memo.expr? id
  let op ← expr.op.logical?
  if op.promise == .none then none
  else
    some
      { expr := id
        promise := if limited then StatisticsPromise.cap .low op.promise else op.promise
        isJoin := op.isJoin
        conjuncts := memo.conjunctsBelow expr }

/-- The most promising sources of statistics of a group, in the order of its alternatives. -/
def statisticsSources (memo : Memo) (group : Group) : List StatisticsSource :=
  group.alternatives.filterMap (memo.statisticsSource? !group.logical.outerReferences.isEmpty)

/-- The operator of the first alternative of a scalar group. -/
def scalarOperator? (memo : Memo) (group : Group) : Option Operator :=
  group.alternatives.head?.bind memo.op?

/-- Add newly derived statistics to those a group has. -/
def addStatistics (memo : Memo) (id : GroupId) (derived : Statistics) : Memo :=
  memo.modifyGroup id fun group =>
    { group with
      statistics := some ((group.statistics.map (·.append derived)).getD derived) }

/-- Forget the statistics of a group and all that was computed from them. -/
def forgetStatistics (memo : Memo) (id : GroupId) : Memo :=
  let cleared := memo.modifyGroup id fun group =>
    { group with
      statistics := none
      gainedLogical := false
      contextStatistics := []
      lowerBounds := [] }
  (cleared.alternativesOf id).foldl
    (fun memo expr => memo.modifyExpr expr fun found => { found with bounds := [] }) cleared

end Memo

namespace Planning

/-- The statistics of a scalar group, which are empty. -/
def scalarStatistics (id : GroupId) (group : Group) : Planning Statistics := do
  match group.statistics with
  | some found => return found
  | none =>
    modify (·.modifyGroup id fun group => { group with statistics := some .empty })
    return .empty

/-- The preferred source of statistics of a group. The scalar children of all sources are looked up
on the way. -/
def statisticsSource (id : GroupId) (group : Group) (required : ColumnSet) :
    Planning StatisticsSource := do
  let sources := (← get).statisticsSources group
  modify fun memo => memo.compressAll
    (sources.flatMap fun source => ((memo.expr? source.expr).map (·.children)).getD [])
  match StatisticsSource.best? sources with
  | some source => return source
  | none => throw (.noPlan id (.statistics required) .noStatisticsSource)

/-- Statistics of a group that cover the required columns, as far as the group has them. The
recursion through children is as deep as the number says. -/
def deriveUpTo (aborted : Bool) : Nat → GroupId → ColumnSet → Planning Statistics
  | 0, _, _ => throw .outOfFuel
  | fuel + 1, id, wanted => do
    checkAbort aborted
    let id ← resolve id
    let found ← group id
    match found.properties with
    | .scalar _ => scalarStatistics id found
    | .relation logical =>
      let required := wanted.inter logical.output
      match found.statistics.filter (·.covers required) with
      | some existing => return existing
      | none =>
        let source ← statisticsSource id found required
        let expr ← expr source.expr
        match expr.op with
        | .logical op =>
          let children ← resolveAll expr.children
          let below ← children.mapM group
          let properties := below.map (·.properties)
          let statistics ← (children.zip below).zipIdx.mapM fun ((child, group), position) =>
            if group.isScalar then pure none
            else some <$> deriveUpTo aborted fuel child
              (op.childStatisticsColumns required position properties)
          let memo ← get
          let scalars := below.map fun group =>
            if group.isScalar then memo.scalarOperator? group else none
          match op.statistics { required, children := statistics, properties, scalars } with
          | .error fault => throw (.invalidInsertion fault)
          | .ok derived =>
            modify (·.addStatistics id derived)
            return ((← group id).statistics).getD derived
        | _ => throw (.noPlan id (.statistics required) .noStatisticsSource)

/-- Statistics of a group that cover the required columns, as far as the group has them. -/
def deriveStatistics (aborted : Bool) (id : GroupId) (required : ColumnSet) :
    Planning Statistics := do
  deriveUpTo aborted (← get).depthLimit id required

/-- The statistics that costings in a context work with. -/
def contextStatistics (aborted : Bool) (id : ContextId) : Planning Statistics := do
  let context ← context id
  let owner ← resolve context.group
  match (← group owner).contextStatistics.lookup id with
  | some found => return found
  | none =>
    let derived ← deriveStatistics aborted owner context.required.columns
    modify (·.modifyGroup owner fun group =>
      { group with contextStatistics := (id, derived) :: group.contextStatistics })
    return derived

/-- Groups that were visited, with whether their statistics were reset. -/
abbrev Visited := List (GroupId × Bool)

/-- Reset the statistics of a group and of the groups below it when one of them gained a logical
alternative. Answers the visited groups and whether the group itself was reset. -/
def resetUpTo : Nat → Visited → GroupId → Planning (Visited × Bool)
  | 0, _, _ => throw .outOfFuel
  | fuel + 1, visited, id => do
    let id ← resolve id
    match visited.lookup id with
    | some done => return (visited, done)
    | none =>
      let memo ← get
      let below := (memo.alternativesOf id).flatMap fun alternative =>
        match memo.expr? alternative with
        | some expr => if expr.op.isLogical then expr.children else []
        | none => []
      let (visited, childReset) ← below.foldlM (fun (visited, reset) child => do
        let (visited, done) ← resetUpTo fuel visited child
        return (visited, reset || done)) ((id, false) :: visited, false)
      let reset := (← group id).gainedLogical || childReset
      if reset then modify (·.forgetStatistics id)
      return ((id, reset) :: visited, reset)

/-- Reset the statistics of all groups below the root that gained a logical alternative, and of the
groups above them. -/
def resetStatistics : Planning Unit := do
  match ← root with
  | none => return ()
  | some root =>
    let _ ← resetUpTo ((← get).groups.size + 1) [] root
    return ()

end Planning

end QueryPlanner
