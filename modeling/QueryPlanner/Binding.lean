import QueryPlanner.Memo.Duplicates
import QueryPlanner.Pattern

/-!
# Trees that match a pattern

A pattern is bound to an alternative by choosing, for every group that the pattern expands, one of
its alternatives. A `Cursor` holds one such choice. `Memo.firstTree` finds the first one and
`Memo.advance` the next: the last child changes fastest, and a child that has run through all its
alternatives starts again when one before it moves on. `Memo.treesFrom` lists the bound trees, and
`Memo.lookups` the groups that are looked up on the way.
-/

namespace QueryPlanner

/-- An expression tree bound to a pattern. -/
inductive BoundExpr where
  /-- A group that was not expanded. -/
  | leaf (group : GroupId)
  | node (expr : ExprId) (group : GroupId) (op : Operator) (children : List BoundExpr)

namespace BoundExpr

/-- The group of the tree. -/
def group : BoundExpr → GroupId
  | .leaf group => group
  | .node _ group _ _ => group

/-- The operator on top, if it was expanded. -/
def op? : BoundExpr → Option Operator
  | .leaf _ => none
  | .node _ _ op _ => some op

/-- The children, none of a group that was not expanded. -/
def children : BoundExpr → List BoundExpr
  | .leaf _ => []
  | .node _ _ _ children => children

/-- The groups of the children. -/
def childGroups (bound : BoundExpr) : List GroupId := bound.children.map group

/-- The child at a position. -/
def child? (bound : BoundExpr) (position : Nat) : Option BoundExpr := bound.children[position]?

/-- The group of the child at a position. -/
def childGroup? (bound : BoundExpr) (position : Nat) : Option GroupId :=
  (bound.child? position).map group

end BoundExpr

/-- One choice of alternatives for all groups that a pattern expands. -/
inductive Cursor where
  /-- A group that is not expanded. -/
  | leaf (group : GroupId)
  | tree (expr : ExprId) (group : GroupId) (op : Operator) (children : List Cursor)
  /-- The choice among all alternatives of an expanded group: the ones still to come, and the tree
  of the present one. -/
  | choice (pattern : Pattern) (all remaining : List ExprId) (present : Cursor)

namespace Cursor

mutual

/-- The tree that a choice stands for. -/
def current : Cursor → BoundExpr
  | .leaf group => .leaf group
  | .tree expr group op children => .node expr group op (currentAll children)
  | .choice _ _ _ present => present.current

/-- The trees that several choices stand for. -/
def currentAll : List Cursor → List BoundExpr
  | [] => []
  | cursor :: rest => cursor.current :: currentAll rest

end

/-- The choice of the first of the remaining alternatives that can be bound. -/
def choose (bind : ExprId → Option Cursor) (pattern : Pattern) (all : List ExprId) :
    List ExprId → Option Cursor
  | [] => none
  | id :: rest =>
    match bind id with
    | some present => some (.choice pattern all rest present)
    | none => choose bind pattern all rest

end Cursor

namespace Memo

/-- The first tree at an alternative, looking at most the given number of levels deep. -/
def firstTreeUpTo (memo : Memo) : Nat → Pattern → ExprId → Option Cursor
  | 0, _, _ => none
  | fuel + 1, pattern, id => do
    let expr ← memo.expr? id
    if pattern.admits expr.op expr.arity then
      let children ← expr.children.zipIdx.mapM fun (child, position) => do
        let below ← pattern.child? position
        let group := memo.master child
        if below.isLeaf then some (.leaf group)
        else
          let all := memo.alternativesOf group
          Cursor.choose (memo.firstTreeUpTo fuel below) below all all
      some (.tree id (memo.master expr.group) expr.op children)
    else none

/-- A bound on the levels of a first tree. Below the pattern no group is met twice: it would start
with the same alternative again, and so on for ever. -/
def treeDepth (memo : Memo) (pattern : Pattern) : Nat := memo.groups.size + pattern.height

/-- The first tree at an alternative. -/
def firstTree (memo : Memo) (pattern : Pattern) (id : ExprId) : Option Cursor :=
  memo.firstTreeUpTo (memo.treeDepth pattern) pattern id

/-- The first tree at one of several alternatives. -/
def firstChoice (memo : Memo) (pattern : Pattern) (all : List ExprId) : Option Cursor :=
  Cursor.choose (memo.firstTree pattern) pattern all all

/-- Go back to the first alternative of an expanded group. -/
def restart (memo : Memo) : Cursor → Cursor
  | .choice pattern all remaining present =>
    (memo.firstChoice pattern all).getD (.choice pattern all remaining present)
  | cursor => cursor

mutual

/-- The next choice after a given one. -/
def advance (memo : Memo) : Cursor → Option Cursor
  | .leaf _ => none
  | .tree expr group op children => (memo.advanceLast children).map (.tree expr group op)
  | .choice pattern all remaining present =>
    match memo.advance present with
    | some next => some (.choice pattern all remaining next)
    | none => Cursor.choose (memo.firstTree pattern) pattern all remaining

/-- Advance the last child that can be advanced, and start again with those after it. -/
def advanceLast (memo : Memo) : List Cursor → Option (List Cursor)
  | [] => none
  | cursor :: rest =>
    match memo.advanceLast rest with
    | some next => some (cursor :: next)
    | none => (memo.advance cursor).map (· :: rest.map memo.restart)

end

/-- The trees from a choice on, at most the given number. -/
def treesFrom (memo : Memo) : Nat → Option Cursor → List BoundExpr
  | 0, _ => []
  | _, none => []
  | limit + 1, some cursor => cursor.current :: memo.treesFrom limit (memo.advance cursor)

/-- The number of trees at an alternative, looking at most the given number of levels deep. -/
def countTreesUpTo (memo : Memo) : Nat → Pattern → ExprId → Nat
  | 0, _, _ => 0
  | fuel + 1, pattern, id =>
    match memo.expr? id, memo.firstTreeUpTo (fuel + 1) pattern id with
    | some expr, some _ =>
      (expr.children.zipIdx.map fun (child, position) =>
        match pattern.child? position with
        | none => 0
        | some below =>
          if below.isLeaf then 1
          else ((memo.alternativesOf (memo.master child)).map
            (memo.countTreesUpTo fuel below)).foldl (· + ·) 0).foldl (· * ·) 1
    | _, _ => 0

/-- The number of trees at several alternatives. -/
def countTrees (memo : Memo) (pattern : Pattern) (all : List ExprId) : Nat :=
  (all.map (memo.countTreesUpTo (memo.treeDepth pattern) pattern)).foldl (· + ·) 0

/-- The trees at one of several alternatives, at most the given number. -/
def treesAmong (memo : Memo) (pattern : Pattern) (all : List ExprId) (limit : Nat) :
    List BoundExpr :=
  memo.treesFrom limit (memo.firstChoice pattern all)

/-! ## Groups looked up

Looking a group up shortens the links to its master, so it matters which groups are reached before
the listing of trees ends. -/

/-- Whether a child of an alternative can be bound, looking at most the given number of levels below
it. -/
def canBindChild (memo : Memo) (fuel : Nat) (pattern : Pattern) (child : GroupId × Nat) : Bool :=
  match pattern.child? child.2 with
  | none => false
  | some below =>
    below.isLeaf || (memo.alternativesOf (memo.master child.1)).any fun id =>
      (memo.firstTreeUpTo fuel below id).isSome

/-- The alternatives that are tried until one can be bound. -/
def triedUpTo (memo : Memo) (fuel : Nat) (pattern : Pattern) (all : List ExprId) : List ExprId :=
  all.take (all.findIdx (fun id => (memo.firstTreeUpTo fuel pattern id).isSome) + 1)

/-- The groups that are looked up while the first tree at an alternative is found: the children up
to one that cannot be bound, whatever is looked up below them, and the owner of a tree that was
found. -/
def firstLookupsUpTo (memo : Memo) : Nat → Pattern → ExprId → List GroupId
  | 0, _, _ => []
  | fuel + 1, pattern, id =>
    match memo.expr? id with
    | none => []
    | some expr =>
      if pattern.admits expr.op expr.arity then
        let children := expr.children.zipIdx
        let opened := children.take (children.findIdx (!memo.canBindChild fuel pattern ·) + 1)
        let below := opened.flatMap fun (child, position) =>
          child :: match pattern.child? position with
            | none => []
            | some expanded =>
              if expanded.isLeaf then []
              else (memo.triedUpTo fuel expanded (memo.alternativesOf (memo.master child))).flatMap
                (memo.firstLookupsUpTo fuel expanded)
        if children.all (memo.canBindChild fuel pattern) then below ++ [expr.group] else below
      else []

/-- The groups that are looked up while the first tree at one of several alternatives is found. -/
def choiceLookups (memo : Memo) (pattern : Pattern) (all : List ExprId) : List GroupId :=
  let depth := memo.treeDepth pattern
  (memo.triedUpTo depth pattern all).flatMap (memo.firstLookupsUpTo depth pattern)

mutual

/-- The groups that are looked up for the next choice. A child that starts again looks up nothing
that it did not look up before. -/
def nextLookups (memo : Memo) : Cursor → List GroupId
  | .leaf _ => []
  | .tree _ _ _ children => memo.nextLookupsAmong children
  | .choice pattern _ remaining present =>
    memo.nextLookups present ++
      if (memo.advance present).isSome then [] else memo.choiceLookups pattern remaining

/-- The groups that are looked up to advance the last child that can be advanced. -/
def nextLookupsAmong (memo : Memo) : List Cursor → List GroupId
  | [] => []
  | cursor :: rest =>
    memo.nextLookupsAmong rest ++
      if (memo.advanceLast rest).isSome then [] else memo.nextLookups cursor

end

/-- The groups that are looked up in the given number of steps from a choice on. -/
def lookupsFrom (memo : Memo) : Nat → Option Cursor → List GroupId
  | 0, _ => []
  | _, none => []
  | steps + 1, some cursor =>
    memo.nextLookups cursor ++ memo.lookupsFrom steps (memo.advance cursor)

/-- The groups that are looked up while the trees at several alternatives are listed. No step is
taken after the last tree that is asked for. -/
def lookups (memo : Memo) (pattern : Pattern) (all : List ExprId) (limit : Nat) : List GroupId :=
  memo.choiceLookups pattern all ++ memo.lookupsFrom (limit - 1) (memo.firstChoice pattern all)

end Memo

namespace Planning

/-- The trees at one of several alternatives, at most the given number if there is a limit. The
memo changes only after all of them are listed. -/
def bindAmong (pattern : Pattern) (all : List ExprId) (limit : Option Nat) :
    Planning (List BoundExpr) := do
  let memo ← get
  let limit := limit.getD (memo.countTrees pattern all + 1)
  set (memo.compressAll (memo.lookups pattern all limit))
  return memo.treesAmong pattern all limit

/-- The trees at an alternative. -/
def bindExpr (pattern : Pattern) (id : ExprId) (limit : Option Nat) :
    Planning (List BoundExpr) := do
  let _ ← expr id
  bindAmong pattern [id] limit

/-- The trees at the alternatives of a group. -/
def bindGroup (pattern : Pattern) (id : GroupId) (limit : Option Nat) :
    Planning (List BoundExpr) := do
  let found ← group (← resolve id)
  bindAmong pattern found.alternatives limit

end Planning

end QueryPlanner
