import QueryPlanner.Operator.Basic

/-!
# Patterns

A rule names the expression trees it applies to by a `Pattern`. A pattern says what the operator on
top must be and, position by position, what the children must look like.
-/

namespace QueryPlanner

/-- What is asked of the operator at one node of a pattern. -/
inductive OperatorTest where
  /-- The operator is of this kind. -/
  | kind (name : String)
  | anyLogical
  | anyPhysical
  | anyScalar
  deriving DecidableEq, Repr

/-- Whether an operator passes a test. -/
def OperatorTest.accepts (test : OperatorTest) (op : Operator) : Bool :=
  match test with
  | .kind name => op.kind == name
  | .anyLogical => op.isLogical
  | .anyPhysical => op.isPhysical
  | .anyScalar => op.isScalar

/-- The shape of expression trees. -/
inductive Pattern where
  /-- An operator over children that match pattern by pattern. -/
  | node (test : OperatorTest) (children : List Pattern)
  /-- A child group as a whole. -/
  | leaf
  /-- As the last child: every remaining child group as a whole. -/
  | leaves
  /-- A whole subtree of operators that are not physical. -/
  | tree
  /-- As the last child: every remaining child as a whole subtree. -/
  | trees

namespace Pattern

/-- An operator of a kind over a number of child groups. -/
def overLeaves (kind : String) (count : Nat) : Pattern :=
  .node (.kind kind) (List.replicate count .leaf)

/-- An operator of a kind over any number of child groups. -/
def overAnyLeaves (kind : String) : Pattern := .node (.kind kind) [.leaves]

/-- Whether the pattern takes a group as a whole. -/
def isLeaf : Pattern → Bool
  | .leaf | .leaves => true
  | _ => false

/-- Whether the pattern stands for all remaining children. -/
def isRepeated : Pattern → Bool
  | .leaves | .trees => true
  | _ => false

/-- The pattern for the child at a position. A repeated last pattern goes on for ever. -/
def child? (pattern : Pattern) (position : Nat) : Option Pattern :=
  match pattern with
  | .node _ children =>
    match children[position]? with
    | some child => some child
    | none => children.getLast?.filter isRepeated
  | .tree | .trees => some .tree
  | .leaf | .leaves => none

/-- Whether an operator with a number of children may stand on top. -/
def admits (pattern : Pattern) (op : Operator) (arity : Nat) : Bool :=
  match pattern with
  | .node test children =>
    test.accepts op &&
      (if (children.getLast?.map isRepeated).getD false then decide (children.length ≤ arity + 1)
       else arity == children.length)
  | .tree | .trees => !op.isPhysical
  | .leaf | .leaves => true

mutual

/-- The number of nodes on the longest path through the pattern. -/
def height : Pattern → Nat
  | .node _ children => 1 + heights children
  | _ => 1

/-- The height of the highest of several patterns. -/
def heights : List Pattern → Nat
  | [] => 0
  | pattern :: rest => max pattern.height (heights rest)

end

end Pattern

end QueryPlanner
