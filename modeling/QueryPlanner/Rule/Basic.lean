import QueryPlanner.Binding
import QueryPlanner.Memo.Insert

/-!
# Rules

A rule turns a tree that matches its pattern into new alternatives of the tree's group.
Transformation rules produce logical alternatives, implementation rules physical ones. A result may
contain new expressions as children; `Planning.insertResult` puts these into groups of their own,
innermost first.
-/

namespace QueryPlanner

/-- What a rule is for. -/
inductive RuleKind where
  /-- From logical to logical alternatives. -/
  | transformation
  /-- From logical to physical alternatives. -/
  | implementation
  deriving DecidableEq, Repr

/-- A child of a new alternative. -/
inductive RuleChild where
  | group (id : GroupId)
  /-- A new expression. -/
  | new (op : Operator) (children : List RuleChild)

/-- A new alternative for the group a rule was applied to. -/
structure RuleResult where
  op : Operator
  children : List RuleChild

/-- A new alternative over groups. -/
def RuleResult.over (op : Operator) (children : List GroupId) : RuleResult :=
  ⟨op, children.map .group⟩

/-- A rule. Two rules of one name count as the same when it is recorded what was applied. -/
structure Rule where
  name : String
  kind : RuleKind
  pattern : Pattern
  /-- The new alternatives for a tree that matches the pattern. -/
  apply : Memo → BoundExpr → List RuleResult

/-- The predicate bound as a child; one that always holds when the child is no predicate. -/
def BoundExpr.predicate (bound : BoundExpr) (position : Nat) : Scalar :=
  (((bound.child? position).bind (·.op?)).bind (·.predicate?)).getD .always

/-- A predicate as a new child. -/
def RuleChild.predicate (condition : Scalar) : RuleChild := .new (.scalar (.predicate condition)) []

namespace Planning

mutual

/-- The group of a child. New expressions are inserted. -/
def childGroup (origin : Origin) : RuleChild → Planning GroupId
  | .group id => resolve id
  | .new op children => do
    let groups ← childGroups origin children
    return (← insert op groups none (some origin)).group

/-- The groups of several children, from the first to the last. -/
def childGroups (origin : Origin) : List RuleChild → Planning (List GroupId)
  | [] => return []
  | child :: rest => do
    let group ← childGroup origin child
    return group :: (← childGroups origin rest)

end

/-- Insert the result of a rule as a new alternative of a group. -/
def insertResult (group : GroupId) (origin : Origin) (result : RuleResult) :
    Planning Insertion := do
  let children ← childGroups origin result.children
  insert result.op children (some group) (some origin)

end Planning

end QueryPlanner
