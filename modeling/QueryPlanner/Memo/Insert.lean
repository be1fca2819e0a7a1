import QueryPlanner.Memo.Duplicates

/-!
# Inserting alternatives

`Planning.insert` puts an operator over child groups into the memo. An equal alternative that is
already there is found again instead; if it was meant for another group, the two groups turn out to
compute the same result.
-/

namespace QueryPlanner

/-- What an insertion led to. -/
structure Insertion where
  expr : ExprId
  /-- The master of the group that owns the alternative. -/
  group : GroupId
  /-- Whether the alternative is new. -/
  isNew : Bool
  deriving DecidableEq, Repr

/-- The children under which an alternative is filed. Those of a symmetric operator are sorted. -/
def filedChildren (op : Operator) (children : List GroupId) : List GroupId :=
  if op.orderSensitive then children
  else children.mergeSort fun left right => decide (left.index ≤ right.index)

namespace Memo

/-- The oldest alternative with an equal operator that was filed under the given children, which are
masters. -/
def findTwin? (memo : Memo) (op : Operator) (children : List GroupId) : Option ExprId :=
  let filed := filedChildren op children
  (memo.exprs.findIdx? fun expr =>
    expr.op.same op && filedChildren expr.op expr.children == filed).map ExprId.mk

/-- The properties of a new group for an operator over child groups. A physical operator has no
group of its own. -/
def newProperties? (memo : Memo) (op : Operator) (children : List GroupId) :
    Option GroupProperties :=
  let below := children.filterMap fun child => (memo.group? child).map (·.properties)
  match op with
  | .logical op => some (.relation (op.properties below))
  | .scalar op => some (.scalar (op.properties below))
  | .physical _ => none

/-- The level at which a new alternative will be optimized. A sequence whose first child produces a
common table expression comes first. -/
def newLevel (memo : Memo) (op : Operator) (children : List GroupId) : OptimizationLevel :=
  match op with
  | .physical op =>
    let first := children.head?.bind memo.group?
    if op.isSequence && (first.map (·.producesCte)).getD false then .high else op.level
  | _ => .low

/-- Append an alternative to a group, at the end of its alternatives. -/
def addAlternative (memo : Memo) (op : Operator) (children : List GroupId) (group : GroupId)
    (origin : Option Origin) : Memo :=
  let id : ExprId := ⟨memo.exprs.size⟩
  let level := memo.newLevel op children
  let position := (memo.alternativesOf group).length
  let added : MemoExpr := { op, children, group, position, origin, level }
  let extended := { memo with exprs := memo.exprs.push added }
  extended.modifyGroup group fun found =>
    { found with
      alternatives := found.alternatives ++ [id]
      gainedLogical := found.gainedLogical || op.isLogical
      producesCte := found.producesCte || op.cte.any (·.role == .producer)
      consumesCte := found.consumesCte || op.cte.any (·.role == .consumer)
      maxLevel := found.maxLevel.max level }

end Memo

namespace Planning

/-- Fail when the insertion is not possible: a group is missing, the number of children is wrong, or
a physical operator comes without a target. -/
def checkInsertion (op : Operator) (children : List GroupId) (target : Option GroupId) :
    Planning Unit := do
  let count := (← get).groups.size
  if let some missing := (children ++ target.toList).find? fun id => decide (count ≤ id.index) then
    throw (.invalidInsertion (.unknownGroup missing))
  if let some arity := op.arity then
    if arity ≠ children.length then
      throw (.invalidInsertion (.wrongArity op.kind arity children.length))
  if op.isPhysical && target.isNone then
    throw (.invalidInsertion (.physicalWithoutTarget op.kind))

/-- A new group for an operator over child groups. -/
def createGroup (op : Operator) (children : List GroupId) : Planning GroupId := do
  let memo ← get
  match memo.newProperties? op children with
  | none => throw (.invalidInsertion (.physicalWithoutTarget op.kind))
  | some properties =>
    let id : GroupId := ⟨memo.groups.size⟩
    modify fun memo => { memo with groups := memo.groups.push { properties } }
    return id

/-- The outcome of finding an alternative again: its group and the target are the same from now
on. -/
def reuse (twin : ExprId) (target : Option GroupId) : Planning Insertion := do
  let owner ← resolve (← expr twin).group
  if let some target := target then
    if target ≠ owner then addDuplicate target owner
  return { expr := twin, group := ← resolve owner, isNew := false }

/-- Insert an operator over child groups into a target group, or into a new group when there is no
target. A physical operator needs a target. -/
def insert (op : Operator) (children : List GroupId) (target : Option GroupId)
    (origin : Option Origin) : Planning Insertion := do
  checkInsertion op children target
  let children ← resolveAll children
  let target ← target.mapM resolve
  match (← get).findTwin? op children with
  | some twin => reuse twin target
  | none =>
    let group ← match target with
      | some group => pure group
      | none => createGroup op children
    let id : ExprId := ⟨(← get).exprs.size⟩
    modify (·.addAlternative op children group origin)
    return { expr := id, group, isNew := true }

end Planning

end QueryPlanner
