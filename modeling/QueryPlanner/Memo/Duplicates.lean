import QueryPlanner.Memo.Basic

/-!
# Duplicate groups

Two groups found to compute the same result are linked. Following the links from a group leads to
its `Memo.master`, which stands for the whole class. Looking up a master shortens the links on the
way (`Memo.compress`). `Memo.mergeInto` moves alternatives from linked groups to their master, and
`Memo.mergeDuplicates` does so for all groups and then drops alternatives that repeat another.
-/

namespace QueryPlanner

namespace Memo

/-- The group that a group is linked to. -/
def link? (memo : Memo) (id : GroupId) : Option GroupId := (memo.group? id).bind (·.duplicateOf)

/-- The groups reached from a group by at most the given number of links, nearest first. -/
def chainUpTo (memo : Memo) : Nat → GroupId → List GroupId
  | 0, _ => []
  | fuel + 1, id =>
    match memo.link? id with
    | some next => next :: memo.chainUpTo fuel next
    | none => []

/-- The groups reached from a group by links. No group occurs twice on an acyclic chain, so the
number of groups bounds its length. -/
def chain (memo : Memo) (id : GroupId) : List GroupId := memo.chainUpTo memo.groups.size id

/-- The group at the end of the chain, which stands for all groups linked to it. -/
def master (memo : Memo) (id : GroupId) : GroupId := (memo.chain id).getLastD id

/-- Set the link of a group. -/
def setLink (memo : Memo) (id target : GroupId) : Memo :=
  memo.modifyGroup id fun group => { group with duplicateOf := some target }

/-- Link every group on the chain of a group directly to the master. -/
def compress (memo : Memo) (id : GroupId) : Memo :=
  let master := memo.master id
  (id :: memo.chain id).dropLast.foldl (fun found below => found.setLink below master) memo

/-- Compress the chains of several groups. -/
def compressAll (memo : Memo) (ids : List GroupId) : Memo := ids.foldl compress memo

/-- Record that two groups compute the same result: the master with the lower number is linked to
the one with the higher number. -/
def addDuplicate (memo : Memo) (left right : GroupId) : Memo :=
  let memo := (memo.compress left).compress right
  let first := memo.master left
  let second := memo.master right
  if first = second then memo
  else if first.index < second.index then memo.setLink first second
  else memo.setLink second first

/-- Whether an alternative applies an equal operator to children with the same masters, in any order
when the operator is symmetric. -/
def isTwin (memo : Memo) (expr : MemoExpr) (op : Operator) (children : List GroupId) : Bool :=
  expr.children.length == children.length && expr.op.same op &&
    (let mine := expr.children.map memo.master
     let theirs := children.map memo.master
     if expr.op.orderSensitive then mine == theirs else mine.isPerm theirs)

/-- Move all alternatives of one group to another. The statistics move along when the target has
none; if there is nothing to move, they are dropped. -/
def moveAlternatives (memo : Memo) (source target : GroupId) : Memo :=
  match memo.group? source with
  | none => memo
  | some found =>
    let emptied := memo.modifyGroup source fun group =>
      { group with alternatives := [], duplicates := [], statistics := none }
    if found.alternatives.isEmpty && found.duplicates.isEmpty then emptied
    else
      let start := (emptied.alternativesOf target).length
      let owned := found.alternatives.zipIdx.foldl
        (fun memo moved => memo.setOwner moved.1 target (start + moved.2)) emptied
      let owned := found.duplicates.foldl
        (fun memo moved => memo.modifyExpr moved fun expr => { expr with group := target }) owned
      owned.modifyGroup target fun group =>
        { group with
          alternatives := group.alternatives ++ found.alternatives
          duplicates := group.duplicates ++ found.duplicates
          statistics := group.statistics.or found.statistics
          gainedLogical := group.gainedLogical ||
            found.alternatives.any fun id => ((memo.op? id).map (·.isLogical)).getD false
          producesCte := group.producesCte || found.producesCte
          consumesCte := group.consumesCte || found.consumesCte }

/-- Link the master of `source` to the master of `target`, and move the alternatives on the way from
`source` to the common master there. -/
def mergeInto (memo : Memo) (source target : GroupId) : Memo :=
  let memo := (memo.compress source).compress target
  let joining := memo.master source
  let into := memo.master target
  let linked := if joining = into then memo else memo.setLink joining into
  ((source :: linked.chain source).takeWhile (· ≠ into)).foldl
    (fun memo below => memo.moveAlternatives below into) linked

/-- Among the given alternatives, those whose children are looked up in the search for a twin: the
ones with an equal operator, up to the first twin. -/
def twinCandidates (memo : Memo) (expr : MemoExpr) : List MemoExpr → List MemoExpr
  | [] => []
  | other :: rest =>
    if memo.isTwin other expr.op expr.children then [other]
    else if other.children.length == expr.children.length && other.op.same expr.op then
      other :: memo.twinCandidates expr rest
    else memo.twinCandidates expr rest

/-- Split alternatives into those that repeat no earlier one, and the rest. The children of the
alternatives compared are looked up on the way. -/
def splitRepeated (memo : Memo) (ids : List ExprId) : Memo × List ExprId × List ExprId :=
  ids.foldl (fun (memo, kept, dropped) id =>
      match memo.expr? id with
      | none => (memo, kept ++ [id], dropped)
      | some expr =>
        let candidates := memo.twinCandidates expr (kept.filterMap memo.expr?)
        let repeats := candidates.any fun other => memo.isTwin other expr.op expr.children
        let memo := memo.compressAll
          (candidates.flatMap fun other => other.children ++ expr.children)
        if repeats then (memo, kept, dropped ++ [id]) else (memo, kept ++ [id], dropped))
    (memo, [], [])

/-- Move alternatives of a master that repeat an earlier one to its list of duplicates. -/
def dropRepeated (memo : Memo) (id : GroupId) : Memo :=
  match memo.group? id with
  | none => memo
  | some group =>
    if group.isDuplicate then memo
    else
      let (memo, kept, dropped) := memo.splitRepeated group.alternatives
      if dropped.isEmpty then memo
      else
        let renumbered := kept.zipIdx.foldl
          (fun memo alternative => memo.setOwner alternative.1 id alternative.2) memo
        renumbered.modifyGroup id fun group =>
          { group with alternatives := kept, duplicates := group.duplicates ++ dropped }

/-- Move the alternatives of a group that is a duplicate to its master. -/
def mergeToMaster (memo : Memo) (id : GroupId) : Memo :=
  match memo.group? id with
  | none => memo
  | some group =>
    if group.isDuplicate && !group.alternatives.isEmpty then memo.mergeInto id (memo.master id)
    else memo

/-- Move the alternatives of all duplicate groups to their masters, then drop repeated ones. -/
def mergeDuplicates (memo : Memo) : Memo :=
  memo.groupIds.foldl dropRepeated (memo.groupIds.foldl mergeToMaster memo)

end Memo

namespace Planning

/-- The master of a group. The chain to it is compressed. -/
def resolve (id : GroupId) : Planning GroupId := do
  let _ ← group id
  let memo ← get
  set (memo.compress id)
  return memo.master id

/-- The masters of several groups. -/
def resolveAll (ids : List GroupId) : Planning (List GroupId) := ids.mapM resolve

/-- Record that two groups compute the same result. -/
def addDuplicate (left right : GroupId) : Planning Unit := do
  let _ ← group left
  let _ ← group right
  modify (·.addDuplicate left right)

/-- Merge a group into another. -/
def mergeInto (source target : GroupId) : Planning Unit := do
  let _ ← group source
  let _ ← group target
  modify (·.mergeInto source target)

/-- What the alternatives of the master of a group do with common table expressions. Producing goes
before consuming. -/
def cteRole (id : GroupId) : Planning (Option CteRole) := do
  let master ← group (← resolve id)
  return if master.producesCte then some .producer
    else if master.consumesCte then some .consumer
    else none

/-- The master of the root. -/
def root : Planning (Option GroupId) := do
  match (← get).root with
  | some id => return some (← resolve id)
  | none => return none

end Planning

end QueryPlanner
