import QueryPlanner.Proofs.Meaning.Schema
import QueryPlanner.Proofs.Optimizer.Frame
import QueryPlanner.Proofs.Search.Steps

/-!
# The columns of orders and distributions

Orders and hash distributions are required from the top down, and enforcers are built from them.
`Memo.Asks` says that all their columns make sense for a group: hash columns are delivered by it, and
so are the columns of an order, unless they come from the other side of a nested-loop join. Operators
that get such a requirement ask no more of their children (`Memo.Models.asks_child`).
-/

namespace QueryPlanner

open Memo (Grows Models SameContent Serves)
open Planning (Keeps Post)

/-- The columns of a relation. A condition has none. -/
def Schema.columns : Schema → Finset Column
  | relation columns => columns
  | condition => ∅

/-- The order that an enforcer delivers of its own. -/
def PhysicalOperator.enforcedOrder : PhysicalOperator → SortOrder
  | .sort order => order
  | .motion move => move.order
  | _ => .any

/-- The distribution that an enforcer delivers of its own. -/
def PhysicalOperator.enforcedDistribution : PhysicalOperator → Distribution
  | .motion move => move.target
  | _ => .any

namespace Memo

variable {schemas : GroupId → Schema} {memo memo' memo'' : Memo}

/-- The group is no wider than the outer side of a nested-loop join whose inner side has the
column. -/
def JoinsBeside (schemas : GroupId → Schema) (memo : Memo) (group : GroupId) (column : Column) :
    Prop :=
  ∃ id expr outer inner rest, memo.expr? id = some expr ∧ expr.op = .physical .nestedLoopJoin ∧
    expr.children = outer :: inner :: rest ∧ column ∈ (schemas inner).columns ∧
    (schemas group).columns ⊆ (schemas outer).columns

/-- The columns that an order and a distribution mention make sense for a group. -/
structure Asks (schemas : GroupId → Schema) (memo : Memo) (group : GroupId) (order : SortOrder)
    (distribution : Distribution) : Prop where
  order : ∀ key ∈ order.keys, key.column ∈ (schemas group).columns ∨
    memo.JoinsBeside schemas group key.column
  hashing : ∀ columns, distribution.hashColumns? = some columns →
    columns.toFinset ⊆ (schemas group).columns

namespace Asks

variable {group other : GroupId} {order : SortOrder} {distribution : Distribution}

/-- Without an order only the hash columns count. -/
theorem of_hashing (h : ∀ columns, distribution.hashColumns? = some columns →
    columns.toFinset ⊆ (schemas group).columns) : memo.Asks schemas group .any distribution where
  order _ hkey := by simp [SortOrder.any] at hkey
  hashing := h

/-- Without hashing only the order counts. -/
theorem of_order (hnone : distribution.hashColumns? = none)
    (h : ∀ key ∈ order.keys, key.column ∈ (schemas group).columns ∨
      memo.JoinsBeside schemas group key.column) : memo.Asks schemas group order distribution where
  order := h
  hashing _ hcolumns := by simp [hnone] at hcolumns

/-- Groups with the same columns may be asked the same. -/
theorem congr (h : memo.Asks schemas group order distribution)
    (hcolumns : (schemas other).columns = (schemas group).columns) :
    memo.Asks schemas other order distribution := by
  obtain ⟨horder, hhashing⟩ := h
  refine ⟨fun key hkey => ?_, fun columns hhashed => ?_⟩
  · unfold JoinsBeside
    rw [hcolumns]
    exact horder key hkey
  · rw [hcolumns]
    exact hhashing columns hhashed

/-- What may be asked may be asked when alternatives are added. -/
theorem mono (h : memo.Asks schemas group order distribution)
    (hexprs : ∀ id expr, memo.expr? id = some expr → ∃ expr', memo'.expr? id = some expr' ∧
      expr'.op = expr.op ∧ expr'.children = expr.children) :
    memo'.Asks schemas group order distribution where
  order key hkey := by
    refine (h.order key hkey).imp_right ?_
    rintro ⟨id, expr, outer, inner, rest, hexpr, hop, hchildren, hbeside⟩
    obtain ⟨expr', hexpr', hop', hchildren'⟩ := hexprs id expr hexpr
    exact ⟨id, expr', outer, inner, rest, hexpr', hop'.trans hop, hchildren'.trans hchildren,
      hbeside⟩
  hashing := h.hashing

end Asks

end Memo

/-- What `mapM` finds is found for some element of the list. -/
theorem exists_of_mem_mapM {α β : Type} {find : α → Option β} {items : List α}
    {found : List β} (h : items.mapM find = some found) {value : β} (hvalue : value ∈ found) :
    ∃ item ∈ items, find item = some value := by
  induction items generalizing found with
  | nil =>
      obtain rfl := Option.some.inj h
      simp at hvalue
  | cons item rest ih =>
      simp only [List.mapM_cons, Option.bind_eq_bind, Option.bind_eq_some_iff] at h
      obtain ⟨first, hfirst, others, hothers, h⟩ := h
      obtain rfl := Option.some.inj h
      rcases List.mem_cons.mp hvalue with rfl | hvalue
      · exact ⟨item, by simp, hfirst⟩
      · obtain ⟨other, hother, hfound⟩ := ih hothers hvalue
        exact ⟨other, by simp [hother], hfound⟩

/-! ## What operators ask of their children -/

namespace PhysicalOperator

/-- The keys that a hash join hashes its inner side on are keys of that side. -/
theorem partnerKeys_subset (outerKeys innerKeys : List Column) (outer : Option PlanProperties) :
    partnerKeys outerKeys innerKeys outer ⊆ innerKeys := by
  unfold partnerKeys
  cases outer.bind (·.distribution.hashColumns?) with
  | none => exact List.Subset.refl _
  | some hashed =>
      dsimp only
      cases hpartners : hashed.mapM fun column =>
          (outerKeys.idxOf? column).bind fun position => innerKeys[position]? with
      | none => exact List.Subset.refl _
      | some partners =>
          intro partner hpartner
          obtain ⟨column, _, hfound⟩ := exists_of_mem_mapM hpartners hpartner
          obtain ⟨position, _, hposition⟩ := Option.bind_eq_some_iff.mp hfound
          exact List.mem_of_getElem? hposition

section Requests

variable {required : Distribution} {position request : Nat} {siblings : List PlanProperties}
  {columns : List Column}

/-- A hash join asks to hash each side on keys of that side. -/
theorem hashJoin_hashColumns? {outerKeys innerKeys : List Column}
    (h : ((hashJoin outerKeys innerKeys).childDistribution required position siblings
      request).hashColumns? = some columns) :
    position = 0 ∧ columns = outerKeys ∨ position ≠ 0 ∧ columns ⊆ innerKeys := by
  unfold childDistribution at h
  dsimp only at h
  split at h
  · exact .inl ⟨rfl, (Option.some.inj h).symm⟩
  · rename_i hinner
    exact .inr ⟨fun hzero => hinner hzero, Option.some.inj h ▸ partnerKeys_subset _ _ _⟩
  all_goals simp [Distribution.hashColumns?] at h

/-- A nested-loop join asks for no hashing. -/
theorem nestedLoopJoin_hashColumns? :
    (nestedLoopJoin.childDistribution required position siblings request).hashColumns? = none := by
  unfold childDistribution
  dsimp only
  split <;> rfl

/-- An aggregate asks to hash on its grouping columns. -/
theorem aggregate_hashColumns? {grouping : List Column} {digit : Nat}
    (h : (aggregateChildDistribution grouping digit).hashColumns? = some columns) :
    columns = grouping := by
  unfold aggregateChildDistribution at h
  split at h
  · simp [Distribution.hashColumns?] at h
  · exact (Option.some.inj h).symm

end Requests

end PhysicalOperator

namespace Memo.Models

variable {schemas : GroupId → Schema} {memo : Memo} {id : ExprId} {expr : MemoExpr}
  {position : Nat} {child : GroupId}

/-- What is asked of the outer side of a nested-loop join may be asked of the join. -/
theorem asks_outer (h : memo.Models Schema.reading schemas) (hexpr : memo.expr? id = some expr)
    (hop : expr.op = .physical .nestedLoopJoin) {order : SortOrder} {distribution : Distribution}
    (hasked : memo.Asks schemas expr.group order distribution)
    (hchild : expr.children[0]? = some child) :
    ∀ key ∈ order.keys, key.column ∈ (schemas child).columns ∨
      memo.JoinsBeside schemas child key.column := by
  obtain ⟨_, step, hstep, hschema⟩ := Schema.apply_eq_some.mp (h.computed id expr hexpr)
  rw [hop] at hstep
  obtain rfl := Option.some.inj hstep
  obtain ⟨left, right, hsides, hgroup⟩ := Schema.step_join hschema
  obtain ⟨inner, test, hchildren⟩ : ∃ inner test, expr.children = [child, inner, test] := by
    have hlength : expr.children.length = 3 := by simpa using congrArg List.length hsides
    obtain ⟨first, second, third, hlist⟩ := List.length_eq_three.mp hlength
    rw [hlist] at hchild
    exact ⟨second, third, Option.some.inj hchild ▸ hlist⟩
  rw [hchildren] at hsides
  obtain ⟨houter, hinner, _⟩ : schemas child = .relation left ∧ schemas inner = .relation right ∧
      schemas test = .condition := by simpa using hsides
  intro key hkey
  rcases hasked.order key hkey with hdelivered | ⟨top, joins, outer, beside, rest, hjoins⟩
  · rw [hgroup] at hdelivered
    rcases Finset.mem_union.mp hdelivered with hleft | hright
    · exact .inl (houter ▸ hleft)
    · refine .inr ⟨id, expr, child, inner, [test], hexpr, hop, hchildren, hinner ▸ hright, ?_⟩
      exact Finset.Subset.refl _
  · -- the child is narrower than the join, so that join is beside the child as well
    obtain ⟨hfound, hjoin, hover, hbeside, hwithin⟩ := hjoins
    refine .inr ⟨top, joins, outer, beside, rest, hfound, hjoin, hover, hbeside, ?_⟩
    refine Finset.Subset.trans ?_ hwithin
    rw [houter, hgroup]
    exact Finset.subset_union_left

/-- An operator that is asked for columns that make sense asks for such columns in turn, of every
child that is a relation. -/
theorem asks_child (h : memo.Models Schema.reading schemas) {op : PhysicalOperator}
    (hexpr : memo.expr? id = some expr) (hop : expr.op = .physical op) {required : PlanRequirement}
    (hasked : memo.Asks schemas expr.group required.order.spec required.distribution.spec)
    (hchild : expr.children[position]? = some child)
    (henforced : memo.Asks schemas child op.enforcedOrder op.enforcedDistribution)
    (hrelation : schemas child ≠ .condition) (view : ExprView) (siblings : List PlanProperties)
    (request : Nat) :
    memo.Asks schemas child
      (op.childRequirement view required position siblings request).order.spec
      (op.childRequirement view required position siblings request).distribution.spec := by
  obtain ⟨hkeys, step, hstep, hschema⟩ := Schema.apply_eq_some.mp (h.computed id expr hexpr)
  show memo.Asks schemas child (op.childOrder required.order.spec position request)
    (op.childDistribution required.distribution.spec position siblings request)
  have hposition : (expr.children.map schemas)[position]? = some (schemas child) := by
    rw [List.getElem?_map, hchild, Option.map_some]
  rw [hop] at hkeys hstep
  -- operators with one child have no other one
  have hunchanged (hsame : step = .unchanged) : schemas child = schemas expr.group := by
    subst hsame
    rw [Schema.step_unchanged hschema] at hposition
    cases position <;> simp_all
  have hinput {grouping aggregates : List Column} (hsame : step = .aggregate grouping aggregates) :
      grouping.toFinset ⊆ (schemas child).columns := by
    subst hsame
    obtain ⟨columns, hbelow, hgrouping, _⟩ := Schema.step_aggregate hschema
    rw [hbelow] at hposition
    cases position with
    | zero => exact Option.some.inj hposition ▸ hgrouping
    | succ position => simp at hposition
  cases op with
  | custom _ => simp [Operator.step?, PhysicalOperator.step?] at hstep
  | tableScan _ | indexScan _ _ =>
      obtain rfl := Option.some.inj hstep
      simp [(Schema.step_access hschema).1] at hposition
  | filter =>
      obtain rfl := Option.some.inj hstep
      obtain ⟨columns, hbelow, hgroup⟩ := Schema.step_selection hschema
      rw [hbelow] at hposition
      have hsame : schemas child = schemas expr.group := by
        rcases position with _ | _ | position <;> simp_all
      exact hasked.congr (congrArg Schema.columns hsame)
  | hashJoin outerKeys innerKeys =>
      obtain rfl := Option.some.inj hstep
      obtain ⟨outer, inner, hbelow, _⟩ := Schema.step_join hschema
      obtain ⟨left, right, test, hsides, houter, hinner⟩ := hkeys
      obtain ⟨rfl, rfl, rfl⟩ : outer = left ∧ inner = right ∧ .condition = test := by
        simpa [hbelow] using hsides
      rw [hbelow] at hposition
      refine Asks.of_hashing fun columns hcolumns => ?_
      have hasks := PhysicalOperator.hashJoin_hashColumns? hcolumns
      match position, hposition with
      | 0, hposition =>
          obtain ⟨_, rfl⟩ | ⟨hnonzero, _⟩ := hasks
          · exact Option.some.inj hposition ▸ houter
          · exact absurd rfl hnonzero
      | 1, hposition =>
          obtain ⟨hzero, _⟩ | ⟨_, hpartners⟩ := hasks
          · simp at hzero
          · refine fun column hcolumn => Option.some.inj hposition ▸ hinner ?_
            exact List.mem_toFinset.mpr (hpartners (List.mem_toFinset.mp hcolumn))
      | 2, hposition => exact absurd (Option.some.inj hposition).symm hrelation
  | nestedLoopJoin =>
      refine Asks.of_order PhysicalOperator.nestedLoopJoin_hashColumns? ?_
      cases position with
      | zero => exact h.asks_outer hexpr hop hasked hchild
      | succ position => exact fun key hkey => absurd hkey List.not_mem_nil
  | hashAggregate grouping aggregates =>
      have hgrouping := hinput (Option.some.inj hstep).symm
      refine Asks.of_hashing fun columns hcolumns => ?_
      exact PhysicalOperator.aggregate_hashColumns? hcolumns ▸ hgrouping
  | streamAggregate grouping aggregates =>
      have hgrouping := hinput (Option.some.inj hstep).symm
      refine ⟨fun key hkey => .inl (hgrouping ?_), fun columns hcolumns => ?_⟩
      · obtain ⟨column, hcolumn, rfl⟩ := List.mem_map.mp hkey
        exact List.mem_toFinset.mpr hcolumn
      · exact PhysicalOperator.aggregate_hashColumns? hcolumns ▸ hgrouping
  | sort order =>
      have hpassed := hasked.congr (congrArg Schema.columns (hunchanged (Option.some.inj hstep).symm))
      exact Asks.of_hashing hpassed.hashing
  | motion move => exact Asks.of_order rfl henforced.order
  | spool _ | partitionSelector _ _ _ =>
      exact hasked.congr (congrArg Schema.columns (hunchanged (Option.some.inj hstep).symm))

end Memo.Models

end QueryPlanner
