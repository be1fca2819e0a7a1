import QueryPlanner.Proofs.Optimizer.Sensible
import QueryPlanner.Proofs.Search.Explored

/-!
# The columns that are asked for

After exploration and implementation of queries, the optimizer asks groups to be hashed on columns
that they deliver only. The orders that it asks for are on such columns as well, with one exception:
a nested-loop join passes its order on to its outer side, even if a column comes from the inner one
(`Memo.Explored.optimizeAll_mentions`). This happens (`Memo.paired_orders_beside`).
-/

namespace QueryPlanner

open Planning (exec)

/-- Properties that fit a schema deliver its columns. A condition has no columns, and the properties
of a scalar deliver none. -/
theorem Schema.Fits.mem_output_iff {properties : GroupProperties} {schema : Schema}
    (h : Schema.Fits properties schema) {column : Column} :
    column ∈ properties.relationOrEmpty.output ↔ column ∈ schema.columns := by
  match properties, schema, h with
  | .relation properties, .relation columns, h => exact (h column).symm
  | .scalar _, .condition, _ => exact iff_of_false (by simp [GroupProperties.relationOrEmpty,
      GroupProperties.relation?]) (by simp [Schema.columns])

namespace Memo

/-- The columns that a group delivers. -/
def output (memo : Memo) (group : GroupId) : ColumnSet := (memo.logical group).output

/-- The group is no wider than the outer side of a nested-loop join whose inner side delivers the
column. -/
def DeliversBeside (memo : Memo) (group : GroupId) (column : Column) : Prop :=
  ∃ id expr outer inner rest, memo.expr? id = some expr ∧ expr.op = .physical .nestedLoopJoin ∧
    expr.children = outer :: inner :: rest ∧ column ∈ memo.output inner ∧
    ∀ other ∈ memo.output group, other ∈ memo.output outer

/-- The columns of an order and of a hash distribution are columns of a group, or those of the order
are delivered beside it. -/
structure Mentions (memo : Memo) (group : GroupId) (order : SortOrder)
    (distribution : Distribution) : Prop where
  order : ∀ key ∈ order.keys, key.column ∈ memo.output group ∨
    memo.DeliversBeside group key.column
  hashing : ∀ columns, distribution.hashColumns? = some columns →
    ∀ column ∈ columns, column ∈ memo.output group

variable {schemas : GroupId → Schema} {memo memo' : Memo}

namespace Models

variable (h : memo.Models Schema.reading schemas)
include h

/-- A known group delivers the columns of its schema. -/
theorem mem_output_iff {group : GroupId} (hknown : group.index < memo.groups.size)
    {column : Column} : column ∈ memo.output group ↔ column ∈ (schemas group).columns := by
  obtain ⟨found, hfound⟩ := exists_group?_eq_some.mpr hknown
  have hfits : Schema.Fits found.properties (schemas group) := h.fits group found hfound
  have houtput : memo.output group = found.properties.relationOrEmpty.output := by
    unfold output logical
    rw [hfound]
    rfl
  rw [houtput]
  exact hfits.mem_output_iff

/-- An unknown group delivers nothing. -/
theorem mem_columns_of_mem_output {group : GroupId} {column : Column}
    (hcolumn : column ∈ memo.output group) : column ∈ (schemas group).columns := by
  by_cases hknown : group.index < memo.groups.size
  · exact (h.mem_output_iff hknown).mp hcolumn
  · unfold output logical at hcolumn
    rw [group?_eq_none.mpr (Nat.le_of_not_lt hknown)] at hcolumn
    exact absurd hcolumn (by simp)

/-- What makes sense by the schemas of groups makes sense by what they deliver. -/
theorem mentions {group : GroupId} {order : SortOrder} {distribution : Distribution}
    (hknown : group.index < memo.groups.size) (hasked : memo.Asks schemas group order distribution) :
    memo.Mentions group order distribution where
  order key hkey := by
    refine (hasked.order key hkey).imp (h.mem_output_iff hknown).mpr ?_
    rintro ⟨id, expr, outer, inner, rest, hexpr, hop, hchildren, hinner, hwithin⟩
    have hbelow (child : GroupId) (hchild : child ∈ outer :: inner :: rest) :=
      h.wellFormed.childKnown id expr hexpr child (hchildren ▸ hchild)
    refine ⟨id, expr, outer, inner, rest, hexpr, hop, hchildren, ?_, fun other hother => ?_⟩
    · exact (h.mem_output_iff (hbelow inner (by simp))).mpr hinner
    · exact (h.mem_output_iff (hbelow outer (by simp))).mpr
        (hwithin ((h.mem_output_iff hknown).mp hother))
  hashing columns hcolumns column hcolumn :=
    (h.mem_output_iff hknown).mpr (hasked.hashing columns hcolumns (List.mem_toFinset.mpr hcolumn))

end Models

/-- An explored memo, in which nothing is planned yet, is sensible. -/
theorem Explored.sensible (hexplored : memo.Explored) (h : memo.Models Schema.reading schemas) :
    memo.Sensible schemas where
  wellFormed := h.wellFormed
  catalogued id expr op hexpr hop := by
    obtain ⟨_, step, hstep, _⟩ := Schema.apply_eq_some.mp (h.computed id expr hexpr)
    rw [hop] at hstep
    cases op <;> first | rfl | simp [Operator.step?, PhysicalOperator.step?] at hstep
  enforcing id expr hexpr hop := by simp [hexplored.plain id expr hexpr] at hop
  descending _ _ _ := trivial
  models := h
  entries id group hgroup entry hentry := by
    simp [hexplored.reachable.unplanned.filed id group hgroup] at hentry
  asked id context hcontext := by
    simp [context?, hexplored.reachable.unplanned.contexts] at hcontext
  enforced id expr op hexpr hop child _ := by
    have hplain : (Operator.physical op).isEnforcer = false := hop ▸ hexplored.plain id expr hexpr
    have hnothing : memo.Asks schemas child .any .any :=
      .of_hashing fun _ hcolumns => by simp [Distribution.hashColumns?] at hcolumns
    cases op <;> first | exact hnothing | exact Bool.noConfusion hplain

/-- Take any calls of the optimizer after exploration and implementation of queries whose aggregates
group by columns of their input, with orders and hash distributions on columns of the groups that
they are about. All contexts ask for hash columns that their groups deliver and for orders on columns
that their groups deliver or that are delivered beside them, and the enforcers mention no others. -/
theorem Explored.optimizeAll_mentions (h : memo.Explored) (calls : List OptimizeCall)
    (hcalls : ∀ call ∈ calls,
      (∀ key ∈ call.required.order.spec.keys, key.column ∈ memo.output call.group) ∧
      ∀ columns, call.required.distribution.spec.hashColumns? = some columns →
        ∀ column ∈ columns, column ∈ memo.output call.group) :
    let final := memo.optimizeAll calls
    (∀ id context, final.context? id = some context →
      final.Mentions context.group context.required.order.spec
        context.required.distribution.spec) ∧
    ∀ id expr op, final.expr? id = some expr → expr.op = .physical op →
      ∀ child ∈ expr.children, final.Mentions child op.enforcedOrder op.enforcedDistribution := by
  intro final
  obtain ⟨schemas, hmodels⟩ := h.exists_schemas
  have hruns (current : Memo) (hcurrent : memo.Proceeds schemas current) :
      memo.Proceeds schemas (current.optimizeAll calls) := by
    induction calls generalizing current with
    | nil => exact hcurrent
    | cons call rest ih =>
        obtain ⟨⟨horder, hhashing⟩, hrest⟩ := List.forall_mem_cons.mp hcalls
        have hasked : memo.Asks schemas call.group call.required.order.spec
            call.required.distribution.spec :=
          ⟨fun key hkey => .inl (hmodels.mem_columns_of_mem_output (horder key hkey)),
            fun columns hcolumns column hcolumn => hmodels.mem_columns_of_mem_output
              (hhashing columns hcolumns column (List.mem_toFinset.mp hcolumn))⟩
        have hrun : Proceeding schemas call.run current :=
          call.planner.proceeding_optimize hcurrent.sensible (hasked.mono hcurrent.exprs)
        exact ih hrest _ (hcurrent.trans hrun.exec_snd)
  have hsensible := (hruns memo (.refl (h.sensible hmodels))).sensible
  refine ⟨fun id context hcontext => ?_, fun id expr op hexpr hop child hchild => ?_⟩
  · obtain ⟨hknown, hasked⟩ := hsensible.asked id context hcontext
    exact hsensible.models.mentions hknown hasked
  · exact hsensible.models.mentions (hsensible.wellFormed.childKnown id expr hexpr child hchild)
      (hsensible.enforced id expr op hexpr hop child hchild)

/-- Two tables of one column each, joined where the columns are equal, after implementation with
table scans and nested-loop joins. -/
def paired : Memo :=
  let query : Query := .join (.get (.single 0)) (.get (.single 1)) (.equate 0 1)
  let planner : Planner := { model := .unit, fuel := 64 }
  let inserted := (exec (Query.insertAll [query]) {}).2
  (exec (planner.implementGroup [.tableScan, .nestedLoopJoin] 64 ⟨3⟩) { memo := inserted }).2.memo

theorem explored_paired : paired.Explored := by
  refine @Explored.implemented ⟨_, 0, 0, []⟩ (.inserted ?_) _ ?_ _ _ _
  · simp [Query.Grounded]
  · simp [standardRules]

end Memo

/-- A call that asks for the rows of the join in the order of the column of its inner side. -/
def OptimizeCall.orderedByInner : OptimizeCall where
  planner := { model := .unit, config := { pruning := false }, fuel := 64 }
  stage := 0
  group := ⟨3⟩
  required := { columns := .ofList [⟨0⟩, ⟨1⟩], order := ⟨.ascending [⟨1⟩], .satisfy⟩ }

/-- The outer side is asked for the order although it does not deliver the column. The column is
delivered beside it. -/
theorem Memo.paired_orders_beside :
    ∃ id context, (paired.optimizeAll [.orderedByInner]).context? id = some context ∧
      context.group = ⟨0⟩ ∧ context.required.order.spec = .ascending [⟨1⟩] ∧
      ⟨1⟩ ∉ (paired.optimizeAll [.orderedByInner]).output ⟨0⟩ ∧
      (paired.optimizeAll [.orderedByInner]).DeliversBeside ⟨0⟩ ⟨1⟩ := by
  let final := paired.optimizeAll [.orderedByInner]
  have hfacts : (final.context? ⟨1⟩).map (fun context => (context.group, context.required.order.spec))
      = some (⟨0⟩, .ascending [⟨1⟩]) ∧ ⟨1⟩ ∉ final.output ⟨0⟩ := by decide +kernel
  obtain ⟨hasked, hcolumn⟩ := hfacts
  obtain ⟨context, hcontext, hgoal⟩ := Option.map_eq_some_iff.mp hasked
  obtain ⟨hgroup, horder⟩ := Prod.mk.inj hgoal
  obtain ⟨hmentions, _⟩ := explored_paired.optimizeAll_mentions [.orderedByInner]
    (List.forall_mem_singleton.mpr ⟨by decide +kernel, by simp [OptimizeCall.orderedByInner,
      Distribution.hashColumns?]⟩)
  have hkey := (hmentions ⟨1⟩ context hcontext).order ⟨⟨1⟩, false, false⟩
    (by rw [horder]; exact List.mem_singleton.mpr rfl)
  rw [hgroup] at hkey
  exact ⟨⟨1⟩, context, hcontext, hgroup, horder, hcolumn, hkey.resolve_left hcolumn⟩

end QueryPlanner
