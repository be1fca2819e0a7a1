import QueryPlanner.Proofs.Meaning.Query
import QueryPlanner.Proofs.Meaning.Schema
import QueryPlanner.Proofs.Search.Fills

/-!
# Explored and implemented queries

`Memo.Explored` are the memos that come about from queries by exploration and implementation. Groups
in them have schemas (`Memo.Explored.exists_schemas`), so every alternative finds the columns that it
needs in its children. Nothing is planned in such a memo, and it holds no enforcers.
-/

namespace QueryPlanner

open Planning (Keeps Post exec)

/-! ## The columns of queries -/

/-- The aggregates of a query group by columns of their input. -/
def Query.Grounded : Query → Prop
  | get _ => True
  | select input _ => input.Grounded
  | join outer inner _ => outer.Grounded ∧ inner.Grounded
  | groupBy grouping _ input => input.Grounded ∧ grouping.toFinset ⊆ input.columns

/-- The schema of a query is its columns, by induction on the query. -/
theorem Schema.reading_query? {query : Query} (h : query.Grounded) :
    Schema.reading.query? query = some (.relation query.columns) := by
  induction query with
  | get access => exact apply_eq_some.mpr ⟨trivial, _, rfl, rfl⟩
  | select input predicate ih =>
      unfold Reading.query?
      rw [ih h, Option.bind_some, reading_condition, Option.bind_some]
      exact reading_select.mpr ⟨_, rfl, rfl, rfl⟩
  | join outer inner predicate ihouter ihinner =>
      unfold Reading.query?
      rw [ihouter h.1, Option.bind_some, ihinner h.2, Option.bind_some, reading_condition,
        Option.bind_some]
      exact reading_join.mpr ⟨_, _, rfl, rfl, rfl, rfl⟩
  | groupBy grouping aggregates input ih =>
      unfold Reading.query?
      rw [ih h.1, Option.bind_some]
      exact apply_eq_some.mpr ⟨trivial, _, rfl, if_pos h.2⟩

/-- Inserting a query fills the memo, by induction on the query. -/
theorem Query.fills_insert (query : Query) : Keeps Memo.Fills query.insert := by
  have hover {op : LogicalOperator} {children : List GroupId} :
      Keeps Memo.Fills (insertOver op children) :=
    Keeps.bind (Planning.keeps_insert rfl) fun _ => Keeps.pure
  have hpredicate {predicate : Scalar} : Keeps Memo.Fills (insertPredicate predicate) :=
    Keeps.bind (Planning.keeps_insert rfl) fun _ => Keeps.pure
  induction query with
  | get access => exact hover
  | select input predicate ih => exact Keeps.bind ih fun _ => Keeps.bind hpredicate fun _ => hover
  | join outer inner predicate ihouter ihinner =>
      exact Keeps.bind ihouter fun _ => Keeps.bind ihinner fun _ =>
        Keeps.bind hpredicate fun _ => hover
  | groupBy grouping aggregates input ih => exact Keeps.bind ih fun _ => hover

/-- Inserting several queries fills the memo. -/
theorem Query.fills_insertAll (queries : List Query) : Keeps Memo.Fills (insertAll queries) := by
  induction queries with
  | nil => exact Keeps.pure
  | cons query rest ih =>
      exact Keeps.bind query.fills_insert fun _ => Keeps.bind ih fun _ => Keeps.pure

/-! ## Explored memos -/

/-- The memos that come about from queries by exploration and implementation. A pass that fails
counts with the memo it leaves. -/
inductive Memo.Explored : Memo → Prop
  /-- Queries in a memo of their own. -/
  | inserted {queries : List Query} (grounded : ∀ query ∈ queries, query.Grounded) :
      Explored (exec (Query.insertAll queries) {}).2
  /-- A group and all below it are explored. -/
  | explored {state : SearchState} (before : Explored state.memo) {rules : List Rule}
      (listed : ∀ rule ∈ rules, rule ∈ standardRules) (planner : Planner) (limits : StageLimits)
      (fuel : Nat) (id : GroupId) :
      Explored (exec (planner.exploreGroup limits rules fuel id) state).2.memo
  /-- Duplicates are merged and statistics are derived. -/
  | finished {memo : Memo} (before : Explored memo) (planner : Planner) (root : GroupId)
      (required : PlanRequirement) :
      Explored (exec (planner.finishExploration root required) memo).2
  /-- A group and all below it are implemented. -/
  | implemented {state : SearchState} (before : Explored state.memo) {rules : List Rule}
      (listed : ∀ rule ∈ rules, rule ∈ standardRules) (planner : Planner) (fuel : Nat)
      (id : GroupId) :
      Explored (exec (planner.implementGroup rules fuel id) state).2.memo

namespace Memo.Explored

variable {memo : Memo}

/-- All groups have schemas that their alternatives deliver. -/
theorem exists_schemas (h : memo.Explored) : ∃ schemas, memo.Models Schema.reading schemas := by
  have hsound {rules : List Rule} (listed : ∀ rule ∈ rules, rule ∈ standardRules) :
      ∀ rule ∈ rules, rule.Sound Schema.reading := fun rule hrule =>
    Schema.admitsRules.sound rule (listed rule hrule)
  induction h with
  | @inserted queries grounded =>
      have hinserted := Post.insertQueries
        (fun query hquery => Schema.reading_query? (grounded query hquery))
        (Memo.models_empty Schema.reading fun _ => .condition)
      obtain ⟨_, final, hexec, schemas, hgrows, _⟩ | ⟨_, _, _, hfail⟩ := hinserted.exists_exec
      · exact ⟨schemas, congrArg Prod.snd hexec ▸ hgrows.models⟩
      · exact hfail.elim
  | explored _ listed planner limits fuel id ih =>
      obtain ⟨schemas, hmodels⟩ := ih
      have hrun : Searching.Preserves Schema.reading schemas
          (planner.exploreGroup limits _ fuel id) _ :=
        planner.preserves_exploreGroup (hsound listed) hmodels
      have hfinal := hrun.exec_snd
      obtain ⟨schemas', hgrows⟩ := hfinal
      exact ⟨schemas', hgrows.models⟩
  | finished _ planner root required ih =>
      obtain ⟨schemas, hmodels⟩ := ih
      have hrun : Keeps (Memo.Continues Schema.reading) (planner.finishExploration root required) :=
        planner.continues_finishExploration
      obtain ⟨schemas', hgrows⟩ := (hrun _).exec_snd schemas hmodels
      exact ⟨schemas', hgrows.models⟩
  | implemented _ listed planner fuel id ih =>
      obtain ⟨schemas, hmodels⟩ := ih
      have hrun : Searching.Preserves Schema.reading schemas (planner.implementGroup _ fuel id) _ :=
        planner.preserves_implementGroup (hsound listed) hmodels
      have hfinal := hrun.exec_snd
      obtain ⟨schemas', hgrows⟩ := hfinal
      exact ⟨schemas', hgrows.models⟩

/-- All of the memo was filled in by rules. -/
theorem fills (h : memo.Explored) : Memo.Fills {} memo := by
  have hplain {rules : List Rule} (listed : ∀ rule ∈ rules, rule ∈ standardRules) :
      ∀ rule ∈ rules, rule.IsPlain := fun rule hrule =>
    standardRules_isPlain rule (listed rule hrule)
  induction h with
  | @inserted queries _ => exact (Query.fills_insertAll queries {}).exec_snd
  | @explored state _ _ listed planner limits fuel id ih =>
      exact ih.trans (Post.exec_snd (P := fun final : SearchState => state.memo.Fills final.memo)
        (planner.fills_exploreGroup (hplain listed) state))
  | @finished memo _ planner root required ih =>
      exact ih.trans (planner.fills_finishExploration memo).exec_snd
  | @implemented state _ _ listed planner fuel id ih =>
      exact ih.trans (Post.exec_snd (P := fun final : SearchState => state.memo.Fills final.memo)
        (planner.fills_implementGroup (hplain listed) state))

theorem reachable (h : memo.Explored) : memo.Reachable := h.fills.reachable .empty

/-- There are no enforcers. -/
theorem plain (h : memo.Explored) : memo.Plain :=
  h.fills.plain .empty fun id expr hexpr => by simp [expr?] at hexpr

end Memo.Explored

end QueryPlanner
