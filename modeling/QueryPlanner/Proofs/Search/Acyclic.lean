import QueryPlanner.Proofs.Meaning.Extent
import QueryPlanner.Proofs.Meaning.Query
import QueryPlanner.Proofs.Optimizer.Lasting
import QueryPlanner.Proofs.Search.Explored

/-!
# Groups that come below themselves

Every alternative of a group has the extent of the group (`Extent.reading`), also after exploration
and after duplicates are merged. So a group can come below itself only through selections without
conjuncts. Pushing such a selection into the join below it gives back this join, and the two groups
become one that reads itself (`Memo.reads_itself_idle`). When all selections of the queries have
conjuncts, groups stay in order, and whatever goes down from group to group ends
(`Planner.acyclic_explored`).
-/

namespace QueryPlanner

open Planning (Post exec)

/-! ## The extent of queries -/

namespace Query

/-- One for every table access and every aggregate, and one for every conjunct. -/
def extent : Query → ℕ
  | get _ => 1
  | select input predicate => input.extent + predicate.conjuncts.length
  | join outer inner predicate => outer.extent + inner.extent + predicate.conjuncts.length
  | groupBy _ _ input => input.extent + 1

/-- The predicates of all selections have conjuncts. -/
def Selective : Query → Prop
  | get _ => True
  | select input predicate => input.Selective ∧ predicate.conjuncts ≠ []
  | join outer inner _ => outer.Selective ∧ inner.Selective
  | groupBy _ _ input => input.Selective

end Query

/-- The extent of a query is its value, by induction on the query. -/
theorem Extent.reading_query? {idle : Bool} {query : Query} (h : idle = true ∨ query.Selective) :
    (Extent.reading idle).query? query = some (.relation query.extent) := by
  induction query with
  | get access => rfl
  | select input predicate ih =>
      unfold Reading.query?
      rw [ih (h.imp_right And.left), Option.bind_some, reading_condition, Option.bind_some]
      exact reading_select.mpr ⟨_, _, rfl, rfl,
        h.imp_right fun hselective => List.length_pos_iff.mpr hselective.2, rfl⟩
  | join outer inner predicate ihouter ihinner =>
      unfold Reading.query?
      rw [ihouter (h.imp_right And.left), Option.bind_some, ihinner (h.imp_right And.right),
        Option.bind_some, reading_condition, Option.bind_some]
      exact reading_join.mpr ⟨_, _, _, rfl, rfl, rfl, rfl⟩
  | groupBy grouping aggregates input ih =>
      unfold Reading.query?
      rw [ih h, Option.bind_some]
      rfl

/-! ## Down from group to group -/

namespace Memo

/-- A selection by a predicate that has no conjuncts. -/
def SelectsAll (memo : Memo) (expr : MemoExpr) : Prop :=
  expr.op = .logical .select ∧ ∃ input predicate properties, expr.children = [input, predicate] ∧
    memo.properties predicate = .scalar properties ∧ properties.conjuncts = 0

namespace Models

variable {memo : Memo} {idle : Bool} {extents : GroupId → Extent}
  (h : memo.Models (Extent.reading idle) extents)
include h

/-- Relations are not empty. -/
theorem extent_pos {id : GroupId} {size : ℕ} (hknown : id.index < memo.groups.size)
    (hsize : extents id = .relation size) : 0 < size := by
  obtain ⟨properties, hfits, _⟩ := h.exists_fits hknown
  rw [hsize] at hfits
  cases properties with
  | relation _ => exact hfits
  | scalar _ => exact hfits.elim

/-- What an alternative reads is below its group, unless the alternative is a selection without
conjuncts and reads the relation that it selects from. -/
theorem height_lt {parent child : GroupId} {id : ExprId} {expr : MemoExpr}
    (hid : id ∈ memo.alternativesOf parent) (hexpr : memo.expr? id = some expr)
    (hplain : expr.op.isEnforcer = false) (hchild : child ∈ expr.children) :
    (extents (memo.master child)).height < (extents parent).height ∨
      idle = true ∧ expr.op.step? = some .selection ∧
        expr.children.map extents = [extents parent, .condition 0] ∧
        extents (memo.master child) = extents parent := by
  obtain ⟨_, found, hfound, rfl⟩ := h.wellFormed.owned hid
  obtain rfl := Option.some.inj (hexpr.symm.trans hfound)
  obtain ⟨taken, htaken, hstep⟩ := Extent.apply_eq_some.mp (h.computed id expr hexpr)
  have hchanges : taken ≠ .unchanged := by
    rintro rfl
    cases hop : expr.op with
    | logical op =>
        rw [hop] at htaken
        cases op <;> simp [Operator.step?, LogicalOperator.step?, TableAccess.step] at htaken
    | physical op =>
        rw [hop] at htaken hplain
        cases op <;> simp_all [Operator.step?, PhysicalOperator.step?, TableAccess.step,
          Operator.isEnforcer, PhysicalOperator.isEnforcer, PhysicalOperator.enforcerKind?]
    | scalar op =>
        rw [hop] at htaken
        cases op <;> simp [Operator.step?] at htaken
  have hpositive : ∀ size, .relation size ∈ expr.children.map extents → 0 < size := by
    intro size hsize
    obtain ⟨other, hother, hextent⟩ := List.mem_map.mp hsize
    exact h.extent_pos (h.wellFormed.childKnown id expr hexpr other hother) hextent
  rw [h.linked]
  rcases Extent.height_lt_of_step hstep (List.mem_map_of_mem hchild) hchanges hpositive with
    hlower | ⟨rfl, hidle, hchildren, hsame⟩
  · exact .inl hlower
  · exact .inr ⟨hidle, htaken, hchildren, hsame⟩

theorem height_le_of_reads {parent child : GroupId} (hreads : memo.Reads parent child) :
    (extents child).height ≤ (extents parent).height := by
  obtain ⟨_, id, expr, hid, hexpr, hplain, below, hbelow, rfl⟩ := hreads
  rcases h.height_lt hid hexpr hplain hbelow with hlower | ⟨_, _, _, hsame⟩
  · exact hlower.le
  · exact (congrArg Extent.height hsame).le

theorem height_le_of_reaches {upper lower : GroupId}
    (hreaches : Relation.ReflTransGen memo.Reads upper lower) :
    (extents lower).height ≤ (extents upper).height := by
  induction hreaches with
  | refl => exact le_rfl
  | tail _ hreads ih => exact (h.height_le_of_reads hreads).trans ih

/-- A group that is read through an alternative comes above it again only if the alternative is a
selection without conjuncts. -/
theorem selectsAll_of_reaches {upper child : GroupId} {id : ExprId} {expr : MemoExpr}
    (hid : id ∈ memo.alternativesOf upper) (hexpr : memo.expr? id = some expr)
    (hlogical : expr.op.isLogical = true) (hchild : child ∈ expr.children)
    (hreaches : Relation.ReflTransGen memo.Reads (memo.master child) upper) :
    memo.SelectsAll expr := by
  have hle := h.height_le_of_reaches hreaches
  have hplain : expr.op.isEnforcer = false := by
    cases hop : expr.op with
    | physical op => simp [hop, Operator.isLogical, Operator.logical?] at hlogical
    | logical _ | scalar _ => rfl
  rcases h.height_lt hid hexpr hplain hchild with hlower | ⟨_, hstep, hchildren, _⟩
  · exact absurd hle (Nat.not_le.mpr hlower)
  · have hselect : expr.op = .logical .select := by
      cases hop : expr.op with
      | logical op =>
          rw [hop] at hstep
          cases op <;> simp_all [Operator.step?, LogicalOperator.step?, TableAccess.step]
      | physical _ | scalar _ => simp [hop, Operator.isLogical, Operator.logical?] at hlogical
    obtain ⟨input, rest, hgiven, _, hrest⟩ := List.map_eq_cons_iff.mp hchildren
    obtain ⟨predicate, tail, rfl, hcondition, htail⟩ := List.map_eq_cons_iff.mp hrest
    obtain rfl := List.map_eq_nil_iff.mp htail
    obtain ⟨found, hfound⟩ := exists_group?_eq_some.mpr
      (h.wellFormed.childKnown id expr hexpr predicate (by simp [hgiven]))
    have hfits := h.fits predicate found hfound
    rw [hcondition] at hfits
    cases hproperties : found.properties with
    | relation _ =>
        rw [hproperties] at hfits
        exact hfits.elim
    | scalar properties =>
        rw [hproperties] at hfits
        refine ⟨hselect, input, predicate, properties, hgiven, ?_, hfits⟩
        rw [Memo.properties, hfound, Option.map_some, hproperties]
        rfl

/-- Without idle selections no group comes below itself. -/
theorem acyclic (hidle : idle = false) (id : GroupId) : ¬ Relation.TransGen memo.Reads id id := by
  have hstep (parent child : GroupId) (hreads : memo.Reads parent child) :
      (extents child).height < (extents parent).height := by
    obtain ⟨_, id, expr, hid, hexpr, hplain, below, hbelow, rfl⟩ := hreads
    rcases h.height_lt hid hexpr hplain hbelow with hlower | ⟨htrue, _⟩
    · exact hlower
    · exact absurd (hidle.symm.trans htrue) Bool.false_ne_true
  have hfalls (lower : GroupId) (hpath : Relation.TransGen memo.Reads id lower) :
      (extents lower).height < (extents id).height := by
    induction hpath with
    | single hreads => exact hstep _ _ hreads
    | tail _ hreads ih => exact (hstep _ _ hreads).trans ih
  exact fun hcycle => Nat.lt_irrefl _ (hfalls id hcycle)

/-- Operators with an extent are those of the catalogue. -/
theorem isCatalogued_of_extents (id : ExprId) (expr : MemoExpr) (op : PhysicalOperator)
    (hexpr : memo.expr? id = some expr) (hop : expr.op = .physical op) : op.isCatalogued = true := by
  obtain ⟨taken, htaken, _⟩ := Extent.apply_eq_some.mp (h.computed id expr hexpr)
  rw [hop] at htaken
  cases op with
  | custom _ => simp [Operator.step?, PhysicalOperator.step?] at htaken
  | _ => rfl

end Models

/-- Whatever goes down from group to group ends, after as many levels as there are groups. -/
structure Descends (memo : Memo) : Prop where
  /-- No group comes below itself. -/
  acyclic : ∀ id, ¬ Relation.TransGen memo.Reads id id
  /-- Statistics can be derived, -/
  statistics : ∀ levels, memo.groups.size < levels → ∀ aborted id required,
    Planning.Lasts (Planning.deriveUpTo aborted levels id required) memo
  /-- and the plans of a group have a lower bound. -/
  bounds : ∀ levels, memo.groups.size < levels → ∀ model segments id required,
    Planning.Lasts (Planning.groupBoundBy (fun alternative required =>
      Planning.lowerBoundUpTo model segments levels alternative required none) id required) memo

/-- Without idle selections and enforcers everything ends. -/
theorem Models.descends {memo : Memo} {extents : GroupId → Extent}
    (h : memo.Models (Extent.reading false) extents) (hplain : memo.Plain) : memo.Descends := by
  have hacyclic := h.acyclic rfl
  have horder : IsStrictOrder GroupId (Relation.TransGen memo.Reads) :=
    { irrefl := hacyclic, trans := fun _ _ _ => .trans }
  have htame : memo.Tame (Relation.TransGen memo.Reads) :=
    { wellFormed := h.wellFormed
      catalogued := h.isCatalogued_of_extents
      enforcing := fun id expr hexpr henforcer =>
        absurd (hplain id expr hexpr) (by simp [henforcer])
      descending := fun _ _ => .single }
  exact
    { acyclic := hacyclic
      statistics := fun _ hlevels _ _ _ => Planning.lasts_deriveUpTo_of_size_lt htame hlevels
      bounds := fun _ hlevels _ _ _ _ => Planning.lasts_groupBoundBy_of_size_lt htame hlevels }

end Memo

/-! ## Exploration -/

namespace Planner

variable {planner : Planner} {limits : StageLimits} {rules : List Rule} {fuel : Nat} {root : GroupId}
  {state : SearchState} {queries : List Query}

/-- What becomes of a memo when a group is explored and duplicates are merged. An exploration that
fails counts with the memo it leaves. -/
def explored (planner : Planner) (limits : StageLimits) (rules : List Rule) (fuel : Nat)
    (root : GroupId) (state : SearchState) : Memo :=
  (exec (planner.exploreGroup limits rules fuel root) state).2.memo.mergeDuplicates

/-- What becomes of a memo when a group is implemented. -/
def implemented (planner : Planner) (rules : List Rule) (fuel : Nat) (root : GroupId)
    (state : SearchState) : Memo :=
  (exec (planner.implementGroup rules fuel root) state).2.memo

/-- Groups keep their extents in the exploration of queries. -/
theorem exists_extents {idle : Bool} (hlisted : ∀ rule ∈ rules, rule ∈ standardRules)
    (hstate : state.memo = (exec (Query.insertAll queries) {}).2)
    (h : idle = true ∨ ∀ query ∈ queries, query.Selective) :
    ∃ extents, (planner.explored limits rules fuel root state).Models (Extent.reading idle)
      extents := by
  have hinserted := Post.insertQueries
    (fun query hquery => Extent.reading_query? (h.imp_right fun hall => hall query hquery))
    (Memo.models_empty (Extent.reading idle) fun _ => .condition 0)
  obtain ⟨_, final, hexec, extents, hgrows, _⟩ | ⟨_, _, _, hfail⟩ := hinserted.exists_exec
  · have hmodels : state.memo.Models (Extent.reading idle) extents := by
      rw [hstate, hexec]
      exact hgrows.models
    have hrun : Searching.Preserves (Extent.reading idle) extents
        (planner.exploreGroup limits rules fuel root) state :=
      planner.preserves_exploreGroup
        (fun rule hrule => Extent.admitsRules.sound rule (hlisted rule hrule)) hmodels
    obtain ⟨extents', hexplored⟩ := hrun.exec_snd
    exact ⟨extents',
      (hexplored.models.regroups hexplored.models.wellFormed.mergeDuplicates).models⟩
  · exact hfail.elim

/-- The exploration of queries only fills the memo in. -/
theorem fills_explored (hlisted : ∀ rule ∈ rules, rule ∈ standardRules)
    (hstate : state.memo = (exec (Query.insertAll queries) {}).2) :
    Memo.Fills {} (planner.explored limits rules fuel root state) := by
  have hinserted : Memo.Fills {} state.memo := by
    rw [hstate]
    exact (Query.fills_insertAll queries {}).exec_snd
  exact (hinserted.trans (Post.exec_snd (P := fun final : SearchState => state.memo.Fills final.memo)
    (planner.fills_exploreGroup
      (fun rule hrule => standardRules_isPlain rule (hlisted rule hrule)) state))).mergeDuplicates

/-- Without idle selections, what was filled in from nothing descends. -/
theorem descends_of_fills {memo : Memo} {extents : GroupId → Extent} (hfills : Memo.Fills {} memo)
    (h : memo.Models (Extent.reading false) extents) : memo.Descends :=
  h.descends (hfills.plain .empty fun id expr hexpr => by simp [Memo.expr?] at hexpr)

/-- Memos still descend when groups in them were implemented. -/
theorem descends_implemented {extents : GroupId → Extent}
    (hlisted : ∀ rule ∈ rules, rule ∈ standardRules) (hfills : Memo.Fills {} state.memo)
    (h : state.memo.Models (Extent.reading false) extents) :
    (planner.implemented rules fuel root state).Descends := by
  have hrun : Searching.Preserves (Extent.reading false) extents
      (planner.implementGroup rules fuel root) state :=
    planner.preserves_implementGroup
      (fun rule hrule => Extent.admitsRules.sound rule (hlisted rule hrule)) h
  obtain ⟨extents', hgrows⟩ := hrun.exec_snd
  exact descends_of_fills (hfills.trans (Post.exec_snd
    (P := fun final : SearchState => state.memo.Fills final.memo) (planner.fills_implementGroup
      (fun rule hrule => standardRules_isPlain rule (hlisted rule hrule)) state))) hgrows.models

/-- Take any queries and a run of the exploration of a group by the standard rules, whatever budget
it has and however it ends, and merge the duplicates. A group comes below itself only through
selections without conjuncts, and statistics can be reset in any case. When all selections of the
queries have conjuncts, no group comes below itself, and all that goes down from group to group ends,
also after groups were implemented. -/
theorem acyclic_explored (hstate : state.memo = (exec (Query.insertAll queries) {}).2)
    (hlisted : ∀ rule ∈ rules, rule ∈ standardRules) :
    let final := planner.explored limits rules fuel root state
    (∀ upper id expr child, id ∈ final.alternativesOf upper → final.expr? id = some expr →
      expr.op.isLogical = true → child ∈ expr.children →
      Relation.ReflTransGen final.Reads (final.master child) upper → final.SelectsAll expr) ∧
    (∀ start, Planning.Lasts Planning.resetStatistics { final with root := start }) ∧
    ((∀ query ∈ queries, query.Selective) →
      final.Descends ∧ ∀ (planner : Planner) (fuel : Nat) (id : GroupId) (later : SearchState),
        later.memo = final → (planner.implemented rules fuel id later).Descends) := by
  intro final
  have hfills : Memo.Fills {} final := fills_explored hlisted hstate
  obtain ⟨_, hidle⟩ : ∃ extents, final.Models (Extent.reading true) extents :=
    exists_extents hlisted hstate (.inl rfl)
  refine ⟨fun upper id expr child => hidle.selectsAll_of_reaches, fun start => ?_,
    fun hselective => ?_⟩
  · exact Planning.lasts_resetStatistics (Memo.sameContent_setRoot.wellFormed hidle.wellFormed)
  · obtain ⟨_, hmodels⟩ : ∃ extents, final.Models (Extent.reading false) extents :=
      exists_extents hlisted hstate (.inr hselective)
    refine ⟨descends_of_fills hfills hmodels, fun planner fuel id later hlater => ?_⟩
    exact descends_implemented hlisted (hlater ▸ hfills) (hlater ▸ hmodels)

/-- Everything ends after the exploration of a selection above a join of three tables. -/
theorem descends_explored_chained :
    let start : SearchState := { memo := (exec (Query.insertAll [.chained]) {}).2 }
    (∀ query ∈ [Query.chained], query.Selective) ∧ (exploring.explored {}
      (standardRules.filter (·.kind == .transformation)) 64 ⟨8⟩ start).Descends := by
  intro start
  have hselective : ∀ query ∈ [Query.chained], query.Selective :=
    List.forall_mem_singleton.mpr ⟨⟨⟨trivial, trivial⟩, trivial⟩, by decide⟩
  have hstate : start.memo = (exec (Query.insertAll [.chained]) {}).2 := rfl
  exact ⟨hselective, ((acyclic_explored hstate fun _ => List.mem_of_mem_filter).2.2
    hselective).1⟩

end Planner

/-- A selection that keeps all rows of a join. -/
def Query.idle : Query :=
  select (join (get (.single 0)) (get (.single 1)) (.equate 0 1)) .always

/-- The exploration of an idle selection above a join leaves a group that reads itself, and whose
statistics are not derived in as many levels as there are groups. -/
theorem Memo.reads_itself_idle :
    let final := Planner.exploring.explored {} (standardRules.filter (·.kind == .transformation)) 64
      ⟨5⟩ { memo := (exec (Query.insertAll [.idle]) {}).2 }
    final.Reads ⟨5⟩ ⟨5⟩ ∧
      ¬ Planning.Lasts (Planning.deriveUpTo false (final.groups.size + 1) ⟨5⟩ .empty) final := by
  intro final
  constructor
  · have hmaster : final.master ⟨5⟩ = ⟨5⟩ := by decide +kernel
    have hlisted : (⟨5⟩ : ExprId) ∈ final.alternativesOf ⟨5⟩ := by decide +kernel
    have hread : (final.expr? ⟨5⟩).any (fun expr =>
        !expr.op.isEnforcer && expr.children.any (final.master · == ⟨5⟩)) = true := by
      decide +kernel
    obtain ⟨expr, hexpr, hread⟩ := (Option.any_eq_true _ _).mp hread
    obtain ⟨hplain, hchild⟩ := Bool.and_eq_true_iff.mp hread
    obtain ⟨child, hchild, hgroup⟩ := List.any_eq_true.mp hchild
    exact ⟨hmaster, ⟨5⟩, expr, hlisted, hexpr, by simpa using hplain, child, hchild,
      eq_of_beq hgroup⟩
  · intro hlasts
    have hfails : ((exec (Planning.deriveUpTo false (final.groups.size + 1) ⟨5⟩ .empty) final).1.map
        fun _ => ()).mapError PlanningError.kindName = .error "OutOfFuel" := by
      decide +kernel
    obtain ⟨_, _, hexec, _⟩ | ⟨error, _, hexec, herror⟩ := hlasts.exists_exec
    · simp [hexec, Except.map, Except.mapError] at hfails
    · cases error <;>
        simp_all [Except.map, Except.mapError, PlanningError.kindName]

end QueryPlanner
