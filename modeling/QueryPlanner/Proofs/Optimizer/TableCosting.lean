import QueryPlanner.Proofs.Optimizer.Lasting
import QueryPlanner.Proofs.Optimizer.TableMemo

/-!
# Costing the alternatives of a table

In the group of a table nothing that the planner looks up is missing, so its computations succeed, and
they keep what was planned in order (`TableRun.Does`). An alternative over chosen plans (`TableRun.Over`)
is costed and offered to its context, and the enforcers that could go above it are inserted. This
module says so for each computation that the planner does with one alternative of the group.
-/

namespace QueryPlanner

open Memo (SameContent SameQuery Evolves)
open Planning (Post)

/-- Whether plans go together does not depend on the statistics of groups. -/
theorem Optimizer.validCombination_bare {op : PhysicalOperator} {view : ExprView} :
    validCombination op view.bare = validCombination op view := by
  unfold validCombination
  rw [ExprView.bare_firstRelationalPlan?, ExprView.bare_childPlans]

namespace TableRun

variable {run : TableRun} {memo memo' : Memo} {held : List ContextId} {own : ContextId}
  {required : PlanRequirement} {op : PhysicalOperator}

/-! ## Computations that go on -/

/-- The optimization of the context goes on by a computation that does not fail. -/
def Does {α : Type} (run : TableRun) (held : List ContextId) (own : ContextId)
    (required : PlanRequirement) (action : Planning α) (memo : Memo) (ok : α → Memo → Prop) : Prop :=
  Post action memo (fun value final => run.Proceeds held own required memo final ∧ ok value final)
    (fun _ _ => False)

namespace Does

variable {α β : Type} {ok : α → Memo → Prop}

theorem pure {value : α} (h : run.At held own required memo) (hok : ok value memo) :
    run.Does held own required (pure value) memo ok :=
  Post.pure ⟨.refl h, hok⟩

theorem mono {action : Planning α} {ok' : α → Memo → Prop}
    (h : run.Does held own required action memo ok)
    (hok : ∀ value final, run.Proceeds held own required memo final → ok value final →
      ok' value final) : run.Does held own required action memo ok' :=
  Post.mono h (fun value final hfinal => ⟨hfinal.1, hok value final hfinal.1 hfinal.2⟩)
    fun _ _ hfail => hfail

/-- Going on from a later memo. -/
theorem after {action : Planning α} (hproceeds : run.Proceeds held own required memo memo')
    (h : run.Does held own required action memo' ok) :
    Post action memo' (fun value final => run.Proceeds held own required memo final ∧ ok value final)
      (fun _ _ => False) :=
  Post.mono h (fun _ _ hfinal => ⟨hproceeds.trans hfinal.1, hfinal.2⟩) fun _ _ hfail => hfail

/-- Two computations one after the other. -/
theorem bind {action : Planning α} {next : α → Planning β} {ok' : β → Memo → Prop}
    (h : run.Does held own required action memo ok)
    (hnext : ∀ value middle, run.Proceeds held own required memo middle → ok value middle →
      run.Does held own required (next value) middle ok') :
    run.Does held own required (action >>= next) memo ok' :=
  Post.andThen h (fun _ _ hfail => hfail) fun value middle hmiddle =>
    after hmiddle.1 (hnext value middle hmiddle.1 hmiddle.2)

/-- A computation that only looks. -/
theorem quiet {action : Planning α} (h : run.At held own required memo)
    (hlooks : Post action memo (fun value final => SameContent memo final ∧ ok value final)
      (fun _ _ => False)) : run.Does held own required action memo ok :=
  hlooks.mono (fun _ _ hfinal => ⟨h.quiet hfinal.1, hfinal.2⟩) fun _ _ hfail => hfail

section LookUps

variable {ok : β → Memo → Prop}

theorem expr {id : ExprId} {found : MemoExpr} {next : MemoExpr → Planning β}
    (hfound : memo.expr? id = some found) (h : run.Does held own required (next found) memo ok) :
    run.Does held own required (Planning.expr id >>= next) memo ok :=
  Post.bind (Post.expr (fun _ hagain => Option.some.inj (hfound.symm.trans hagain) ▸ h)
    fun hnone => by simp [hnone] at hfound)

theorem context {id : ContextId} {found : Context} {next : Context → Planning β}
    (hfound : memo.context? id = some found) (h : run.Does held own required (next found) memo ok) :
    run.Does held own required (Planning.context id >>= next) memo ok :=
  Post.bind (Post.context (fun _ hagain => Option.some.inj (hfound.symm.trans hagain) ▸ h)
    fun hnone => by simp [hnone] at hfound)

theorem costing {id : CostingId} {found : Costing} {next : Costing → Planning β}
    (hfound : memo.costing? id = some found) (h : run.Does held own required (next found) memo ok) :
    run.Does held own required (Planning.costing id >>= next) memo ok :=
  Post.bind (Post.costing (fun _ hagain => Option.some.inj (hfound.symm.trans hagain) ▸ h)
    fun hnone => by simp [hnone] at hfound)

theorem checkAbort {aborted : Bool} {next : Unit → Planning β} (haborted : aborted = false)
    (h : run.Does held own required (next ()) memo ok) :
    run.Does held own required (Planning.checkAbort aborted >>= next) memo ok :=
  Post.bind (Post.checkAbort (fun _ => h) fun habort => by simp [haborted] at habort)

end LookUps

end Does

/-! ## The best costing of the own context -/

/-- No alternative of the group joins. -/
theorem Good.isJoinCosting {costing : Costing} (hgood : run.Good memo costing)
    (h : run.Stands memo) : memo.isJoinCosting costing = false := by
  obtain ⟨expr, hexpr, hbelongs⟩ := h.belongs _ hgood.listed
  unfold Memo.isJoinCosting Memo.physical? Memo.op?
  rw [hexpr, Option.map_some, Option.bind_some]
  have hop := hbelongs.op
  simp only [roster, List.mem_cons, List.mem_map] at hop
  rcases hop with hop | hop | ⟨op, hop, hsame⟩
  · rw [hop]
    rfl
  · rw [hop]
    rfl
  · rw [← hsame]
    cases helps_of_mem hop <;> rfl

/-- Two costings of the group are compared at a glance. -/
theorem does_betterThan {left right : Costing} (h : run.At held own required memo)
    (hleft : run.Good memo left) :
    run.Does held own required (Planning.betterThan left right) memo fun _ final => final = memo := by
  have hnone : memo.comparedJoins left right = [] := by
    unfold Memo.comparedJoins
    rw [hleft.isJoinCosting h.toStands, Bool.and_false, Bool.false_and]
    rfl
  unfold Planning.betterThan
  refine Post.bind (Post.get ?_)
  rw [hnone]
  exact Post.bind (Post.pure (Post.bind (Post.get (Post.pure ⟨.refl h, rfl⟩))))

theorem does_mayReplace {candidate recorded : Costing} (h : run.At held own required memo)
    (hgood : run.Good memo candidate) :
    run.Does held own required (Planning.mayReplace candidate recorded) memo
      fun _ final => final = memo := by
  unfold Planning.mayReplace
  split
  · exact Does.pure h rfl
  · split
    · exact Does.pure h rfl
    · exact does_betterThan h hgood

/-- The own context has a best plan once a good costing was offered to it. -/
theorem does_updateBest {id : CostingId} {candidate : Costing} (h : run.At held own required memo)
    (hcosting : memo.costing? id = some candidate) (hown : candidate.context = own)
    (hgood : run.Good memo candidate) :
    run.Does held own required (Planning.updateBest id) memo
      fun _ final => (final.best? own).isSome := by
  obtain ⟨context, hentry, _⟩ := h.busy
  refine Does.costing hcosting ?_
  rw [if_neg (by simp [hgood.pruned])]
  refine Does.context (hown ▸ hentry.found) ?_
  extract_lets current finish
  have hfinish (improves : Bool) (hkept : improves = false → context.best.isSome) :
      run.Does held own required (finish improves) memo
        fun _ final => (final.best? own).isSome := by
    cases improves with
    | true =>
        have hset := h.setBest hcosting hown hgood
        exact Post.bind (Post.modify (Post.pure hset))
    | false =>
        refine Does.pure h ?_
        rw [Memo.best?, hentry.found]
        exact hkept rfl
  have hcurrent : current = context.best := rfl
  clear_value current
  subst hcurrent
  cases hbest : context.best with
  | none => exact Post.bind (Post.pure (hfinish true (by simp)))
  | some best =>
      dsimp only
      split
      · exact Post.bind (Post.pure (hfinish false (by simp [hbest])))
      · obtain ⟨costing, hfound, _⟩ := hentry.best best hbest
        refine Does.costing hfound ?_
        refine Does.bind (does_betterThan h hgood) fun improves middle _ hsame => ?_
        subst hsame
        exact hfinish improves (by simp [hbest])

/-- A costing is recorded for a request of a context. -/
def Slotted (memo : Memo) (id : ExprId) (own : ContextId) (request : Nat) : Prop :=
  ∃ expr, memo.expr? id = some expr ∧ (expr.costings.lookup (own, request)).isSome

/-- What is recorded with an alternative of the group is found and good. -/
theorem At.exists_recorded (h : run.At held own required memo) {id : ExprId} {expr : MemoExpr}
    (hid : id ∈ memo.alternativesOf run.group) (hexpr : memo.expr? id = some expr)
    {request : Nat} {recorded : CostingId}
    (hrecorded : expr.costings.lookup (own, request) = some recorded) :
    ∃ costing, memo.costing? recorded = some costing ∧ costing.context = own ∧
      run.Good memo costing := by
  obtain ⟨before, after, hentries, _⟩ := List.lookup_eq_some_iff.mp hrecorded
  exact h.slots id hid expr hexpr ((own, request), recorded) (by simp [hentries])

/-- A costing that is recorded for a request becomes the best one if there is none yet. -/
theorem does_installRecorded {id : ExprId} {request : Nat} (h : run.At held own required memo)
    (hid : id ∈ memo.alternativesOf run.group) :
    run.Does held own required (Optimizer.installRecorded id own request) memo
      fun installed final => (installed = true → (final.best? own).isSome) ∧
        (Slotted memo id own request → installed = true) := by
  obtain ⟨expr, hexpr, _⟩ := h.belongs id hid
  refine Does.expr hexpr ?_
  split
  · rename_i recorded hrecorded
    obtain ⟨costing, hcosting, hown, hgood⟩ := h.exists_recorded hid hexpr hrecorded
    refine Does.bind (does_updateBest h hcosting hown hgood) fun _ final hfinal hbest => ?_
    exact Does.pure hfinal.still ⟨fun _ => hbest, fun _ => rfl⟩
  · rename_i hnone
    refine Does.pure h ⟨by simp, ?_⟩
    rintro ⟨again, hagain, hslot⟩
    obtain rfl := Option.some.inj (hexpr.symm.trans hagain)
    simp [hnone] at hslot

/-- A good costing is recorded for its request, unless another one stays. -/
theorem does_insertCosting {candidate : Costing} (h : run.At held own required memo)
    (hown : candidate.context = own) (hgood : run.Good memo candidate) :
    run.Does held own required (Planning.insertCosting candidate) memo
      fun added final => (∀ id ∈ added, run.Slot final ((own, candidate.request), id)) ∧
        (added = none → Slotted final candidate.expr own candidate.request) := by
  obtain ⟨expr, hexpr, _⟩ := h.belongs _ hgood.listed
  -- the new costing is registered for its context and request
  have hadd := h.toInOrder.addCosting (own :: held) hgood
  have hnew : (memo.addCosting candidate).costing? ⟨memo.costings.size⟩ = some candidate := by
    rw [Memo.costing?_addCosting, if_pos rfl]
  have hadded := h.step hadd.1 hadd.2
  have hslot : run.Slot (memo.addCosting candidate)
      ((own, candidate.request), ⟨memo.costings.size⟩) :=
    ⟨candidate, hnew, hown, hgood.evolves hadd.1⟩
  refine Does.expr hexpr ?_
  rw [hown]
  split
  · refine Post.bind (Post.get (Post.bind (Post.modify (Post.pure ⟨hadded, ?_⟩))))
    exact ⟨fun id hid => Option.some.inj hid ▸ hslot, by simp⟩
  · rename_i recorded hrecorded
    obtain ⟨costing, hcosting, hcontext, hrecordedGood⟩ :=
      h.exists_recorded hgood.listed hexpr hrecorded
    refine Does.costing hcosting ?_
    refine Does.bind (does_mayReplace h hgood) fun replaces middle _ hsame => ?_
    subst hsame
    split
    · refine Post.bind (Post.get (Post.bind (Post.modify ?_)))
      refine Does.after hadded ?_
      obtain ⟨context, hentry, _⟩ := hadded.still.busy
      refine Does.context hentry.found ?_
      split
      · obtain ⟨hset, _⟩ := hadded.still.setBest hnew hown (hgood.evolves hadd.1)
        exact Post.bind (Post.modify (Post.pure ⟨hset, fun id hid =>
          Option.some.inj hid ▸ hslot.evolves hset.evolves, by simp⟩))
      · exact Does.pure hadded.still ⟨fun id hid => Option.some.inj hid ▸ hslot, by simp⟩
    · exact Does.pure h ⟨by simp, fun _ => ⟨expr, hexpr, by simp [hrecorded]⟩⟩

/-! ## Statistics -/

/-- The statistics of the group come from the access to the table. -/
theorem post_statisticsSource (h : run.Stands memo) {id : GroupId} {group : Group}
    {wanted : ColumnSet} (hgroup : memo.group? run.group = some group) :
    Post (Planning.statisticsSource id group wanted) memo
      (fun source final => SameContent memo final ∧ ∃ expr, memo.expr? source.expr = some expr ∧
        expr.op = .logical (.get run.access) ∧ expr.children = [])
      (fun _ _ => False) := by
  have hlist : memo.alternativesOf run.group = group.alternatives := by
    rw [Memo.alternativesOf, hgroup]
    rfl
  -- of the alternatives in the group only the table itself is logical
  have hsource {alternative : ExprId} {source : StatisticsSource}
      (hlisted : alternative ∈ group.alternatives) {limited : Bool}
      (hfound : memo.statisticsSource? limited alternative = some source) :
      ∃ expr, memo.expr? source.expr = some expr ∧ expr.op = .logical (.get run.access) ∧
        expr.children = [] := by
    obtain ⟨expr, hexpr, hbelongs⟩ := h.belongs alternative (hlist ▸ hlisted)
    unfold Memo.statisticsSource? at hfound
    rw [hexpr, Option.bind_eq_bind, Option.bind_some] at hfound
    obtain ⟨op, hop, hfound⟩ := Option.bind_eq_some_iff.mp hfound
    obtain rfl : source.expr = alternative := by
      split at hfound
      · exact absurd hfound (by simp)
      · rw [← Option.some.inj hfound]
    obtain hget : expr.op = .logical (.get run.access) := by
      have hmem := hbelongs.op
      simp only [roster, List.mem_cons, List.mem_map] at hmem
      rcases hmem with hmem | hmem | ⟨_, _, hmem⟩
      · exact hmem
      · simp [hmem, Operator.logical?] at hop
      · simp [← hmem, Operator.logical?] at hop
    exact ⟨expr, hexpr, hget, by rw [hbelongs.children, hget]; rfl⟩
  -- and it promises statistics
  have hsome : memo.statisticsSources group ≠ [] := by
    obtain ⟨id, hid, hop⟩ := h.get
    obtain ⟨expr, hexpr, hget⟩ := Option.map_eq_some_iff.mp hop
    have hoffers (limited : Bool) : (memo.statisticsSource? limited id).isSome = true := by
      unfold Memo.statisticsSource?
      simp only [hexpr, hget, Operator.logical?, Option.bind_eq_bind, Option.bind_some]
      rfl
    obtain ⟨source, hsource⟩ := Option.isSome_iff_exists.mp (hoffers _)
    exact List.ne_nil_of_mem (List.mem_filterMap.mpr ⟨id, hlist ▸ hid, hsource⟩)
  unfold Planning.statisticsSource
  refine Post.bind (Post.get (Post.bind (Post.modify ?_)))
  obtain ⟨source, hbest⟩ := Option.isSome_iff_exists.mp (Planning.StatisticsSource.best?_isSome hsome)
  rw [hbest]
  refine Post.pure ⟨Memo.sameContent_compressAll, ?_⟩
  obtain ⟨alternative, hlisted, hfound⟩ :=
    List.mem_filterMap.mp (Planning.StatisticsSource.mem_of_best? hbest)
  exact hsource hlisted hfound

/-- The statistics of the group can be derived. -/
theorem post_deriveUpTo (h : run.Stands memo) {fuel : Nat} {wanted : ColumnSet} :
    Post (Planning.deriveUpTo false (fuel + 1) run.group wanted) memo (fun _ _ => True)
      (fun _ _ => False) := by
  unfold Planning.deriveUpTo
  refine Post.bind (Post.checkAbort (fun _ => ?_) (by simp))
  refine (Post.resolve h.known).andThen (fun _ _ hfail => hfail) ?_
  rintro _ looked ⟨rfl, hlooked⟩
  rw [h.master]
  replace h := h.sameQuery hlooked.sameQuery
  refine Post.bind (Post.group (fun group hgroup => ?_) fun hnone => ?_)
  · have hproperties : group.properties = .relation run.logical := by
      rw [← h.properties, Memo.properties, hgroup]
      rfl
    rw [hproperties]
    dsimp only
    split
    · exact Post.pure trivial
    · refine (post_statisticsSource h hgroup).andThen (fun _ _ hfail => hfail) ?_
      rintro source found ⟨hfound, before, hbefore, hget, hleaf⟩
      refine Post.bind (Post.expr (fun expr hexpr => ?_) fun hnone => ?_)
      · obtain ⟨expr', hexpr', hcontent⟩ := hfound.exists_expr hbefore
        obtain rfl := Option.some.inj (hexpr.symm.trans hexpr')
        rw [show expr.op = _ from (congrArg (·.op) hcontent).trans hget,
          show expr.children = [] from (congrArg (·.children) hcontent).trans hleaf]
        refine Post.bind (Post.pure (Post.bind (Post.pure (Post.bind (Post.pure (Post.bind
          (Post.get (Post.bind (Post.modify (Post.bind (Post.group (fun _ _ => Post.pure trivial)
            fun hnone => ?_)))))))))))
        rw [Memo.group?_eq_none, Memo.sameContent_addStatistics.groups_size,
          hfound.groups_size] at hnone
        exact absurd h.known (Nat.not_lt.mpr hnone)
      · obtain ⟨expr', hexpr', _⟩ := hfound.exists_expr hbefore
        simp [hexpr'] at hnone
  · exact absurd h.known (Nat.not_lt.mpr (Memo.group?_eq_none.mp hnone))

theorem does_contextStatistics {aborted : Bool} (haborted : aborted = false)
    (h : run.At held own required memo) :
    run.Does held own required (Planning.contextStatistics aborted own) memo fun _ _ => True := by
  subst haborted
  obtain ⟨context, hentry, _⟩ := h.busy
  have hgroup : context.group = run.group := congrArg Prod.fst hentry.goal
  have hsucceeds : Post (Planning.contextStatistics false own) memo (fun _ _ => True)
      (fun _ _ => False) := by
    unfold Planning.contextStatistics
    refine Post.bind (Post.context (fun again hagain => ?_) fun hnone =>
      absurd hentry.found (by simp [hnone]))
    obtain rfl := Option.some.inj (hentry.found.symm.trans hagain)
    rw [hgroup]
    refine (Post.resolve h.known).andThen (fun _ _ hfail => hfail) ?_
    rintro _ looked ⟨rfl, hlooked⟩
    rw [h.master]
    have hstands := h.toStands.sameQuery hlooked.sameQuery
    refine Post.bind (Post.group (fun found _ => ?_) fun hnone =>
      absurd hstands.known (Nat.not_lt.mpr (Memo.group?_eq_none.mp hnone)))
    split
    · exact Post.pure trivial
    · exact Post.bind (Post.bind (Post.get ((post_deriveUpTo hstands).mono
        (fun _ _ _ => Post.bind (Post.modify (Post.pure trivial))) fun _ _ hfail => hfail)))
  exact Does.quiet h ((hsucceeds.both (Planning.keeps_contextStatistics memo)).mono
    (fun _ _ hfinal => ⟨hfinal.2, trivial⟩) fun _ _ hfail => hfail.1)

/-! ## Alternatives over plans -/

/-- An alternative of the group over chosen plans: what it delivers, and whether the plans go together
below it. -/
structure Over (run : TableRun) (memo : Memo) (id : ExprId) (op : PhysicalOperator)
    (contexts : List (Option ContextId)) (fits : Bool) (delivered : PlanProperties) : Prop where
  listed : id ∈ memo.alternativesOf run.group
  chosen : ∀ child, some child ∈ contexts → ∃ context costing, memo.Chosen child context costing
  found : ∃ expr, memo.expr? id = some expr ∧ expr.op = .physical op ∧
    contexts.length = expr.children.length ∧
    Optimizer.validCombination op (memo.planView id expr contexts) = fits ∧
    op.delivered (memo.planView id expr contexts) = delivered

namespace Over

variable {id : ExprId} {contexts : List (Option ContextId)} {fits : Bool}
  {delivered : PlanProperties}

theorem evolves (h : run.Over memo id op contexts fits delivered)
    (hevolves : Evolves held memo memo') : run.Over memo' id op contexts fits delivered := by
  obtain ⟨expr, hexpr, hop, hlength, hfits, hdelivered⟩ := h.found
  obtain ⟨expr', hexpr', hop', hchildren', hgroup'⟩ := hevolves.expr id expr hexpr
  have hview := hevolves.planView id hop' hchildren' hgroup' h.chosen
  refine ⟨(hevolves.alternatives _).subset h.listed, fun child hchild => ?_,
    expr', hexpr', hop'.trans hop, by rw [hchildren', hlength], by rw [hview, hfits],
    by rw [hview, hdelivered]⟩
  obtain ⟨context, costing, hchosen⟩ := h.chosen child hchild
  exact ⟨context, costing, hchosen.evolves hevolves⟩

/-- What is seen over the plans. -/
theorem does_viewOver (hover : run.Over memo id op contexts fits delivered)
    (h : run.At held own required memo) (wanted : PlanRequirement) :
    run.Does held own required (Optimizer.viewOver id contexts wanted) memo fun view _ =>
      Optimizer.validCombination op view = fits ∧ op.delivered view = delivered ∧
        view.logical = run.logical := by
  obtain ⟨expr, hexpr, hop, _, hfits, hdelivered⟩ := hover.found
  obtain ⟨expr', hexpr', hbelongs⟩ := h.belongs id hover.listed
  obtain rfl := Option.some.inj (hexpr.symm.trans hexpr')
  refine Does.quiet h ((Post.viewOver h.wellFormed hexpr fun child hchild => ?_).mono
    (fun view final hfinal => ⟨hfinal.1, ?_⟩) fun _ _ hfail => hfail)
  · obtain ⟨_, _, hchosen⟩ := hover.chosen child hchild
    exact hchosen.readable
  · have hview : view.bare = (memo.planView id expr contexts).withRequired wanted := hfinal.2
    refine ⟨?_, ?_, ?_⟩
    · rw [← Optimizer.validCombination_bare, hview, ← hfits]
      rfl
    · rw [← PhysicalOperator.delivered_bare, hview, PhysicalOperator.delivered_withRequired,
        hdelivered]
    · rw [← ExprView.bare_logical, hview]
      show (memo.overContextsFrom 0 contexts (memo.bareView id expr)).logical = _
      rw [Memo.overContextsFrom_logical]
      show memo.logical (memo.master expr.group) = _
      rw [hbelongs.group, h.master, h.toStands.logical]

end Over

section Planner

variable {id : ExprId} {contexts : List (Option ContextId)} {fits : Bool}
  {delivered : PlanProperties} {request : Nat}
  (haborted : run.planner.aborted = false)
include haborted

/-- Costing an alternative records a good costing, unless the plans do not go together, the requirement
is missed, or there is a costing already. -/
theorem does_cost (h : run.At held own required memo)
    (hover : run.Over memo id op contexts fits delivered)
    (hdelivers : run.Delivers required delivered) :
    run.Does held own required (run.planner.cost id own request contexts) memo fun costed final =>
      (∀ found ∈ costed, run.Slot final ((own, request), found)) ∧
      (fits = true → required.isSatisfiedBy run.logical delivered = true → costed = none →
        Slotted final id own request) := by
  obtain ⟨expr, hexpr, hop, hlength, hfits, hdelivered⟩ := hover.found
  obtain ⟨context, hentry, _⟩ := h.busy
  have hrequired : context.required = required := congrArg Prod.snd hentry.goal
  unfold Planner.cost
  refine Does.checkAbort haborted (Does.expr hexpr ?_)
  rw [hop]
  dsimp only
  -- what was recorded before is read, and left as it is
  have hlooked : run.Does held own required
      ((expr.costings.lookup (own, request)).mapM Planning.costing) memo fun recorded final =>
        final = memo ∧ (recorded.isSome → (expr.costings.lookup (own, request)).isSome) := by
    cases hrecorded : expr.costings.lookup (own, request) with
    | none => exact Does.pure h ⟨rfl, by simp⟩
    | some recorded =>
        obtain ⟨costing, hcosting, _⟩ := h.exists_recorded hover.listed hexpr hrecorded
        exact Does.costing hcosting (Does.pure h ⟨rfl, by simp⟩)
  refine Does.bind hlooked fun recorded middle _ ⟨hsame, hslot⟩ => ?_
  subst hsame
  split
  · rename_i hsame
    refine Does.pure h ⟨by simp, fun _ _ _ => ⟨expr, hexpr, hslot ?_⟩⟩
    cases recorded with
    | none => simp at hsame
    | some _ => rfl
  · refine Does.context hentry.found ?_
    refine Does.bind (hover.does_viewOver h _) fun view viewed hviewed ⟨hvalid, hsees, hlogical⟩ => ?_
    rw [hvalid, hsees, hlogical, hrequired]
    split
    -- the alternative does not fit over these plans, or does not meet the requirement
    · rename_i hmisfit
      exact Does.pure hviewed.still ⟨by simp, fun hfit => by simp [hfit] at hmisfit⟩
    · split
      · rename_i hmissed
        exact Does.pure hviewed.still ⟨by simp, fun _ hmeets => by simp [hmeets] at hmissed⟩
      · rename_i hmeets
        rw [Bool.not_eq_true, Bool.not_eq_false'] at hmeets
        refine Does.bind (does_contextStatistics haborted hviewed.still)
          fun statistics derived hderived _ => ?_
        have hnow := (hover.evolves hviewed.evolves).evolves hderived.evolves
        refine Post.andThen (Post.inputsOf fun child hchild => hnow.chosen child
          (by simpa using hchild)) (fun _ _ hfail => hfail) ?_
        rintro _ final ⟨rfl, rfl⟩
        have hstill := hviewed.trans hderived
        obtain ⟨context', hentry', _⟩ := hstill.still.busy
        have hrequired' : context'.required = required := congrArg Prod.snd hentry'.goal
        refine Does.mono (does_insertCosting hstill.still rfl ⟨rfl, hnow.listed, context', delivered,
          hentry'.found, rfl, ?_, ?_⟩) fun _ _ _ hadded => ⟨hadded.1, fun _ _ => hadded.2⟩
        · rw [hrequired']
          exact hmeets
        · rw [hrequired']
          exact hdelivers

/-- The own context has a best plan once an alternative was costed that meets the requirement. -/
theorem does_costAndOffer (h : run.At held own required memo)
    (hover : run.Over memo id op contexts fits delivered)
    (hdelivers : run.Delivers required delivered) :
    run.Does held own required (do
        match ← run.planner.cost id own request contexts with
        | some costed =>
          let _ ← Planning.updateBest costed
        | none =>
          let _ ← Optimizer.installRecorded id own request) memo fun _ final =>
      fits = true → required.isSatisfiedBy run.logical delivered = true →
        (final.best? own).isSome := by
  refine Does.bind (does_cost haborted h hover hdelivers)
    fun costed current hcurrent ⟨hcosted, hslot⟩ => ?_
  cases costed with
  | some found =>
      obtain ⟨costing, hcosting, hown, hgood⟩ := hcosted found rfl
      refine Does.bind (does_updateBest hcurrent.still hcosting hown hgood)
        fun _ final hfinal hbest => Does.pure hfinal.still fun _ _ => hbest
  | none =>
      refine Does.bind (does_installRecorded hcurrent.still
        (hover.evolves hcurrent.evolves).listed) fun _ final hfinal ⟨hbest, hinstalled⟩ =>
          Does.pure hfinal.still fun hfits hmeets => ?_
      exact hbest (hinstalled (hslot hfits hmeets rfl))

end Planner

/-! ## Adding enforcers -/

/-- An enforcer that helps is listed once it was inserted. -/
theorem does_insert (h : run.At held own required memo) (hmem : op ∈ run.helpers)
    (origin : Option Origin) :
    run.Does held own required
      (Planning.insert (.physical op) [run.group] (some run.group) origin) memo
      fun _ final => run.Lists final op := by
  have hop := helps_of_mem hmem
  refine (Planning.Post.insertAbove h.wellFormed (h.master.symm ▸ h.toStands.enclosesEnforcers)
    h.known hop.isCatalogued hop.isEnforcer).mono ?_ fun _ _ hfail => hfail
  rintro _ _ ⟨middle, hsame, hfinal⟩
  rw [h.master] at hfinal
  have hmiddle := h.quiet hsame
  rcases hfinal with ⟨htwin, rfl⟩ | ⟨hnone, rfl⟩
  · obtain ⟨twin, htwin⟩ := Option.isSome_iff_exists.mp htwin
    exact ⟨hmiddle, (h.toStands.lists_of_findTwin? hop htwin).evolves hmiddle.evolves⟩
  · rw [← hsame.findTwin?] at hnone
    obtain ⟨hevolves, horder, hlists⟩ :=
      hmiddle.still.toInOrder.addAlternative (own :: held) hop hmem hnone origin
    exact ⟨hmiddle.trans (hmiddle.still.step hevolves horder), hlists⟩

theorem does_addEnforcers {enforcers : List PhysicalOperator} {source : ExprId}
    (h : run.At held own required memo) (hmem : ∀ enforcer ∈ enforcers, enforcer ∈ run.helpers) :
    run.Does held own required (Optimizer.addEnforcers run.group source enforcers) memo
      fun _ final => ∀ enforcer ∈ enforcers, run.Lists final enforcer := by
  induction enforcers generalizing memo with
  | nil => exact Does.pure h (by simp)
  | cons first rest ih =>
      have hfirst : run.Does held own required
          (do
            let _ ← Planning.insert (.physical first) [run.group] (some run.group)
              (some { rule := Optimizer.enforcerRule, source }))
          memo fun _ final => run.Lists final first :=
        Does.bind (does_insert h (hmem first (by simp)) _) fun _ _ hfinal hlists =>
          Does.pure hfinal.still hlists
      refine Does.bind hfirst fun _ middle hmiddle hlists => ?_
      refine Does.mono (ih hmiddle.still fun other hother => hmem other (by simp [hother]))
        fun _ final hfinal hrest other hother => ?_
      rcases List.mem_cons.mp hother with rfl | hother
      · exact hlists.evolves hfinal.evolves
      · exact hrest other hother

/-- The enforcers on offer above an alternative are listed afterwards. -/
theorem does_enforce {id : ExprId} {contexts : List (Option ContextId)} {fits : Bool}
    {delivered : PlanProperties} {context : Context} (h : run.At held own required memo)
    (hgoal : context.goal = (run.group, required))
    (hover : run.Over memo id op contexts fits delivered)
    (hdelivers : run.Delivers required delivered) :
    run.Does held own required (run.planner.enforce id op context contexts) memo
      fun allowed final => (∀ enforcer ∈ run.offers required delivered, run.Lists final enforcer) ∧
        (required.isSatisfiedBy run.logical delivered = true → allowed = true) := by
  have hgroup : context.group = run.group := congrArg Prod.fst hgoal
  have hrequired : context.required = required := congrArg Prod.snd hgoal
  have hplain : op.prohibitions = [] := by
    obtain ⟨expr, hexpr, hop, _⟩ := hover.found
    obtain ⟨expr', hexpr', hbelongs⟩ := h.belongs id hover.listed
    obtain rfl := Option.some.inj (hexpr.symm.trans hexpr')
    rcases physical_mem_roster (hop ▸ hbelongs.op) with rfl | hmem
    · rfl
    · exact (helps_of_mem hmem).prohibitions
  have hdecide : EnforcementDecision.decide op run.logical required delivered =
      EnforcementDecision.decide (.tableScan run.access) run.logical required delivered := by
    unfold EnforcementDecision.decide
    rw [hplain]
    rfl
  unfold Planner.enforce
  rw [hgroup, hrequired]
  refine Does.bind (hover.does_viewOver h _) fun view viewed hviewed ⟨_, hsees, hlogical⟩ => ?_
  dsimp only
  rw [hsees, hlogical, hdecide, h.relates.leavesWay hdelivers.partition hdelivers.ctes,
    if_neg (by simp), EnforcementDecision.anyProhibited_decide rfl, if_neg (by simp)]
  refine Does.bind (does_addEnforcers hviewed.still fun enforcer henforcer =>
    h.relates.mem_helpers henforcer) fun _ final hfinal hlists => Does.pure hfinal.still ⟨hlists, ?_⟩
  exact EnforcementDecision.allowsCosting_of_isSatisfiedBy rfl

end TableRun

end QueryPlanner
