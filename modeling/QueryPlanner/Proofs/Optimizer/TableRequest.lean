import QueryPlanner.Proofs.Optimizer.TableCosting

/-!
# Trying the alternatives of a table

The scan has no children, and an enforcer asks its own group for less than is required of itself. An
alternative is handled in a context when it was costed over what was found below it, or when nothing
could be found there (`TableRun.Handled`). What the planner does with an alternative in a context
leaves it handled (`TableRun.does_optimizeRequest`), as long as optimizing the group for less ends
with an optimized context (`TableRun.Reaches`).
-/

namespace QueryPlanner

open Memo (SameContent SameQuery Evolves)
open Planning (Post)
open Optimizer (servesRequirement)

namespace TableRun

variable {run : TableRun} {memo memo' : Memo} {held : List ContextId} {own : ContextId}
  {required : PlanRequirement} {op : PhysicalOperator} {id : ExprId} {request : Nat}

/-! ## What is seen of an alternative -/

/-- The view of an alternative of the group. -/
structure Sees (run : TableRun) (op : PhysicalOperator) (view : ExprView) : Prop where
  logical : view.logical = run.logical
  children : view.children.map ChildView.bare =
    if op.isEnforcer then [{ group := run.group, properties := .relation run.logical }] else []

theorem does_view (h : run.At held own required memo) (hid : id ∈ memo.alternativesOf run.group)
    (hop : memo.op? id = some (.physical op)) :
    run.Does held own required (Planning.view id) memo fun view _ => run.Sees op view := by
  obtain ⟨expr, hexpr, hbelongs⟩ := h.belongs id hid
  rw [Memo.op?, hexpr, Option.map_some] at hop
  have hop := Option.some.inj hop
  refine Does.quiet h ((Post.view h.wellFormed hexpr).mono
    (fun view final hfinal => ⟨hfinal.1, ?_, ?_⟩) fun _ _ hfail => hfail)
  · rw [← ExprView.bare_logical, hfinal.2]
    show memo.logical (memo.master expr.group) = _
    rw [hbelongs.group, h.master, h.toStands.logical]
  · show view.bare.children = _
    rw [hfinal.2]
    show expr.children.map memo.bareChild = _
    rw [hbelongs.children, hop]
    show List.map memo.bareChild (if op.isEnforcer = true then _ else _) = _
    split
    · rw [List.map_singleton, Memo.bareChild, h.master, h.properties]
    · rfl

/-- Whether an enforcer serves depends on the requirement only. -/
theorem Sees.serves {view : ExprView} (h : run.Sees op view) :
    servesRequirement op view required = servesRequirement op (run.seen op) required := by
  unfold servesRequirement
  rw [h.logical]
  rfl

theorem Sees.exists_child {view : ExprView} (h : run.Sees op view) (hop : op.isEnforcer = true) :
    ∃ child, view.children = [child] ∧ child.group = run.group ∧
      child.properties = .relation run.logical := by
  have hchildren := h.children
  rw [if_pos hop] at hchildren
  obtain ⟨child, hview, hchild⟩ := List.map_eq_singleton_iff.mp hchildren
  exact ⟨child, hview, congrArg (·.group) hchild, congrArg (·.properties) hchild⟩

theorem Sees.childLogical {view : ExprView} (h : run.Sees op view) (hop : op.isEnforcer = true) :
    view.childLogical 0 = run.logical := by
  obtain ⟨child, hchildren, _, hproperties⟩ := h.exists_child hop
  rw [ExprView.childLogical, hchildren]
  exact congrArg GroupProperties.relationOrEmpty hproperties

/-! ## Alternatives over the plans of their children -/

/-- The scan has no children. -/
theorem over_scan (h : run.Stands memo) (hwhole : run.access.partition = .none)
    (hid : id ∈ memo.alternativesOf run.group)
    (hop : memo.op? id = some (.physical (.tableScan run.access))) :
    run.Over memo id (.tableScan run.access) [] true run.scanned := by
  obtain ⟨expr, hexpr, hbelongs⟩ := h.belongs id hid
  rw [Memo.op?, hexpr, Option.map_some] at hop
  have hop := Option.some.inj hop
  have hleaf : expr.children = [] := by
    rw [hbelongs.children, hop]
    rfl
  have hview : memo.planView id expr [] = memo.bareView id expr := rfl
  have hplans : (memo.bareView id expr).childPlans = [] := by
    unfold ExprView.childPlans Memo.bareView
    rw [hleaf]
    rfl
  refine ⟨hid, by simp, expr, hexpr, hop, by rw [hleaf]; rfl, ?_, ?_⟩
  · rw [hview, Optimizer.validCombination, hplans]
    rfl
  · rw [hview]
    unfold PhysicalOperator.delivered PhysicalOperator.deliveredCtes
    rw [hplans]
    simp only [PhysicalOperator.deliveredPartition, hwhole]
    rfl

/-- An enforcer over the best plan of a context of the group. -/
theorem over_enforcer (h : run.Stands memo) (hop : run.Helps op)
    (hid : id ∈ memo.alternativesOf run.group) (hfound : memo.op? id = some (.physical op))
    {child : ContextId} {context : Context} {costing : Costing} {below : PlanProperties}
    (hchosen : memo.Chosen child context costing) (hbelow : costing.delivered = some below) :
    run.Over memo id op [some child] (op.suits below) (op.above below) := by
  obtain ⟨expr, hexpr, hbelongs⟩ := h.belongs id hid
  rw [Memo.op?, hexpr, Option.map_some] at hfound
  have hfound := Option.some.inj hfound
  have hchildren : expr.children = [run.group] := by
    rw [hbelongs.children, hfound]
    exact if_pos hop.isEnforcer
  have hview : (memo.planView id expr [some child]).children =
      [{ memo.bareChild run.group with plan := some below, planStatistics := costing.statistics }] := by
    unfold Memo.planView
    rw [Memo.overContextsFrom_cons, Memo.overContextsFrom_nil, Memo.withBestPlan, Option.bind_some,
      hchosen.best]
    show List.modify (expr.children.map memo.bareChild) 0 _ = _
    rw [hchildren, hbelow]
    rfl
  have hrelation : ({ memo.bareChild run.group with
      plan := some below, planStatistics := costing.statistics } : ChildView).isScalar = false := by
    unfold ChildView.isScalar Memo.bareChild
    rw [h.master, h.properties]
    rfl
  refine ⟨hid, fun other hother => ?_, expr, hexpr, hfound, by rw [hchildren]; rfl, ?_, ?_⟩
  · obtain rfl := Option.some.inj (List.mem_singleton.mp hother)
    exact ⟨context, costing, hchosen⟩
  · have hfirst : (memo.planView id expr [some child]).firstRelationalPlan? = some below := by
      simp [ExprView.firstRelationalPlan?, hview, hrelation]
    have hplans : (memo.planView id expr [some child]).childPlans = [below] := by
      simp [ExprView.childPlans, hview]
    unfold Optimizer.validCombination
    rw [hfirst, hplans]
    cases hop with
    | sort _ | spool _ => rfl
    | @motion move _ _ => cases move <;> simp [PhysicalOperator.suits, Optimizer.allCompatible,
        PhysicalOperator.acceptsChildren, PhysicalOperator.enforcerKind?, Motion.kind]
  · exact PhysicalOperator.delivered_eq_above hview hrelation rfl

/-! ## Optimizing the children -/

/-- A way to optimize the group for what an alternative asks of it, when all held contexts and a bound
are above the requirement. The context that is answered is optimized. -/
def Reaches (run : TableRun) (held : List ContextId) (parent : Option ExprId) (bound : Nat)
    (optimize : GroupId → PlanRequirement → Planning ContextId) : Prop :=
  ∀ (memo : Memo) (asked : PlanRequirement), run.InOrder memo → run.Relates asked →
    (∀ id ∈ parent, ∃ op, memo.op? id = some (.physical op) ∧
      servesRequirement op (run.seen op) asked = false) →
    Lighter asked memo held → asked.weight < bound →
    Post (optimize run.group asked) memo
      (fun reached final => Evolves held memo final ∧ run.InOrder final ∧
        ∃ context, run.Entry final reached asked context ∧ context.state = .optimized)
      (fun _ _ => False)

/-- An enforcer asks for less than it serves. -/
theorem weight_asked_lt {view : ExprView} (hop : run.Helps op)
    (hserves : servesRequirement op view required = true) :
    (op.childRequirement view required 0 [] request).weight < required.weight :=
  Optimizer.weight_childRequirement_lt hop.isCatalogued hop.isEnforcer hserves

/-- An enforcer does not serve what it asks for. -/
theorem serves_asked {view : ExprView} (hop : run.Helps op) :
    servesRequirement op (run.seen op) (op.childRequirement view required 0 [] request) = false := by
  cases hop <;> exact Bool.and_false _

/-- What is found below an alternative: nothing if what it asks for cannot be met, or plans over which
it delivers what may be delivered. -/
def Supplies (run : TableRun) (memo : Memo) (id : ExprId) (op : PhysicalOperator)
    (required asked : PlanRequirement) : Option (List (Option ContextId)) → Prop
  | none => run.Helps op ∧ ¬ run.Feasible asked
  | some contexts => ∃ fits delivered, run.Over memo id op contexts fits delivered ∧
      run.Delivers required delivered ∧
      (op = .tableScan run.access ∧ fits = true ∧ delivered = run.scanned ∨
        run.Helps op ∧ ∃ below, run.Delivers asked below ∧
          asked.isSatisfiedBy run.logical below = true ∧ fits = op.suits below ∧
          delivered = op.above below)

section Children

variable {view : ExprView} {context : Context}
  {optimize : GroupId → PlanRequirement → Planning ContextId}
  (hpruning : run.planner.config.pruning = false)
include hpruning

/-- The child of an enforcer is its own group, for less than is required above. -/
theorem does_optimizeChildren_enforcer {bound : Nat} (hop : run.Helps op)
    (hreaches : run.Reaches (own :: held) (some id) bound optimize)
    (h : run.At held own required memo) (hbound : required.weight ≤ bound)
    (hid : id ∈ memo.alternativesOf run.group) (hfound : memo.op? id = some (.physical op))
    (hview : run.Sees op view) (hserves : servesRequirement op view required = true)
    (hgoal : context.goal = (run.group, required)) :
    run.Does held own required
      (run.planner.optimizeChildren optimize id op view own context request [0]
        { contexts := [none] }) memo
      fun found final => run.Supplies final id op required
        (op.childRequirement view required 0 [] request) found := by
  have hrequired : context.required = required := congrArg Prod.snd hgoal
  obtain ⟨child, hchildren, hgroup, hproperties⟩ := hview.exists_child hop.isEnforcer
  have hrelation : child.isScalar = false := by
    rw [ChildView.isScalar, hproperties]
    rfl
  have hless : (op.childRequirement view required 0 [] request).weight < required.weight :=
    weight_asked_lt hop hserves
  unfold Planner.optimizeChildren
  rw [hchildren]
  dsimp only [List.getElem?_cons_zero]
  rw [hrelation, if_neg (by simp), hrequired, hgroup, if_neg (fun hsame => by
    rw [hsame.2] at hless
    exact Nat.lt_irrefl _ hless)]
  have hasked := h.relates.childRequirement hop (hview.childLogical hop.isEnforcer) request
  -- the child is asked for less than any context on the way is about
  have hlighter : Lighter (op.childRequirement view required 0 [] request) memo (own :: held) := by
    obtain ⟨own', hentry, _⟩ := h.busy
    intro above habove
    rcases List.mem_cons.mp habove with rfl | habove
    · rw [← show own'.required = required from congrArg Prod.snd hentry.goal] at hless ⊢
      exact ⟨own', hentry.found, hless⟩
    · obtain ⟨found, hfound, hweight⟩ := h.lighter above habove
      exact ⟨found, hfound, Nat.lt_trans hless hweight⟩
  refine Post.andThen (hreaches memo _ h.toInOrder hasked ?_ hlighter (by omega))
    (fun _ _ hfail => hfail) ?_
  · rintro _ ⟨⟩
    exact ⟨op, hfound, serves_asked hop⟩
  rintro reached final ⟨hevolves, horder, found, hentry, hoptimized⟩
  have hfinal := h.step hevolves horder
  refine Does.after hfinal (Does.context hentry.found ?_)
  cases hbest : found.best with
  | none =>
      refine Does.pure hfinal.still ⟨hop, fun hfeasible => ?_⟩
      simpa [hbest] using hentry.planned hoptimized hfeasible
  | some best =>
      obtain ⟨costing, hcosting, hown, hgood⟩ := hentry.best best hbest
      obtain ⟨context, below, hcontext, hbelow, hmeets, hdelivers⟩ := hgood.plan
      obtain rfl := Option.some.inj (hentry.found.symm.trans (hown ▸ hcontext))
      rw [show found.required = _ from congrArg Prod.snd hentry.goal] at hmeets hdelivers
      -- the best plan of the child context is chosen, and the enforcer goes over it
      have hchosen : final.Chosen reached found costing :=
        ⟨hentry.found, hoptimized, by
          rw [Memo.bestCosting?, Memo.best?, hentry.found, Option.bind_some, hbest,
            Option.bind_some, hcosting], hown⟩
      refine Does.costing hcosting ?_
      rw [hpruning, Bool.and_false, if_neg (by simp)]
      refine Post.bind (Post.pure (Does.pure hfinal.still ⟨_, _, over_enforcer
        hfinal.still.toStands hop ((hevolves.alternatives _).subset hid)
        (hevolves.op?_eq_some hfound) hchosen hbelow, hdelivers.above hop hserves,
        .inr ⟨hop, below, hdelivers, hmeets, rfl, rfl⟩⟩))

/-- What is found below the alternatives of the group. -/
theorem does_optimizeChildren {bound : Nat} {expr : MemoExpr}
    (hreaches : run.Reaches (own :: held) (some id) bound optimize)
    (hwhole : run.access.partition = .none)
    (h : run.At held own required memo) (hbound : required.weight ≤ bound)
    (hid : id ∈ memo.alternativesOf run.group) (hexpr : memo.expr? id = some expr)
    (hop : expr.op = .physical op) (hview : run.Sees op view)
    (hserves : servesRequirement op view required = true)
    (hgoal : context.goal = (run.group, required)) :
    run.Does held own required
      (run.planner.optimizeChildren optimize id op view own context request
        (op.visitOrder expr.arity) { contexts := List.replicate expr.arity none }) memo
      fun found final => run.Supplies final id op required
        (op.childRequirement view required 0 [] request) found := by
  obtain ⟨again, hagain, hbelongs⟩ := h.belongs id hid
  obtain rfl := Option.some.inj (hexpr.symm.trans hagain)
  have hfound : memo.op? id = some (.physical op) := by rw [Memo.op?, hexpr, Option.map_some, hop]
  rcases physical_mem_roster (hop ▸ hbelongs.op) with rfl | hhelps
  · have harity : expr.arity = 0 := by
      rw [MemoExpr.arity, hbelongs.children, hop]
      rfl
    rw [harity]
    exact Does.pure h ⟨true, run.scanned, over_scan h.toStands hwhole hid hfound, delivers_scanned,
      .inl ⟨rfl, rfl, rfl⟩⟩
  · have hop := helps_of_mem hhelps
    have harity : expr.arity = 1 := by
      rw [MemoExpr.arity, hbelongs.children, ‹expr.op = _›]
      exact congrArg List.length (if_pos hop.isEnforcer)
    rw [harity, PhysicalOperator.visitOrder_of_catalogued hop.isCatalogued]
    exact does_optimizeChildren_enforcer hpruning hop hreaches h hbound hid hfound hview hserves
      hgoal

end Children

/-! ## Trying an alternative -/

/-- An alternative was tried in a context, unless the context has a best plan anyway. -/
def Handled (run : TableRun) (memo : Memo) (own : ContextId) (required : PlanRequirement)
    (op : PhysicalOperator) : Prop :=
  (memo.best? own).isSome ∨
    (op = .tableScan run.access → run.Concludes memo own required true run.scanned) ∧
      (run.Helps op → servesRequirement op (run.seen op) required = true →
        run.Tried memo own required op)

theorem Handled.evolves (h : run.Handled memo own required op) (hevolves : Evolves held memo memo') :
    run.Handled memo' own required op :=
  h.imp (best_evolves hevolves) fun h => ⟨fun hop => (h.1 hop).evolves hevolves,
    fun hop hserves => (h.2 hop hserves).evolves hevolves⟩

/-- What an alternative over plans concludes settles it. -/
theorem handled_of_concludes {view : ExprView} {fits : Bool} {delivered : PlanProperties}
    (hview : run.Sees op view)
    (hcase : op = .tableScan run.access ∧ fits = true ∧ delivered = run.scanned ∨
      run.Helps op ∧ ∃ below,
        run.Delivers (op.childRequirement view required 0 [] request) below ∧
        (op.childRequirement view required 0 [] request).isSatisfiedBy run.logical below = true ∧
        fits = op.suits below ∧ delivered = op.above below)
    (hconcludes : run.Concludes memo own required fits delivered) :
    run.Handled memo own required op := by
  refine .inr ⟨fun hscan => ?_, fun hhelps _ => ?_⟩
  · rcases hcase with ⟨_, rfl, rfl⟩ | ⟨hhelps, _⟩
    · exact hconcludes
    · subst hscan
      cases hhelps
  · rcases hcase with ⟨rfl, _⟩ | ⟨_, below, hdelivers, hmeets, rfl, rfl⟩
    · cases hhelps
    · exact ⟨view, request, hview.childLogical hhelps.isEnforcer, fun _ =>
        ⟨below, hdelivers, hmeets, hconcludes⟩⟩

/-- Trying a request of an alternative settles it. -/
theorem does_optimizeRequest {bound : Nat}
    {optimize : GroupId → PlanRequirement → Planning ContextId}
    (haborted : run.planner.aborted = false) (hpruning : run.planner.config.pruning = false)
    (hwhole : run.access.partition = .none)
    (hreaches : run.Reaches (own :: held) (some id) bound optimize)
    (h : run.At held own required memo) (hbound : required.weight ≤ bound)
    (hid : id ∈ memo.alternativesOf run.group) (hop : memo.op? id = some (.physical op)) :
    run.Does held own required (run.planner.optimizeRequest optimize id op own request) memo
      fun _ final => run.Handled final own required op := by
  unfold Planner.optimizeRequest
  refine Does.checkAbort haborted ?_
  refine Does.bind (does_installRecorded h hid) fun installed current hcurrent ⟨hbest, _⟩ => ?_
  split
  · rename_i hinstalled
    exact Does.pure hcurrent.still (.inl (hbest hinstalled))
  · obtain ⟨context, hentry, _⟩ := hcurrent.still.busy
    replace hid := (hcurrent.evolves.alternatives _).subset hid
    replace hop := hcurrent.evolves.op?_eq_some hop
    obtain ⟨expr, hexpr, hsame⟩ := Option.map_eq_some_iff.mp hop
    refine Does.context hentry.found (Does.expr hexpr ?_)
    rw [hpruning, if_neg (by simp), show context.required = required from
      congrArg Prod.snd hentry.goal]
    refine Post.bind (Post.pure ?_)
    refine Does.bind (does_view hcurrent.still hid hop) fun bare looked hseen hbare => ?_
    have hview : run.Sees op (bare.withRequired required) := ⟨hbare.logical, hbare.children⟩
    generalize bare.withRequired required = view at hview ⊢
    dsimp only
    split
    · rename_i hserves
      rw [Bool.not_eq_true', hview.serves] at hserves
      -- an operator that cannot serve the requirement is no scan
      refine Does.pure hseen.still (.inr ⟨fun hscan => ?_, fun _ hserved => ?_⟩)
      · subst hscan
        exact absurd (Bool.and_eq_true_iff.mpr ⟨h.relates.columns, rfl⟩)
          (Bool.eq_false_iff.mp hserves)
      · exact absurd hserved (by simp [hserves])
    · rename_i hserves
      rw [Bool.not_eq_true, Bool.not_eq_false'] at hserves
      obtain ⟨expr', hexpr', hop', hchildren', _⟩ := hseen.evolves.expr id expr hexpr
      rw [show expr.arity = expr'.arity from congrArg List.length hchildren'.symm]
      refine Does.bind (does_optimizeChildren hpruning hreaches hwhole hseen.still hbound
        ((hseen.evolves.alternatives _).subset hid) hexpr' (hop'.trans hsame) hview hserves
        hentry.goal) fun found planned hplanned hfound => ?_
      cases found with
      -- only an enforcer can lack a child plan, over a requirement that no plan meets
      | none =>
          refine Does.pure hplanned.still (.inr ⟨fun hscan => ?_, fun hhelps _ =>
            ⟨view, request, hview.childLogical hhelps.isEnforcer, fun hfeasible =>
              absurd hfeasible hfound.2⟩⟩)
          subst hscan
          cases hfound.1
      | some contexts =>
          obtain ⟨fits, delivered, hover, hdelivers, hcase⟩ := hfound
          refine Does.bind (does_enforce hplanned.still hentry.goal hover hdelivers)
            fun allowed enforced henforced ⟨hlists, hallowed⟩ => ?_
          split
          · refine Does.mono (does_costAndOffer haborted henforced.still
              (hover.evolves henforced.evolves) hdelivers) fun _ final hfinal hbest =>
                handled_of_concludes hview hcase ⟨hbest, fun enforcer henforcer =>
                  (hlists enforcer henforcer).evolves hfinal.evolves⟩
          -- the plan was not allowed: it needs something enforced, and the group lists what does
          -- that
          · rename_i hdenied
            exact Does.pure henforced.still (handled_of_concludes hview hcase
              ⟨fun _ hmeets => absurd (hallowed hmeets) hdenied, hlists⟩)

end TableRun

end QueryPlanner
