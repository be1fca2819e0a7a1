import QueryPlanner.Proofs.Optimizer.Children

/-!
# Runs of the optimizer

`Planner.optimizeGroup` leaves all that planning has found in order, whether it succeeds or fails,
and answers an optimized context (`Planner.descends_optimizeGroup`). It changes no context that is
optimized or held by a caller. The proof is by induction on the depth of the calls; inside, one
round of every loop keeps the own context open (`Working`).
-/

namespace QueryPlanner

open Memo (Advances Settled SameContent Evolves Planned)
open Optimizer (leavesWay servesRequirement)

variable {planners : List Planner} {below : GroupId → GroupId → Prop} {held : List ContextId}
  {own : ContextId} {goal : GroupId × PlanRequirement} {stage : Nat} {start memo memo' : Memo}

/-! ## Adding enforcers -/

section Enforcers

variable {decision : EnforcementDecision} {settings : EnforcerSettings}
  {required : PlanRequirement} {delivered : PlanProperties} {enforcer : PhysicalOperator}

/-- An enforcer on offer is one for some property. -/
theorem EnforcementDecision.offers_of_mem_enforcers
    (h : enforcer ∈ decision.enforcers settings required delivered) :
    enforcer ∈ EnforcerSettings.sorts required.order.spec ∨
      enforcer ∈ settings.motions required.distribution.spec delivered.distribution
        required.order.spec ∨
      enforcer ∈ EnforcerSettings.spools required.rewindability.spec ∨
      enforcer ∈ EnforcerSettings.selectors required.partition.spec.scans
        delivered.partition.scans := by
  unfold enforcers at h
  simp only [List.mem_append] at h
  grind

/-- Every enforcer on offer is one of the catalogue. -/
theorem EnforcementDecision.enforcers_catalogued
    (h : enforcer ∈ decision.enforcers settings required delivered) :
    enforcer.isCatalogued = true ∧ enforcer.isEnforcer = true := by
  rcases offers_of_mem_enforcers h with h | h | h | h
  · unfold EnforcerSettings.sorts at h
    split at h <;> simp_all [PhysicalOperator.isCatalogued, PhysicalOperator.isEnforcer,
      PhysicalOperator.enforcerKind?]
  · obtain ⟨move, rfl⟩ : ∃ move, enforcer = .motion move := by
      unfold EnforcerSettings.motions at h
      cases hrequired : required.distribution.spec <;> simp only [hrequired] at h <;> grind
    exact ⟨rfl, rfl⟩
  · unfold EnforcerSettings.spools at h
    split at h <;> simp_all [PhysicalOperator.isCatalogued, PhysicalOperator.isEnforcer,
      PhysicalOperator.enforcerKind?]
  · obtain ⟨entry, _, hentry⟩ := List.mem_filterMap.mp h
    split at hentry
    · split at hentry
      · obtain rfl := Option.some.inj hentry
        exact ⟨rfl, rfl⟩
      · exact absurd hentry (by simp)
    · exact absurd hentry (by simp)

end Enforcers

/-- An operator that equals an enforcer enforces as well. -/
theorem Operator.isEnforcer_of_same {op : Operator} {enforcer : PhysicalOperator}
    (hsame : op.same (.physical enforcer) = true) (hcatalogued : enforcer.isCatalogued = true)
    (henforcer : enforcer.isEnforcer = true) :
    op.isEnforcer = true ∧ op.orderSensitive = true := by
  cases op with
  | physical op =>
      refine ⟨?_, rfl⟩
      cases enforcer <;> cases op <;>
        simp_all [Operator.same, PhysicalOperator.same, Operator.isEnforcer,
          PhysicalOperator.isEnforcer, PhysicalOperator.enforcerKind?, PhysicalOperator.isCatalogued]
  | logical op => simp [Operator.same] at hsame
  | scalar op => simp [Operator.same] at hsame

/-- The twin of an enforcer over a group is an enforcer that was filed over that group. -/
theorem Memo.enforcer_of_findTwin? {enforcer : PhysicalOperator} {owner : GroupId} {twin : ExprId}
    {expr : MemoExpr} (htwin : memo.findTwin? (.physical enforcer) [owner] = some twin)
    (hexpr : memo.expr? twin = some expr) (hcatalogued : enforcer.isCatalogued = true)
    (henforcer : enforcer.isEnforcer = true) :
    expr.op.isEnforcer = true ∧ expr.children = [owner] := by
  obtain ⟨found, hfound, hsame, hfiled⟩ := Memo.findTwin?_eq_some htwin
  obtain rfl := Option.some.inj (hexpr.symm.trans hfound)
  obtain ⟨hop, hsensitive⟩ := Operator.isEnforcer_of_same hsame hcatalogued henforcer
  unfold filedChildren at hfiled
  rw [if_pos hsensitive, if_pos (show (Operator.physical enforcer).orderSensitive = true from rfl)]
    at hfiled
  exact ⟨hop, hfiled⟩

/-- Planning may be looked at from any memo on its way. -/
theorem Working.restart (h : Working planners below held own goal stage start memo) :
    Working planners below held own goal stage memo memo :=
  ⟨h.advances.settled.advances, h.busy, h.free⟩

theorem Working.trans (h : Working planners below held own goal stage start memo)
    (h' : Working planners below held own goal stage memo memo') :
    Working planners below held own goal stage start memo' :=
  ⟨h.advances.trans h'.advances, h'.busy, h'.free⟩

/-- The enforcers that were filed over a group are alternatives of that group. -/
def Memo.EnclosesEnforcers (memo : Memo) (owner : GroupId) : Prop :=
  ∀ id expr, memo.expr? id = some expr → expr.op.isEnforcer = true → expr.children = [owner] →
    memo.master expr.group = owner

theorem Memo.Tame.enclosesEnforcers (h : memo.Tame below) (owner : GroupId) :
    memo.EnclosesEnforcers (memo.master owner) := by
  intro id expr hexpr hop hchildren
  have henforcing := h.enforcing id expr hexpr hop
  rw [hchildren, List.map_singleton, List.singleton_inj, h.wellFormed.linksEnd.master_master]
    at henforcing
  exact henforcing.symm

namespace Planning

/-- An enforcer over its own group is new there, because it has no twin, or it is found again
without uniting groups. -/
theorem Post.insertAbove {enforcer : PhysicalOperator} {owner : GroupId} {origin : Option Origin}
    (h : memo.WellFormed) (hencloses : memo.EnclosesEnforcers (memo.master owner))
    (hknown : owner.index < memo.groups.size) (hcatalogued : enforcer.isCatalogued = true)
    (henforcer : enforcer.isEnforcer = true) :
    Post (Planning.insert (.physical enforcer) [owner] (some owner) origin) memo
      (fun _ final => ∃ middle, SameContent memo middle ∧
        ((memo.findTwin? (.physical enforcer) [memo.master owner]).isSome ∧ final = middle ∨
          memo.findTwin? (.physical enforcer) [memo.master owner] = none ∧
          final = middle.addAlternative (.physical enforcer) [memo.master owner]
            (memo.master owner) origin))
      (fun _ _ => False) := by
  have hvalid : memo.Insertable (.physical enforcer) [owner] (some owner) := by
    refine ⟨by simpa using hknown, fun count hcount => ?_, fun _ => rfl⟩
    have harity := PhysicalOperator.arity_of_enforcer hcatalogued henforcer
    exact Option.some.inj (harity.symm.trans hcount)
  refine (Post.insert _ h hvalid).mono ?_ (fun _ _ hfail => hfail)
  intro outcome final hinserts
  cases hinserts with
  | found twin_found _ _ same =>
      exact ⟨final, same, .inl ⟨Option.isSome_of_eq_some twin_found, rfl⟩⟩
  | @united twin expr _ id _ _ twin_found expr_found target_given away =>
      -- a twin is an enforcer over the own group, so it is an alternative of that group
      obtain ⟨hop, hchildren⟩ :=
        Memo.enforcer_of_findTwin? twin_found expr_found hcatalogued henforcer
      obtain rfl := Option.some.inj target_given
      exact absurd (hencloses twin expr expr_found hop hchildren).symm away
  | @added middle id no_twin target_given same =>
      obtain rfl := Option.some.inj target_given
      exact ⟨middle, same, .inr ⟨no_twin, rfl⟩⟩
  | created _ no_target => exact absurd no_target (by simp)

/-- An enforcer is inserted above the own group, unless it is there already. -/
theorem Post.insertEnforcer {enforcer : PhysicalOperator} {origin : Option Origin}
    (h : Working planners below held own goal stage start memo)
    (hcatalogued : enforcer.isCatalogued = true) (henforcer : enforcer.isEnforcer = true) :
    Post (Planning.insert (.physical enforcer) [goal.1] (some goal.1) origin) memo
      (fun _ => Working planners below held own goal stage start) (fun _ _ => False) := by
  obtain ⟨hmaster, hknown⟩ := h.home
  have htame := h.advances.settled.toTame
  refine (Post.insertAbove htame.wellFormed (htame.enclosesEnforcers _) hknown hcatalogued
    henforcer).mono ?_ (fun _ _ hfail => hfail)
  rintro _ _ ⟨middle, hsame, ⟨_, rfl⟩ | ⟨_, rfl⟩⟩
  · exact h.quiet hsame
  · have hmiddle := h.quiet hsame
    rw [hmaster]
    exact hmiddle.step (hmiddle.advances.settled.addEnforcer hcatalogued henforcer
      (hsame.groups_size ▸ hknown))

/-- Deciding on enforcers for an alternative over chosen plans, and adding them. -/
theorem Post.enforce {planner : Planner} {id : ExprId} {op : PhysicalOperator} {context : Context}
    {children : List GroupId} {contexts : List (Option ContextId)}
    (h : Working planners below held own goal stage start memo)
    (hoffers : memo.Offers below goal id op children) (hgoal : context.goal = goal)
    (hplanned : List.Forall₂ (memo.Planned below goal) children contexts) {expr : MemoExpr}
    (hexpr : memo.expr? id = some expr) :
    Post (planner.enforce id op context contexts) memo
      (fun allowed final => Working planners below held own goal stage start final ∧
        (allowed = true →
          leavesWay op goal.2 (op.delivered (memo.planView id expr contexts)) = true))
      (fun _ => Advances planners below held start) := by
  obtain ⟨found, hfound, _, rfl, _⟩ := hoffers.found
  obtain rfl := Option.some.inj (hexpr.symm.trans hfound)
  unfold Planner.enforce
  refine (Post.viewOver h.advances.settled.wellFormed hexpr
    fun id hid => ?_).andThen (fun _ _ hfail => hfail.elim) ?_
  · obtain ⟨_, _, hchosen⟩ := Memo.exists_chosen_of_planned hplanned hid
    exact hchosen.readable
  rintro view viewed ⟨hviewed, hview⟩
  have hstill := h.quiet hviewed
  have hdelivered : op.delivered view = op.delivered (memo.planView id expr contexts) := by
    rw [← PhysicalOperator.delivered_bare, hview, PhysicalOperator.delivered_withRequired]
    rfl
  dsimp only
  split
  · exact Post.pure ⟨hstill, by simp⟩
  · rename_i hleaves
    rw [Bool.not_eq_true, Bool.not_eq_false', hdelivered,
      show context.required = goal.2 from congrArg Prod.snd hgoal] at hleaves
    split
    · exact Post.pure ⟨hstill, by simp⟩
    · rw [show context.group = goal.1 from congrArg Prod.fst hgoal]
      refine Post.bind ((Post.forM _ hstill fun enforcer henforcer current hcurrent => ?_).mono
        (fun _ _ hfinal => Post.pure ⟨hfinal, fun _ => hleaves⟩) (fun _ _ hfail => hfail))
      obtain ⟨hcatalogued, henforces⟩ := EnforcementDecision.enforcers_catalogued henforcer
      exact Post.bind ((Post.insertEnforcer hcurrent hcatalogued henforces).mono
        (fun _ _ hfinal => Post.pure hfinal) (fun _ _ hfail => hfail.elim))

/-! ## Alternatives and groups -/

/-- Costing an alternative over chosen plans and offering the result as the best. -/
theorem Post.costAndOffer {planner : Planner} (hplanner : planner ∈ planners) {id : ExprId}
    {op : PhysicalOperator} {request : Nat} {children : List GroupId}
    {contexts : List (Option ContextId)}
    (h : Working planners below held own goal stage start memo)
    (hoffers : memo.Offers below goal id op children)
    (hplanned : List.Forall₂ (memo.Planned below goal) children contexts)
    (hcostable : ∀ expr, memo.expr? id = some expr →
      memo.Requests op (memo.bareView id expr) goal.2 request contexts ∧
        leavesWay op goal.2 (op.delivered (memo.planView id expr contexts)) = true) :
    Post (do
        match ← planner.cost id own request contexts with
        | some costed =>
          let _ ← Planning.updateBest costed
        | none =>
          let _ ← Optimizer.installRecorded id own request) memo
      (fun _ => Working planners below held own goal stage start)
      (fun _ => Advances planners below held start) := by
  obtain ⟨expr, hexpr, hop, rfl, hhome⟩ := hoffers.found
  obtain ⟨hrequests, hleaves⟩ := hcostable expr hexpr
  refine (Post.cost hplanner h hexpr hop hhome hoffers.listed hplanned hrequests
    hleaves).andThen (fun _ _ hfail => hfail) ?_
  rintro (_ | costed) current ⟨hnone, hcosted⟩
  · exact Post.bind ((Post.installRecorded (hnone rfl)).mono (fun _ _ hfinal => Post.pure hfinal)
      (fun _ _ hfail => hfail))
  · exact Post.bind ((Post.updateBest (hcosted costed rfl)).mono
      (fun _ _ hfinal => Post.pure hfinal) (fun _ _ hfail => hfail.elim))

/-- Trying one request of an alternative. -/
theorem Post.optimizeRequest [IsStrictOrder GroupId below] {planner : Planner}
    (hplanner : planner ∈ planners) {optimize : GroupId → PlanRequirement → Planning ContextId}
    {id : ExprId} {op : PhysicalOperator} {request : Nat} {children : List GroupId}
    (hoptimize : Descends planners below (own :: held) stage optimize)
    (h : Working planners below held own goal stage start memo)
    (hoffers : memo.Offers below goal id op children) (habove : Above below memo held goal) :
    Post (planner.optimizeRequest optimize id op own request) memo
      (fun _ => Working planners below held own goal stage start)
      (fun _ => Advances planners below held start) := by
  -- everything on the way is compared with the memo at the beginning of the request
  suffices hrequest : Post (planner.optimizeRequest optimize id op own request) memo
      (fun _ => Working planners below held own goal stage memo)
      (fun _ => Advances planners below held memo) from
    hrequest.mono (fun _ _ hfinal => h.trans hfinal) (fun _ _ hfail => h.advances.trans hfail)
  have h := h.restart
  unfold Planner.optimizeRequest
  refine Post.bind (Post.checkAbort (fun _ => ?_) (fun _ => h.advances))
  refine (Post.installRecorded h).andThen (fun _ _ hfail => hfail) ?_
  intro installed current h
  split
  · exact Post.pure h
  · refine Post.bind (Post.context (fun context hcontext => ?_) (fun _ => h.advances))
    refine Post.bind (Post.expr (fun expr hexpr => ?_) (fun _ => h.advances))
    have hevolves := h.advances.evolves
    have hstill := hoffers.evolves hevolves
    obtain ⟨hgoal, hstage⟩ : context.goal = goal ∧ context.stage = stage := by
      obtain ⟨own, hown, _, hgoal, hstage⟩ := h.busy
      obtain rfl := Option.some.inj (hcontext.symm.trans hown)
      exact ⟨hgoal, hstage⟩
    obtain ⟨expr', hexpr', hop, hchildren, hhome⟩ := hstill.found
    obtain rfl := Option.some.inj (hexpr.symm.trans hexpr')
    extract_lets arity unplanned finish
    have harity : arity = children.length := congrArg List.length hchildren
    have hfinish (bound : Option Cost) (looked : Memo) (hbound : SameContent current looked ∧
          ∀ given ∈ bound, looked.Undercut goal stage given) :
        Post (finish bound) looked (fun _ => Working planners below held own goal stage memo)
          (fun _ => Advances planners below held memo) := by
      obtain ⟨hsame, hundercut⟩ := hbound
      have hlooked := h.quiet hsame
      cases bound with
      | some bound =>
          exact Post.bind ((Post.recordPruned hlooked (hundercut bound rfl)).mono
            (fun _ _ hfinal => Post.pure hfinal) (fun _ _ hfail => hfail))
      | none =>
          dsimp only [finish]
          obtain ⟨expr', hexpr', hcontent⟩ := hsame.exists_expr hexpr
          refine (Post.view hlooked.advances.settled.wellFormed hexpr').andThen
            (fun _ _ hfail => hfail.elim) ?_
          rintro view viewed ⟨hviewed, hview⟩
          have hviewing := hlooked.quiet hviewed
          have hevolves := hviewing.advances.evolves
          split
          · exact Post.pure hviewing
          · rename_i hserves
            rw [Bool.not_eq_true, Bool.not_eq_false'] at hserves
            rw [PhysicalOperator.visitOrder_of_catalogued hoffers.catalogued, harity]
            refine (Post.optimizeChildren hoptimize hviewing (hoffers.evolves hevolves)
              (habove.evolves hevolves) ?_ hgoal hstage hserves ?_ ?_).andThen (fun _ _ hfail => hfail) ?_
            · have hseen : view.children.map ChildView.bare =
                  expr'.children.map looked.bareChild := congrArg (·.children) hview
              have hkept := hviewed.bareChild hlooked.advances.settled.wellFormed.linksEnd
              show view.children.map ChildView.bare = _
              rw [hseen, hkept, ← hchildren]
              exact congrArg (fun content => content.children.map looked.bareChild) hcontent
            · show Progress _ _ _ _ _ (List.replicate arity none)
              rw [harity]
              exact .unplanned
            · show Asked _ _ _ _ _ _ (List.replicate arity none) []
              rw [harity]
              exact .unplanned
            · rintro (_ | contexts) planned ⟨hplanning, hresult⟩
              · exact Post.pure hplanning
              · obtain ⟨hplanned, hrequests⟩ := hresult contexts rfl
                obtain ⟨before, hbefore, _⟩ := (hoffers.evolves hplanning.advances.evolves).found
                refine (Post.enforce hplanning.restart (hoffers.evolves hplanning.advances.evolves)
                  hgoal hplanned hbefore).andThen
                    (fun _ _ hfail => hplanning.advances.trans hfail) ?_
                rintro allowed enforced ⟨henforced, hleaves⟩
                have hall := hplanning.trans henforced
                split
                · rename_i hallowed
                  refine Post.costAndOffer hplanner hall (hoffers.evolves hall.advances.evolves)
                    (hplanned.imp fun _ _ hentry => hentry.evolves henforced.advances.evolves)
                    fun last hlast => ?_
                  obtain ⟨first, hfirst, _⟩ := hoffers.found
                  have hseen : view.bare = enforced.bareView id last := by
                    rw [hview, hall.advances.evolves.bareView_eq hfirst hlast,
                      hlooked.advances.evolves.bareView_eq hfirst hexpr']
                  have hevolves := henforced.advances.evolves
                  refine ⟨(hrequests.evolves hevolves fun id =>
                    Memo.exists_chosen_of_planned hplanned).of_bare hseen, ?_⟩
                  rw [hevolves.planView_eq hbefore hlast fun id =>
                    Memo.exists_chosen_of_planned hplanned]
                  exact hleaves hallowed
                · exact Post.pure hall
    split
    · exact (Post.pruneBoundFor? h hgoal hstage).andThen
        (fun _ _ hsame => (h.quiet hsame).advances) hfinish
    · exact Post.bind (Post.pure (hfinish none current ⟨.refl current, by simp⟩))

/-- Visiting an alternative of the own group. -/
theorem Post.visitAlternative [IsStrictOrder GroupId below] {planner : Planner}
    (hplanner : planner ∈ planners)
    {optimize : ExprId → GroupId → PlanRequirement → Planning ContextId} {parent : Option ExprId}
    {level : OptimizationLevel} {id : ExprId}
    (hoptimize : ∀ id, Descends planners below (own :: held) stage (optimize id))
    (h : Working planners below held own goal stage start memo)
    (habove : Above below memo held goal) (hid : id ∈ memo.alternativesOf goal.1) :
    Post (planner.visitAlternative optimize parent own level id) memo
      (fun _ => Working planners below held own goal stage start)
      (fun _ => Advances planners below held start) := by
  unfold Planner.visitAlternative
  refine Post.bind (Post.get (Post.bind (Post.expr (fun expr hexpr => ?_) (fun _ => h.advances))))
  cases hop : expr.op with
  | logical _ => exact Post.pure h
  | scalar _ => exact Post.pure h
  | physical op =>
      have hoffers := h.advances.settled.toTame.offers h.home.1 hid hexpr hop
      dsimp only
      split
      · refine (Post.forM (Working planners below held own goal stage memo) h.restart
          fun request _ current hcurrent => ?_).mono (fun _ _ hfinal => h.trans hfinal)
            (fun _ _ hfail => h.advances.trans hfail)
        have hevolves := hcurrent.advances.evolves
        exact Post.optimizeRequest hplanner (hoptimize id) hcurrent (hoffers.evolves hevolves)
          (habove.evolves hevolves)
      · exact Post.pure h

/-- Going through the alternatives of the own group, by induction on the steps left. -/
theorem Post.visitAlternatives {visit : ExprId → Planning Unit} {fuel position : Nat}
    (h : Working planners below held own goal stage start memo)
    (hvisit : ∀ id current, Working planners below held own goal stage start current →
      id ∈ current.alternativesOf goal.1 →
      Post (visit id) current (fun _ => Working planners below held own goal stage start)
        (fun _ => Advances planners below held start)) :
    Post (Planner.visitAlternatives goal.1 visit fuel position) memo
      (fun _ => Working planners below held own goal stage start)
      (fun _ => Advances planners below held start) := by
  induction fuel generalizing memo position with
  | zero => exact Post.throw h.advances
  | succ fuel ih =>
      unfold Planner.visitAlternatives
      refine Post.bind (Post.get ?_)
      cases hid : (memo.alternativesOf goal.1)[position]? with
      | none => exact Post.pure h
      | some id =>
          exact (hvisit id memo h (List.mem_of_getElem? hid)).andThen (fun _ _ hfail => hfail)
            (fun _ _ hnext => ih hnext)

/-- The context of a master is found or created. -/
theorem Post.lookupOrCreateContext (held : List ContextId) (stage : Nat) {id : GroupId}
    {required : PlanRequirement} (h : memo.Settled planners below) (hmaster : memo.master id = id)
    (hknown : id.index < memo.groups.size) :
    Post (lookupOrCreateContext id required stage) memo
      (fun found final => Advances planners below held memo final ∧
        ∃ context, final.context? found.1 = some context ∧ context.goal = (id, required) ∧
          context.stage = stage ∧ (found.2 = true → context.state = .init))
      (fun _ _ => False) := by
  refine (Post.resolve hknown).andThen (fun _ _ hfail => hfail) ?_
  rintro _ looked ⟨rfl, hsame⟩
  rw [hmaster]
  have hlooked : Advances planners below held memo looked := h.quiet hsame
  refine Post.bind (Post.group (fun group hgroup => ?_) (fun hnone => ?_))
  · cases hfound : group.contexts.lookup { required, stage } with
    | some found =>
        obtain ⟨before, after, hentries, _⟩ := List.lookup_eq_some_iff.mp hfound
        obtain ⟨context, hcontext, hgoal, hstage⟩ := hlooked.settled.entries id group hgroup
          (⟨required, stage⟩, found) (by simp [hentries])
        exact Post.pure ⟨hlooked, context, hcontext, hgoal, hstage, by simp⟩
    | none =>
        refine Post.bind (Post.get (Post.bind (Post.modify (Post.pure
          ⟨hlooked.trans (hlooked.settled.addContext ?_ ?_), ?_⟩))))
        · rw [hlooked.evolves.master, hmaster]
        · rw [hlooked.evolves.groups_size]
          exact hknown
        · exact ⟨_, Memo.context?_addContext.trans (if_pos rfl), rfl, rfl,
            fun _ => rfl⟩
  · rw [Memo.group?_eq_none, hsame.groups_size] at hnone
    omega

end Planning

/-! ## Whole runs -/

/-- Changing the state of the own context. -/
theorem Memo.Settled.setState (h : memo.Settled planners below) {context : Context}
    (state : ContextState) (hown : memo.context? own = some context)
    (hopen : context.state ≠ .optimized) (hfree : own ∉ held) :
    Advances planners below held memo
      (memo.modifyContext own fun context => { context with state }) ∧
      (memo.modifyContext own fun context => { context with state }).context? own =
        some { context with state } := by
  let change : Context → Context := fun context => { context with state }
  obtain ⟨hevolves, hsettled⟩ : Memo.Evolves held memo (memo.modifyContext own change) ∧ _ :=
    h.modifyContext hown hopen hfree rfl rfl (fun hbest => hbest)
      fun best => h.best own context best hown
  refine ⟨h.advancesTo hevolves hsettled (fun _ => best?_setState)
    fun id expr hexpr entry hentry => ⟨expr, hexpr, hentry⟩, ?_⟩
  rw [Memo.context?_modifyContext, if_pos rfl, hown, Option.map_some]

/-- Optimizing a group goes down from its chain of callers, by induction on the depth of calls. -/
theorem Planner.descends_optimizeGroup [IsStrictOrder GroupId below] {planner : Planner}
    (hplanner : planner ∈ planners) (fuel : Nat) (parent : Option ExprId) (held : List ContextId) :
    Descends planners below held stage (planner.optimizeGroup stage fuel parent held) := by
  induction fuel generalizing parent held with
  | zero => exact fun memo group required h _ _ => Planning.Post.throw h.advances
  | succ fuel ih =>
      intro memo group required h hknown habove
      unfold optimizeGroup
      refine Planning.Post.bind (Planning.Post.checkAbort (fun _ => ?_) (fun _ => h.advances))
      refine (Planning.Post.resolve hknown).andThen (fun _ _ hfail => hfail.elim) ?_
      rintro _ looked ⟨rfl, hsame⟩
      have hlooked : Advances planners below held memo looked := h.quiet hsame
      have hends := h.wellFormed.linksEnd
      refine (Planning.Post.lookupOrCreateContext held stage hlooked.settled ?_ ?_).andThen
        (fun _ _ hfail => hfail.elim) ?_
      · rw [hsame.master hends, hends.master_master]
      · rw [hsame.groups_size]
        exact h.wellFormed.masterKnown group hknown
      rintro ⟨own, created⟩ found ⟨hfound, context, hcontext, hgoal, hstage, hcreated⟩
      have hfound := hlooked.trans hfound
      -- the own context is about the goal, all held ones are about something above it
      have hfree : own ∉ held := by
        intro hheld
        obtain ⟨context', hcontext', hasks⟩ := habove.evolves hfound.evolves own hheld
        obtain rfl := Option.some.inj (hcontext.symm.trans hcontext')
        exact irrefl_of (Asks below) _ (hgoal ▸ hasks)
      refine Planning.Post.bind (Planning.Post.context (fun again hagain => ?_)
        (fun _ => hfound))
      obtain rfl := Option.some.inj (hcontext.symm.trans hagain)
      split
      · rename_i hdone
        refine Planning.Post.pure ⟨hfound, context, hcontext, ?_, hgoal, hstage⟩
        simpa [hfree] using (Bool.and_eq_true_iff.mp hdone).2
      · rename_i hopen
        have hnew : context.state ≠ .optimized := by
          intro hoptimized
          cases created with
          | true => simp [hcreated rfl] at hoptimized
          | false => simp [hoptimized] at hopen
        obtain ⟨hmarked, hown⟩ := hfound.settled.setState .optimizing hcontext hnew
          hfree
        have hworking : Working planners below held own (memo.master group, required) stage memo
            (found.modifyContext own fun context => { context with state := .optimizing }) :=
          ⟨hfound.trans hmarked, ⟨_, hown, rfl, hgoal, hstage⟩, hfree⟩
        refine Planning.Post.bind (Planning.Post.modify (Planning.Post.bind (Planning.Post.group
          (fun entered _ => ?_) (fun _ => hworking.advances))))
        refine (Planning.Post.forM _ hworking fun level _ current hcurrent => ?_).andThen
          (fun _ _ hfail => hfail) ?_
        · refine Planning.Post.visitAlternatives hcurrent fun id visited hvisited hid => ?_
          exact Planning.Post.visitAlternative hplanner (fun id => ih (some id) (own :: held)) hvisited
            (habove.evolves hvisited.advances.evolves) hid
        · intro _ final hfinal
          obtain ⟨context, hcontext, hoptimizing, hgoal, hstage⟩ := hfinal.busy
          obtain ⟨hmarked, hown⟩ := hfinal.advances.settled.setState .optimized hcontext
            (by simp [hoptimizing]) hfree
          exact Planning.Post.bind (Planning.Post.modify (Planning.Post.pure
            ⟨hfinal.advances.trans hmarked, _, hown, rfl, hgoal, hstage⟩))

/-- Optimizing a group that is not known changes nothing. -/
theorem Planner.optimizeGroup_unknown {planner : Planner} {fuel : Nat} {parent : Option ExprId}
    {group : GroupId} {required : PlanRequirement} (hunknown : memo.groups.size ≤ group.index) :
    Planning.Post (planner.optimizeGroup stage fuel parent held group required) memo (fun _ _ => False)
      (fun _ final => final = memo) := by
  cases fuel with
  | zero => exact Planning.Post.throw rfl
  | succ fuel =>
      unfold optimizeGroup
      refine Planning.Post.bind (Planning.Post.checkAbort (fun _ => ?_) (fun _ => rfl))
      refine Planning.Post.bind (Planning.Post.bind (Planning.Post.group (fun found hfound => ?_)
        (fun _ => rfl)))
      rw [Memo.group?_eq_none.mpr hunknown] at hfound
      exact absurd hfound (by simp)

/-- A run of the optimizer leaves all in order. A plan that it finds is the best one of an optimized
context. -/
theorem Planner.post_optimize [IsStrictOrder GroupId below] {planner : Planner}
    (hplanner : planner ∈ planners) (stage : Nat) (group : GroupId) (required : PlanRequirement)
    (h : memo.Settled planners below) :
    Planning.Post (planner.optimize stage group required) memo
      (fun best final => Advances planners below [] memo final ∧
        group.index < memo.groups.size ∧ ∃ id context, final.context? id = some context ∧
          context.state = .optimized ∧ context.best = best ∧
          context.goal = (memo.master group, required) ∧ context.stage = stage)
      (fun _ => Advances planners below [] memo) := by
  by_cases hknown : group.index < memo.groups.size
  · refine (descends_optimizeGroup hplanner planner.fuel none [] memo group required h hknown
      (by simp [Above])).andThen (fun _ _ hfail => hfail) ?_
    rintro own final ⟨hfinal, context, hcontext, hoptimized, hgoal, hstage⟩
    refine Planning.Post.bind (Planning.Post.context (fun again hagain => ?_) (fun _ => hfinal))
    obtain rfl := Option.some.inj (hcontext.symm.trans hagain)
    exact Planning.Post.pure
      ⟨hfinal, hknown, own, context, hcontext, hoptimized, rfl, hgoal, hstage⟩
  · refine (optimizeGroup_unknown (Nat.le_of_not_lt hknown)).andThen ?_ (fun _ _ hok => hok.elim)
    rintro _ final rfl
    exact h.advances

/-- A call of the optimizer. -/
structure OptimizeCall where
  planner : Planner
  stage : Nat
  group : GroupId
  required : PlanRequirement

/-- Run the call. -/
def OptimizeCall.run (call : OptimizeCall) : Planning (Option CostingId) :=
  call.planner.optimize call.stage call.group call.required

/-- The memo after several calls, whether they succeed or fail. -/
def Memo.optimizeAll (memo : Memo) (calls : List OptimizeCall) : Memo :=
  calls.foldl (fun memo call => (Planning.exec call.run memo).2) memo

/-- Any sequence of calls leaves all in order. -/
theorem Memo.Settled.optimizeAll [IsStrictOrder GroupId below] {calls : List OptimizeCall}
    (h : memo.Settled planners below) (hplanners : ∀ call ∈ calls, call.planner ∈ planners) :
    Advances planners below [] memo (memo.optimizeAll calls) := by
  induction calls generalizing memo with
  | nil => exact h.advances
  | cons call rest ih =>
      have hfirst : Advances planners below [] memo (Planning.exec call.run memo).2 :=
        ((Planner.post_optimize (hplanners call (by simp)) _ _ _ h).mono (fun _ _ hok => hok.1)
          (fun _ _ hfail => hfail)).exec_snd
      exact hfirst.trans (ih hfirst.settled fun other hother => hplanners other (by simp [hother]))

end QueryPlanner
