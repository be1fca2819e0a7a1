import QueryPlanner.Proofs.Optimizer.Approximation
import QueryPlanner.Proofs.Optimizer.Confinement
import QueryPlanner.Proofs.Plan.Requests

/-!
# Optimization terminates

While alternatives are visited, enforcers are appended to the list that is being gone through. A memo
has room for a bounded number of them (`Memo.Confined`). Contexts come one below the other along an
order of groups and of what is left to be enforced, which bounds the depth of calls
(`Planner.goalRank`). A run with enough fuel therefore ends (`Planner.ends_optimizeGroupWith`), also
when meeting a context on its own chain counts as running out of fuel.
-/

namespace QueryPlanner

open Memo (SameContent)
open Optimizer (servesRequirement)
open Planning (Keeps Lasts Post Steady)

/-! ## Steps of a run -/

/-- The computation does not run out of fuel, and it stays within the words when it succeeds. -/
def Ending {α : Type} (words : Vocabulary) (limit : Nat) (below : GroupId → GroupId → Prop)
    (action : Planning α) (memo : Memo) : Prop :=
  Post action memo (fun _ => Memo.Confines words limit below memo)
    (fun error _ => error ≠ .outOfFuel)

namespace Ending

variable {α β : Type} {words : Vocabulary} {limit : Nat} {below : GroupId → GroupId → Prop}
  {memo memo' : Memo}

theorem pure {value : α} (h : memo.Confined words limit below) :
    Ending words limit below (pure value) memo :=
  Post.pure (.refl h)

/-- Going on from a later memo. -/
theorem after {action : Planning α} (hconfines : Memo.Confines words limit below memo memo')
    (h : Ending words limit below action memo') :
    Post action memo' (fun _ => Memo.Confines words limit below memo)
      (fun error _ => error ≠ .outOfFuel) :=
  h.mono (fun _ _ hfinal => hconfines.trans hfinal) (fun _ _ hfail => hfail)

/-- Two computations one after the other. -/
theorem bind {action : Planning α} {next : α → Planning β} (h : Ending words limit below action memo)
    (hnext : ∀ value middle, Memo.Confines words limit below memo middle →
      Ending words limit below (next value) middle) :
    Ending words limit below (action >>= next) memo :=
  h.andThen (fun _ _ hfail => hfail) fun value middle hmiddle =>
    after hmiddle (hnext value middle hmiddle)

/-- A computation that lasts and keeps to the words. -/
theorem store {action : Planning α} (h : memo.Confined words limit below)
    (hlasts : Lasts action memo) (hkeeps : Keeps (Memo.StaysConfined words limit below) action) :
    Ending words limit below action memo :=
  (hlasts.keeping hkeeps).mono (fun _ _ hfinal => hfinal h) (fun _ _ hfail => hfail.1)

/-- A computation that lasts and only looks. -/
theorem quiet {action : Planning α} (h : memo.Confined words limit below)
    (hlasts : Lasts action memo) (hkeeps : Keeps SameContent action) :
    Ending words limit below action memo :=
  store h hlasts (.quiet hkeeps)

/-- A loop whose rounds end. -/
theorem forM {items : List α} {body : α → Planning PUnit} (h : memo.Confined words limit below)
    (hround : ∀ item ∈ items, ∀ current, Memo.Confines words limit below memo current →
      Ending words limit below (body item) current) :
    Ending words limit below (items.forM body) memo :=
  Post.forM (Memo.Confines words limit below memo) (.refl h) fun item hitem current hcurrent =>
    after hcurrent (hround item hitem current hcurrent)

/-- Inserting an enforcer that can be made of the words. -/
theorem insertAbove {enforcer : PhysicalOperator} {owner : GroupId} {origin : Option Origin}
    (h : memo.Confined words limit below) (hknown : owner.index < memo.groups.size)
    (hcatalogued : enforcer.isCatalogued = true) (henforcer : enforcer.isEnforcer = true)
    (hmakes : words.Makes enforcer) :
    Ending words limit below
      (Planning.insert (.physical enforcer) [owner] (some owner) origin) memo := by
  refine (Post.insertAbove h.wellFormed (h.toTame.enclosesEnforcers _) hknown hcatalogued
    henforcer).mono ?_ (fun _ _ hfail => hfail.elim)
  rintro _ _ ⟨middle, hsame, hfinal⟩
  have hlooked := h.quiet hsame
  rcases hfinal with ⟨_, rfl⟩ | ⟨hnew, rfl⟩
  · exact hlooked
  · refine hlooked.trans (hlooked.confined.addEnforcer hmakes hcatalogued henforcer ?_ ?_)
    · rw [hlooked.groups_size]
      exact h.wellFormed.masterKnown owner hknown
    · rw [hsame.findTwin?, hnew]

end Ending

namespace Planner

variable {words : Vocabulary} {limit : Nat} {below : GroupId → GroupId → Prop} {memo : Memo}
  {planner : Planner} {id : ExprId} {op : PhysicalOperator} {own : ContextId} {context : Context}
  {request stage : Nat}

open Planning

/-- Costing an alternative ends. What is recorded is delivered in the words. -/
theorem ending_cost [IsStrictOrder GroupId below] {children : List (Option ContextId)}
    (h : memo.Confined words limit below) :
    Ending words limit below (planner.cost id own request children) memo := by
  unfold cost
  refine Ending.bind (.quiet h (steady_checkAbort _) keeps_checkAbort) fun _ first hfirst => ?_
  refine Post.bind (Post.expr (fun expr hexpr => ?_) fun _ => by simp)
  split
  · rename_i op hop
    have hlooked : Ending words limit below
        ((expr.costings.lookup (own, request)).mapM Planning.costing) first := by
      cases expr.costings.lookup (own, request) with
      | none => exact Ending.pure hfirst.confined
      | some _ =>
          exact .quiet hfirst.confined (Steady.map steady_costing _) (Keeps.map keeps_costing)
    refine Ending.bind hlooked fun recorded second hsecond => ?_
    split
    · exact Ending.pure hsecond.confined
    · refine Ending.bind (.quiet hsecond.confined (steady_context _) keeps_context)
        fun found third hthird => ?_
      obtain ⟨expr', hexpr', hop', _⟩ := (hsecond.trans hthird).expr id expr hexpr
      refine (Post.viewOver_sees hthird.confined.wellFormed hexpr' hthird.confined.delivers _ _).andThen
        (fun _ _ hfail => hfail) ?_
      rintro view seen ⟨hseen, hsees⟩
      replace hseen := hthird.confined.quiet hseen
      refine Ending.after hseen ?_
      split
      · exact Ending.pure hseen.confined
      · dsimp only
        split
        · exact Ending.pure hseen.confined
        · refine Ending.bind (.quiet hseen.confined (lasts_contextStatistics hseen.confined.toTame)
            keeps_contextStatistics) fun statistics fourth hfourth => ?_
          refine Ending.bind (.quiet hfourth.confined (steady_inputsOf _) Planner.keeps_inputsOf)
            fun inputs fifth hfifth => ?_
          split
          · exact Ending.pure hfifth.confined
          · refine .store hfifth.confined (steady_insertCosting _)
              (Optimizer.Settles.keeps_insertCosting_of (Memo.staysConfined_addCosting ?_))
            intro plan hplan
            obtain rfl := Option.some.inj hplan
            -- what a plan delivers is out of the vocabulary of its children and of its operator
            have hop := hop'.trans hop
            exact Vocabulary.places_delivered (hthird.confined.catalogued id expr' op hexpr' hop)
              (hthird.confined.knows id expr' op hexpr' hop) hsees
  · exact Ending.pure hfirst.confined

/-- Adding enforcers ends. -/
theorem ending_enforce {contexts : List (Option ContextId)} (h : memo.Confined words limit below)
    (hknown : context.group.index < memo.groups.size) (hadmits : words.Admits context.required) :
    Ending words limit below (planner.enforce id op context contexts) memo := by
  unfold enforce
  refine Ending.bind (.quiet h (steady_viewOver _) keeps_viewOver) fun view seen hseen => ?_
  dsimp only
  split
  · exact Ending.pure hseen.confined
  · split
    · exact Ending.pure hseen.confined
    · refine Ending.bind (Ending.forM hseen.confined fun enforcer henforcer current hcurrent => ?_)
        fun _ final hfinal => Ending.pure hfinal.confined
      obtain ⟨hcatalogued, henforces⟩ := EnforcementDecision.enforcers_catalogued henforcer
      refine Ending.bind (Ending.insertAbove hcurrent.confined ?_ hcatalogued henforces
        (Vocabulary.makes_of_mem_enforcers henforcer hadmits)) fun _ _ hfinal =>
          Ending.pure hfinal.confined
      rw [(hseen.trans hcurrent).groups_size]
      exact hknown

/-- Offering what is recorded as the best ends. -/
theorem ending_installRecorded (h : memo.Confined words limit below) :
    Ending words limit below (Optimizer.installRecorded id own request) memo :=
  .store h (steady_installRecorded _) Optimizer.Offers.keeps_installRecorded

theorem ending_recordPruned {bound : Cost} {contexts : List (Option ContextId)}
    (h : memo.Confined words limit below) :
    Ending words limit below (Optimizer.recordPruned id own request bound contexts) memo :=
  .store h (steady_recordPruned _) (Keeps.bind (Optimizer.Settles.keeps_insertCosting_of
    (Memo.staysConfined_addCosting fun _ hplan => by simp at hplan)) fun _ => Keeps.pure)

/-- Pruning by a bound ends for an alternative on offer. -/
theorem ending_pruneBound? [IsStrictOrder GroupId below] (h : memo.Confined words limit below)
    {goal : GroupId × PlanRequirement} {children : List GroupId}
    (hoffers : memo.Offers below goal id op children) {costed : Option (Nat × CostingId)} :
    Ending words limit below (planner.pruneBound? id context costed) memo :=
  .quiet h (lasts_pruneBound? h.toTame hoffers) Planner.keeps_pruneBound?

/-! ## The depth of calls -/

/-- What is left to be done for a goal: the rank of its group, then what is left to be enforced. -/
def goalRank (rank : GroupId → Nat) (goal : GroupId × PlanRequirement) : Nat :=
  16 * rank goal.1 + goal.2.weight

/-- The rank falls from a goal to those below it. -/
theorem goalRank_lt {rank : GroupId → Nat}
    (hrank : ∀ upper index, index < memo.groups.size → below upper ⟨index⟩ →
      rank ⟨index⟩ < rank upper) {upper lower : GroupId × PlanRequirement}
    (hknown : lower.1.index < memo.groups.size) (h : Asks below upper lower) :
    goalRank rank lower < goalRank rank upper := by
  have hweight := lower.2.weight_lt
  unfold goalRank
  rcases h with hbelow | ⟨hgroup, hless⟩
  · have := hrank upper.1 lower.1.index hknown hbelow
    change rank lower.1 < rank upper.1 at this
    omega
  · rw [hgroup]
    omega

/-- A way to optimize groups that ends for goals below a chain of callers and of a bounded rank. -/
def Ends (words : Vocabulary) (limit : Nat) (below : GroupId → GroupId → Prop)
    (rank : GroupId → Nat) (depth : Nat) (held : List ContextId)
    (optimize : GroupId → PlanRequirement → Planning ContextId) : Prop :=
  ∀ (memo : Memo) (group : GroupId) (required : PlanRequirement),
    memo.Confined words limit below → group.index < memo.groups.size →
    (∀ upper index, index < memo.groups.size → below upper ⟨index⟩ → rank ⟨index⟩ < rank upper) →
    Above below memo held (memo.master group, required) → words.Admits required →
    goalRank rank (memo.master group, required) < depth →
    Ending words limit below (optimize group required) memo

/-- A context is being optimized for a goal. -/
structure Attends (words : Vocabulary) (limit : Nat) (below : GroupId → GroupId → Prop)
    (rank : GroupId → Nat) (held : List ContextId) (own : ContextId)
    (goal : GroupId × PlanRequirement) (memo : Memo) : Prop where
  confined : memo.Confined words limit below
  falls : ∀ upper index, index < memo.groups.size → below upper ⟨index⟩ → rank ⟨index⟩ < rank upper
  known : goal.1.index < memo.groups.size
  master : memo.master goal.1 = goal.1
  admits : words.Admits goal.2
  about : ∃ context, memo.context? own = some context ∧ context.goal = goal
  above : Above below memo held goal

variable {rank : GroupId → Nat} {depth : Nat} {held : List ContextId}
  {goal : GroupId × PlanRequirement} {memo' : Memo}

/-- The context is attended to as the run goes on. -/
theorem Attends.step (h : Attends words limit below rank held own goal memo)
    (hstep : Memo.Confines words limit below memo memo') :
    Attends words limit below rank held own goal memo' where
  confined := hstep.confined
  falls := hstep.groups_size ▸ h.falls
  known := hstep.groups_size ▸ h.known
  master := (hstep.master _).trans h.master
  admits := h.admits
  about := hstep.about h.about
  above := hstep.toRetains.above h.above

/-- The children of an alternative are optimized one after the other. -/
theorem ending_optimizeChildren [IsStrictOrder GroupId below]
    {optimize : GroupId → PlanRequirement → Planning ContextId}
    (hoptimize : Ends words limit below rank depth (own :: held) optimize)
    (h : Attends words limit below rank held own goal memo) (hdepth : goalRank rank goal ≤ depth)
    {children : List GroupId} (hoffers : memo.Offers below goal id op children)
    (hknows : words.Knows op) {view : ExprView}
    (hview : ∀ child ∈ view.children, ∃ below ∈ children, child.group = memo.master below)
    (hserves : servesRequirement op view goal.2 = true) (hgoal : context.goal = goal)
    {positions : List Nat} {progress : ChildProgress}
    (hsiblings : ∀ plan ∈ progress.siblings, words.Places plan.distribution) :
    Ending words limit below
      (planner.optimizeChildren optimize id op view own context request positions progress)
      memo := by
  induction positions generalizing memo progress with
  | nil => exact Ending.pure h.confined
  | cons position rest ih =>
      unfold optimizeChildren
      split
      · exact ih h hoffers hview hsiblings
      · rename_i child hchild
        split
        · exact ih h hoffers hview hsiblings
        · extract_lets asked
          split
          · exact Ending.pure h.confined
          · obtain ⟨lower, hlower, hgroup⟩ := hview child (List.mem_of_getElem? hchild)
            have hmaster : memo.master child.group = memo.master lower := by
              rw [hgroup, h.confined.wellFormed.linksEnd.master_master]
            have hknown : (memo.master lower).index < memo.groups.size :=
              h.confined.wellFormed.masterKnown lower (hoffers.known lower hlower)
            -- the child is asked for a goal below the own one, with columns out of the vocabulary
            have hasked : asked =
                op.childRequirement view goal.2 position progress.siblings request := by
              rw [← hgoal]
              rfl
            have hasks : Asks below goal (memo.master child.group, asked) := by
              rw [hmaster, hasked]
              exact hoffers.asks hserves hlower _ _ _
            have hending : Ending words limit below (optimize child.group asked) memo := by
              refine hoptimize memo child.group asked h.confined (hgroup ▸ hknown) h.falls
                (h.above.cons hasks h.about) ?_ ?_
              · rw [hasked]
                exact Vocabulary.admits_childRequirement hoffers.catalogued hknows h.admits _ _ _
                  hsiblings
              · exact Nat.lt_of_lt_of_le (goalRank_lt h.falls (hmaster ▸ hknown) hasks) hdepth
            refine Ending.bind hending fun reached first hfirst => ?_
            refine Ending.bind (.quiet hfirst.confined (steady_context _) keeps_context)
              fun found second hsecond => ?_
            split
            · exact Ending.pure hsecond.confined
            · refine Post.bind (Post.costing (fun costing hcosting => ?_) fun _ => by simp)
              refine Ending.after (.refl hsecond.confined) ?_
              extract_lets contexts finish
              have hlater := hfirst.trans hsecond
              -- the next child may be asked for what this one delivers, which is out of the
              -- vocabulary too
              have hmore : ∀ plan ∈ progress.siblings ++ costing.delivered.toList,
                  words.Places plan.distribution := by
                intro plan hplan
                rcases List.mem_append.mp hplan with hplan | hplan
                · exact hsiblings plan hplan
                · exact hsecond.confined.delivers _ costing plan hcosting (Option.mem_toList.mp hplan)
              -- both ways to get a bound go on in the same way
              have hfinish (bound : Option Cost) (current : Memo)
                  (hcurrent : Memo.Confines words limit below memo current) :
                  Ending words limit below (finish bound) current := by
                cases bound with
                | some _ =>
                    exact Ending.bind (ending_recordPruned hcurrent.confined)
                      fun _ _ hfinal => Ending.pure hfinal.confined
                | none =>
                    refine ih (h.step hcurrent) (hcurrent.offers hoffers) ?_ hmore
                    simpa only [hcurrent.master] using hview
              split
              · exact Ending.bind (ending_pruneBound? hsecond.confined (hlater.offers hoffers))
                  fun bound current hcurrent => hfinish bound current (hlater.trans hcurrent)
              · exact Ending.bind (Ending.pure hsecond.confined)
                  fun bound current hcurrent => hfinish bound current (hlater.trans hcurrent)

/-- Trying one request of an alternative ends. -/
theorem ending_optimizeRequest [IsStrictOrder GroupId below]
    {optimize : GroupId → PlanRequirement → Planning ContextId}
    (hoptimize : Ends words limit below rank depth (own :: held) optimize)
    (h : Attends words limit below rank held own goal memo) (hdepth : goalRank rank goal ≤ depth)
    {children : List GroupId} (hoffers : memo.Offers below goal id op children) :
    Ending words limit below (planner.optimizeRequest optimize id op own request) memo := by
  unfold optimizeRequest
  refine Ending.bind (.quiet h.confined (steady_checkAbort _) keeps_checkAbort)
    fun _ checked hchecked => ?_
  refine Ending.bind (ending_installRecorded hchecked.confined) fun installed looked hlooked => ?_
  split
  · exact Ending.pure hlooked.confined
  have hnow := hchecked.trans hlooked
  have hattends := h.step hnow
  obtain ⟨about, habout, hgoal⟩ := hattends.about
  refine Post.bind (Post.context (fun context hcontext => ?_) fun _ => by simp)
  obtain rfl := Option.some.inj (habout.symm.trans hcontext)
  refine Post.bind (Post.expr (fun expr hexpr => ?_) fun _ => by simp)
  refine Ending.after (.refl hlooked.confined) ?_
  extract_lets arity unplanned finish
  have hoffersNow := hnow.offers hoffers
  -- with and without pruning the request goes on in the same way
  have hfinish (bound : Option Cost) (current : Memo)
      (hcurrent : Memo.Confines words limit below looked current) :
      Ending words limit below (finish bound) current := by
    cases bound with
    | some _ =>
        exact Ending.bind (ending_recordPruned hcurrent.confined)
          fun _ _ hfinal => Ending.pure hfinal.confined
    | none =>
        obtain ⟨expr', hexpr', hop, hchildren, _⟩ := (hcurrent.offers hoffersNow).found
        have hwell := hcurrent.confined.wellFormed
        refine (Post.view hwell hexpr').andThen (fun _ _ hfail => hfail.elim) ?_
        rintro view viewed ⟨hviewed, hview⟩
        have hseen := hcurrent.confined.quiet hviewed
        refine Ending.after hseen ?_
        dsimp only
        split
        · exact Ending.pure hseen.confined
        · rename_i hserves
          rw [Bool.not_eq_true, Bool.not_eq_false'] at hserves
          have hall := hcurrent.trans hseen
          refine Ending.bind (ending_optimizeChildren hoptimize (hattends.step hall) hdepth
            (hall.offers hoffersNow) (hcurrent.confined.knows id expr' op hexpr' hop)
            (fun child hchild => ?_) (hgoal ▸ hserves) hgoal (by simp)) fun found planned hplanned => ?_
          · obtain ⟨below, hbelow, hgroup⟩ := exists_child_of_bare hview hchild
            exact ⟨below, hchildren ▸ hbelow, hgroup.trans (hseen.master below).symm⟩
          split
          · exact Ending.pure hplanned.confined
          have hattends := (hattends.step hall).step hplanned
          have hknown : about.goal.1.index < planned.groups.size := hgoal ▸ hattends.known
          have hadmits : words.Admits about.goal.2 := hgoal ▸ hattends.admits
          refine Ending.bind (ending_enforce hplanned.confined hknown hadmits)
            fun allowed enforced henforced => ?_
          split
          · refine Ending.bind (ending_cost henforced.confined) fun costed final hfinal => ?_
            split
            · exact Ending.bind (.store hfinal.confined (steady_updateBest _)
                Optimizer.Settles.keeps_updateBest) fun _ _ hlast => Ending.pure hlast.confined
            · exact Ending.bind (ending_installRecorded hfinal.confined)
                fun _ _ hlast => Ending.pure hlast.confined
          · exact Ending.pure henforced.confined
  split
  · exact Ending.bind (ending_pruneBound? hlooked.confined hoffersNow) hfinish
  · exact Ending.bind (Ending.pure hlooked.confined) hfinish

/-- Visiting an alternative of the group of the own context ends. -/
theorem ending_visitAlternative [IsStrictOrder GroupId below]
    {optimize : ExprId → GroupId → PlanRequirement → Planning ContextId}
    (hoptimize : ∀ id, Ends words limit below rank depth (own :: held) (optimize id))
    (h : Attends words limit below rank held own goal memo) (hdepth : goalRank rank goal ≤ depth)
    {parent : Option ExprId} {level : OptimizationLevel} (hid : id ∈ memo.alternativesOf goal.1) :
    Ending words limit below (planner.visitAlternative optimize parent own level id) memo := by
  unfold visitAlternative
  refine Post.bind (Post.get (Post.bind (Post.expr (fun expr hexpr => ?_) fun _ => by simp)))
  cases hop : expr.op with
  | logical _ | scalar _ => exact Ending.pure h.confined
  | physical op =>
      have hoffers := h.confined.toTame.offers h.master hid hexpr hop
      dsimp only
      split
      · refine Ending.forM h.confined fun request _ current hcurrent => ?_
        exact ending_optimizeRequest (hoptimize id) (h.step hcurrent) hdepth
          (hcurrent.offers hoffers)
      · exact Ending.pure h.confined

/-- Going through the alternatives of the group of the own context ends: the position stays within
the room for alternatives, by induction on the steps left. -/
theorem ending_visitAlternatives {visit : ExprId → Planning Unit} {fuel position : Nat}
    (h : Attends words limit below rank held own goal memo) (hposition : position ≤ limit)
    (hfuel : limit < fuel + position)
    (hvisit : ∀ id current, Attends words limit below rank held own goal current →
      id ∈ current.alternativesOf goal.1 → Ending words limit below (visit id) current) :
    Ending words limit below (visitAlternatives goal.1 visit fuel position) memo := by
  induction fuel generalizing memo position with
  | zero => omega
  | succ fuel ih =>
      unfold visitAlternatives
      refine Post.bind (Post.get ?_)
      cases hid : (memo.alternativesOf goal.1)[position]? with
      | none => exact Ending.pure h.confined
      | some id =>
          refine Ending.bind (hvisit id memo h (List.mem_of_getElem? hid)) fun _ current hcurrent => ?_
          have hlisted := (List.getElem?_eq_some_iff.mp hid).1
          have hroom := h.confined.room goal.1
          exact ih (h.step hcurrent) (by omega) (by omega)

/-- Optimizing a group ends when there is fuel for all alternatives and for the rank of the goal, by
induction on the depth of calls. A context on the own chain is never met. -/
theorem ends_optimizeGroupWith [IsStrictOrder GroupId below] {fuel : Nat} (hfuel : limit < fuel)
    (depth : Nat) (parent : Option ExprId) (held : List ContextId) :
    Ends words limit below rank depth held
      (({ planner with fuel } : Planner).optimizeGroupWith (fun _ => throw .outOfFuel) stage depth
        parent held) := by
  induction depth generalizing parent held with
  | zero => exact fun memo group required _ _ _ _ _ hlevel => absurd hlevel (Nat.not_lt_zero _)
  | succ depth ih =>
      intro memo group required h hknown hfalls habove hadmits hlevel
      have hends := h.wellFormed.linksEnd
      unfold optimizeGroupWith
      refine Ending.bind (.quiet h (steady_checkAbort _) keeps_checkAbort) fun _ checked hchecked => ?_
      refine (Post.resolve (hchecked.groups_size ▸ hknown)).andThen (fun _ _ hfail => hfail.elim) ?_
      rintro _ looked ⟨rfl, hsame⟩
      have hlooked := hchecked.trans (hchecked.confined.quiet hsame)
      rw [hchecked.master]
      refine Ending.after (hchecked.confined.quiet hsame) ?_
      have hmaster := h.wellFormed.masterKnown group hknown
      refine (Post.contextFor hlooked.confined.wellFormed hlooked.confined.filed
        (hlooked.groups_size ▸ hmaster)).andThen (fun _ _ hfail => hfail.elim) ?_
      rintro ⟨own, created⟩ found ⟨seen, hseen, hfound, hown⟩
      rw [hlooked.master, hends.master_master] at hfound hown
      have hseen := hlooked.confined.quiet hseen
      have hfound : Memo.Confines words limit below looked found := by
        rcases hfound with rfl | rfl
        · exact hseen
        · exact hseen.trans hseen.confined.addContext
      refine Ending.after hfound ?_
      have hall := hlooked.trans hfound
      have hattends : Attends words limit below rank held own (memo.master group, required) found :=
        { confined := hfound.confined
          falls := hall.groups_size ▸ hfalls
          known := hall.groups_size ▸ hmaster
          master := by rw [hall.master, hends.master_master]
          admits := hadmits
          about := hown
          above := hall.toRetains.above habove }
      -- the own context is about the goal, all held ones are about something above it
      have hfree : own ∉ held := by
        intro hheld
        obtain ⟨context, hcontext, hgoal⟩ := hown
        obtain ⟨context', hcontext', hasks⟩ := hattends.above own hheld
        obtain rfl := Option.some.inj (hcontext.symm.trans hcontext')
        exact irrefl_of (Asks below) _ (hgoal ▸ hasks)
      refine Ending.bind (.quiet hfound.confined (steady_context _) keeps_context)
        fun context read hread => ?_
      dsimp only
      split
      · rename_i hmet
        simp [hfree] at hmet
      · split
        · exact Ending.pure hread.confined
        · have hmarks (state : ContextState) : Keeps (Memo.StaysConfined words limit below)
              (modify (·.modifyContext own fun context => { context with state })) :=
            Optimizer.Note.keeps_modifyContext fun _ => rfl
          refine Ending.bind (.store hread.confined (Steady.modify _) (hmarks .optimizing))
            fun _ marked hmarked => ?_
          refine Ending.bind (.quiet hmarked.confined (steady_group _) keeps_group)
            fun entered current hcurrent => ?_
          have hattends := ((hattends.step hread).step hmarked).step hcurrent
          refine Ending.bind (Ending.forM hcurrent.confined fun level _ visited hvisited => ?_)
            fun _ last hlast => ?_
          · refine ending_visitAlternatives (hattends.step hvisited) (Nat.zero_le _) hfuel
              fun id visiting hvisiting hid => ?_
            exact ending_visitAlternative (fun id => ih (some id) (own :: held)) hvisiting
              (Nat.le_of_lt_succ hlevel) hid
          · exact Ending.bind (.store hlast.confined (Steady.modify _) (hmarks .optimized))
              fun _ _ hdone => Ending.pure hdone.confined

/-- Optimizing a group ends, whether the group is known or not. -/
theorem lasts_optimizeWith [IsStrictOrder GroupId below] (h : memo.Confined words limit below)
    {fuel : Nat} (hfuel : limit < fuel)
    (hfalls : ∀ upper index, index < memo.groups.size → below upper ⟨index⟩ →
      rank ⟨index⟩ < rank upper) {group : GroupId} {required : PlanRequirement}
    (hadmits : words.Admits required)
    (hdepth : goalRank rank (memo.master group, required) < fuel) :
    Lasts (({ planner with fuel } : Planner).optimizeWith (fun _ => throw .outOfFuel) stage group
      required) memo := by
  unfold optimizeWith
  by_cases hknown : group.index < memo.groups.size
  · have hends : Ending words limit below _ memo :=
      @ends_optimizeGroupWith words limit below planner stage rank _ fuel hfuel fuel none [] memo
        group required h hknown hfalls (by simp [Above]) hadmits hdepth
    exact hends.andThen (fun _ _ hfail => hfail) fun own final _ =>
      Steady.bind steady_context (fun _ => .pure) final
  · obtain ⟨fuel, rfl⟩ : ∃ less, fuel = less + 1 := ⟨fuel - 1, by omega⟩
    unfold optimizeGroupWith
    refine Post.bind (Post.bind (Post.checkAbort (fun _ => ?_) fun _ => by simp))
    refine Post.bind (Post.bind (Post.group (fun found hfound => ?_) fun _ => by simp))
    exact absurd (Memo.exists_group?_eq_some.mp ⟨found, hfound⟩) hknown

end Planner

/-- Some words and some room are enough for a memo and a requirement. -/
theorem Memo.exists_confined {below : GroupId → GroupId → Prop} {memo : Memo}
    (htame : memo.Tame below) (hfiled : memo.Filed) (required : PlanRequirement) :
    ∃ words limit, words.Admits required ∧ memo.Confined words limit below := by
  obtain ⟨words, hadmits, hknows, hdelivers⟩ := Vocabulary.exists_words memo required
  let lists := memo.groups.toList.map (·.alternatives)
  refine ⟨words, lists.flatten.length + (memo.missing words).ncard, hadmits, htame, hfiled, hknows,
    hdelivers, fun id => Nat.add_le_add_right ?_ _⟩
  unfold alternativesOf
  cases hgroup : memo.group? id with
  | none => simp
  | some group =>
      have hmem : group ∈ memo.groups.toList :=
        Array.mem_toList_iff.mpr (Array.mem_of_getElem? hgroup)
      have hlist : group.alternatives ∈ lists := List.mem_map_of_mem hmem
      exact (List.sublist_flatten_of_mem hlist).length_le

open Planning (Approximates exec)

/-- Take any memo over operators of the catalogue, with enforcers above their own groups and no group
above itself, in which groups may have been optimized before. With enough fuel the optimizer ends in
one and the same way, and not because it runs out of fuel. What is answered for a context that is met
on its own chain makes no difference: such a context is never met. -/
theorem Memo.Attainable.optimize_ends {memo : Memo} (hattainable : memo.Attainable)
    (hcatalogued : ∀ id expr op, memo.expr? id = some expr → expr.op = .physical op →
      op.isCatalogued = true)
    (henforcing : ∀ id expr, memo.expr? id = some expr → expr.op.isEnforcer = true →
      expr.children.map memo.master = [memo.master expr.group])
    (hacyclic : ∀ id, ¬ Relation.TransGen memo.Reads id id)
    (planner : Planner) (stage : Nat) (group : GroupId) (required : PlanRequirement) :
    ∃ enough outcome final, outcome ≠ .error .outOfFuel ∧ ∀ fuel, enough ≤ fuel →
      exec (({ planner with fuel } : Planner).optimize stage group required) memo =
        (outcome, final) ∧
      ∀ reentered : ContextId → Planning ContextId,
        exec (({ planner with fuel } : Planner).optimizeWith reentered stage group required) memo =
          (outcome, final) := by
  have horder : IsStrictOrder GroupId (Relation.TransGen memo.Reads) :=
    { irrefl := hacyclic, trans := fun _ _ _ => .trans }
  obtain ⟨hwell, hfiled⟩ := hattainable.inOrder
  have htame : memo.Tame (Relation.TransGen memo.Reads) :=
    ⟨hwell, hcatalogued, henforcing, fun _ _ => .single⟩
  obtain ⟨words, limit, hadmits, hconfined⟩ := exists_confined htame hfiled required
  obtain ⟨rank, _, hfalls⟩ :=
    exists_rank (Relation.TransGen memo.Reads) GroupId.mk memo.groups.size
  -- the run that fails at every reentry ends, so all runs with that much fuel agree with it
  let enough := limit + Planner.goalRank rank (memo.master group, required) + 1
  let strict := ({ planner with fuel := enough } : Planner).optimizeWith
    (fun _ => throw .outOfFuel) stage group required
  have hlasts : Planning.Lasts strict memo :=
    Planner.lasts_optimizeWith hconfined (by omega) hfalls hadmits (by omega)
  have hends : (exec strict memo).1 ≠ .error .outOfFuel := by
    obtain ⟨value, final, hexec, _⟩ | ⟨error, final, hexec, herror⟩ := hlasts.exists_exec <;>
      rw [hexec]
    · simp
    · simpa using herror
  have hsame (fuel : Nat) (hfuel : enough ≤ fuel) (reentered : ContextId → Planning ContextId) :
      exec (({ planner with fuel } : Planner).optimizeWith reentered stage group required) memo =
        exec strict memo := by
    have happroximates : Approximates strict
        (({ planner with fuel } : Planner).optimizeWith reentered stage group required) :=
      .bind (Planner.approximates_optimizeGroupWith reentered hfuel hfuel none [] group required)
        fun _ => .refl _
    exact (happroximates.exec_eq hends).symm
  refine ⟨enough, _, _, hends, fun fuel hfuel => ⟨?_, hsame fuel hfuel⟩⟩
  rw [← Planner.optimizeWith_pure]
  exact hsame fuel hfuel pure

/-- The join may be asked for again after a call, now on one host and in an order. -/
theorem Memo.joined_ends :
    let before := (exec OptimizeCall.joined.run joined).2
    let required : PlanRequirement :=
      { columns := .ofList [⟨0⟩]
        order := ⟨.ascending [⟨0⟩], .satisfy⟩
        distribution := ⟨.singleton, .satisfy⟩ }
    ∃ enough outcome final, outcome ≠ .error .outOfFuel ∧ ∀ fuel, enough ≤ fuel →
      exec (({ model := .unit, fuel } : Planner).optimize 0 ⟨3⟩ required) before =
        (outcome, final) ∧
      ∀ reentered : ContextId → Planning ContextId,
        exec (({ model := .unit, fuel } : Planner).optimizeWith reentered 0 ⟨3⟩ required) before =
          (outcome, final) := by
  intro before required
  have hstacked : before.isStacked = true := by decide +kernel
  have hattainable : before.Attainable := by
    refine .optimize ?_ _ _ _ _
    unfold joined
    simp only [List.foldl_cons, List.foldl_nil]
    repeat refine .insert ?_ _ _ _ _
    exact .empty
  exact hattainable.optimize_ends (isCatalogued_of_isStacked hstacked)
    (enforces_of_isStacked hstacked) (acyclic_of_isStacked hstacked hattainable.inOrder.1)
    { model := .unit, fuel := 0 } 0 ⟨3⟩ required

end QueryPlanner
