import QueryPlanner.Proofs.Optimizer.Lookup

/-!
# Recording costings

While a context is optimized, costings are recorded for it and offered as its best. Every such step
leaves what planning has found in order and the context open, with the same goal, whether it
succeeds or fails (`Working`). A costing of `Planner.cost` is justified when it is recorded. Between
recording and offering it may be better than the best one (`Pending`); nothing can fail there.
-/

namespace QueryPlanner

open Memo (Advances Evolves Settled SameContent)

variable {planners : List Planner} {below : GroupId → GroupId → Prop} {held : List ContextId}
  {own : ContextId} {goal : GroupId × PlanRequirement} {stage : Nat} {start memo memo' : Memo}

/-- Planning has gone on from a memo and works on a context of its own: one that is not held by a
caller and not optimized yet. -/
structure Working (planners : List Planner) (below : GroupId → GroupId → Prop)
    (held : List ContextId) (own : ContextId) (goal : GroupId × PlanRequirement) (stage : Nat)
    (start memo : Memo) : Prop where
  advances : Advances planners below held start memo
  busy : ∃ context, memo.context? own = some context ∧ context.state = .optimizing ∧
    context.goal = goal ∧ context.stage = stage
  free : own ∉ held

namespace Working

/-- Planning that holds the own context leaves it open. -/
theorem step (h : Working planners below held own goal stage start memo)
    (hstep : Advances planners below (own :: held) memo memo') :
    Working planners below held own goal stage start memo' := by
  obtain ⟨context, hcontext, hbusy⟩ := h.busy
  refine ⟨h.advances.trans (hstep.mono (List.subset_cons_self _ _)), ?_, h.free⟩
  exact ⟨context, hstep.evolves.context?_eq hcontext (.inr (List.mem_cons_self ..)), hbusy⟩

theorem quiet (h : Working planners below held own goal stage start memo)
    (hsame : SameContent memo memo') : Working planners below held own goal stage start memo' :=
  h.step (h.advances.settled.quiet hsame)

/-- The own context, as it was looked up before, is about the goal. -/
theorem exists_goal (h : Working planners below held own goal stage start memo) :
    ∃ context, memo.context? own = some context ∧ context.goal = goal := by
  obtain ⟨context, hcontext, _, hgoal, _⟩ := h.busy
  exact ⟨context, hcontext, hgoal⟩

/-- The group of the own context is a master. -/
theorem home (h : Working planners below held own goal stage start memo) :
    memo.master goal.1 = goal.1 ∧ goal.1.index < memo.groups.size := by
  obtain ⟨context, hcontext, rfl⟩ := h.exists_goal
  obtain ⟨group, hgroup, _⟩ := h.advances.settled.filed own context hcontext
  exact ⟨h.advances.settled.contextHome own context hcontext,
    Memo.exists_group?_eq_some.mp ⟨group, hgroup⟩⟩

end Working

/-- Planning works on a context of its own and has recorded a costing for it that was not offered as
the best one yet. -/
structure Pending (planners : List Planner) (below : GroupId → GroupId → Prop)
    (held : List ContextId) (own : ContextId) (goal : GroupId × PlanRequirement) (stage : Nat)
    (start memo : Memo) (fresh : CostingId) : Prop where
  evolves : Evolves held start memo
  settled : memo.Settled planners below
  peaks : PricesApart planners → start.Peaks → memo.PeaksBut (some fresh)
  busy : ∃ context, memo.context? own = some context ∧ context.state = .optimizing ∧
    context.goal = goal ∧ context.stage = stage
  free : own ∉ held
  recorded : ∃ costing, memo.costing? fresh = some costing ∧ costing.context = own

/-- A costing that was offered before may be offered again. -/
theorem Working.pending (h : Working planners below held own goal stage start memo)
    {fresh : CostingId} {costing : Costing} (hcosting : memo.costing? fresh = some costing)
    (hown : costing.context = own) : Pending planners below held own goal stage start memo fresh where
  evolves := h.advances.evolves
  settled := h.advances.settled
  peaks hprices hpeaks context slot costing hregistered _ :=
    h.advances.peaks hprices hpeaks context slot costing hregistered (by simp)
  busy := h.busy
  free := h.free
  recorded := ⟨costing, hcosting, hown⟩

namespace Pending

variable {fresh : CostingId} {candidate : Costing}

/-- The costing counts as offered when it is not better than the best one. -/
theorem keep (h : Pending planners below held own goal stage start memo fresh)
    (hcandidate : memo.costing? fresh = some candidate)
    (hpeak : PricesApart planners → candidate.pruned = false →
      memo.Peaked candidate.context candidate) :
    Working planners below held own goal stage start memo :=
  ⟨⟨h.evolves, h.settled, fun hprices hpeaks =>
    (h.peaks hprices hpeaks).offered h.settled hcandidate (hpeak hprices)⟩, h.busy, h.free⟩

/-- The costing becomes the best one of the own context. -/
theorem setBest (h : Pending planners below held own goal stage start memo fresh)
    (hcandidate : memo.costing? fresh = some candidate) (hpruned : candidate.pruned = false)
    (hbetter : ∀ known, memo.bestCosting? own = some known → memo.betterThan candidate known = true) :
    Working planners below held own goal stage start (memo.setBest fresh candidate) := by
  obtain ⟨context, hcontext, hoptimizing, hgoal, hstage⟩ := h.busy
  obtain rfl : candidate.context = own := by
    obtain ⟨found, hfound, hown⟩ := h.recorded
    rwa [Option.some.inj (hcandidate.symm.trans hfound)]
  have hopen : context.state ≠ .optimized := by simp [hoptimizing]
  obtain ⟨hevolves, hsettled⟩ :
      Evolves held memo (memo.setBest fresh candidate) ∧
        (memo.setBest fresh candidate).Settled planners below := by
    refine h.settled.modifyContext hcontext hopen h.free rfl rfl (fun _ => rfl) ?_
    rintro best hbest
    obtain rfl := Option.some.inj hbest
    exact ⟨candidate, hcandidate, rfl, hpruned⟩
  refine ⟨⟨h.evolves.trans hevolves, hsettled, fun hprices hpeaks =>
    (h.peaks hprices hpeaks).setBest h.settled hprices hcandidate hpruned hcontext hopen hbetter⟩,
    ?_, h.free⟩
  unfold Memo.setBest
  rw [Memo.context?_modifyContext, if_pos rfl, hcontext]
  exact ⟨_, rfl, hoptimizing, hgoal, hstage⟩

/-- Looking around leaves the costing to be offered. -/
theorem quiet (h : Pending planners below held own goal stage start memo fresh)
    (hsame : SameContent memo memo') :
    Pending planners below held own goal stage start memo' fresh := by
  have hstep : Advances planners below held memo memo' := h.settled.quiet hsame
  obtain ⟨context, hcontext, hbusy⟩ := h.busy
  obtain ⟨costing, hcosting, hown⟩ := h.recorded
  refine ⟨h.evolves.trans hstep.evolves, hstep.settled, fun hprices hpeaks => ?_,
    ⟨context, (hsame.context? own).trans hcontext, hbusy⟩, h.free,
    ⟨costing, (hsame.costing? fresh).trans hcosting, hown⟩⟩
  refine (h.peaks hprices hpeaks).evolves h.settled hstep.evolves (fun id => ?_)
    fun id expr hexpr entry hentry hold => ⟨hold, ?_⟩
  · unfold Memo.best?
    rw [hsame.context?]
  · obtain ⟨before, hbefore, hcontent⟩ := hsame.exists_expr_before hexpr
    exact ⟨before, hbefore, (congrArg (·.costings) hcontent : expr.costings = _) ▸ hentry⟩

end Pending

namespace Planning

open Planner Optimizer

/-- Quiet computations leave the own context open. -/
theorem Post.quiet {α : Type} {action : Planning α} (hquiet : Keeps SameContent action)
    (h : Working planners below held own goal stage start memo) :
    Post action memo (fun _ => Working planners below held own goal stage start)
      (fun _ => Advances planners below held start) :=
  (hquiet memo).mono (fun _ _ hsame => h.quiet hsame) (fun _ _ hsame => (h.quiet hsame).advances)

/-- Comparing two costings that can be compared succeeds. -/
theorem Post.comparedTo {left right : Costing} (hleft : memo.Comparable left)
    (hright : memo.Comparable right) :
    Post (Planning.betterThan left right) memo
      (fun better final => SameContent memo final ∧ better = final.betterThan left right)
      (fun _ _ => False) :=
  ((Post.betterThan (.refl memo) hleft hright).both Post.compared).mono (fun _ _ hok => hok.2)
    fun _ _ hfail => hfail.1

/-- Offering a costing of the own context as its best. -/
theorem Post.updateBest {id : CostingId}
    (h : Pending planners below held own goal stage start memo id) :
    Post (updateBest id) memo (fun _ => Working planners below held own goal stage start)
      (fun _ _ => False) := by
  obtain ⟨candidate, hcandidate, hown⟩ := h.recorded
  obtain ⟨context, hcontext, _⟩ := h.busy
  have hheld (known : Costing) (hknown : memo.bestCosting? own = some known) :
      ∃ best, context.best = some best ∧ memo.costing? best = some known := by
    unfold Memo.bestCosting? Memo.best? at hknown
    rw [hcontext, Option.bind_some] at hknown
    exact Option.bind_eq_some_iff.mp hknown
  refine Post.bind (Post.costing (fun found hfound => ?_) (fun hnone => ?_))
  · obtain rfl := Option.some.inj (hcandidate.symm.trans hfound)
    split
    · rename_i hpruned
      exact Post.pure (h.keep hcandidate fun _ hcosted => by simp [hpruned] at hcosted)
    · rename_i hcosted
      rw [Bool.not_eq_true] at hcosted
      have hrankable := (h.settled.justified id candidate hcandidate hcosted).rankable
      rw [hown]
      refine Post.bind (Post.context (fun again hagain => ?_) (fun hnone => ?_))
      · obtain rfl := Option.some.inj (hcontext.symm.trans hagain)
        extract_lets current finish
        -- whether the costing is better is decided without changing what counts
        have hfinish (improves : Bool) (decided : Memo) (hsame : SameContent memo decided)
            (hbetter : improves = true → ∀ known, memo.bestCosting? own = some known →
              decided.betterThan candidate known = true)
            (hworse : improves = false → PricesApart planners → decided.Peaked own candidate) :
            Post (finish improves) decided
              (fun _ => Working planners below held own goal stage start) (fun _ _ => False) := by
          have hdecided := h.quiet hsame
          have hcandidate := (hsame.costing? id).trans hcandidate
          cases improves with
          | true =>
              refine Post.bind (Post.modify (Post.pure
                (hdecided.setBest hcandidate hcosted fun known hknown => ?_)))
              exact hbetter rfl known (hsame.bestCosting? own ▸ hknown)
          | false => exact Post.pure (hdecided.keep hcandidate fun hprices _ => by
              rw [hown]
              exact hworse rfl hprices)
        cases hcurrent : context.best with
        | none =>
            simp only [current, hcurrent]
            refine Post.bind (Post.pure (hfinish true memo (.refl memo) (fun _ known hknown => ?_)
              (by simp)))
            obtain ⟨_, hbest, _⟩ := hheld known hknown
            simp [hcurrent] at hbest
        | some best =>
            obtain ⟨known, hknown, _, hunpruned⟩ :=
              h.settled.best own context best hcontext hcurrent
            have hbest : memo.bestCosting? own = some known := by
              unfold Memo.bestCosting? Memo.best?
              rw [hcontext, Option.bind_some, hcurrent, Option.bind_some, hknown]
            simp only [current, hcurrent]
            split
            · rename_i hsame
              obtain rfl := hsame
              obtain rfl := Option.some.inj (hcandidate.symm.trans hknown)
              exact Post.bind (Post.pure (hfinish false memo (.refl memo) (by simp)
                fun _ hprices => ⟨candidate, hbest, Memo.betterThan_self⟩))
            · refine Post.bind (Post.costing (fun found hfound => ?_) (fun hnone => ?_))
              · obtain rfl := Option.some.inj (hknown.symm.trans hfound)
                refine (Post.comparedTo (h.settled.comparable hcandidate hcosted)
                  (h.settled.comparable hknown hunpruned)).andThen (fun _ _ hfail => hfail) ?_
                rintro better decided ⟨hsame, rfl⟩
                refine hfinish _ decided hsame (fun hbetter other hother => ?_) fun hworse _ =>
                  ⟨known, (hsame.bestCosting? own).trans hbest, hworse⟩
                obtain rfl := Option.some.inj (hbest.symm.trans hother)
                exact hbetter
              · rw [hknown] at hnone
                exact absurd hnone (by simp)
      · rw [hcontext] at hnone
        exact absurd hnone (by simp)
  · rw [hcandidate] at hnone
    exact absurd hnone (by simp)

/-- Offering what is recorded for a request of the own context. -/
theorem Post.installRecorded {id : ExprId} {request : Nat}
    (h : Working planners below held own goal stage start memo) :
    Post (installRecorded id own request) memo
      (fun _ => Working planners below held own goal stage start)
      (fun _ => Advances planners below held start) := by
  unfold Optimizer.installRecorded
  refine Post.bind (Post.expr (fun expr hexpr => ?_) (fun _ => h.advances))
  cases hrecorded : expr.costings.lookup (own, request) with
  | none => exact Post.pure h
  | some recorded =>
      obtain ⟨before, after, hentries, _⟩ := List.lookup_eq_some_iff.mp hrecorded
      obtain ⟨costing, hcosting, hown⟩ := h.advances.settled.slots id expr hexpr
        ((own, request), recorded) (by simp [hentries])
      exact Post.bind ((Post.updateBest (h.pending hcosting hown)).mono
        (fun _ _ hfinal => Post.pure hfinal) (fun _ _ hfail => hfail.elim))

/-- A costing takes the place of one that was given up, or of one that it is better than. -/
theorem Post.mayReplace {candidate recorded : Costing} :
    Post (mayReplace candidate recorded) memo
      (fun replaces final => SameContent memo final ∧ (replaces = true → recorded.pruned = true ∨
        candidate.pruned = false ∧ final.betterThan candidate recorded = true))
      (fun _ final => SameContent memo final) := by
  unfold Planning.mayReplace
  split
  · rename_i hpruned
    exact Post.pure ⟨.refl memo, fun _ => .inl hpruned⟩
  · split
    · exact Post.pure ⟨.refl memo, by simp⟩
    · rename_i hfresh
      rw [Bool.or_eq_true, not_or, Bool.not_eq_true, Bool.not_eq_true] at hfresh
      refine Post.compared.mono ?_ fun _ _ hsame => hsame
      rintro _ final ⟨hsame, rfl⟩
      exact ⟨hsame, fun hbetter => .inr ⟨hfresh.2, hbetter⟩⟩

/-- Recording a costing for the own context. If it takes the place of the best one there, it becomes
the best one itself, otherwise it is to be offered. -/
theorem Post.insertCosting {candidate : Costing}
    (h : Working planners below held own goal stage start memo) (hown : candidate.context = own)
    (hcandidate : candidate.pruned = false → memo.Accounted planners below candidate)
    (hbeaten : candidate.pruned = true → memo.Beaten candidate) :
    Post (insertCosting candidate) memo
      (fun added final =>
        (added = none → Working planners below held own goal stage start final) ∧
        ∀ id ∈ added, Pending planners below held own goal stage start final id ∧
          final.costing? id = some candidate)
      (fun _ => Advances planners below held start) := by
  have hquiet {current : Memo} (hsame : SameContent memo current) : Evolves held memo current :=
    hsame.evolves h.advances.settled.wellFormed.linksEnd
  -- the new costing is registered for its context and request
  have hadd {current : Memo} (hsame : SameContent memo current) :
      Evolves held current (current.addCosting candidate) ∧
        Pending planners below held own goal stage start (current.addCosting candidate)
          ⟨current.costings.size⟩ ∧
        (current.addCosting candidate).costing? ⟨current.costings.size⟩ = some candidate := by
    have hcurrent := h.quiet hsame
    have hnew : (current.addCosting candidate).costing? ⟨current.costings.size⟩ = some candidate := by
      rw [Memo.costing?_addCosting, if_pos rfl]
    obtain ⟨hadded, hsettled, hpeaks⟩ := hcurrent.advances.settled.addCosting
      (fun hpruned => (hcandidate hpruned).evolves (hquiet hsame))
      (fun hpruned => (hbeaten hpruned).evolves (hquiet hsame))
    exact ⟨hadded, ⟨hcurrent.advances.evolves.trans hadded, hsettled,
      fun hprices hstart => hpeaks (hcurrent.advances.peaks hprices hstart), hcurrent.busy, h.free,
      ⟨candidate, hnew, hown⟩⟩, hnew⟩
  refine Post.bind (Post.expr (fun owner howner => ?_) (fun _ => h.advances))
  cases hrecorded : owner.costings.lookup (candidate.context, candidate.request) with
  | none =>
      refine Post.bind (Post.get (Post.bind (Post.modify (Post.pure ⟨by simp, fun id hid => ?_⟩))))
      obtain rfl := Option.some.inj hid
      exact (hadd (.refl memo)).2
  | some recordedId =>
      refine Post.bind (Post.costing (fun recorded hfound => ?_) (fun _ => h.advances))
      refine Post.mayReplace.andThen (fun _ _ hsame => (h.quiet hsame).advances) ?_
      rintro replaces current ⟨hsame, hreplaces⟩
      have hkept : (current.addCosting candidate).costing? recordedId = some recorded :=
        Memo.costing?_addCosting_of_some ((hsame.costing? _).trans hfound)
      obtain ⟨hevolves, hadded, hnew⟩ := hadd hsame
      have hcurrent := h.quiet hsame
      cases replaces with
      | false => exact Post.pure ⟨fun _ => hcurrent, by simp⟩
      | true =>
          refine Post.bind (Post.get (Post.bind (Post.modify ?_)))
          obtain ⟨busy, hbusy, _⟩ := hadded.busy
          refine Post.bind (Post.context (fun context hcontext => ?_) (fun hnone => ?_))
          · rw [hown] at hcontext
            dsimp only
            split
            · rename_i hbest
              obtain ⟨best, hheld, _, hunpruned⟩ :=
                hadded.settled.best own context recordedId hcontext hbest
              obtain rfl := Option.some.inj (hkept.symm.trans hheld)
              -- the best costing of a context is never pruned, so the two were compared
              obtain ⟨hpruned, hbetter⟩ : candidate.pruned = false ∧
                  current.betterThan candidate recorded = true := by
                simpa [hunpruned] using hreplaces rfl
              have hranked := ((hcandidate hpruned).evolves (hquiet hsame)).justified.rankable
              refine Post.bind (Post.modify (Post.pure ⟨by simp, fun id hid => ?_⟩))
              obtain rfl := Option.some.inj hid
              have hset := hadded.setBest hnew hpruned fun known hknown => ?_
              · have hstill : (Memo.setBest (current.addCosting candidate)
                    ⟨current.costings.size⟩ candidate).costing? ⟨current.costings.size⟩ =
                      some candidate := hnew
                exact ⟨hset.pending hstill hown, hstill⟩
              · unfold Memo.bestCosting? Memo.best? at hknown
                rw [hcontext, Option.bind_some, hbest, Option.bind_some, hkept] at hknown
                obtain rfl := Option.some.inj hknown
                rw [hevolves.betterThan hranked ?_, hbetter]
                exact (hcurrent.advances.settled.justified recordedId _
                  ((hsame.costing? _).trans hfound) hunpruned).rankable
            · refine Post.pure ⟨by simp, fun id hid => ?_⟩
              obtain rfl := Option.some.inj hid
              exact ⟨hadded, hnew⟩
          · rw [hown, hbusy] at hnone
            exact absurd hnone (by simp)

/-- The bound that an alternative of the own context is given up for is undercut. -/
theorem Post.pruneBoundFor? {planner : Planner} {id : ExprId} {context : Context}
    {costed : Option (Nat × CostingId)}
    (h : Working planners below held own goal stage start memo) (hgoal : context.goal = goal)
    (hstage : context.stage = stage) :
    Post (planner.pruneBound? id context costed) memo
      (fun result final => SameContent memo final ∧
        ∀ bound ∈ result, final.Undercut goal stage bound)
      (fun _ final => SameContent memo final) := by
  have hsettled := h.advances.settled
  have hhome : memo.master context.group = context.group ∧
      context.group.index < memo.groups.size := by
    rw [show context.group = goal.1 from congrArg Prod.fst hgoal]
    exact h.home
  refine (Post.pruneBound? hsettled hhome.1 hhome.2).mono ?_ (fun _ _ hfail => hfail)
  rintro result final ⟨hsame, hundercut⟩
  have hevolves : Memo.Evolves held memo final := hsame.evolves hsettled.wellFormed.linksEnd
  rw [hgoal, hstage] at hundercut
  exact ⟨hsame, fun bound hbound => (hundercut bound hbound).evolves hevolves⟩

/-- Recording that a request was given up for a cheaper plan. -/
theorem Post.recordPruned {id : ExprId} {request : Nat} {bound : Cost}
    {children : List (Option ContextId)}
    (h : Working planners below held own goal stage start memo)
    (hundercut : memo.Undercut goal stage bound) :
    Post (recordPruned id own request bound children) memo
      (fun _ => Working planners below held own goal stage start)
      (fun _ => Advances planners below held start) :=
  have ⟨context, hcontext, _, hgoal, hstage⟩ := h.busy
  have hgivenUp (added : Option CostingId) (final : Memo)
      (hfinal : (added = none → Working planners below held own goal stage start final) ∧
        ∀ id ∈ added, Pending planners below held own goal stage start final id ∧
          final.costing? id = some _) :
      Working planners below held own goal stage start final := by
    cases added with
    | none => exact hfinal.1 rfl
    | some id => exact (hfinal.2 id rfl).1.keep (hfinal.2 id rfl).2 fun _ hcosted => by simp at hcosted
  Post.bind ((Post.insertCosting h rfl (by simp)
    (fun _ => ⟨context, hcontext, by rwa [hgoal, hstage]⟩)).mono
      (fun added final hfinal => Post.pure (hgivenUp added final hfinal)) (fun _ _ hfail => hfail))

/-! ## Costing an alternative -/

/-- The inputs from chosen plans can be collected. -/
theorem Post.inputsOf {segments : Nat} {ids : List ContextId}
    (hchosen : ∀ id ∈ ids, ∃ context costing, memo.Chosen id context costing) :
    Post (cost.inputsOf segments ids) memo
      (fun inputs final => final = memo ∧ inputs = some (ids.filterMap (memo.bestInput? segments)))
      (fun _ _ => False) := by
  induction ids with
  | nil => exact Post.pure ⟨rfl, rfl⟩
  | cons id rest ih =>
      obtain ⟨context, costing, hfirst⟩ := hchosen id (by simp)
      obtain ⟨input, hinput⟩ := Option.isSome_iff_exists.mp (hfirst.bestInput?_isSome segments)
      refine (Post.bestPlanChild? hfirst.readable).andThen (fun _ _ hfail => hfail) ?_
      rintro _ final ⟨hfinal, rfl⟩
      obtain rfl := hfinal.symm
      rw [hinput]
      refine (ih fun other hother => hchosen other (by simp [hother])).andThen
        (fun _ _ hfail => hfail) ?_
      rintro _ final ⟨hfinal, rfl⟩
      obtain rfl := hfinal.symm
      exact Post.pure ⟨rfl, by rw [List.filterMap_cons, hinput]; rfl⟩

/-- Costing an alternative of the own group over chosen plans. What is recorded is right. -/
theorem Post.cost {planner : Planner} (hplanner : planner ∈ planners) {id : ExprId}
    {expr : MemoExpr} {op : PhysicalOperator} {request : Nat} {children : List (Option ContextId)}
    (h : Working planners below held own goal stage start memo)
    (hexpr : memo.expr? id = some expr) (hop : expr.op = .physical op)
    (hhome : memo.master expr.group = goal.1) (hlisted : id ∈ memo.alternativesOf goal.1)
    (hplanned : List.Forall₂ (memo.Planned below goal) expr.children children)
    (hrequests : memo.Requests op (memo.bareView id expr) goal.2 request children)
    (hleaves : leavesWay op goal.2 (op.delivered (memo.planView id expr children)) = true) :
    Post (planner.cost id own request children) memo
      (fun costed final =>
        (costed = none → Working planners below held own goal stage start final) ∧
        ∀ id ∈ costed, Pending planners below held own goal stage start final id)
      (fun _ => Advances planners below held start) := by
  have hchosen (id : ContextId) (hid : some id ∈ children) :
      ∃ context costing, memo.Chosen id context costing :=
    Memo.exists_chosen_of_planned hplanned hid
  have hwell := h.advances.settled.wellFormed
  -- whatever was looked at before giving up, the contexts are as they were
  have hnothing {final : Memo} (hsame : SameContent memo final) :
      Post (Pure.pure none : Planning (Option CostingId)) final
        (fun costed final =>
          (costed = none → Working planners below held own goal stage start final) ∧
          ∀ id ∈ costed, Pending planners below held own goal stage start final id)
        (fun _ => Advances planners below held start) :=
    Post.pure ⟨fun _ => h.quiet hsame, by simp⟩
  unfold Planner.cost
  refine Post.bind (Post.checkAbort (fun _ => ?_) (fun _ => h.advances))
  refine Post.bind (Post.expr (fun found hfound => ?_) (fun _ => h.advances))
  obtain rfl := Option.some.inj (hexpr.symm.trans hfound)
  rw [hop]
  dsimp only
  have hlooked : Post ((expr.costings.lookup (own, request)).mapM Planning.costing) memo
      (fun _ final => final = memo) (fun _ final => final = memo) := by
    cases expr.costings.lookup (own, request) with
    | none => exact Post.pure rfl
    | some _ => exact Post.bind (Post.costing (fun _ _ => Post.pure rfl) (fun _ => rfl))
  refine hlooked.andThen (fun _ _ hfinal => hfinal ▸ h.advances) ?_
  intro recorded looked hlooked
  obtain rfl := hlooked.symm
  split
  · exact hnothing (.refl memo)
  · refine Post.bind (Post.context (fun context hcontext => ?_) (fun _ => h.advances))
    have hgoal : context.goal = goal := by
      obtain ⟨busy, hbusy, _, hgoal, _⟩ := h.busy
      rwa [Option.some.inj (hcontext.symm.trans hbusy)]
    refine (Post.viewOver hwell hexpr fun id hid => ?_).andThen
      (fun _ _ hfail => hfail.elim) ?_
    · obtain ⟨_, _, hchosen⟩ := hchosen id hid
      exact hchosen.readable
    rintro view viewed ⟨hviewed, hview⟩
    -- statistics aside, the view is the one over the chosen plans, so it delivers the same
    have hdelivered : op.delivered view = op.delivered (memo.planView id expr children) := by
      rw [← PhysicalOperator.delivered_bare, hview, PhysicalOperator.delivered_withRequired]
      rfl
    have hlogical : view.logical = memo.logical context.group := by
      rw [← ExprView.bare_logical, hview]
      show (memo.overContextsFrom 0 children (memo.bareView id expr)).logical = _
      rw [Memo.overContextsFrom_logical, show context.group = goal.1 from congrArg Prod.fst hgoal,
        ← hhome]
      rfl
    split
    · exact hnothing hviewed
    · split
      · exact hnothing hviewed
      · rename_i hsatisfied
        rw [Bool.not_eq_true, Bool.not_eq_false', hdelivered, hlogical] at hsatisfied
        refine (keeps_contextStatistics viewed).andThen
          (fun _ _ hsame => (h.quiet (hviewed.trans hsame)).advances) ?_
        intro statistics derived hderived
        have hsame := hviewed.trans hderived
        -- deriving statistics leaves all that a record is about, the chosen plans included
        have hevolves : Memo.Evolves held memo derived := hsame.evolves hwell.linksEnd
        refine (Post.inputsOf fun id hid => ?_).andThen (fun _ _ hfail => hfail.elim) ?_
        · obtain ⟨context, costing, hchosen⟩ := hchosen id (by simpa using hid)
          exact ⟨context, costing, hchosen.evolves hevolves⟩
        rintro _ final ⟨hfinal, rfl⟩
        obtain rfl := hfinal.symm
        refine (Post.insertCosting (h.quiet hsame) rfl (fun _ => ?_) (by simp)).mono ?_
          (fun _ _ hfail => hfail)
        · refine Memo.Accounted.evolves ⟨⟨context, expr, op, ?_⟩,
            ⟨context, expr, op, hcontext, hexpr, hop, ?_⟩, ⟨context, expr, op, hcontext, hexpr, hop, ?_⟩,
            ⟨context, hcontext, ?_⟩⟩ hevolves
          · refine
              { context_found := hcontext
                expr_found := hexpr
                physical := hop
                home := hhome.trans (congrArg Prod.fst hgoal).symm
                planned := hgoal ▸ hplanned
                delivered := congrArg some hdelivered
                satisfied := hsatisfied
                charged := ⟨planner, hplanner, statistics, view, rfl, hview, ?_⟩ }
            rw [← hevolves.bestInputs hchosen]
            unfold Memo.bestInputs
            rw [List.filterMap_filterMap]
          · rw [show context.required = goal.2 from congrArg Prod.snd hgoal]
            exact hrequests
          · rw [show context.required = goal.2 from congrArg Prod.snd hgoal]
            exact hleaves
          · rw [show context.group = goal.1 from congrArg Prod.fst hgoal]
            exact hlisted
        · rintro costed final ⟨hnone, hcosted⟩
          exact ⟨hnone, fun id hid => (hcosted id hid).1⟩

end Planning

end QueryPlanner
