import QueryPlanner.Proofs.Optimizer.Recording

/-!
# Optimizing the children of an alternative

The children of an alternative are optimized one after the other, each for a goal below the own one
(`Memo.Offers.asks`). No context on the chain of callers is about such a goal, so the contexts that
come back are optimized and stay as they are. `Progress` is what is known of the children visited so
far, and when all are visited every relational child has a chosen plan.
-/

namespace QueryPlanner

open Memo (Advances Settled SameContent Evolves Planned)
open Optimizer (servesRequirement)

variable {planners : List Planner} {below : GroupId → GroupId → Prop} {held : List ContextId}
  {own : ContextId} {goal : GroupId × PlanRequirement} {stage : Nat} {start memo memo' : Memo}

namespace Memo

/-- A physical alternative that is considered for a goal, with its children. -/
structure Offers (below : GroupId → GroupId → Prop) (memo : Memo)
    (goal : GroupId × PlanRequirement) (id : ExprId) (op : PhysicalOperator)
    (children : List GroupId) : Prop where
  found : ∃ expr, memo.expr? id = some expr ∧ expr.op = .physical op ∧ expr.children = children ∧
    memo.master expr.group = goal.1
  listed : id ∈ memo.alternativesOf goal.1
  catalogued : op.isCatalogued = true
  known : ∀ child ∈ children, child.index < memo.groups.size
  enforcing : op.isEnforcer = true → ∀ child ∈ children, memo.master child = goal.1
  descending : op.isEnforcer = false → ∀ child ∈ children, below goal.1 (memo.master child)

/-- A physical alternative in use is considered for the goals of its group. -/
theorem Tame.offers (h : memo.Tame below) {id : ExprId} {expr : MemoExpr} {op : PhysicalOperator}
    (hmaster : memo.master goal.1 = goal.1) (hid : id ∈ memo.alternativesOf goal.1)
    (hexpr : memo.expr? id = some expr) (hop : expr.op = .physical op) :
    memo.Offers below goal id op expr.children := by
  have hgroup : expr.group = goal.1 := by
    obtain ⟨_, expr', hexpr', howner⟩ := h.wellFormed.owned hid
    obtain rfl := Option.some.inj (hexpr.symm.trans hexpr')
    exact howner
  refine ⟨⟨expr, hexpr, hop, rfl, by rw [hgroup, hmaster]⟩, hid, h.catalogued id expr op hexpr hop,
    h.wellFormed.childKnown id expr hexpr, fun henforcer child hchild => ?_,
    fun hplain child hchild => ?_⟩
  · have hchildren := h.enforcing id expr hexpr (by rwa [hop])
    have := List.mem_map_of_mem (f := memo.master) hchild
    rw [hchildren, List.mem_singleton] at this
    rw [this, hgroup, hmaster]
  · exact h.descending goal.1 _ ⟨hmaster, id, expr, hid, hexpr, by rwa [hop], child, hchild, rfl⟩

namespace Offers

variable {id : ExprId} {op : PhysicalOperator} {children : List GroupId}

/-- What is offered stays on offer. -/
theorem evolves (h : memo.Offers below goal id op children) (hevolves : Evolves held memo memo') :
    memo'.Offers below goal id op children := by
  obtain ⟨expr, hexpr, hop, hchildren, hhome⟩ := h.found
  obtain ⟨expr', hexpr', hop', hchildren', hgroup'⟩ := hevolves.expr id expr hexpr
  refine ⟨⟨expr', hexpr', hop'.trans hop, hchildren'.trans hchildren, ?_⟩,
    (hevolves.alternatives _).subset h.listed, h.catalogued, ?_, ?_, ?_⟩
  · rw [hevolves.master, hgroup', hhome]
  · rw [hevolves.groups_size]
    exact h.known
  · simp only [hevolves.master]
    exact h.enforcing
  · simp only [hevolves.master]
    exact h.descending

/-- What an alternative asks of a child comes below the goal. -/
theorem asks (h : memo.Offers below goal id op children) {view : ExprView}
    (hserves : servesRequirement op view goal.2 = true) {child : GroupId} (hchild : child ∈ children)
    (position : Nat) (siblings : List PlanProperties) (request : Nat) :
    Asks below goal
      (memo.master child, op.childRequirement view goal.2 position siblings request) := by
  cases henforcer : op.isEnforcer with
  | false => exact .inl (h.descending henforcer child hchild)
  | true =>
      exact .inr ⟨(h.enforcing henforcer child hchild).symm,
        Optimizer.weight_childRequirement_lt h.catalogued henforcer hserves⟩

end Offers

end Memo

/-! ## Chains of callers -/

/-- All contexts of a chain are about something above a goal. -/
def Above (below : GroupId → GroupId → Prop) (memo : Memo) (held : List ContextId)
    (goal : GroupId × PlanRequirement) : Prop :=
  ∀ id ∈ held, ∃ context, memo.context? id = some context ∧ Asks below context.goal goal

theorem Above.evolves (h : Above below memo held goal) (hevolves : Evolves held memo memo') :
    Above below memo' held goal := by
  intro id hid
  obtain ⟨context, hcontext, hasks⟩ := h id hid
  exact ⟨context, hevolves.context?_eq hcontext (.inr hid), hasks⟩

/-- The chain gets longer by the own context when a child is optimized. -/
theorem Above.cons [IsStrictOrder GroupId below] {lower : GroupId × PlanRequirement}
    (h : Above below memo held goal) (hasks : Asks below goal lower)
    (hown : ∃ context, memo.context? own = some context ∧ context.goal = goal) :
    Above below memo (own :: held) lower := by
  intro id hid
  rcases List.mem_cons.mp hid with rfl | hid
  · obtain ⟨context, hcontext, hgoal⟩ := hown
    exact ⟨context, hcontext, hgoal ▸ hasks⟩
  · obtain ⟨context, hcontext, habove⟩ := h id hid
    exact ⟨context, hcontext, trans_of (Asks below) habove hasks⟩

/-- A way to optimize groups for goals below a chain of callers: it answers an optimized context,
and however it ends the contexts of the chain stay as they are. -/
def Descends (planners : List Planner) (below : GroupId → GroupId → Prop) (held : List ContextId)
    (stage : Nat) (optimize : GroupId → PlanRequirement → Planning ContextId) : Prop :=
  ∀ (memo : Memo) (group : GroupId) (required : PlanRequirement), memo.Settled planners below →
    group.index < memo.groups.size → Above below memo held (memo.master group, required) →
    Planning.Post (optimize group required) memo
      (fun id final => Advances planners below held memo final ∧
        ∃ context, final.context? id = some context ∧ context.state = .optimized ∧
          context.goal = (memo.master group, required) ∧ context.stage = stage)
      (fun _ => Advances planners below held memo)

/-! ## Visiting the children -/

/-- What is recorded for the children while some positions are still to be visited. -/
structure Progress (below : GroupId → GroupId → Prop) (memo : Memo)
    (goal : GroupId × PlanRequirement) (children : List GroupId) (rest : List Nat)
    (contexts : List (Option ContextId)) : Prop where
  nodup : rest.Nodup
  length : contexts.length = children.length
  unvisited : ∀ position ∈ rest, ∀ entry, contexts[position]? = some entry → entry = none
  planned : ∀ position child entry, position ∉ rest → children[position]? = some child →
    contexts[position]? = some entry → memo.Planned below goal child entry

namespace Progress

variable {children : List GroupId} {rest : List Nat} {position : Nat}
  {contexts : List (Option ContextId)}

/-- At first nothing is recorded. -/
theorem unplanned : Progress below memo goal children (List.range children.length)
    (List.replicate children.length none) where
  nodup := List.nodup_range
  length := List.length_replicate
  unvisited position _ entry hentry := by
    obtain ⟨_, hnone⟩ := List.getElem?_eq_some_iff.mp hentry
    simpa using hnone.symm
  planned position child entry hvisited hchild _ := by
    obtain ⟨hlt, _⟩ := List.getElem?_eq_some_iff.mp hchild
    exact absurd (List.mem_range.mpr hlt) hvisited

theorem evolves (h : Progress below memo goal children rest contexts)
    (hevolves : Evolves held memo memo') : Progress below memo' goal children rest contexts :=
  { h with
    planned := fun position child entry hvisited hchild hentry =>
      (h.planned position child entry hvisited hchild hentry).evolves hevolves }

/-- Nothing is recorded for a scalar. -/
theorem skip (h : Progress below memo goal children (position :: rest) contexts)
    (hscalar : ∀ child, children[position]? = some child →
      (memo.properties (memo.master child)).isScalar = true) :
    Progress below memo goal children rest contexts where
  nodup := (List.nodup_cons.mp h.nodup).2
  length := h.length
  unvisited other hother := h.unvisited other (List.mem_cons_of_mem _ hother)
  planned other child entry hvisited hchild hentry := by
    by_cases hposition : other = position
    · subst hposition
      obtain rfl := h.unvisited other (List.mem_cons_self ..) entry hentry
      exact hscalar child hchild
    · exact h.planned other child entry (by simp [hposition, hvisited]) hchild hentry

/-- The context of a child is recorded at its position. -/
theorem record (h : Progress below memo goal children (position :: rest) contexts)
    {found : Option ContextId}
    (hfound : ∀ child, children[position]? = some child → memo.Planned below goal child found) :
    Progress below memo goal children rest (contexts.set position found) where
  nodup := (List.nodup_cons.mp h.nodup).2
  length := by rw [List.length_set, h.length]
  unvisited other hother entry hentry := by
    have hne : position ≠ other := fun hsame =>
      (List.nodup_cons.mp h.nodup).1 (hsame ▸ hother)
    rw [List.getElem?_set_ne hne] at hentry
    exact h.unvisited other (List.mem_cons_of_mem _ hother) entry hentry
  planned other child entry hvisited hchild hentry := by
    by_cases hposition : position = other
    · subst hposition
      obtain ⟨hlt, hset⟩ := List.getElem?_eq_some_iff.mp hentry
      rw [List.getElem_set_self] at hset
      exact hset ▸ hfound child hchild
    · rw [List.getElem?_set_ne hposition] at hentry
      exact h.planned other child entry (by simp [Ne.symm hposition, hvisited]) hchild hentry

/-- When all children are visited, all of them are planned. -/
theorem finish (h : Progress below memo goal children [] contexts) :
    List.Forall₂ (memo.Planned below goal) children contexts := by
  rw [List.forall₂_iff_get]
  refine ⟨h.length.symm, fun position hchild hentry => ?_⟩
  exact h.planned position _ _ (List.not_mem_nil) (List.getElem?_eq_getElem hchild)
    (List.getElem?_eq_getElem hentry)

end Progress

/-- What is recorded for the children visited so far has chosen plans. -/
theorem Progress.exists_chosen {children : List GroupId} {rest : List Nat}
    {contexts : List (Option ContextId)} (h : Progress below memo goal children rest contexts)
    {id : ContextId} (hid : some id ∈ contexts) : ∃ context costing, memo.Chosen id context costing := by
  obtain ⟨position, hlt, hentry⟩ := List.mem_iff_getElem.mp hid
  have hentry : contexts[position]? = some (some id) := hentry ▸ List.getElem?_eq_getElem hlt
  have hvisited : position ∉ rest := fun hunvisited => by
    simpa using h.unvisited position hunvisited _ hentry
  obtain ⟨_, context, costing, hchosen, _⟩ := h.planned position
    (children.get ⟨position, h.length ▸ hlt⟩) (some id) hvisited (List.getElem?_eq_getElem _) hentry
  exact ⟨context, costing, hchosen⟩

/-- The contexts of the children visited so far are about what was asked of them. The children are
visited from the first to the last, so what those before a child deliver is known when it is asked. -/
structure Asked (memo : Memo) (op : PhysicalOperator) (view : ExprView) (required : PlanRequirement)
    (request : Nat) (rest : List Nat) (contexts : List (Option ContextId))
    (siblings : List PlanProperties) : Prop where
  sorted : rest.Pairwise (· < ·)
  unvisited : ∀ position ∈ rest, ∀ other entry, position ≤ other → contexts[other]? = some entry →
    entry = none
  requests : memo.Requests op view required request contexts
  siblings : siblings = memo.deliveries contexts

namespace Asked

variable {op : PhysicalOperator} {view : ExprView} {required : PlanRequirement} {request : Nat}
  {rest : List Nat} {position : Nat} {contexts : List (Option ContextId)}
  {siblings : List PlanProperties}

/-- At first nothing is asked. -/
theorem unplanned {count : Nat} : Asked memo op view required request (List.range count)
    (List.replicate count none) [] where
  sorted := List.pairwise_lt_range
  unvisited _ _ other entry _ hentry := by
    obtain ⟨_, hnone⟩ := List.getElem?_eq_some_iff.mp hentry
    simpa using hnone.symm
  requests position id hid := by
    obtain ⟨_, hnone⟩ := List.getElem?_eq_some_iff.mp hid
    simp at hnone
  siblings := by simp [Memo.deliveries]

theorem evolves (h : Asked memo op view required request rest contexts siblings)
    (hevolves : Evolves held memo memo')
    (hchosen : ∀ id, some id ∈ contexts → ∃ context costing, memo.Chosen id context costing) :
    Asked memo' op view required request rest contexts siblings :=
  { h with
    requests := h.requests.evolves hevolves hchosen
    siblings := h.siblings.trans (hevolves.deliveries hchosen).symm }

/-- Nothing is asked of a scalar. -/
theorem skip (h : Asked memo op view required request (position :: rest) contexts siblings) :
    Asked memo op view required request rest contexts siblings :=
  { h with
    sorted := (List.pairwise_cons.mp h.sorted).2
    unvisited := fun other hother => h.unvisited other (List.mem_cons_of_mem _ hother) }

/-- Nothing comes from the children that are still to be visited. -/
theorem deliveries_drop (h : Asked memo op view required request (position :: rest) contexts siblings)
    {start : Nat} (hstart : position ≤ start) : memo.deliveries (contexts.drop start) = [] := by
  refine List.filterMap_eq_nil_iff.mpr fun entry hentry => ?_
  obtain ⟨index, hlt, rfl⟩ := List.mem_iff_getElem.mp hentry
  have hnone := h.unvisited position (by simp) (start + index) _ (by omega)
    ((List.getElem?_drop).symm.trans (List.getElem?_eq_getElem hlt))
  rw [hnone]
  rfl

/-- What comes before a child that is to be visited next is all that was visited. -/
theorem deliveries_take (h : Asked memo op view required request (position :: rest) contexts siblings) :
    memo.deliveries (contexts.take position) = siblings := by
  have hlater := h.deliveries_drop (Nat.le_refl position)
  have hsplit := congrArg memo.deliveries (List.take_append_drop position contexts)
  rw [h.siblings, ← hsplit]
  unfold Memo.deliveries at hlater ⊢
  rw [List.filterMap_append, hlater, List.append_nil]

/-- The context of a child, about what is asked of it, is recorded at its position. -/
theorem record (h : Asked memo op view required request (position :: rest) contexts siblings)
    {id : ContextId} {context : Context} {costing : Costing} (hchosen : memo.Chosen id context costing)
    (hasked : context.required = op.childRequirement view required position siblings request)
    (hlt : position < contexts.length) :
    Asked memo op view required request rest (contexts.set position (some id))
      (siblings ++ costing.delivered.toList) where
  sorted := (List.pairwise_cons.mp h.sorted).2
  unvisited other hother index entry hle hentry := by
    have hlater := (List.pairwise_cons.mp h.sorted).1 other hother
    rw [List.getElem?_set_ne (by omega)] at hentry
    exact h.unvisited position (by simp) index entry (by omega) hentry
  requests index other hother := by
    by_cases hindex : index = position
    · subst hindex
      rw [List.getElem?_set_self hlt] at hother
      obtain rfl := Option.some.inj (Option.some.inj hother)
      refine ⟨context, hchosen.found, ?_⟩
      rw [List.take_set_of_le (Nat.le_refl _), h.deliveries_take]
      exact hasked
    · rw [List.getElem?_set_ne (Ne.symm hindex)] at hother
      have hbefore : index < position := by
        refine Nat.lt_of_not_le fun hle => ?_
        simpa using h.unvisited position (by simp) index _ hle hother
      rw [List.take_set_of_le (Nat.le_of_lt hbefore)]
      exact h.requests index other hother
  siblings := by
    have hdelivers : ((some id).bind memo.bestCosting?).bind (·.delivered) = costing.delivered := by
      rw [Option.bind_some, hchosen.best, Option.bind_some]
    have hlast := h.deliveries_drop (Nat.le_succ position)
    have hbefore := h.deliveries_take
    rw [List.set_eq_take_append_cons_drop, if_pos hlt]
    unfold Memo.deliveries at hbefore hlast ⊢
    rw [List.filterMap_append, List.filterMap_cons, hbefore, hlast, hdelivers]
    cases costing.delivered <;> rfl

end Asked

namespace Planning

/-- Optimizing the children that are still to be visited, by induction on their positions. -/
theorem Post.optimizeChildren [IsStrictOrder GroupId below] {planner : Planner}
    {optimize : GroupId → PlanRequirement → Planning ContextId} {id : ExprId}
    {op : PhysicalOperator} {view : ExprView} {context : Context} {request : Nat}
    {children : List GroupId} {rest : List Nat} {progress : Planner.ChildProgress}
    (hoptimize : Descends planners below (own :: held) stage optimize)
    (h : Working planners below held own goal stage start memo)
    (hoffers : memo.Offers below goal id op children) (habove : Above below memo held goal)
    (hview : view.children.map ChildView.bare = children.map memo.bareChild)
    (hgoal : context.goal = goal) (hstage : context.stage = stage)
    (hserves : servesRequirement op view context.required = true)
    (hprogress : Progress below memo goal children rest progress.contexts)
    (hasked : Asked memo op view goal.2 request rest progress.contexts progress.siblings) :
    Post (planner.optimizeChildren optimize id op view own context request rest progress) memo
      (fun result final => Working planners below held own goal stage start final ∧
        ∀ contexts ∈ result, List.Forall₂ (final.Planned below goal) children contexts ∧
          final.Requests op view goal.2 request contexts)
      (fun _ => Advances planners below held start) := by
  have hrequired : context.required = goal.2 := congrArg Prod.snd hgoal
  have hgiveUp {current : Memo} (hcurrent : Working planners below held own goal stage start current) :
      Post (Pure.pure none : Planning (Option (List (Option ContextId)))) current
        (fun result final => Working planners below held own goal stage start final ∧
          ∀ contexts ∈ result, List.Forall₂ (final.Planned below goal) children contexts ∧
            final.Requests op view goal.2 request contexts)
        (fun _ => Advances planners below held start) :=
    Post.pure ⟨hcurrent, by simp⟩
  induction rest generalizing memo progress with
  | nil =>
      refine Post.pure ⟨h, ?_⟩
      rintro contexts hcontexts
      obtain rfl := Option.some.inj hcontexts
      exact ⟨hprogress.finish, hasked.requests⟩
  | cons position rest ih =>
      unfold Planner.optimizeChildren
      -- what the view shows of the child at the position
      have hseen : (view.children[position]?).map ChildView.bare =
          (children[position]?).map memo.bareChild := by
        rw [← List.getElem?_map, ← List.getElem?_map, hview]
      cases hchild : view.children[position]? with
      | none =>
          refine ih h hoffers habove hview (hprogress.skip fun child hlisted => ?_) hasked.skip
          simp [hchild, hlisted] at hseen
      | some child =>
          obtain ⟨listed, hlisted, hbare⟩ : ∃ listed, children[position]? = some listed ∧
              memo.bareChild listed = child.bare := by
            rw [hchild] at hseen
            exact Option.map_eq_some_iff.mp hseen.symm
          have hmem : listed ∈ children := List.mem_of_getElem? hlisted
          have hgroup : child.group = memo.master listed := (congrArg (·.group) hbare).symm
          have hproperties : child.properties = memo.properties (memo.master listed) :=
            (congrArg (·.properties) hbare).symm
          have hends := h.advances.settled.wellFormed.linksEnd
          dsimp only
          split
          · rename_i hscalar
            refine ih h hoffers habove hview (hprogress.skip fun other hother => ?_) hasked.skip
            obtain rfl := Option.some.inj (hlisted.symm.trans hother)
            rw [← hproperties]
            exact hscalar
          · rename_i hrelation
            split
            · exact hgiveUp h
            · have hasks := hoffers.asks (hrequired ▸ hserves) hmem position
                progress.siblings request
              have hknown := h.advances.settled.wellFormed.masterKnown listed
                (hoffers.known listed hmem)
              rw [hrequired, hgroup]
              refine (hoptimize memo _ _ h.advances.settled hknown ?_).andThen
                (fun _ _ hfail => (h.step hfail).advances) ?_
              · rw [hends.master_master]
                exact habove.cons hasks h.exists_goal
              rintro reached current ⟨hadvances, found, hfound, hoptimized, hfoundGoal, _⟩
              rw [hends.master_master] at hfoundGoal
              have hcurrent := h.step hadvances
              refine Post.bind (Post.context (fun again hagain => ?_) (fun _ => hcurrent.advances))
              obtain rfl := Option.some.inj (hfound.symm.trans hagain)
              cases hbest : found.best with
              | none => exact hgiveUp hcurrent
              | some best =>
                  obtain ⟨costing, hcosting, hcostingOwn, _⟩ :=
                    hcurrent.advances.settled.best reached found best hfound hbest
                  refine Post.bind (Post.costing (fun again hagain => ?_)
                    (fun _ => hcurrent.advances))
                  obtain rfl := Option.some.inj (hcosting.symm.trans hagain)
                  have hchosen : current.Chosen reached found costing := by
                    refine ⟨hfound, hoptimized, ?_, hcostingOwn⟩
                    unfold Memo.bestCosting? Memo.best?
                    rw [hfound, Option.bind_some, hbest, Option.bind_some, hcosting]
                  have hplanned : current.Planned below goal listed (some reached) := by
                    have hmaster := hadvances.evolves.master listed
                    refine ⟨?_, found, costing, hchosen, ?_, ?_⟩
                    · rw [hmaster, hadvances.evolves.properties, ← hproperties]
                      exact Bool.not_eq_true _ ▸ hrelation
                    · rw [hmaster]
                      exact congrArg Prod.fst hfoundGoal
                    · rw [hfoundGoal]
                      exact hasks
                  -- the other children are visited, unless the alternative is pruned now
                  have hgoOn {looked : Memo} (hsame : SameContent current looked)
                      (started : Bool) := by
                    have hlast : Memo.Evolves held current looked :=
                      hsame.evolves hcurrent.advances.settled.wellFormed.linksEnd
                    have hevolves := hadvances.evolves.trans
                      (hsame.evolves hcurrent.advances.settled.wellFormed.linksEnd)
                    refine @ih looked ⟨progress.contexts.set position (some reached),
                      progress.siblings ++ costing.delivered.toList, started⟩ (hcurrent.quiet hsame) (hoffers.evolves hevolves)
                      (habove.evolves (hevolves.mono (List.subset_cons_self _ _))) ?_ ?_ ?_
                    · rw [hview]
                      unfold Memo.bareChild
                      simp only [hevolves.master, hevolves.properties]
                    · refine (hprogress.evolves hevolves).record fun other hother => ?_
                      obtain rfl := Option.some.inj (hlisted.symm.trans hother)
                      exact hplanned.evolves hlast
                    · refine (hasked.evolves hevolves fun id hid =>
                        hprogress.exists_chosen hid).record (hchosen.evolves hlast)
                          (congrArg Prod.snd hfoundGoal) ?_
                      rw [hprogress.length]
                      exact (List.getElem?_eq_some_iff.mp hlisted).1
                  split
                  · refine (Post.pruneBoundFor? hcurrent hgoal hstage).andThen
                      (fun _ _ hsame => (hcurrent.quiet hsame).advances) ?_
                    rintro bound looked ⟨hsame, hundercut⟩
                    cases bound with
                    | none => exact hgoOn hsame _
                    | some bound =>
                        exact Post.bind ((Post.recordPruned (hcurrent.quiet hsame)
                          (hundercut bound rfl)).mono (fun _ _ hrecorded => hgiveUp hrecorded)
                            (fun _ _ hfail => hfail))
                  · exact Post.bind (Post.pure (hgoOn (.refl current) _))

end Planning

end QueryPlanner
