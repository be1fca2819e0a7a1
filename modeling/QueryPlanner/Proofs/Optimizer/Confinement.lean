import Mathlib.Data.Set.Card
import QueryPlanner.Proofs.Optimizer.Lasting
import QueryPlanner.Proofs.Optimizer.Vocabulary

/-!
# Room for enforcers

Only finitely many enforcers can be made of the words of a run, and none is put above the same group
twice. A memo is confined to the words (`Memo.Confined`) when every group has room for its
alternatives and for all enforcers that are missing yet. A new enforcer takes the room that was left
for it (`Memo.Confined.addEnforcer`), and what is recorded besides takes none.
-/

namespace QueryPlanner

open Memo (SameContent SameQuery)
open Planning (Keeps Post)

namespace Memo

variable {words : Vocabulary} {limit : Nat} {below : GroupId → GroupId → Prop}
  {memo memo' memo'' : Memo}

/-- The later memo has the same groups, and alternatives and contexts are found again. -/
structure Retains (memo memo' : Memo) : Prop where
  groups_size : memo'.groups.size = memo.groups.size
  master : ∀ id, memo'.master id = memo.master id
  expr : ∀ id expr, memo.expr? id = some expr → ∃ expr', memo'.expr? id = some expr' ∧
    expr'.op = expr.op ∧ expr'.children = expr.children ∧ expr'.group = expr.group
  goal : ∀ id context, memo.context? id = some context →
    ∃ context', memo'.context? id = some context' ∧ context'.goal = context.goal
  alternatives : ∀ id, memo.alternativesOf id <+: memo'.alternativesOf id

namespace Retains

protected theorem refl (memo : Memo) : memo.Retains memo where
  groups_size := rfl
  master _ := rfl
  expr _ expr hexpr := ⟨expr, hexpr, rfl, rfl, rfl⟩
  goal _ context hcontext := ⟨context, hcontext, rfl⟩
  alternatives _ := List.prefix_refl _

protected theorem trans (h : memo.Retains memo') (h' : memo'.Retains memo'') :
    memo.Retains memo'' where
  groups_size := h'.groups_size.trans h.groups_size
  master id := (h'.master id).trans (h.master id)
  expr id expr hexpr := by
    obtain ⟨middle, hmiddle, hop, hchildren, hgroup⟩ := h.expr id expr hexpr
    obtain ⟨final, hfinal, hop', hchildren', hgroup'⟩ := h'.expr id middle hmiddle
    exact ⟨final, hfinal, hop'.trans hop, hchildren'.trans hchildren, hgroup'.trans hgroup⟩
  goal id context hcontext := by
    obtain ⟨middle, hmiddle, hgoal⟩ := h.goal id context hcontext
    obtain ⟨final, hfinal, hgoal'⟩ := h'.goal id middle hmiddle
    exact ⟨final, hfinal, hgoal'.trans hgoal⟩
  alternatives id := (h.alternatives id).trans (h'.alternatives id)

/-- A context stays about its goal. -/
theorem about (h : memo.Retains memo') {own : ContextId} {goal : GroupId × PlanRequirement}
    (hown : ∃ context, memo.context? own = some context ∧ context.goal = goal) :
    ∃ context, memo'.context? own = some context ∧ context.goal = goal := by
  obtain ⟨context, hcontext, hgoal⟩ := hown
  obtain ⟨context', hcontext', hgoal'⟩ := h.goal own context hcontext
  exact ⟨context', hcontext', hgoal'.trans hgoal⟩

/-- What is offered stays on offer. -/
theorem offers (h : memo.Retains memo') {goal : GroupId × PlanRequirement} {id : ExprId}
    {op : PhysicalOperator} {children : List GroupId} (hoffers : memo.Offers below goal id op children) :
    memo'.Offers below goal id op children := by
  obtain ⟨expr, hexpr, hop, hchildren, hhome⟩ := hoffers.found
  obtain ⟨expr', hexpr', hop', hchildren', hgroup'⟩ := h.expr id expr hexpr
  refine ⟨⟨expr', hexpr', hop'.trans hop, hchildren'.trans hchildren, ?_⟩,
    (h.alternatives _).subset hoffers.listed, hoffers.catalogued, ?_, ?_, ?_⟩
  · rw [h.master, hgroup', hhome]
  · rw [h.groups_size]
    exact hoffers.known
  · simp only [h.master]
    exact hoffers.enforcing
  · simp only [h.master]
    exact hoffers.descending

/-- The chain of callers stays above a goal. -/
theorem above (h : memo.Retains memo') {held : List ContextId} {goal : GroupId × PlanRequirement}
    (habove : Above below memo held goal) : Above below memo' held goal := by
  intro id hid
  obtain ⟨context, hcontext, hasks⟩ := habove id hid
  obtain ⟨context', hcontext', hgoal⟩ := h.goal id context hcontext
  exact ⟨context', hcontext', hgoal ▸ hasks⟩

end Retains

/-- What the same query retains. -/
theorem SameQuery.retains (hsame : SameQuery memo memo') (hends : memo.LinksEnd)
    (hgoal : ∀ id context, memo.context? id = some context →
      ∃ context', memo'.context? id = some context' ∧ context'.goal = context.goal) :
    memo.Retains memo' where
  groups_size := hsame.groups_size
  master := hsame.master hends
  expr id expr hexpr := by
    obtain ⟨expr', hexpr', houtline⟩ := hsame.exists_expr hexpr
    exact ⟨expr', hexpr', congrArg (·.op) houtline, congrArg (·.children) houtline,
      congrArg (·.group) houtline⟩
  goal := hgoal
  alternatives id := hsame.alternativesOf id ▸ List.prefix_refl _

theorem Stores.retains (hstores : memo.Stores memo') (hends : memo.LinksEnd) :
    memo.Retains memo' :=
  hstores.toSameQuery.retains hends fun id context hcontext => by
    have hgoal := hstores.goals id
    rw [hcontext] at hgoal
    exact Option.map_eq_some_iff.mp hgoal

/-! ## Room for enforcers -/

/-- The enforcers that can be made of the words, each with a group that it is not above yet. -/
def missing (words : Vocabulary) (memo : Memo) : Set (PhysicalOperator × GroupId) :=
  {pair | words.Makes pair.1 ∧ pair.2.index < memo.groups.size ∧
    ∀ id expr, memo.expr? id = some expr → expr.op = .physical pair.1 → expr.children ≠ [pair.2]}

theorem finite_missing : (memo.missing words).Finite := by
  have hgroups : {id : GroupId | id.index < memo.groups.size}.Finite :=
    ((Set.finite_lt_nat memo.groups.size).image GroupId.mk).subset fun id hid => ⟨id.index, hid, rfl⟩
  exact (words.finite_makes.prod hgroups).subset fun pair h => ⟨h.1, h.2.1⟩

theorem Retains.missing_subset (h : memo.Retains memo') :
    memo'.missing words ⊆ memo.missing words := by
  rintro pair ⟨hmakes, hknown, hnew⟩
  refine ⟨hmakes, h.groups_size ▸ hknown, fun id expr hexpr hop hchildren => ?_⟩
  obtain ⟨expr', hexpr', hop', hchildren', _⟩ := h.expr id expr hexpr
  exact hnew id expr' hexpr' (hop'.trans hop) (hchildren'.trans hchildren)

/-- A memo within the words of a run, with room for the enforcers that are missing in it. -/
structure Confined (words : Vocabulary) (limit : Nat) (below : GroupId → GroupId → Prop)
    (memo : Memo) : Prop extends memo.Tame below where
  filed : memo.Filed
  knows : ∀ id expr op, memo.expr? id = some expr → expr.op = .physical op → words.Knows op
  delivers : ∀ id costing plan, memo.costing? id = some costing → costing.delivered = some plan →
    words.Places plan.distribution
  room : ∀ group, (memo.alternativesOf group).length + (memo.missing words).ncard ≤ limit

/-- The run goes on from a memo and stays within its words. -/
structure Confines (words : Vocabulary) (limit : Nat) (below : GroupId → GroupId → Prop)
    (memo memo' : Memo) : Prop extends memo.Retains memo' where
  confined : memo'.Confined words limit below

protected theorem Confines.refl (h : memo.Confined words limit below) :
    Confines words limit below memo memo := ⟨.refl memo, h⟩

protected theorem Confines.trans (h : Confines words limit below memo memo')
    (h' : Confines words limit below memo' memo'') : Confines words limit below memo memo'' :=
  ⟨h.toRetains.trans h'.toRetains, h'.confined⟩

/-- What is stored besides groups and alternatives takes no room. -/
theorem Confined.confines (h : memo.Confined words limit below) (hsame : SameQuery memo memo')
    (hretains : memo.Retains memo') (hfiled : memo'.Filed)
    (hdelivers : ∀ id costing plan, memo'.costing? id = some costing →
      costing.delivered = some plan → words.Places plan.distribution) :
    Confines words limit below memo memo' := by
  refine ⟨hretains, hsame.tame h.toTame, hfiled, fun id expr op hexpr hop => ?_, hdelivers,
    fun group => ?_⟩
  · obtain ⟨before, hbefore, houtline⟩ := hsame.exists_expr_before hexpr
    rw [show expr.op = before.op from congrArg (·.op) houtline] at hop
    exact h.knows id before op hbefore hop
  · rw [hsame.alternativesOf]
    exact Nat.le_trans (Nat.add_le_add_left
      (Set.ncard_le_ncard hretains.missing_subset finite_missing) _) (h.room group)

/-- A new context. -/
theorem Confined.addContext (h : memo.Confined words limit below) {owner : GroupId}
    {required : PlanRequirement} {stage : Nat} :
    Confines words limit below memo (memo.addContext owner required stage) := by
  have hsame : SameQuery memo (memo.addContext owner required stage) := sameQuery_addContext
  refine h.confines hsame ?_ h.filed.addContext h.delivers
  exact hsame.retains h.wellFormed.linksEnd fun id context hcontext =>
    ⟨context, context?_addContext_of_some hcontext, rfl⟩

/-- A new enforcer takes the room that was left for it. -/
theorem Confined.addEnforcer (h : memo.Confined words limit below) {enforcer : PhysicalOperator}
    {owner : GroupId} {origin : Option Origin} (hmakes : words.Makes enforcer)
    (hcatalogued : enforcer.isCatalogued = true) (henforcer : enforcer.isEnforcer = true)
    (hknown : owner.index < memo.groups.size)
    (hnew : memo.findTwin? (.physical enforcer) [owner] = none) :
    Confines words limit below memo
      (memo.addAlternative (.physical enforcer) [owner] owner origin) := by
  have hretains : memo.Retains (memo.addAlternative (.physical enforcer) [owner] owner origin) :=
    { groups_size := groups_size_addAlternative
      master := master_congr _ h.wellFormed.linksEnd link?_addAlternative
      expr := fun _ expr hexpr => ⟨expr, expr?_addAlternative_of_some hexpr, rfl, rfl, rfl⟩
      goal := fun _ context hcontext => ⟨context, hcontext, rfl⟩
      alternatives := fun _ => prefix_addAlternative hknown }
  refine ⟨hretains, h.toTame.addEnforcer hcatalogued henforcer hknown, h.filed.addAlternative,
    fun id expr op hexpr hop => ?_, h.delivers, fun group => ?_⟩
  · rw [expr?_addAlternative] at hexpr
    split at hexpr
    · obtain rfl := Option.some.inj hexpr
      obtain rfl := Operator.physical.inj hop
      exact hmakes.knows
    · exact h.knows id expr op hexpr hop
  · have hless : ((memo.addAlternative (.physical enforcer) [owner] owner origin).missing
        words).ncard < (memo.missing words).ncard := by
      refine Set.ncard_lt_ncard ((Set.ssubset_iff_of_subset hretains.missing_subset).mpr
        ⟨(enforcer, owner), ⟨hmakes, hknown, fun id expr hexpr hop hchildren => ?_⟩, ?_⟩) finite_missing
      · have hfiled := findTwin?_eq_none hnew hexpr (by rw [hop]; exact hmakes.same)
        rw [hop, hchildren] at hfiled
        exact hfiled rfl
      · rintro ⟨_, _, habsent⟩
        exact habsent ⟨memo.exprs.size⟩ _ (by rw [expr?_addAlternative, if_pos rfl]) rfl rfl
    have hlonger : ((memo.addAlternative (.physical enforcer) [owner] owner origin).alternativesOf
        group).length ≤ (memo.alternativesOf group).length + 1 := by
      rw [alternativesOf_addAlternative hknown]
      split <;> simp
    have := h.room group
    omega

/-! ## Costings within the words -/

/-- A memo that stays confined. -/
def StaysConfined (words : Vocabulary) (limit : Nat) (below : GroupId → GroupId → Prop)
    (memo memo' : Memo) : Prop :=
  memo.Confined words limit below → Confines words limit below memo memo'

instance : Optimizer.Note (StaysConfined words limit below) where
  refl _ h := .refl h
  trans _ _ _ h h' hconfined := (h hconfined).trans (h' (h hconfined).confined)
  noted memo memo' hstores hcostings h := by
    refine h.confines hstores.toSameQuery (hstores.retains h.wellFormed.linksEnd)
      (h.filed.stores hstores) fun id costing plan hcosting => ?_
    rw [hcostings] at hcosting
    exact h.delivers id costing plan hcosting

theorem Confined.quiet (h : memo.Confined words limit below) (hsame : SameContent memo memo') :
    Confines words limit below memo memo' := by
  have hstays : StaysConfined words limit below memo memo' :=
    Optimizer.Note.noted memo memo' hsame.stores hsame.costing?
  exact hstays h

/-- A costing with a delivery in the words may be added. -/
theorem staysConfined_addCosting {candidate : Costing}
    (hcandidate : ∀ plan, candidate.delivered = some plan → words.Places plan.distribution)
    (memo : Memo) : StaysConfined words limit below memo (memo.addCosting candidate) := by
  intro h
  have hstores : memo.Stores (memo.addCosting candidate) := stores_addCosting
  refine h.confines hstores.toSameQuery (hstores.retains h.wellFormed.linksEnd)
    (h.filed.stores hstores) fun id costing plan hcosting => ?_
  rw [costing?_addCosting] at hcosting
  split at hcosting
  · exact Option.some.inj hcosting ▸ hcandidate plan
  · exact h.delivers id costing plan hcosting

end Memo

/-- The plans of child contexts are costed ones, so they deliver what is in the words. -/
theorem Planning.Post.viewOver_sees {words : Vocabulary} {memo : Memo} {id : ExprId}
    {expr : MemoExpr} (hwell : memo.WellFormed) (hexpr : memo.expr? id = some expr)
    (hdelivers : ∀ id costing plan, memo.costing? id = some costing →
      costing.delivered = some plan → words.Places plan.distribution)
    (contexts : List (Option ContextId)) (required : PlanRequirement) :
    Post (Optimizer.viewOver id contexts required) memo
      (fun view final => SameContent memo final ∧ words.Sees view)
      (fun error _ => error ≠ .outOfFuel) := by
  unfold Optimizer.viewOver Planning.withChildContexts
  refine (Post.view hwell hexpr).andThen (fun _ _ hfail => hfail.elim) ?_
  rintro seen looked ⟨hlooked, hseen⟩
  have hunplanned : words.Sees seen := by
    intro child hchild plan hplan
    have hbare : seen.children.map ChildView.bare = expr.children.map memo.bareChild :=
      congrArg (·.children) hseen
    obtain ⟨below, _, hbelow⟩ := List.mem_map.mp (hbare ▸ List.mem_map_of_mem hchild)
    have hnone : child.plan = none := (congrArg (·.plan) hbelow).symm
    simp [hnone] at hplan
  refine Post.bind ((Post.foldlM (fun view current => SameContent memo current ∧ words.Sees view)
    ⟨hlooked, hunplanned⟩ fun view item _ current hcurrent => ?_).mono
      (fun _ _ hfinal => Post.pure hfinal) fun _ _ hfail => hfail)
  obtain ⟨hsame, hsees⟩ := hcurrent
  unfold Planning.withBestPlan
  have hlooked : Post (item.1.mapM Planning.context) current
      (fun _ final => SameContent current final) (fun error _ => error ≠ .outOfFuel) := by
    cases item.1 with
    | none => exact Post.pure (.refl current)
    | some id =>
        exact Post.map (((steady_context current).keeping keeps_context).mono
          (fun _ _ hok => hok) fun _ _ hfail => hfail.1)
  refine hlooked.andThen (fun _ _ hfail => hfail) fun found middle hmiddle => ?_
  replace hsame := hsame.trans hmiddle
  split
  · refine Post.bind (Post.costing (fun chosen hchosen => ?_) fun _ => by simp)
    refine Post.pure ⟨hsame, fun child hchild plan hplan => ?_⟩
    obtain ⟨position, hposition⟩ := List.mem_iff_getElem?.mp hchild
    rw [ExprView.withChildPlan, List.getElem?_modify] at hposition
    obtain ⟨before, hbefore, hchanged⟩ := Option.map_eq_some_iff.mp hposition
    split at hchanged
    · rw [← hchanged] at hplan
      exact hdelivers _ chosen plan ((hsame.costing? _).symm.trans hchosen) hplan
    · exact hsees child (hchanged ▸ List.mem_of_getElem? hbefore) plan hplan
  · exact Post.pure ⟨hsame, hsees⟩

end QueryPlanner
