import QueryPlanner.Proofs.Search.Passes
import QueryPlanner.Proofs.Search.Values

/-!
# What exploration and implementation add to a memo

Exploring and implementing groups inserts what the rules answer, merges duplicates and looks around
(`Memo.Fills`). The rules answer no enforcers, so a memo that is filled from nothing holds none
(`Memo.Fills.plain`), and nothing is planned in it yet (`Memo.Fills.reachable`).
-/

namespace QueryPlanner

open Memo (SameContent)
open Planning (Keeps Post exec)

namespace Memo

/-- The later memo comes about by inserting operators that are no enforcers, merging duplicates and
looking around. -/
inductive Fills (memo : Memo) : Memo → Prop
  | refl : Fills memo memo
  | insert {current : Memo} (before : Fills memo current) (op : Operator) (children : List GroupId)
      (target : Option GroupId) (origin : Option Origin) (plain : op.isEnforcer = false) :
      Fills memo (exec (Planning.insert op children target origin) current).2
  | mergeDuplicates {current : Memo} (before : Fills memo current) :
      Fills memo current.mergeDuplicates
  | look {current final : Memo} (before : Fills memo current) (same : current.SameContent final) :
      Fills memo final

/-- The alternatives are no enforcers. -/
def Plain (memo : Memo) : Prop :=
  ∀ id expr, memo.expr? id = some expr → expr.op.isEnforcer = false

variable {memo middle memo' : Memo}

namespace Fills

protected theorem trans (h : Fills memo middle) (h' : Fills middle memo') : Fills memo memo' := by
  induction h' with
  | refl => exact h
  | insert _ op children target origin plain ih => exact ih.insert op children target origin plain
  | mergeDuplicates _ ih => exact ih.mergeDuplicates
  | look _ same ih => exact ih.look same

instance : Std.Refl Fills := ⟨fun _ => .refl⟩

instance : IsTrans Memo Fills := ⟨fun _ _ _ => Fills.trans⟩

theorem reachable (h : Fills memo memo') (hreachable : memo.Reachable) : memo'.Reachable := by
  induction h with
  | refl => exact hreachable
  | insert _ op children target origin _ ih => exact ih.insert op children target origin
  | mergeDuplicates _ ih => exact ih.mergeDuplicates
  | look _ same ih => exact ih.look same

/-- Filling a memo adds no enforcers. -/
theorem plain (h : Fills memo memo') (hreachable : memo.Reachable) (hplain : memo.Plain) :
    memo'.Plain := by
  induction h with
  | refl => exact hplain
  | @insert current before op children target origin hop ih =>
      have hwell := (before.reachable hreachable).wellFormed
      by_cases hvalid : current.Insertable op children target
      · have hinserted (outcome : Insertion) (final : Memo)
            (hinserts : current.Inserts op children target origin outcome final) : final.Plain := by
          intro id expr hexpr
          obtain ⟨earlier, hearlier, hsame, _⟩ | ⟨hsame, _⟩ := hinserts.expr_before hexpr <;>
            rw [hsame]
          · exact ih id earlier hearlier
          · exact hop
        exact ((Post.insert origin hwell hvalid).mono hinserted fun _ _ hfail => hfail.elim).exec_snd
      · exact ((Post.insert_fails hvalid).mono (fun _ _ hok => hok.elim)
          (fun _ _ hfinal => hfinal ▸ ih)).exec_snd
  | @mergeDuplicates current before ih =>
      intro id expr hexpr
      obtain ⟨earlier, hearlier, hop, _⟩ :=
        (before.reachable hreachable).wellFormed.mergeDuplicates.exprs id expr hexpr
      rw [hop]
      exact ih id earlier hearlier
  | look _ same ih =>
      intro id expr hexpr
      obtain ⟨earlier, hearlier, hcontent⟩ := same.exists_expr_before hexpr
      rw [show expr.op = earlier.op from congrArg (·.op) hcontent]
      exact ih id earlier hearlier

end Fills

end Memo

open Memo (Fills)

/-! ## Inserting what rules answer -/

namespace Planning

theorem keeps_insert {op : Operator} {children : List GroupId} {target : Option GroupId}
    {origin : Option Origin} (hplain : op.isEnforcer = false) :
    Keeps Fills (Planning.insert op children target origin) := by
  intro memo
  have hfills : Fills memo (exec (Planning.insert op children target origin) memo).2 :=
    .insert .refl op children target origin hplain
  refine Post.of_exec (fun _ _ hexec => ?_) (fun _ _ hexec => ?_) <;>
    rwa [hexec] at hfills

end Planning

instance : Memo.Filling Fills where
  observed _ _ h := Fills.refl.look h.same
  inserted := Planning.keeps_insert

/-! ## The passes of a search -/

/-- The memo of a search is filled, whatever else is noted. -/
def SearchState.Fills (state final : SearchState) : Prop := state.memo.Fills final.memo

namespace SearchState.Fills

instance : Std.Refl SearchState.Fills := ⟨fun _ => Memo.Fills.refl⟩

instance : IsTrans SearchState SearchState.Fills := ⟨fun _ _ _ => Memo.Fills.trans⟩

instance : Searching.Filling SearchState.Fills where
  observed _ _ _ h := Memo.Fills.refl.look h.same
  counted _ := Memo.Fills.refl
  visited _ _ _ := Memo.Fills.refl
  started _ _ _ _ _ := Memo.Fills.refl.look (Memo.sameContent_modifyExpr fun _ => rfl)

instance : Searching.Marking SearchState.Fills where
  marked _ _ _ := Memo.Fills.refl.look (Memo.sameContent_modifyExpr fun _ => rfl)

end SearchState.Fills

namespace Planner

open Searching

variable {planner : Planner} {rule : Rule} {rules : List Rule} {limits : StageLimits}

theorem fires_fills (hplain : rule.IsPlain) : planner.Fires SearchState.Fills rule :=
  fires_of_isPlain hplain fun _ => inferInstanceAs (Memo.Filling Memo.Fills)

theorem fills_exploreGroup (hplain : ∀ rule ∈ rules, rule.IsPlain) {fuel : Nat} {id : GroupId} :
    Keeps SearchState.Fills (planner.exploreGroup limits rules fuel id) :=
  keeps_exploreGroup fun rule hrule => fires_fills (hplain rule hrule)

theorem fills_implementGroup (hplain : ∀ rule ∈ rules, rule.IsPlain) {fuel : Nat} {id : GroupId} :
    Keeps SearchState.Fills (planner.implementGroup rules fuel id) :=
  keeps_implementGroup fun rule hrule => fires_fills (hplain rule hrule)

/-- Finishing an exploration merges duplicates, and answers what the root is then. The rest only
looks around. -/
theorem post_finishExploration {memo : Memo} {root : GroupId} {required : PlanRequirement} :
    Post (planner.finishExploration root required) memo
      (fun found final => found = memo.mergeDuplicates.master root ∧
        SameContent memo.mergeDuplicates final)
      (fun _ final => SameContent memo.mergeDuplicates final) := by
  unfold finishExploration
  refine Post.bind (Post.modify ?_)
  refine Planning.Post.resolved.andThen (fun _ _ hsame => hsame) ?_
  rintro _ looked ⟨rfl, hlooked⟩
  suffices hrest : Planning.Answers SameContent
      (fun found _ => found = memo.mergeDuplicates.master root) _ from
    (hrest looked).mono (fun _ _ hfinal => ⟨hfinal.2, hlooked.trans hfinal.1⟩)
      fun _ _ hfinal => hlooked.trans hfinal
  refine .after (Keeps.modify fun _ => Memo.sameContent_setRoot) fun _ => ?_
  refine .after Planning.keeps_resetStatistics fun _ => ?_
  refine .after Planning.keeps_deriveStatistics fun _ => ?_
  split
  · refine .after Keeps.get fun memo => ?_
    exact .after (Keeps.forM fun id _ => keeps_deriveMissing) fun _ => .pure fun _ => rfl
  · exact .pure fun _ => rfl

/-- Finishing an exploration merges duplicates and looks around. -/
theorem fills_finishExploration {root : GroupId} {required : PlanRequirement} :
    Keeps Memo.Fills (planner.finishExploration root required) := fun memo =>
  have hmerged : memo.Fills memo.mergeDuplicates := Memo.Fills.refl.mergeDuplicates
  post_finishExploration.mono (fun _ _ hfinal => hmerged.look hfinal.2)
    fun _ _ hfinal => hmerged.look hfinal

end Planner

end QueryPlanner
