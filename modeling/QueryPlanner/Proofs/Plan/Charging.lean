import QueryPlanner.Proofs.Addition
import QueryPlanner.Proofs.Plan.Pricing

/-!
# Models that accumulate charges

In the simplest cost models, each operator has a charge, and the charges of a plan are accumulated by
an operation (`CostModel.accumulating`). If the operation is monotone and gives no less than it takes,
such a model is regular (`CostModel.regular_accumulating`). The unit model adds charges; its costs are
whole numbers, so it is sound (`CostModel.sound_unit`). Another one takes the largest charge.
-/

namespace QueryPlanner

theorem CostingInputs.Exact.costs {P : Float → Prop} {inputs : CostingInputs}
    (h : inputs.Exact fun cost => P cost.total) :
    ∀ value ∈ inputs.children.map (·.cost.total), P value :=
  List.forall_mem_map.mpr fun child hchild => (h.children child hchild).cost

namespace CostModel

open Estimate (Accumulates Whole)

variable {P : Float → Prop} {op : Float → Float → Float} {start : Float} {charge : Operator → Float}

/-- The model in which each operator has a charge, and the charges of a plan are accumulated. -/
def accumulating (op : Float → Float → Float) (start : Float) (charge : Operator → Float) :
    CostModel where
  cost view inputs := ⟨op (charge view.op) ((inputs.children.map (·.cost.total)).foldl op start)⟩

/-- A model that accumulates charges is regular among numbers with a property that goes along with
it. -/
theorem regular_accumulating (h : Accumulates P op) (hstart : P start)
    (hcharge : ∀ view : ExprView, view.IsCatalogued → P (charge view.op))
    (hgreatest : P Estimate.greatest) (hzero : P 0.0) (hsub : ∀ a, P a → P (a - 0.0)) :
    (accumulating op start charge).Regular fun cost => P cost.total where
  infinite := hgreatest
  charge := (by decide +kernel : (0.0 : Float) ≤ 0.0)
  reduced cost hcost := by
    unfold Cost.saturatingSub
    split
    · exact hcost
    · change P (Estimate.larger (cost.total - 0.0) 0.0)
      obtain hsame | hsame := Estimate.larger_eq_or (a := cost.total - 0.0) (b := 0.0) <;> rw [hsame]
      · exact hsub cost.total hcost
      · exact hzero
  closed view inputs hview hinputs := by
    exact h.closed _ _ (hcharge view hview) (h.foldl hstart hinputs.costs)
  outlined view view' inputs hsame := by
    have hop : view.op = view'.op := congrArg (·.op) hsame
    simp only [accumulating, hop]
  monotone view inputs inputs' hview hinputs hinputs' hle := by
    have hchildren : List.Forall₂ (fun value value' => P value ∧ P value' ∧ value ≤ value')
        (inputs.children.map (·.cost.total)) (inputs'.children.map (·.cost.total)) := by
      refine List.forall₂_map_left_iff.mpr (List.forall₂_map_right_iff.mpr
        (List.forall₂_iff_get.mpr ⟨hle.children.length_eq, fun position hlt hlt' => ?_⟩))
      exact ⟨(hinputs.children _ (List.getElem_mem hlt)).cost,
        (hinputs'.children _ (List.getElem_mem hlt')).cost,
        ((List.forall₂_iff_get.mp hle.children).2 position hlt hlt').cost⟩
    have hown := hcharge view hview
    exact h.monotone _ _ _ _ hown (h.foldl hstart (hinputs.costs)) hown
      (h.foldl hstart (hinputs'.costs)) (h.number _ hown)
      (h.foldl_le_foldl hstart hstart (h.number _ hstart) hchildren)
  covering view inputs hview hinputs child hchild := by
    have htotal := (h.le_foldl hstart hinputs.costs).2 _ (List.mem_map_of_mem hchild)
    exact Estimate.le_trans htotal
      (h.covering _ _ (hcharge view hview) (h.foldl hstart hinputs.costs)).2

/-- The unit model is sound: its costs are whole numbers. -/
theorem sound_unit : unit.Sound fun cost => Whole cost.total := by
  have hone : Whole 1.0 := ⟨by decide +kernel, fun _ => by decide +kernel⟩
  have hregular : (accumulating (· + ·) (-0.0) unitCharge).Regular fun cost => Whole cost.total := by
    refine regular_accumulating Estimate.accumulates_whole
      ⟨by decide +kernel, fun _ => by decide +kernel⟩ (fun view hview => ?_)
      ⟨by decide +kernel, fun _ => by decide +kernel⟩
      ⟨by decide +kernel, fun _ => by decide +kernel⟩ fun _ => Whole.sub_zero
    unfold unitCharge
    split
    · rename_i custom hop
      exact absurd (hview _ hop) (by simp [PhysicalOperator.isCatalogued])
    · exact hone
  exact { hregular with nonneg := fun cost hcost => hcost.nonneg }

end CostModel

end QueryPlanner
