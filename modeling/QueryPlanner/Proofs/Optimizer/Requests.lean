import Mathlib.Algebra.Group.Nat.Defs
import Mathlib.Data.Set.Function
import Mathlib.Order.Interval.Set.Defs
import QueryPlanner.Optimizer
import QueryPlanner.Proofs.Planning

/-!
# The requests of an operator

An operator asks its children in every combination of what it tries for each physical property.
`RequestCounts.digits` reads a combination off a request number, and `RequestCounts.number` is the
number of a combination. The two are inverse to each other (`RequestCounts.digits_number`,
`RequestCounts.number_digits`), so the optimizer, which goes through the numbers below the total,
tries every combination once and no other (`PhysicalOperator.requestDigits_bijOn`).
-/

namespace QueryPlanner

open Planning (exec)

namespace RequestCounts

variable {counts : RequestCounts} {digits : RequestDigits} {request : Nat}

/-- The combination is one of those that are tried, a count of zero meaning one. -/
structure Declares (counts : RequestCounts) (digits : RequestDigits) : Prop where
  order : digits.order < max counts.order 1
  distribution : digits.distribution < max counts.distribution 1
  rewindability : digits.rewindability < max counts.rewindability 1
  partition : digits.partition < max counts.partition 1

/-- The number of combinations, however large. -/
def combinations (counts : RequestCounts) : Nat :=
  max counts.order 1 * max counts.distribution 1 * max counts.rewindability 1 *
    max counts.partition 1

/-- The request number of a combination. -/
def number (counts : RequestCounts) (digits : RequestDigits) : Nat :=
  digits.order + max counts.order 1 * (digits.distribution + max counts.distribution 1 *
    (digits.rewindability + max counts.rewindability 1 * digits.partition))

/-- A total that fits into its word is the number of combinations. -/
theorem total_eq (h : counts.combinations < 2 ^ 64) : counts.total = counts.combinations :=
  Nat.mod_eq_of_lt h

/-- Every request number stands for a combination that is tried. -/
theorem declares_digits (counts : RequestCounts) (request : Nat) :
    counts.Declares (counts.digits request) where
  order := Nat.mod_lt _ (by omega)
  distribution := Nat.mod_lt _ (by omega)
  rewindability := Nat.mod_lt _ (by omega)
  partition := Nat.mod_lt _ (by omega)

/-- A digit below its base and a number below the rest of the product make a number below the
product. -/
theorem digit_add_lt {digit base rest bound : Nat} (hdigit : digit < base) (hrest : rest < bound) :
    digit + base * rest < base * bound :=
  calc digit + base * rest < base + base * rest := Nat.add_lt_add_right hdigit _
    _ = base * (rest + 1) := by rw [Nat.mul_add, Nat.mul_one, Nat.add_comm]
    _ ≤ base * bound := Nat.mul_le_mul_left base hrest

theorem number_lt (h : counts.Declares digits) : counts.number digits < counts.combinations := by
  unfold number combinations
  rw [Nat.mul_assoc, Nat.mul_assoc]
  exact digit_add_lt h.order (digit_add_lt h.distribution (digit_add_lt h.rewindability h.partition))

/-- The combination of a number that was made of it. -/
theorem digits_number (h : counts.Declares digits) :
    counts.digits (counts.number digits) = digits := by
  have hsplit {digit base : Nat} (hdigit : digit < base) (rest : Nat) :
      (digit + base * rest) % base = digit ∧ (digit + base * rest) / base = rest :=
    ⟨by rw [Nat.add_mul_mod_self_left, Nat.mod_eq_of_lt hdigit],
      by rw [Nat.add_mul_div_left _ _ (Nat.zero_lt_of_lt hdigit), Nat.div_eq_of_lt hdigit,
        Nat.zero_add]⟩
  unfold RequestCounts.digits number
  dsimp only
  rw [(hsplit h.order _).1, (hsplit h.order _).2, (hsplit h.distribution _).1,
    (hsplit h.distribution _).2, (hsplit h.rewindability _).1, (hsplit h.rewindability _).2,
    Nat.mod_eq_of_lt h.partition]

/-- The number of a combination that was read off it. -/
theorem number_digits (h : request < counts.combinations) :
    counts.number (counts.digits request) = request := by
  unfold combinations at h
  rw [Nat.mul_assoc, Nat.mul_assoc] at h
  -- no digit is left above the last one
  have hlast : request / max counts.order 1 / max counts.distribution 1 /
      max counts.rewindability 1 < max counts.partition 1 :=
    Nat.div_lt_of_lt_mul (Nat.div_lt_of_lt_mul (Nat.div_lt_of_lt_mul h))
  unfold RequestCounts.digits number
  dsimp only
  rw [Nat.mod_eq_of_lt hlast, Nat.mod_add_div, Nat.mod_add_div, Nat.mod_add_div]

/-- Request numbers below the total and combinations that are tried are the same thing. -/
theorem digits_bijOn (h : counts.combinations < 2 ^ 64) :
    Set.BijOn counts.digits (Set.Iio counts.total) {digits | counts.Declares digits} := by
  rw [total_eq h]
  have hinverse : Set.InvOn counts.number counts.digits (Set.Iio counts.combinations)
      {digits | counts.Declares digits} :=
    ⟨fun _ hrequest => number_digits hrequest, fun _ hdigits => digits_number hdigits⟩
  exact hinverse.bijOn (fun request _ => counts.declares_digits request)
    fun _ hdigits => number_lt hdigits

end RequestCounts

namespace Planner

variable {planner : Planner} {memo : Memo} {id : ExprId} {expr : MemoExpr} {op : PhysicalOperator}
  {parent : Option ExprId} {own : ContextId}

/-- A physical alternative that is optimized below a parent is tried with the request numbers below
the total, one after the other. -/
theorem exec_visitAlternative
    (optimize : ExprId → GroupId → PlanRequirement → Planning ContextId)
    (hexpr : memo.expr? id = some expr) (hop : expr.op = .physical op) (hparent : parent ≠ some id)
    (hwilling : op.shouldOptimize (parent.bind memo.physical?) = true) :
    exec (planner.visitAlternative optimize parent own expr.level id) memo =
      exec ((List.range op.requestTotal).forM (planner.optimizeRequest (optimize id) id op own))
        memo := by
  have hfound : exec (Planning.expr id) memo = (.ok expr, memo) := by
    unfold Planning.expr
    rw [Planning.exec_bind]
    show exec (Planning.found _ (memo.expr? id)) memo = _
    rw [hexpr]
    rfl
  unfold visitAlternative
  rw [Planning.exec_bind]
  show exec (Planning.expr id >>= _) memo = _
  rw [Planning.exec_bind, hfound]
  dsimp only
  rw [hop]
  dsimp only
  rw [if_pos ⟨hparent, rfl, hwilling⟩]

end Planner

/-- Take an operator whose combinations of requests can be counted in a word. The request numbers
below its total are in bijection with the combinations that it declares, and the optimizer tries an
alternative with this operator with these numbers, one after the other. -/
theorem PhysicalOperator.requestDigits_bijOn (op : PhysicalOperator)
    (hfits : op.requestCounts.combinations < 2 ^ 64) :
    Set.BijOn op.requestDigits (Set.Iio op.requestTotal)
        {digits | op.requestCounts.Declares digits} ∧
      ∀ (planner : Planner) (optimize : ExprId → GroupId → PlanRequirement → Planning ContextId)
        (memo : Memo) (id : ExprId) (expr : MemoExpr) (parent : Option ExprId) (own : ContextId),
        memo.expr? id = some expr → expr.op = .physical op → parent ≠ some id →
        op.shouldOptimize (parent.bind memo.physical?) = true →
        exec (planner.visitAlternative optimize parent own expr.level id) memo =
          exec ((List.range op.requestTotal).forM (planner.optimizeRequest (optimize id) id op own))
            memo :=
  ⟨RequestCounts.digits_bijOn hfits, fun _ optimize _ _ _ _ _ hexpr hop hparent hwilling =>
    Planner.exec_visitAlternative optimize hexpr hop hparent hwilling⟩

/-- An operator with two requests for the order, three for the distribution, and none counted for the
rewindability. -/
def PhysicalOperator.insistent : PhysicalOperator :=
  .custom { tag := 0, requests := { order := 2, distribution := 3, rewindability := 0 } }

/-- An alternative with this operator. -/
def Memo.insistent : Memo where
  exprs := #[{ op := .physical .insistent, children := [], group := ⟨0⟩, position := 0, origin := none,
               level := .low }]

/-- Six requests stand for its six combinations. -/
theorem PhysicalOperator.insistent_bijOn :
    insistent.requestCounts.combinations < 2 ^ 64 ∧
      Set.BijOn insistent.requestDigits (Set.Iio insistent.requestTotal)
        {digits | insistent.requestCounts.Declares digits} ∧
      exec (({ model := .unit } : Planner).visitAlternative (fun _ _ _ => throw .aborted) none ⟨0⟩
          .low ⟨0⟩) Memo.insistent =
        exec ((List.range insistent.requestTotal).forM
          (({ model := .unit } : Planner).optimizeRequest (fun _ _ => throw .aborted) ⟨0⟩ insistent
            ⟨0⟩)) Memo.insistent := by
  have hfits : insistent.requestCounts.combinations < 2 ^ 64 := by decide
  obtain ⟨hbijOn, htried⟩ := requestDigits_bijOn insistent hfits
  exact ⟨hfits, hbijOn, htried { model := .unit } _ Memo.insistent ⟨0⟩ _ none ⟨0⟩ rfl rfl (by simp) rfl⟩

end QueryPlanner
