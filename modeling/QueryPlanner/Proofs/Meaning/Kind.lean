import QueryPlanner.Proofs.Meaning.Operators
import QueryPlanner.Proofs.Rule.Laws

/-!
# The kinds of groups

`Kind.reading` tells relations and conditions apart and reads operators of the catalogue by the kinds
of their children, whatever these stand for. So a memo of such operators has kinds as soon as every
alternative has children of the right kinds, also when the alternatives of a group are not
equivalent. The rules put conditions where conditions belong (`Kind.admitsRules`).
-/

namespace QueryPlanner

/-- What kind of thing a group stands for. -/
inductive Kind where
  | relation
  | condition
  deriving DecidableEq

namespace Kind

/-- What a step makes of kinds. -/
def step : Step → List Kind → Option Kind
  | .access _ _ _, [] => some .relation
  | .selection, [.relation, .condition] => some .relation
  | .join, [.relation, .relation, .condition] => some .relation
  | .aggregate _ _, [.relation] => some .relation
  | .unchanged, [kind] => some kind
  | .condition _, [] => some .condition
  | _, _ => none

/-- The kind that an operator has over those of its children. -/
def apply (op : Operator) (kinds : List Kind) : Option Kind := op.step?.bind (step · kinds)

/-- Relations have the properties of relations, and conditions those of scalars. -/
def Fits : GroupProperties → Kind → Prop
  | .relation _, .relation => True
  | .scalar _, .condition => True
  | _, _ => False

variable {kinds : List Kind} {kind : Kind}

theorem apply_eq_some {op : Operator} :
    apply op kinds = some kind ↔ ∃ taken, op.step? = some taken ∧ step taken kinds = some kind :=
  Option.bind_eq_some_iff

/-- Logical operators make relations. -/
theorem apply_logical {op : LogicalOperator} (h : apply (.logical op) kinds = some kind) :
    kind = .relation := by
  obtain ⟨taken, htaken, hstep⟩ := apply_eq_some.mp h
  cases op <;> cases htaken <;> (unfold step at hstep; split at hstep <;> simp_all [TableAccess.step])

/-- Scalar operators make conditions, of nothing. -/
theorem apply_scalar {op : ScalarOperator} (h : apply (.scalar op) kinds = some kind) :
    kinds = [] ∧ kind = .condition := by
  obtain ⟨taken, htaken, hstep⟩ := apply_eq_some.mp h
  cases op <;> cases htaken
  unfold step at hstep
  split at hstep <;> simp_all

/-- Operators by kinds. -/
def reading : Reading Kind where
  apply := apply
  fits := Fits
  apply_same left right kinds h := by
    unfold apply
    rcases Operator.step?_eq_of_same h with hstep | ⟨predicate, predicate', rfl, rfl, _⟩
    · rw [hstep]
    · cases kinds <;> rfl
  apply_perm op left right h _ := by
    cases op with
    | logical op => cases op <;> first | rfl | simp [Operator.orderSensitive,
        LogicalOperator.orderSensitive] at h
    | physical _ | scalar _ => simp [Operator.orderSensitive] at h
  fits_relation _ _ _ _ _ h := by rw [apply_logical h]; trivial
  fits_scalar _ _ _ _ _ h := by rw [(apply_scalar h).2]; trivial
  apply_enforcer op kind hcatalogued henforcer := by
    refine apply_eq_some.mpr ⟨.unchanged, ?_, rfl⟩
    cases op <;>
      simp_all [PhysicalOperator.isCatalogued, PhysicalOperator.isEnforcer,
        PhysicalOperator.enforcerKind?, Operator.step?, PhysicalOperator.step?]

theorem reading_join {outer inner test joined : Kind} :
    reading.join outer inner test = some joined ↔
      outer = .relation ∧ inner = .relation ∧ test = .condition ∧ joined = .relation := by
  cases outer <;> cases inner <;> cases test <;> cases joined <;> decide

theorem reading_select {input test kept : Kind} :
    reading.select input test = some kept ↔
      input = .relation ∧ test = .condition ∧ kept = .relation := by
  cases input <;> cases test <;> cases kept <;> decide

theorem reading_joinBy {parts : List Scalar} :
    reading.joinBy .relation .relation parts = some .relation := rfl

theorem reading_selectBy {parts : List Scalar} :
    reading.selectBy .relation parts = some .relation := by
  unfold Reading.selectBy
  split <;> rfl

/-- The rules keep kinds. -/
theorem admitsRules : reading.AdmitsRules where
  predicates {op kinds kind} hphysical hkind hcondition := by
    obtain rfl : kind = .condition := by
      rcases hcondition with ⟨_, _, _, h⟩ | ⟨_, _, h⟩
      · exact (reading_join.mp h).2.2.1
      · exact (reading_select.mp h).2.1
    cases op with
    | logical op => cases apply_logical hkind
    | physical op => simp [Operator.isPhysical, Operator.physical?] at hphysical
    | scalar op =>
        cases op with
        | predicate predicate => exact ⟨predicate, rfl⟩
        | custom _ => cases hkind
  joinComm h := by
    obtain ⟨rfl, rfl, rfl, rfl⟩ := reading_join.mp h
    rfl
  joinAssoc _ _ _ _ hbelow habove := by
    obtain ⟨rfl, rfl, _, rfl⟩ := reading_join.mp hbelow
    obtain ⟨_, rfl, _, rfl⟩ := reading_join.mp habove
    rfl
  selectJoin _ _ _ _ hbelow habove := by
    obtain ⟨rfl, rfl, _, rfl⟩ := reading_join.mp hbelow
    obtain ⟨_, _, rfl⟩ := reading_select.mp habove
    dsimp only
    rw [reading_selectBy, Option.bind_some, reading_selectBy]
    rfl
  scans h := ⟨h, fun _ => h⟩
  filters h := h
  nestedLoops h := h
  hashJoins _ _ _ h := h
  aggregates h := ⟨h, h⟩

end Kind

namespace Memo

/-- The alternatives are operators of the catalogue, over children of the right kinds. -/
def Catalogued (memo : Memo) : Prop := ∃ kinds, memo.Models Kind.reading kinds

/-- Scalar operators of the catalogue have no children. -/
theorem Catalogued.scalar_children {memo : Memo} (h : memo.Catalogued) {id : ExprId} {expr : MemoExpr}
    (hexpr : memo.expr? id = some expr) (hscalar : expr.op.isScalar = true) : expr.children = [] := by
  obtain ⟨kinds, hmodels⟩ := h
  have hcomputed := hmodels.computed id expr hexpr
  cases hop : expr.op with
  | scalar op =>
      rw [hop] at hcomputed
      exact List.map_eq_nil_iff.mp (Kind.apply_scalar hcomputed).1
  | logical _ | physical _ => simp [hop, Operator.isScalar] at hscalar

end Memo

end QueryPlanner
