import QueryPlanner.Proofs.Optimizer.Frame
import QueryPlanner.Proofs.Rule.Soundness
import QueryPlanner.Search

/-!
# Steps of a search that leave groups their values

`Searching.Preserves` says of a computation of the search that groups keep their values however it
ends. The rules follow the way computations are put together; what is known of a memo and its values
is carried along as long as the memo only grows.
-/

namespace QueryPlanner

open Memo (Grows SameContent)
open Planning (Keeps Post)

variable {α β γ : Type} {reading : Reading α} {meaning meaning' : GroupId → α} {memo memo' : Memo}

/-! ## Alternatives with a value -/

/-- The alternative has the value of the group. -/
def Memo.Serves (memo : Memo) (meaning : GroupId → α) (group : GroupId) (id : ExprId) : Prop :=
  group.index < memo.groups.size ∧
    ∃ expr, memo.expr? id = some expr ∧ meaning expr.group = meaning group

namespace Memo

/-- The alternatives that a group lists have its value. -/
theorem Models.serves (h : memo.Models reading meaning) {group : GroupId} {id : ExprId}
    (hid : id ∈ memo.alternativesOf group) : memo.Serves meaning group id := by
  obtain ⟨hknown, expr, hexpr, howner⟩ := h.wellFormed.owned hid
  exact ⟨hknown, expr, hexpr, by rw [howner]⟩

namespace Grows

variable (hgrows : Grows reading memo meaning memo' meaning')
include hgrows

/-- An alternative keeps its value, also when it moves to another group. -/
theorem serves (h : memo.Models reading meaning) {group : GroupId} {id : ExprId}
    (hserves : memo.Serves meaning group id) : memo'.Serves meaning' group id := by
  obtain ⟨hgroup, expr, hexpr, hvalue⟩ := hserves
  obtain ⟨expr', hexpr', hop, hchildren⟩ := hgrows.exprs id expr hexpr
  refine ⟨Nat.lt_of_lt_of_le hgroup hgrows.groups_size, expr', hexpr', ?_⟩
  have hbefore := (hgrows.models_before h).computed id expr hexpr
  have hafter := hgrows.models.computed id expr' hexpr'
  rw [hop, hchildren, hbefore] at hafter
  rw [← Option.some.inj hafter, hgrows.agrees group hgroup, ← hvalue]
  exact hgrows.agrees _ (h.wellFormed.ownerKnown id expr hexpr)

theorem known {group : GroupId} (hgroup : group.index < memo.groups.size) :
    group.index < memo'.groups.size :=
  Nat.lt_of_lt_of_le hgroup hgrows.groups_size

/-- The same growth, read with the values of the later memo. -/
theorem settled : Grows reading memo meaning' memo' meaning' :=
  { hgrows with agrees := fun _ _ => rfl }

/-- What a result computes stays the same. -/
theorem resultValue? {result : RuleResult} {value : α}
    (hvalue : result.value? reading memo meaning = some value) :
    result.value? reading memo' meaning' = some value := by
  obtain ⟨values, hvalues, hcomputes⟩ := Option.bind_eq_some_iff.mp hvalue
  unfold RuleResult.value?
  rw [hgrows.values? result.children hvalues]
  exact hcomputes

end Grows

end Memo

/-! ## Computations of the search -/

namespace Searching

variable {state : SearchState}

/-- A computation on the memo leaves the rest of the state. -/
theorem exec_onMemo (action : Planning β) (state : SearchState) :
    Planning.exec (onMemo action) state = ((Planning.exec action state.memo).1,
      { state with memo := (Planning.exec action state.memo).2 }) := rfl

theorem post_onMemo {action : Planning β} {ok : β → SearchState → Prop}
    {fail : PlanningError → SearchState → Prop}
    (h : Post action state.memo (fun value final => ok value { state with memo := final })
      (fun error final => fail error { state with memo := final })) :
    Post (onMemo action) state ok fail := by
  refine Post.of_exec (fun value final hexec => ?_) (fun error final hexec => ?_) <;>
    rw [exec_onMemo] at hexec
  · obtain ⟨_, _, haction, hfinal⟩ | ⟨_, _, haction, _⟩ := h.exists_exec <;>
      rw [haction] at hexec <;> cases hexec
    exact hfinal
  · obtain ⟨_, _, haction, _⟩ | ⟨_, _, haction, hfinal⟩ := h.exists_exec <;>
      rw [haction] at hexec <;> cases hexec
    exact hfinal

/-- However the computation ends, groups keep their values, and new ones have got some. -/
def Preserves (reading : Reading α) (meaning : GroupId → α) (action : Searching β)
    (state : SearchState) : Prop :=
  Post action state
    (fun _ final => ∃ meaning', Grows reading state.memo meaning final.memo meaning')
    (fun _ final => ∃ meaning', Grows reading state.memo meaning final.memo meaning')

namespace Preserves

theorem pure {value : β} (h : state.memo.Models reading meaning) :
    Preserves reading meaning (pure value) state :=
  Post.pure ⟨meaning, .refl h⟩

theorem throw {error : PlanningError} (h : state.memo.Models reading meaning) :
    Preserves reading meaning (throw error : Searching β) state :=
  Post.throw ⟨meaning, .refl h⟩

/-- What is noted besides the memo changes no value. -/
theorem modify {change : SearchState → SearchState} (h : state.memo.Models reading meaning)
    (hmemo : (change state).memo = state.memo) :
    Preserves reading meaning (modify change) state := by
  refine Post.modify ⟨meaning, ?_⟩
  rw [hmemo]
  exact .refl h

/-- Going on from a memo that has grown. -/
theorem after {action : Searching β} (hgrows : Grows reading memo meaning state.memo meaning')
    (h : Preserves reading meaning' action state) :
    Post action state
      (fun _ final => ∃ meaning', Grows reading memo meaning final.memo meaning')
      (fun _ final => ∃ meaning', Grows reading memo meaning final.memo meaning') :=
  h.mono (fun _ _ ⟨final, hfinal⟩ => ⟨final, hgrows.trans hfinal⟩)
    (fun _ _ ⟨final, hfinal⟩ => ⟨final, hgrows.trans hfinal⟩)

/-- Two computations one after the other. -/
theorem bind {action : Searching β} {next : β → Searching γ}
    (h : Preserves reading meaning action state)
    (hnext : ∀ value middle meaning', Grows reading state.memo meaning middle.memo meaning' →
      Preserves reading meaning' (next value) middle) :
    Preserves reading meaning (action >>= next) state := by
  refine Post.andThen h (fun _ _ hfail => hfail) ?_
  rintro value middle ⟨meaning', hmiddle⟩
  exact after hmiddle (hnext value middle meaning' hmiddle)

/-- A computation on the memo that keeps the values of groups. -/
theorem continues {action : Planning β} (h : state.memo.Models reading meaning)
    (hkeeps : Keeps (Memo.Continues reading) action) :
    Preserves reading meaning (onMemo action) state :=
  post_onMemo ((hkeeps state.memo).mono (fun _ _ hfinal => hfinal meaning h)
    (fun _ _ hfinal => hfinal meaning h))

/-- A computation on the memo that only looks. -/
theorem quiet {action : Planning β} (h : state.memo.Models reading meaning)
    (hkeeps : Keeps SameContent action) : Preserves reading meaning (onMemo action) state :=
  continues h (.quiet hkeeps)

/-- A loop whose rounds keep the values of groups. -/
theorem forM {items : List γ} {body : γ → Searching PUnit} (h : state.memo.Models reading meaning)
    (hround : ∀ item ∈ items, ∀ current meaning',
      Grows reading state.memo meaning current.memo meaning' →
      Preserves reading meaning' (body item) current) :
    Preserves reading meaning (items.forM body) state := by
  induction items generalizing state meaning with
  | nil => exact pure h
  | cons item rest ih =>
      refine bind (hround item (by simp) state meaning (.refl h)) fun _ middle middleMeaning hmiddle => ?_
      exact ih hmiddle.models fun other hother current meaning' hcurrent =>
        hround other (by simp [hother]) current meaning' (hmiddle.trans hcurrent)

/-- A loop that accumulates a value, with rounds that keep the values of groups. -/
theorem foldlM {items : List γ} {body : β → γ → Searching β} {start : β}
    (h : state.memo.Models reading meaning)
    (hround : ∀ found, ∀ item ∈ items, ∀ current meaning',
      Grows reading state.memo meaning current.memo meaning' →
      Preserves reading meaning' (body found item) current) :
    Preserves reading meaning (items.foldlM body start) state := by
  induction items generalizing state meaning start with
  | nil => exact pure h
  | cons item rest ih =>
      rw [List.foldlM_cons]
      refine bind (hround start item (by simp) state meaning (.refl h))
        fun found middle middleMeaning hmiddle => ?_
      exact ih hmiddle.models fun found other hother current meaning' hcurrent =>
        hround found other (by simp [hother]) current meaning' (hmiddle.trans hcurrent)

end Preserves

/-! ## Notes of the search -/

section Notes

variable (h : state.memo.Models reading meaning)
include h

theorem preserves_visit {id : GroupId} : Preserves reading meaning (visit id) state := by
  unfold visit
  refine Post.bind (Post.get ?_)
  split
  · exact Preserves.pure h
  · exact Preserves.bind (Preserves.modify h rfl) fun _ _ _ hmiddle => Preserves.pure hmiddle.models

theorem preserves_setPhase {id : GroupId} {phase : Phase} :
    Preserves reading meaning (setPhase id phase) state :=
  Preserves.quiet h (Keeps.modify fun _ =>
    Memo.sameContent_modifyGroup (fun _ => rfl) (fun _ => rfl))

theorem preserves_markApplied {id : ExprId} {rule : Rule} :
    Preserves reading meaning (markApplied id rule) state :=
  Preserves.quiet h (Keeps.modify fun _ => Memo.sameContent_modifyExpr fun _ => rfl)

theorem preserves_wasApplied {id : ExprId} {rule : Rule} :
    Preserves reading meaning (wasApplied id rule) state :=
  Preserves.quiet h (Keeps.bind Planning.keeps_expr fun _ => Keeps.pure)

end Notes

/-- Passes repeated until they settle. -/
theorem preserves_repeatPasses {pass : Searching PassOutcome} {fuel : Nat}
    (h : state.memo.Models reading meaning)
    (hpass : ∀ current meaning', Grows reading state.memo meaning current.memo meaning' →
      Preserves reading meaning' pass current) :
    Preserves reading meaning (repeatPasses pass fuel) state := by
  induction fuel generalizing state meaning with
  | zero => exact Preserves.throw h
  | succ fuel ih =>
      refine Preserves.bind (hpass state meaning (.refl h)) fun outcome middle middleMeaning hmiddle => ?_
      cases outcome with
      | stopped | settled => exact Preserves.pure hmiddle.models
      | progressed =>
          exact ih hmiddle.models fun current meaning' hcurrent =>
            hpass current meaning' (hmiddle.trans hcurrent)

end Searching

end QueryPlanner
