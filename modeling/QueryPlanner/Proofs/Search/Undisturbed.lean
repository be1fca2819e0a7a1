import QueryPlanner.Proofs.Rule.Odometer
import QueryPlanner.Proofs.Search.Answers

/-!
# Undisturbed explorations

An exploration is undisturbed when it unites no groups, leaves no group below itself and exhausts no
budget (`Planner.Undisturbed`). Then every part of it is undisturbed as well, and what a part ensures
in that case can be chained (`Planner.Ensures.bind`).
-/

namespace QueryPlanner

open Memo (SameContent)
open Planning (Keeps Post)

namespace Memo

variable {memo memo' : Memo} {pattern : Pattern} {id : ExprId}

/-- No group comes below itself. -/
def Acyclic (memo : Memo) : Prop := ∀ group, ¬ Relation.TransGen memo.LeadsDown group group

/-- Scalar alternatives have no children. -/
def ScalarsAreLeaves (memo : Memo) : Prop :=
  ∀ id expr, memo.expr? id = some expr → expr.op.isScalar = true → expr.children = []

/-! ## Growing without new links -/

section Grown

variable (hwidens : memo.Widens memo') (hmasters : ∀ id, memo'.master id = memo.master id)
include hwidens hmasters

/-- What was below a group stays below it. -/
theorem LeadsDown.mono {upper lower : GroupId} (h : memo.LeadsDown upper lower) :
    memo'.LeadsDown upper lower := by
  obtain ⟨id, hid, expr, hexpr, hphysical, child, hchild, rfl⟩ := h
  obtain ⟨expr', hexpr', hop, hchildren, _⟩ := hwidens.exprs id expr hexpr
  exact ⟨id, (hwidens.alternatives upper).subset hid, expr', hexpr', hop ▸ hphysical, child,
    hchildren ▸ hchild, hmasters child⟩

theorem Acyclic.of_widens (h : memo'.Acyclic) : memo.Acyclic := fun group hcycle =>
  h group (hcycle.lift (fun group => group) fun _ _ hstep => hstep.mono hwidens hmasters)

omit hmasters in
theorem ScalarsAreLeaves.of_widens (h : memo'.ScalarsAreLeaves) : memo.ScalarsAreLeaves := by
  intro id expr hexpr hscalar
  obtain ⟨expr', hexpr', hop, hchildren, _⟩ := hwidens.exprs id expr hexpr
  rw [← hchildren]
  exact h id expr' hexpr' (hop ▸ hscalar)

end Grown

/-! ## Trees that stay -/

/-- The memo grows without new links, and groups that are opened for trees get no alternatives. -/
structure Carries (memo memo' : Memo) (opened : Pattern → GroupId → Prop) : Prop where
  widens : memo.Widens memo'
  masters : ∀ id, memo'.master id = memo.master id
  closed : ∀ pattern group, opened pattern group → ∀ id ∈ memo.alternativesOf group,
    (memo.expr? id).isSome ∧ ∀ below lower, memo.Opens pattern id below lower → opened below lower
  unchanged : ∀ pattern group, opened pattern group →
    memo'.alternativesOf group = memo.alternativesOf group

namespace Carries

variable {opened : Pattern → GroupId → Prop}

mutual

/-- The trees at an alternative stay if all groups that are opened for them do. -/
theorem treesAt (h : memo.Carries memo' opened) :
    ∀ {pattern : Pattern} {id : ExprId} {trees : List BoundExpr},
    memo.TreesAt pattern id trees → (memo.expr? id).isSome →
    (∀ below group, memo.Opens pattern id below group → opened below group) →
    memo'.TreesAt pattern id trees
  | _, id, _, .refused refused, hknown, _ => by
      obtain ⟨expr, hexpr⟩ := Option.isSome_iff_exists.mp hknown
      obtain ⟨expr', hexpr', hop, hchildren, _⟩ := h.widens.exprs id expr hexpr
      refine .refused fun found hfound => ?_
      obtain rfl := Option.some.inj (hexpr'.symm.trans hfound)
      rw [hop, MemoExpr.arity, hchildren]
      exact refused expr hexpr
  | pattern, id, _, @TreesAt.admitted _ _ _ expr combinations hexpr admitted below, _, hopens => by
      obtain ⟨expr', hexpr', hop, hchildren, hgroup⟩ := h.widens.exprs id expr hexpr
      have hbelow : memo'.TreesBelow pattern 0 expr'.children combinations := by
        rw [hchildren]
        refine treesBelow h below fun index child asked hchild hasked hopen => ?_
        rw [Nat.zero_add] at hasked
        exact hopens asked _ ⟨expr, hexpr, admitted, child, index, hchild, hasked, hopen, rfl⟩
      have hall := TreesAt.admitted hexpr' (by rwa [hop, MemoExpr.arity, hchildren]) hbelow
      rwa [hop, hgroup, h.masters] at hall

theorem treesAmong (h : memo.Carries memo' opened) :
    ∀ {pattern : Pattern} {ids : List ExprId} {trees : List BoundExpr},
    memo.TreesAmong pattern ids trees → (∀ id ∈ ids, (memo.expr? id).isSome ∧
      ∀ below group, memo.Opens pattern id below group → opened below group) →
    memo'.TreesAmong pattern ids trees
  | _, _, _, .nil, _ => .nil
  | _, _ :: _, _, .cons first rest, hids => by
      obtain ⟨hfirst, hrest⟩ := List.forall_mem_cons.mp hids
      exact .cons (treesAt h first hfirst.1 hfirst.2) (treesAmong h rest hrest)

theorem treesIn (h : memo.Carries memo' opened) :
    ∀ {pattern : Pattern} {group : GroupId} {trees : List BoundExpr},
    memo.TreesIn pattern group trees → (pattern.isLeaf = false → opened pattern group) →
    memo'.TreesIn pattern group trees
  | _, _, _, .leaf whole, _ => .leaf whole
  | pattern, group, _, .expanded hopen among, hgroup => by
      refine .expanded hopen ?_
      rw [h.unchanged pattern group (hgroup hopen)]
      exact treesAmong h among (h.closed pattern group (hgroup hopen))

theorem treesBelow (h : memo.Carries memo' opened) :
    ∀ {pattern : Pattern} {position : Nat} {children : List GroupId} {combinations : List (List BoundExpr)},
    memo.TreesBelow pattern position children combinations →
    (∀ (index : Nat) child below, children[index]? = some child →
      pattern.child? (position + index) = some below → below.isLeaf = false →
      opened below (memo.master child)) →
    memo'.TreesBelow pattern position children combinations
  | _, _, _, _, .nil, _ => .nil
  | _, position, child :: _, _, .cons asked first others, hchildren => by
      refine .cons asked ?_ (treesBelow h others fun index other below hother hasked => ?_)
      · rw [h.masters]
        exact treesIn h first (hchildren 0 child _ rfl asked)
      · rw [Nat.add_right_comm] at hasked
        exact hchildren (index + 1) other below hother hasked

end

end Carries

/-- Listing the trees at an alternative. -/
theorem TreesAmong.treesAt_of_singleton {trees : List BoundExpr}
    (h : memo.TreesAmong pattern [id] trees) : memo.TreesAt pattern id trees := by
  cases h with
  | cons first rest =>
      cases rest
      rwa [List.append_nil]

end Memo

/-! ## Undisturbed parts -/

namespace Planner

variable {planner : Planner} {limits : StageLimits} {state middle final : SearchState}

/-- No groups were united on the way, no group comes below itself at the end, and the budgets have
lasted. -/
structure Undisturbed (planner : Planner) (limits : StageLimits) (state final : SearchState) :
    Prop where
  masters : ∀ id, final.memo.master id = state.memo.master id
  acyclic : final.memo.Acyclic
  leaves : final.memo.ScalarsAreLeaves
  budget : planner.mayExplore limits final = true

/-- Budgets that have lasted lasted all the time. -/
theorem mayExplore_of_proceeds (h : state.Proceeds final)
    (hfinal : planner.mayExplore limits final = true) : planner.mayExplore limits state = true := by
  unfold mayExplore at *
  rw [Bool.and_eq_true, Bool.and_eq_true, decide_eq_true_eq, decide_eq_true_eq] at *
  obtain ⟨⟨hiterations, happlications⟩, hgroups⟩ := hfinal
  refine ⟨⟨h.iterations.trans_lt hiterations, ?_⟩, h.widens.groups_size.trans_lt hgroups⟩
  cases hlimit : limits.maxRuleApplications with
  | none => rfl
  | some limit =>
      rw [hlimit, Option.all_some, decide_eq_true_eq] at happlications
      rw [Option.all_some, decide_eq_true_eq]
      exact h.applications.trans_lt happlications

namespace Undisturbed

protected theorem trans (h : planner.Undisturbed limits state middle)
    (h' : planner.Undisturbed limits middle final) : planner.Undisturbed limits state final :=
  { h' with masters := fun id => (h'.masters id).trans (h.masters id) }

/-- Both parts of an undisturbed exploration are undisturbed. -/
theorem split (h : planner.Undisturbed limits state final) (hends : state.memo.LinksEnd)
    (hfirst : state.Proceeds middle) (hrest : middle.Proceeds final) :
    planner.Undisturbed limits state middle ∧ planner.Undisturbed limits middle final := by
  have hmasters (id : GroupId) : middle.memo.master id = state.memo.master id := by
    obtain ⟨hmiddle, hup⟩ := hfirst.rises hends
    have hlater := (hrest.rises hmiddle).2 id
    rw [h.masters] at hlater
    exact congrArg GroupId.mk (Nat.le_antisymm hlater (hup id))
  have hmasters' (id : GroupId) : final.memo.master id = middle.memo.master id :=
    (h.masters id).trans (hmasters id).symm
  exact ⟨⟨hmasters, h.acyclic.of_widens hrest.widens hmasters', h.leaves.of_widens hrest.widens,
    mayExplore_of_proceeds hrest h.budget⟩, { h with masters := hmasters' }⟩

end Undisturbed

variable {α β γ : Type}

/-- What holds after a part of an exploration that succeeds and is not disturbed. -/
def Ensures (planner : Planner) (limits : StageLimits) (state : SearchState) (action : Searching β)
    (post : β → SearchState → Prop) : Prop :=
  Post action state (fun value final => state.Proceeds final ∧
    (planner.Undisturbed limits state final → post value final))
    (fun _ final => state.Proceeds final)

namespace Ensures

variable {action : Searching β} {post post' : β → SearchState → Prop}

theorem mono (h : planner.Ensures limits state action post)
    (hpost : ∀ value final, state.Proceeds final → planner.Undisturbed limits state final →
      post value final → post' value final) : planner.Ensures limits state action post' :=
  Post.mono h (fun value final hfinal => ⟨hfinal.1, fun hquiet =>
    hpost value final hfinal.1 hquiet (hfinal.2 hquiet)⟩) fun _ _ hfail => hfail

theorem pure {value : β} (h : post value state) :
    planner.Ensures limits state (pure value) post :=
  Post.pure ⟨.refl state, fun _ => h⟩

theorem modify {change : SearchState → SearchState} (h : state.Proceeds (change state)) :
    planner.Ensures limits state (modify change) fun _ final => final = change state :=
  Post.modify ⟨h, fun _ => rfl⟩

theorem getThen {next : SearchState → Searching β}
    (h : planner.Ensures limits state (next state) post) :
    planner.Ensures limits state (get >>= next) post :=
  Post.bind (Post.get h)

/-- A computation on the memo that only looks around. -/
theorem glance {action : Planning β} {found : β → Memo → Prop}
    (hobserves : Keeps Memo.Observes action)
    (h : Post action state.memo found fun _ _ => True) :
    planner.Ensures limits state (Searching.onMemo action) (fun value final =>
      ∃ memo, state.memo.Observes memo ∧ final = state.withMemo memo ∧ found value memo) := by
  refine Searching.post_onMemo (((hobserves state.memo).both h).mono ?_ fun _ _ hfail => ?_)
  · rintro value memo ⟨hobserved, hfound⟩
    exact ⟨SearchState.Proceeds.withMemo (.of_observes hobserved),
      fun _ => ⟨memo, hobserved, rfl, hfound⟩⟩
  · exact SearchState.Proceeds.withMemo (.of_observes hfail.1)

/-- Two parts one after the other. -/
theorem bind {next : β → Searching γ} {last : γ → SearchState → Prop}
    (hends : state.memo.LinksEnd) (h : planner.Ensures limits state action post)
    (hkeeps : ∀ value, Keeps SearchState.Proceeds (next value))
    (hnext : ∀ value middle, state.Proceeds middle → planner.Undisturbed limits state middle →
      post value middle → planner.Ensures limits middle (next value) last) :
    planner.Ensures limits state (action >>= next) last := by
  refine Post.andThen h (fun _ _ hfail => hfail) ?_
  rintro value middle ⟨hmiddle, hpost⟩
  by_cases hquiet : planner.Undisturbed limits state middle
  · refine Post.mono (hnext value middle hmiddle hquiet (hpost hquiet)) (fun _ final hfinal => ?_)
      fun _ _ hfail => hmiddle.trans hfail
    exact ⟨hmiddle.trans hfinal.1, fun hall =>
      hfinal.2 (hall.split hends hmiddle hfinal.1).2⟩
  · refine (hkeeps value middle).mono (fun _ final hfinal => ?_) fun _ _ hfail => hmiddle.trans hfail
    exact ⟨hmiddle.trans hfinal, fun hall => absurd (hall.split hends hmiddle hfinal).1 hquiet⟩

/-- A loop that accumulates a value, with an invariant of the items seen so far. -/
theorem foldlM {items : List γ} {body : β → γ → Searching β} {start : β}
    (inv : List γ → β → SearchState → Prop) (seen : List γ) (hattainable : state.memo.Attainable)
    (hstart : inv seen start state)
    (hkeeps : ∀ found, ∀ item ∈ items, Keeps SearchState.Proceeds (body found item))
    (hround : ∀ seen found, ∀ item ∈ items, ∀ current, state.Proceeds current →
      (∀ id, current.memo.master id = state.memo.master id) → inv seen found current →
      planner.Ensures limits current (body found item) (inv (seen ++ [item]))) :
    planner.Ensures limits state (items.foldlM body start) (inv (seen ++ items)) := by
  induction items generalizing state start seen with
  | nil =>
      rw [List.append_nil]
      exact pure hstart
  | cons item rest ih =>
      rw [List.foldlM_cons, List.append_cons]
      refine bind hattainable.inOrder.1.linksEnd (hround seen start item (by simp) state (.refl state)
        (fun _ => rfl) hstart) (fun found => Keeps.foldlM fun found other hother =>
          hkeeps found other (by simp [hother])) fun found middle hmiddle hquiet hinv => ?_
      refine ih _ (hmiddle.attainable hattainable) hinv (fun found other hother =>
        hkeeps found other (by simp [hother])) fun seen found other hother current hcurrent hsame =>
          hround seen found other (by simp [hother]) current (hmiddle.trans hcurrent) fun id => ?_
      exact (hsame id).trans (hquiet.masters id)

/-- A loop with an invariant of the items seen so far. -/
theorem forM {items : List γ} {body : γ → Searching PUnit} (inv : List γ → SearchState → Prop)
    (seen : List γ) (hattainable : state.memo.Attainable) (hstart : inv seen state)
    (hkeeps : ∀ item ∈ items, Keeps SearchState.Proceeds (body item))
    (hround : ∀ seen, ∀ item ∈ items, ∀ current, state.Proceeds current →
      (∀ id, current.memo.master id = state.memo.master id) → inv seen current →
      planner.Ensures limits current (body item) fun _ => inv (seen ++ [item])) :
    planner.Ensures limits state (items.forM body) fun _ => inv (seen ++ items) := by
  induction items generalizing state seen with
  | nil =>
      rw [List.append_nil]
      exact pure hstart
  | cons item rest ih =>
      rw [List.append_cons]
      refine bind hattainable.inOrder.1.linksEnd (hround seen item (by simp) state (.refl state)
        (fun _ => rfl) hstart) (fun _ => Keeps.forM fun other hother =>
          hkeeps other (by simp [hother])) fun _ middle hmiddle hquiet hinv => ?_
      refine ih _ (hmiddle.attainable hattainable) hinv (fun other hother =>
        hkeeps other (by simp [hother])) fun seen other hother current hcurrent hsame =>
          hround seen other (by simp [hother]) current (hmiddle.trans hcurrent) fun id => ?_
      exact (hsame id).trans (hquiet.masters id)

end Ensures

end Planner

end QueryPlanner
