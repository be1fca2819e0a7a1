import QueryPlanner.Proofs.Memo.Insert
import QueryPlanner.Proofs.Memo.Views
import QueryPlanner.Proofs.Optimizer.Descent

/-!
# What planning changes in a memo

`Memo.Tame` is what the planner relies on: the operators of the catalogue, enforcers above their own
group, and groups that come one below the other. `Memo.Evolves` says how a memo may change while
contexts are optimized: a context that is optimized, or held by a chain of callers, stays as it is,
and so do costings. A view over the best plans of optimized contexts is then the same before and
after.
-/

namespace QueryPlanner.Memo

variable {below : GroupId → GroupId → Prop} {memo memo' memo'' : Memo} {held : List ContextId}

/-- What the planner relies on, for an order of groups. -/
structure Tame (below : GroupId → GroupId → Prop) (memo : Memo) : Prop where
  wellFormed : memo.WellFormed
  catalogued : ∀ id expr op, memo.expr? id = some expr → expr.op = .physical op →
    op.isCatalogued = true
  enforcing : ∀ id expr, memo.expr? id = some expr → expr.op.isEnforcer = true →
    expr.children.map memo.master = [memo.master expr.group]
  descending : ∀ parent child, memo.Reads parent child → below parent child

/-- What planning stores keeps a memo tame. -/
theorem SameQuery.tame (hsame : SameQuery memo memo') (h : memo.Tame below) :
    memo'.Tame below where
  wellFormed := hsame.wellFormed h.wellFormed
  catalogued id expr op hexpr hop := by
    obtain ⟨before, hbefore, houtline⟩ := hsame.exists_expr_before hexpr
    rw [show expr.op = before.op from congrArg (·.op) houtline] at hop
    exact h.catalogued id before op hbefore hop
  enforcing id expr hexpr henforcer := by
    obtain ⟨before, hbefore, houtline⟩ := hsame.exists_expr_before hexpr
    rw [show expr.op = before.op from congrArg (·.op) houtline] at henforcer
    rw [show expr.children = before.children from congrArg (·.children) houtline,
      show expr.group = before.group from congrArg (·.group) houtline,
      funext (hsame.master h.wellFormed.linksEnd)]
    exact h.enforcing id before hbefore henforcer
  descending parent child hreads := by
    obtain ⟨hparent, id, expr, hid, hexpr, hop, child', hchild, hmaster⟩ := hreads
    obtain ⟨before, hbefore, houtline⟩ := hsame.exists_expr_before hexpr
    rw [hsame.master h.wellFormed.linksEnd] at hparent hmaster
    rw [show expr.op = before.op from congrArg (·.op) houtline] at hop
    rw [show expr.children = before.children from congrArg (·.children) houtline] at hchild
    rw [hsame.alternativesOf] at hid
    exact h.descending parent child ⟨hparent, id, before, hid, hbefore, hop, child', hchild, hmaster⟩

/-- How a memo may change while some contexts are held. -/
structure Evolves (held : List ContextId) (memo memo' : Memo) : Prop where
  groups_size : memo'.groups.size = memo.groups.size
  master : ∀ id, memo'.master id = memo.master id
  properties : ∀ id, memo'.properties id = memo.properties id
  expr : ∀ id expr, memo.expr? id = some expr → ∃ expr', memo'.expr? id = some expr' ∧
    expr'.op = expr.op ∧ expr'.children = expr.children ∧ expr'.group = expr.group
  /-- A context stays about the same goal and keeps having a best plan; one that is optimized or held
  stays as it is. -/
  context : ∀ id context, memo.context? id = some context →
    ∃ context', memo'.context? id = some context' ∧ context'.goal = context.goal ∧
      context'.stage = context.stage ∧ (context.best.isSome → context'.best.isSome) ∧
      (context.state = .optimized ∨ id ∈ held → context' = context)
  costing : ∀ id costing, memo.costing? id = some costing → memo'.costing? id = some costing
  alternatives : ∀ id, memo.alternativesOf id <+: memo'.alternativesOf id
  /-- Whatever alternatives a group gets are enforcers. -/
  added : ∀ id, ∀ alternative ∈ memo'.alternativesOf id, alternative ∈ memo.alternativesOf id ∨
    ∃ expr, memo'.expr? alternative = some expr ∧ expr.op.isEnforcer = true

namespace Evolves

protected theorem refl (memo : Memo) : Evolves held memo memo where
  groups_size := rfl
  master _ := rfl
  properties _ := rfl
  expr _ expr hexpr := ⟨expr, hexpr, rfl, rfl, rfl⟩
  context _ context hcontext := ⟨context, hcontext, rfl, rfl, id, fun _ => rfl⟩
  costing _ _ hcosting := hcosting
  alternatives _ := List.prefix_refl _
  added _ _ := .inl

protected theorem trans (h : Evolves held memo memo') (h' : Evolves held memo' memo'') :
    Evolves held memo memo'' where
  groups_size := h'.groups_size.trans h.groups_size
  master id := (h'.master id).trans (h.master id)
  properties id := (h'.properties id).trans (h.properties id)
  expr id expr hexpr := by
    obtain ⟨middle, hmiddle, hop, hchildren, hgroup⟩ := h.expr id expr hexpr
    obtain ⟨final, hfinal, hop', hchildren', hgroup'⟩ := h'.expr id middle hmiddle
    exact ⟨final, hfinal, hop'.trans hop, hchildren'.trans hchildren, hgroup'.trans hgroup⟩
  context id context hcontext := by
    obtain ⟨middle, hmiddle, hgoal, hstage, hbest, hstays⟩ := h.context id context hcontext
    obtain ⟨final, hfinal, hgoal', hstage', hbest', hstays'⟩ := h'.context id middle hmiddle
    refine ⟨final, hfinal, hgoal'.trans hgoal, hstage'.trans hstage, hbest' ∘ hbest,
      fun hkept => ?_⟩
    obtain rfl := hstays hkept
    exact hstays' hkept
  costing id costing hcosting := h'.costing id costing (h.costing id costing hcosting)
  alternatives id := (h.alternatives id).trans (h'.alternatives id)
  added id alternative hlast := by
    obtain hmiddle | henforces := h'.added id alternative hlast
    · obtain hfirst | ⟨expr, hexpr, henforces⟩ := h.added id alternative hmiddle
      · exact .inl hfirst
      · obtain ⟨final, hfinal, hop, _⟩ := h'.expr alternative expr hexpr
        exact .inr ⟨final, hfinal, hop ▸ henforces⟩
    · exact .inr henforces

/-- Fewer contexts are held further up. -/
theorem mono {fewer : List ContextId} (h : Evolves held memo memo') (hfewer : fewer ⊆ held) :
    Evolves fewer memo memo' :=
  { h with
    context := fun id context hcontext => by
      obtain ⟨context', hcontext', hgoal, hstage, hbest, hstays⟩ := h.context id context hcontext
      exact ⟨context', hcontext', hgoal, hstage, hbest,
        fun hkept => hstays (hkept.imp_right (hfewer ·))⟩ }

/-- An optimized or held context is found again. -/
theorem context?_eq (h : Evolves held memo memo') {id : ContextId} {context : Context}
    (hcontext : memo.context? id = some context)
    (hkept : context.state = .optimized ∨ id ∈ held) : memo'.context? id = some context := by
  obtain ⟨context', hcontext', _, _, _, hstays⟩ := h.context id context hcontext
  rw [hcontext', hstays hkept]

theorem logical (h : Evolves held memo memo') (id : GroupId) : memo'.logical id = memo.logical id := by
  have hread (memo : Memo) : memo.logical id = (memo.properties id).relationOrEmpty := by
    unfold Memo.logical Memo.properties
    cases memo.group? id <;> rfl
  rw [hread, hread, h.properties]

/-- What the operator of an alternative sees stays the same. -/
theorem bareView (h : Evolves held memo memo') {id : ExprId} {expr expr' : MemoExpr}
    (hop : expr'.op = expr.op) (hchildren : expr'.children = expr.children)
    (hgroup : expr'.group = expr.group) : memo'.bareView id expr' = memo.bareView id expr := by
  unfold Memo.bareView Memo.bareChild
  simp only [h.master, h.logical, h.properties, hop, hchildren, hgroup]

theorem bareView_eq (h : Evolves held memo memo') {id : ExprId} {expr expr' : MemoExpr}
    (hexpr : memo.expr? id = some expr) (hexpr' : memo'.expr? id = some expr') :
    memo'.bareView id expr' = memo.bareView id expr := by
  obtain ⟨found, hfound, hop, hchildren, hgroup⟩ := h.expr id expr hexpr
  obtain rfl := Option.some.inj (hexpr'.symm.trans hfound)
  exact h.bareView hop hchildren hgroup

end Evolves

/-- Quiet computations hold all contexts. -/
theorem SameContent.evolves (hsame : SameContent memo memo') (hends : memo.LinksEnd) :
    Evolves held memo memo' where
  groups_size := hsame.groups_size
  master := hsame.master hends
  properties := hsame.properties
  expr id expr hexpr := by
    obtain ⟨expr', hexpr', hcontent⟩ := hsame.exists_expr hexpr
    exact ⟨expr', hexpr', congrArg (·.op) hcontent, congrArg (·.children) hcontent,
      congrArg (·.group) hcontent⟩
  context id context hcontext :=
    ⟨context, (hsame.context? id).trans hcontext, rfl, rfl, fun hbest => hbest, fun _ => rfl⟩
  costing id costing hcosting := (hsame.costing? id).trans hcosting
  alternatives id := hsame.alternativesOf id ▸ List.prefix_refl _
  added id _ halternative := .inl (hsame.alternativesOf id ▸ halternative)

/-! ## Changes of contexts -/

section ModifyContext

variable {own : ContextId} {context : Context} {change : Context → Context}

/-- Notes on a context leave the groups and alternatives. -/
theorem sameQuery_modifyContext : SameQuery memo (memo.modifyContext own change) :=
  ⟨fun _ => rfl, fun _ => rfl, fun hends => ⟨hends.congr fun _ => rfl,
    master_congr _ hends fun _ => rfl⟩⟩

theorem context?_modifyContext_eq (hown : memo.context? own = some context) (id : ContextId) :
    (memo.modifyContext own change).context? id =
      if own = id then some (change context) else memo.context? id := by
  rw [context?_modifyContext]
  split
  · rename_i hid
    rw [← hid, hown, Option.map_some]
  · rfl

/-- Changing the notes on a context that is neither optimized nor held. -/
theorem evolves_modifyContext (hends : memo.LinksEnd) (hown : memo.context? own = some context)
    (hopen : context.state ≠ .optimized) (hheld : own ∉ held)
    (hgoal : (change context).goal = context.goal) (hstage : (change context).stage = context.stage)
    (hkeeps : context.best.isSome → (change context).best.isSome) :
    Evolves held memo (memo.modifyContext own change) where
  groups_size := rfl
  master := sameQuery_modifyContext.master hends
  properties _ := rfl
  expr _ expr hexpr := ⟨expr, hexpr, rfl, rfl, rfl⟩
  context id found hfound := by
    rw [context?_modifyContext_eq hown]
    split
    · rename_i hid
      obtain rfl := hid
      obtain rfl := Option.some.inj (hown.symm.trans hfound)
      refine ⟨_, rfl, hgoal, hstage, hkeeps, ?_⟩
      rintro (hdone | hkept)
      · exact absurd hdone hopen
      · exact absurd hkept hheld
    · exact ⟨found, hfound, rfl, rfl, fun hbest => hbest, fun _ => rfl⟩
  costing _ _ hcosting := hcosting
  alternatives _ := List.prefix_refl _
  added _ _ := .inl

end ModifyContext

/-! ## Chosen plans -/

/-- A context is optimized and has a best plan. -/
structure Chosen (memo : Memo) (id : ContextId) (context : Context) (costing : Costing) : Prop where
  found : memo.context? id = some context
  optimized : context.state = .optimized
  best : memo.bestCosting? id = some costing
  own : costing.context = id

namespace Chosen

variable {id : ContextId} {context : Context} {costing : Costing}

/-- A chosen plan can be looked up. -/
theorem readable (h : memo.Chosen id context costing) : memo.Readable id := by
  refine ⟨context, h.found, fun best hheld => ?_⟩
  have hbest := h.best
  unfold bestCosting? best? at hbest
  rw [h.found, Option.bind_some, hheld, Option.bind_some] at hbest
  exact ⟨costing, hbest, context, h.own ▸ h.found⟩

theorem exists_best (h : memo.Chosen id context costing) : ∃ best, context.best = some best := by
  have hbest := h.best
  unfold bestCosting? best? at hbest
  rw [h.found, Option.bind_some] at hbest
  obtain ⟨best, hheld, _⟩ := Option.bind_eq_some_iff.mp hbest
  exact ⟨best, hheld⟩

/-- What a parent is charged for a chosen plan. -/
theorem bestInput?_isSome (h : memo.Chosen id context costing) (segments : Nat) :
    (memo.bestInput? segments id).isSome := by
  unfold Memo.bestInput?
  rw [h.best, Option.bind_some, h.own, h.found]
  rfl

/-- A chosen plan stays chosen. -/
theorem evolves (h : memo.Chosen id context costing) (hevolves : Evolves held memo memo') :
    memo'.Chosen id context costing where
  found := hevolves.context?_eq h.found (.inl h.optimized)
  optimized := h.optimized
  best := by
    have hbest := h.best
    unfold bestCosting? best? at hbest ⊢
    rw [h.found] at hbest
    rw [hevolves.context?_eq h.found (.inl h.optimized)]
    obtain ⟨best, hheld, hcosting⟩ := Option.bind_eq_some_iff.mp hbest
    exact Option.bind_eq_some_iff.mpr ⟨best, hheld, hevolves.costing best costing hcosting⟩
  own := h.own

/-- What a parent is charged stays the same. -/
theorem bestInput?_evolves (h : memo.Chosen id context costing)
    (hevolves : Evolves held memo memo') (segments : Nat) :
    memo'.bestInput? segments id = memo.bestInput? segments id := by
  unfold Memo.bestInput?
  rw [(h.evolves hevolves).best, h.best, Option.bind_some, Option.bind_some, h.own,
    (h.evolves hevolves).found, h.found]

end Chosen

end QueryPlanner.Memo
