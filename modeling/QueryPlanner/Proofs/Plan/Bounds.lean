import QueryPlanner.Proofs.Plan.Floors

/-!
# Lower bounds are floors

Bounds are asked for while planning goes on, and stay stored until its end. `Memo.Bounding` is the
invariant of bounding: the memo is on the way to the end, and every bound that is stored is a floor
under the plans that are recorded at the end, for a group if it holds a relation. It holds at every step
of a descent, so what the descent answers is a floor as well (`Planning.Post.lowerBoundUpTo`, by
induction on its depth), and a descent that fails for no other reason than its depth does not fail in a
memo without cycles.
-/

namespace QueryPlanner

open Memo (SameContent Glances BoundedChildren Evolves)
open Planning (Keeps Post)

/-- Of two costs that are told apart, the lower one is one of them, and at most both. -/
theorem Cost.Apart.lower_le {left right : Cost} (h : left.Apart right)
    (hleft : left.total ≤ left.total) (hright : right.total ≤ right.total) :
    ((if left.lowerThan right then left else right) = left ∨
      (if left.lowerThan right then left else right) = right) ∧
      (if left.lowerThan right then left else right).total ≤ left.total ∧
        (if left.lowerThan right then left else right).total ≤ right.total := by
  have hlower := h.lowerThan_iff
  split
  · rename_i hless
    exact ⟨.inl rfl, hleft, Estimate.le_of_lt (hlower.mp hless)⟩
  · rename_i hnot
    exact ⟨.inr rfl, Estimate.le_of_not_lt hleft hright fun hless => hnot (hlower.mpr hless), hright⟩

namespace Memo

variable {planners : List Planner} {model : CostModel} {segments : Nat} {exact : Cost → Prop}
  {below : GroupId → GroupId → Prop} {start base memo current final : Memo} {held : List ContextId}

/-! ## On the way to the end -/

/-- What a parent is charged at the end for a costing that is the best one of a context then. -/
theorem Evolves.bestInput?_of_best (h : Evolves held current memo) {slot : CostingId}
    {costing : Costing} {context : Context} (hcosting : current.costing? slot = some costing)
    (hcontext : current.context? costing.context = some context) {own : ContextId}
    (hbest : memo.best? own = some slot) : memo.bestInput? segments own =
      some ((costing.statistics.getD .empty).childInput segments context.required.columns costing) := by
  obtain ⟨final, hfinal, hgoal, _⟩ := h.context _ context hcontext
  have hrequired : final.required = context.required := congrArg Prod.snd hgoal
  unfold Memo.bestInput? Memo.bestCosting?
  rw [hbest, Option.bind_some, h.costing slot costing hcosting, Option.bind_some, hfinal,
    Option.map_some, hrequired]
  rfl

/-- What an operator sees with some statistics does not change while planning goes on. -/
theorem Evolves.fullView (h : Evolves held current memo) {id : ExprId} {found expr : MemoExpr}
    (hfound : current.expr? id = some found) (hexpr : memo.expr? id = some expr)
    (known : GroupId → Option Statistics) : current.fullView known id found = memo.fullView known id expr := by
  obtain ⟨expr', hexpr', _, hchildren, hgroup⟩ := h.expr id found hfound
  obtain rfl := Option.some.inj (hexpr.symm.trans hexpr')
  have hchild : memo.fullChild known = current.fullChild known := by
    funext child
    unfold Memo.fullChild Memo.bareChild
    rw [h.master, h.properties]
  unfold Memo.fullView
  rw [h.bareView_eq hfound hexpr, h.master, hchild, hchildren, hgroup]

/-- Statistics on the way to the end count for the end. -/
theorem Assessed.reckons {allowed allowed' : Allowance} (h : start.Assessed below allowed memo)
    (hestimated : start.Estimated) (hcurrent : start.Assessed below allowed' current) :
    memo.Reckons current.statistics? where
  estimate id := (hcurrent.estimateOf id).trans (h.estimateOf id).symm
  relations id hrelation := by
    have hstart := h.relational_iff.mp hrelation
    rw [h.statistics_eq hestimated hrelation,
      hcurrent.statistics_eq hestimated (hcurrent.relational_iff.mpr hstart)]

/-- A memo in which planning has ended. One sound model costed all plans, with the statistics of the
start, and the bids of groups can be told apart. -/
structure Outcome (planners : List Planner) (model : CostModel) (segments : Nat)
    (below : GroupId → GroupId → Prop) (exact : Cost → Prop) (memo start : Memo) : Prop extends
    memo.Priced planners model segments below where
  sound : model.Sound exact
  discerns : memo.Discerns model segments
  estimates : start.Estimated
  assessed : start.Assessed below .all memo

/-- A bid of a group that is at most a floor of every alternative seen so far, if the group is a
relation with the columns. -/
def LeastOver (model : CostModel) (segments : Nat) (memo : Memo) (group : GroupId)
    (columns : ColumnSet) (seen : List ExprId) (least : Cost) : Prop :=
  memo.InScope group columns → memo.Bids model segments group columns least ∧
    ∀ id ∈ seen, ∃ bound,
      memo.ExprFloor model segments id columns none bound ∧ least.total ≤ bound.total

/-- The lower one of the floor of a further alternative and the least bid so far. -/
theorem Outcome.leastOver_lower (h : memo.Outcome planners model segments below exact start)
    {group : GroupId} {columns : ColumnSet} {seen : List ExprId} {least candidate : Cost} {id : ExprId}
    (hleast : memo.LeastOver model segments group columns seen least)
    (hconsidered : memo.Considers group id)
    (hfloor : memo.InScope group columns →
      memo.ExprFloor model segments id columns none candidate) :
    memo.LeastOver model segments group columns (seen ++ [id])
      (if candidate.lowerThan least then candidate else least) := by
  intro hscope
  obtain ⟨hbid, hseen⟩ := hleast hscope
  replace hfloor := hfloor hscope
  have hcandidate := hfloor.bid rfl _ hscope.1 hconsidered
  -- costs compare with themselves because bids are exact
  have hnumber {cost : Cost} (hcost : memo.Bids model segments group columns cost) :
      cost.total ≤ cost.total :=
    Estimate.le_self_of_ge (h.sound.nonneg cost
      (hcost.isExact h.toTame h.toAppraised h.sound.toRegular hscope))
  obtain ⟨hone, hbelow, hbefore⟩ := (h.discerns _ _ hscope candidate least hcandidate
    hbid).lower_le (hnumber hcandidate) (hnumber hbid)
  refine ⟨by obtain hone | hone := hone <;> rwa [hone], fun other hother => ?_⟩
  rcases List.mem_append.mp hother with hother | hother
  · obtain ⟨bound, hbound, hle⟩ := hseen other hother
    exact ⟨bound, hbound, Estimate.le_trans hbefore hle⟩
  · obtain rfl := List.mem_singleton.mp hother
    exact ⟨candidate, hfloor, hbelow⟩

/-! ## Stored bounds -/

/-- Floors under the plans that are recorded, for a group if it holds a relation. -/
def floors (memo : Memo) (model : CostModel) (segments : Nat) : Allowance where
  group id required bound := memo.InScope id required.columns →
    memo.GroupFloor model segments id required.columns bound
  expr id key bound := ∀ expr, memo.expr? id = some expr →
    memo.HasColumns (memo.master expr.group) key.required.columns →
      memo.ExprFloor model segments id key.required.columns key.costedChild bound

/-- A memo was looked at on the way to the end, and whatever bounds were stored are floors there. -/
structure Bounding (model : CostModel) (segments : Nat) (below : GroupId → GroupId → Prop)
    (start memo base current : Memo) : Prop extends
    start.Assessed below (memo.floors model segments) current where
  content : SameContent base current
  reaches : Evolves [] current memo

/-- Bounding may start where the stored bounds are floors. -/
theorem Assessed.bounding (h : start.Assessed below (memo.floors model segments) base)
    (hreaches : Evolves [] base memo) : Bounding model segments below start memo base base :=
  ⟨h, .refl base, hreaches⟩

/-- What leaves the content leaves the memo on the way. -/
theorem Bounding.step (h : Bounding model segments below start memo base current)
    (hassessed : start.Assessed below (memo.floors model segments) final)
    (hsame : SameContent current final) : Bounding model segments below start memo base final where
  toAssessed := hassessed
  content := h.content.trans hsame
  reaches := ((hsame.symm h.wellFormed.linksEnd).evolves hassessed.wellFormed.linksEnd).trans h.reaches

/-- A floor of a group may be stored. -/
theorem Bounding.noteGroup (h : Bounding model segments below start memo base current) {id : GroupId}
    {required : PlanRequirement} {least : Cost}
    (hfloor : (memo.floors model segments).group id required least) :
    Bounding model segments below start memo base (current.modifyGroup id fun group =>
      { group with lowerBounds := (required, least) :: group.lowerBounds }) :=
  h.step (h.storeGroup hfloor) (sameContent_modifyGroup (fun _ => rfl) fun _ => rfl)

/-- A floor of an alternative may be stored. -/
theorem Bounding.noteExpr (h : Bounding model segments below start memo base current) {id : ExprId}
    {key : BoundKey} {bound : Cost} (hfloor : (memo.floors model segments).expr id key bound) :
    Bounding model segments below start memo base (current.modifyExpr id fun expr =>
      { expr with bounds := (key, bound) :: expr.bounds }) :=
  h.step (h.storeExpr hfloor) (sameContent_modifyExpr fun _ => rfl)

/-- The alternative is known, and so is the costing of its child if one is costed already. -/
def Boundable (memo : Memo) (id : ExprId) (costed : Option (Nat × CostingId)) : Prop :=
  (∃ expr, memo.expr? id = some expr) ∧ ∀ entry ∈ costed, ∃ costing context,
    memo.costing? entry.2 = some costing ∧ memo.context? costing.context = some context

/-- Stored bounds stay floors. -/
def KeepsFloors (model : CostModel) (segments : Nat) (below : GroupId → GroupId → Prop)
    (start memo base current final : Memo) : Prop :=
  Bounding model segments below start memo base current →
    Bounding model segments below start memo base final

instance : Glancing (KeepsFloors model segments below start memo base) where
  refl _ h := h
  trans _ _ _ h h' hstart := h' (h hstart)
  compressed current id h := h.step
    (h.glance (sameContent_compress id) (SameEstimates.compress current id)) (sameContent_compress id)

end Memo

open Memo (Bounding)

namespace Planning

variable {exact : Cost → Prop} {start memo base current : Memo}

/-! ## Views with statistics -/

/-- What is seen of a known child group, with its statistics. -/
theorem Post.fullChild {id : GroupId} (h : memo.WellFormed) (hid : id.index < memo.groups.size) :
    Post (Planning.childView id) memo
      (fun child final => memo.Glances final ∧ child = memo.fullChild memo.statistics? id)
      (fun _ _ => False) := by
  refine ((Post.resolve hid).both (keeps_resolve (R := Glances) memo)).andThen
    (fun _ _ hfail => hfail.1) ?_
  rintro _ looked ⟨⟨rfl, _⟩, hlooked⟩
  refine Post.bind (Post.group (fun found hfound => Post.pure ⟨hlooked, ?_⟩) fun hnone => ?_)
  · unfold Memo.fullChild Memo.bareChild
    rw [← hlooked.statistics, ← hlooked.properties, Memo.properties, Memo.statistics?, hfound]
    rfl
  · rw [Memo.group?_eq_none, hlooked.groups_size] at hnone
    exact absurd (h.masterKnown id hid) (Nat.not_lt.mpr hnone)

/-- What the operator of a known alternative sees, with the statistics of groups. -/
theorem Post.fullView {id : ExprId} {expr : MemoExpr} (h : memo.WellFormed)
    (hexpr : memo.expr? id = some expr) :
    Post (Planning.view id) memo
      (fun view final => memo.Glances final ∧ view = memo.fullView memo.statistics? id expr)
      (fun _ _ => False) := by
  have howner := h.ownerKnown id expr hexpr
  unfold Planning.view
  refine Post.bind (Post.expr (fun found hfound => ?_) fun hnone => by simp [hnone] at hexpr)
  obtain rfl := Option.some.inj (hexpr.symm.trans hfound)
  refine ((Post.resolve howner).both (keeps_resolve (R := Glances) memo)).andThen
    (fun _ _ hfail => hfail.1) ?_
  rintro _ first ⟨⟨rfl, _⟩, hfirst⟩
  refine (Post.mapM memo.Glances (fun child seen => seen = memo.fullChild memo.statistics? child)
    hfirst ?_).andThen (fun _ _ hfail => hfail) ?_
  · intro child hchild current hcurrent
    have hknown := h.childKnown id expr hexpr child hchild
    rw [← hcurrent.groups_size] at hknown
    refine (Post.fullChild (hcurrent.wellFormed h) hknown).mono ?_ (fun _ _ hfail => hfail)
    rintro _ final ⟨hfinal, rfl⟩
    refine ⟨hcurrent.trans hfinal, ?_⟩
    unfold Memo.fullChild Memo.bareChild
    rw [hcurrent.master h.linksEnd, hcurrent.properties, hcurrent.statistics]
  · rintro children looked ⟨hlooked, hchildren⟩
    refine Post.bind (Post.group (fun found hfound => Post.pure ⟨hlooked, ?_⟩) fun hnone => ?_)
    · have hlogical : found.logical = memo.logical (memo.master expr.group) := by
        rw [← hlooked.logical, Memo.logical, hfound]
        rfl
      have hstatistics : found.statistics = memo.statistics? (memo.master expr.group) := by
        rw [← hlooked.statistics, Memo.statistics?, hfound]
        rfl
      have hall : children = expr.children.map (memo.fullChild memo.statistics?) := by
        simpa using map_eq_of_forall₂ (fun seen => seen) hchildren
      unfold Memo.fullView Memo.bareView
      rw [hlogical, hstatistics, hall]
    · rw [Memo.group?_eq_none, hlooked.groups_size] at hnone
      exact absurd (h.masterKnown _ howner) (Nat.not_lt.mpr hnone)

/-! ## Bounds of groups -/

section Descent

variable {planners : List Planner} {model : CostModel} {segments fuel : Nat}
  {below : GroupId → GroupId → Prop} {required : PlanRequirement}
  {costed : Option (Nat × CostingId)} {group : GroupId} {id : ExprId}
  {op : PhysicalOperator}

/-- The bound of an alternative is a floor under the plans of its group, and only the depth of the
descent can make it fail, for an alternative and a costing that are known. -/
def FloorsExpr (model : CostModel) (segments : Nat) (below : GroupId → GroupId → Prop)
    (start memo base : Memo) (id : ExprId) (required : PlanRequirement)
    (costed : Option (Nat × CostingId)) (action : Planning Cost) (current : Memo) : Prop :=
  Post action current
    (fun bound final => Bounding model segments below start memo base final ∧
      (memo.floors model segments).expr id { required, costedChild := costed } bound)
    (fun error final => Bounding model segments below start memo base final ∧
      (base.Boundable id costed → error = .outOfFuel))

/-- The bound of a group is a floor under its plans, and only the depth of the descent can make it
fail, for a group that is known. -/
def FloorsGroup (model : CostModel) (segments : Nat) (below : GroupId → GroupId → Prop)
    (start memo base : Memo) (id : GroupId) (required : PlanRequirement) (action : Planning Cost)
    (current : Memo) : Prop :=
  Post action current
    (fun least final => Bounding model segments below start memo base final ∧
      (memo.floors model segments).group (memo.master id) required least)
    (fun error final => Bounding model segments below start memo base final ∧
      (id.index < memo.groups.size → error = .outOfFuel))

/-- The least bound of the alternatives that enforce nothing is a floor of the group. -/
theorem Post.groupBoundBy [IsStrictOrder GroupId below]
    (h : memo.Outcome planners model segments below exact start)
    {bound : ExprId → PlanRequirement → Planning Cost}
    (hbound : ∀ alternative current, Bounding model segments below start memo base current →
      FloorsExpr model segments below start memo base alternative required none
        (bound alternative required) current)
    (hcurrent : Bounding model segments below start memo base current) :
    FloorsGroup model segments below start memo base group required
      (groupBoundBy bound group required) current := by
  have hends := h.wellFormed.linksEnd
  unfold FloorsGroup Planning.groupBoundBy
  by_cases hknown : group.index < memo.groups.size
  case neg =>
    refine Post.bind (Post.bind (Post.group (fun found hfound => ?_) fun _ =>
      ⟨hcurrent, fun hknown' => absurd hknown' hknown⟩))
    exact absurd (hcurrent.reaches.groups_size ▸ Memo.exists_group?_eq_some.mp ⟨found, hfound⟩) hknown
  refine ((Post.resolve (hcurrent.reaches.groups_size ▸ hknown)).both
    (keeps_resolve (R := Memo.KeepsFloors model segments below start memo base) current)).andThen
      (fun _ _ hfail => hfail.1.elim) ?_
  rintro _ looked ⟨⟨rfl, _⟩, hlooked⟩
  replace hlooked := hlooked hcurrent
  rw [← hcurrent.reaches.master]
  refine Post.bind (Post.group (fun found hfound => ?_) fun hnone => ?_)
  case refine_2 =>
    rw [Memo.group?_eq_none, ← hlooked.reaches.groups_size] at hnone
    exact absurd (h.wellFormed.masterKnown group hknown) (Nat.not_lt.mpr hnone)
  split
  · rename_i least hleast
    obtain ⟨before, after, hentries, _⟩ := List.lookup_eq_some_iff.mp hleast
    exact Post.pure ⟨hlooked,
      hlooked.groupBounds _ found hfound (required, least) (by simp [hentries])⟩
  · refine Post.bind (Post.get ?_)
    have hconsiders (alternative : ExprId) : (alternative ∈ found.alternatives.filter fun id =>
        ((looked.physical? id).map (!·.isEnforcer)).getD false) ↔
          memo.Considers (memo.master group) alternative :=
      (Memo.mem_filter_iff_considers hfound).trans
        (hlooked.reaches.considers_iff hlooked.wellFormed).symm
    -- the fold keeps the least bid over what it has seen, and stored bounds stay floors
    refine (Post.foldlM_seen (fun seen least final =>
      Bounding model segments below start memo base final ∧
        memo.LeastOver model segments (memo.master group) required.columns seen least) []
      ⟨hlooked, fun _ => ⟨.infinite, by simp⟩⟩
        fun seen least alternative halternative later hlater => ?_).andThen
          (fun _ _ hfail => hfail) ?_
    · obtain ⟨hlater, hleast⟩ := hlater
      have hconsidered := (hconsiders alternative).mp halternative
      obtain ⟨_, expr, hexpr, howner⟩ := h.wellFormed.owned hconsidered.1
      refine (hbound alternative later hlater).andThen (fun error final hfail =>
        ⟨hfail.1, fun _ => hfail.2 ⟨?_, by simp⟩⟩) ?_
      · obtain ⟨_, before, hbefore, _⟩ := hlooked.wellFormed.owned
          ((Memo.mem_filter_iff_considers hfound).mp halternative).1
        obtain ⟨first, hfirst, _⟩ := hlooked.content.exists_expr_before hbefore
        exact ⟨first, hfirst⟩
      rintro candidate final ⟨hfinal, hfloor⟩
      exact Post.pure ⟨hfinal, h.leastOver_lower hleast hconsidered fun hscope =>
        hfloor expr hexpr (by rw [howner, hends.master_master]; exact hscope.2)⟩
    · rintro least final ⟨hfinal, hleast⟩
      have hfloor : (memo.floors model segments).group (memo.master group) required least := by
        intro hscope
        obtain ⟨hbid, hseen⟩ := hleast hscope
        exact h.groupFloor h.sound hscope.1 hbid fun id hid => hseen id ((hconsiders id).mpr hid)
      exact Post.bind (Post.modify (Post.pure ⟨hfinal.noteGroup hfloor, hfloor⟩))

/-! ## Bounds of alternatives -/

/-- The input of a costing is what a parent is charged for it. -/
theorem Post.costedChild {slot : CostingId} :
    Post (Planning.costedChild segments slot) current
      (fun input final => final = current ∧ ∃ costing context,
        current.costing? slot = some costing ∧ current.context? costing.context = some context ∧
        input =
          (costing.statistics.getD .empty).childInput segments context.required.columns costing)
      (fun _ final => final = current ∧ ¬ ∃ costing context,
        current.costing? slot = some costing ∧ current.context? costing.context = some context) := by
  unfold Planning.costedChild
  refine Post.bind (Post.costing (fun costing hcosting => ?_) fun hnone =>
    ⟨rfl, by simp [hnone]⟩)
  exact Post.bind (Post.context (fun context hcontext => Post.pure
    ⟨rfl, costing, context, hcosting, hcontext, rfl⟩) fun hnone => ⟨rfl, by simp [hcosting, hnone]⟩)

/-- The children of an alternative are bounded one after the other. -/
theorem Post.boundedChildren (h : memo.WellFormed) {view : ExprView} {expr : MemoExpr}
    (hview : view.bare = (memo.bareView id expr).withRequired required)
    {bound : GroupId → PlanRequirement → Planning Cost}
    (hbound : ∀ group asked current, Bounding model segments below start memo base current →
      FloorsGroup model segments below start memo base group asked (bound group asked) current)
    {items : List (ChildView × Nat)}
    (hitems : ∀ item ∈ items, ∃ child, child.index < memo.groups.size ∧
      item.1.group = memo.master child)
    (hcurrent : Bounding model segments below start memo base current) :
    Post (Planning.boundedChildren segments op view required costed bound items) current
      (fun result final => Bounding model segments below start memo base final ∧
        BoundedChildren model segments memo (memo.asks id expr op required.columns) costed items
          result)
      (fun error final => Bounding model segments below start memo base final ∧
        ((∀ entry ∈ costed, ∃ costing context, base.costing? entry.2 = some costing ∧
          base.context? costing.context = some context) → error = .outOfFuel)) := by
  induction items generalizing current with
  | nil => exact Post.pure ⟨hcurrent, .nil⟩
  | cons item rest ih =>
      obtain ⟨child, position⟩ := item
      replace ih {current : Memo} := @ih current fun other hother => hitems other (by simp [hother])
      unfold Planning.boundedChildren
      split
      · rename_i hscalar
        exact (ih hcurrent).mono (fun _ _ hfinal => ⟨hfinal.1, .scalar hscalar hfinal.2⟩)
          fun _ _ hfail => hfail
      rename_i hrelation
      rw [Bool.not_eq_true] at hrelation
      split
      · rename_i entry slot hentry
        obtain ⟨hcosted, hposition⟩ := Option.filter_eq_some_iff.mp hentry
        obtain rfl : entry = position := by simpa using hposition
        refine Post.costedChild.andThen (fun error final hfail => ?_) ?_
        · obtain ⟨rfl, hunknown⟩ := hfail
          simp only [hcurrent.content.costing?, hcurrent.content.context?] at hunknown
          exact ⟨hcurrent, fun hknown => absurd (hknown _ hcosted) hunknown⟩
        rintro _ _ ⟨rfl, costing, context, hcosting, hcontext, rfl⟩
        refine (ih hcurrent).andThen (fun _ _ hfail => hfail) ?_
        rintro result final ⟨hfinal, hothers⟩
        exact Post.pure ⟨hfinal, .costed hrelation hcosted
          (fun own => hcurrent.reaches.bestInput?_of_best hcosting hcontext) hothers⟩
      · obtain ⟨childId, hchild, hgroup⟩ := hitems (child, position) (by simp)
        dsimp only at hgroup
        have hmaster : memo.master child.group = child.group := by
          rw [hgroup, h.linksEnd.master_master]
        have hasked : (op.childRequirement view required position [] 0).columns =
            memo.asks id expr op required.columns position := by
          rw [← PhysicalOperator.childRequirement_bare, hview,
            PhysicalOperator.childRequirement_withRequired]
          rfl
        refine (hbound child.group _ current hcurrent).andThen (fun error final hfail =>
          ⟨hfail.1, fun _ => hfail.2 (hgroup ▸ h.masterKnown childId hchild)⟩) ?_
        rintro least middle ⟨hmiddle, hfloor⟩
        dsimp only [Memo.floors] at hfloor
        rw [hmaster, hasked] at hfloor
        split
        · rename_i hinfinite
          exact Post.pure ⟨hmiddle, .infinite hrelation hfloor hinfinite⟩
        · refine (ih hmiddle).andThen (fun _ _ hfail => hfail) ?_
          rintro result final ⟨hfinal, hothers⟩
          refine Post.pure ⟨hfinal, ?_⟩
          rw [hasked]
          exact .floored hrelation hfloor hothers

/-- The bound of an alternative is a floor, by induction on the levels of the descent. -/
theorem Post.lowerBoundUpTo [IsStrictOrder GroupId below]
    (h : memo.Outcome planners model segments below exact start)
    (hcurrent : Bounding model segments below start memo base current) :
    FloorsExpr model segments below start memo base id required costed
      (lowerBoundUpTo model segments fuel id required costed) current := by
  induction fuel generalizing id required costed current with
  | zero => exact Post.throw ⟨hcurrent, fun _ => rfl⟩
  | succ fuel ih =>
      unfold FloorsExpr Planning.lowerBoundUpTo
      refine Post.bind (Post.expr (fun found hfound => ?_) fun hnone => ⟨hcurrent, fun hknown => ?_⟩)
      case refine_2 =>
        obtain ⟨expr, hexpr⟩ := hknown.1
        obtain ⟨found, hfound, _⟩ := hcurrent.content.exists_expr hexpr
        simp [hnone] at hfound
      obtain ⟨expr, hexpr, hop', _⟩ := hcurrent.reaches.expr id found hfound
      dsimp only
      split
      · -- the bound is stored
        rename_i bound hstored
        obtain ⟨before, after, hentries, _⟩ := List.lookup_eq_some_iff.mp hstored
        exact Post.pure ⟨hcurrent, hcurrent.exprBounds id found hfound
          ({ required, costedChild := costed }, bound) (by simp [hentries])⟩
      · rename_i op _ hop
        refine ((Post.fullView hcurrent.wellFormed hfound).both
          (keeps_view (R := Memo.KeepsFloors model segments below start memo base) current)).andThen
            (fun _ _ hfail => hfail.1.elim) ?_
        rintro _ viewed ⟨⟨_, rfl⟩, hviewed⟩
        rw [hcurrent.reaches.fullView hfound hexpr]
        have hview : ((memo.fullView current.statistics? id expr).withRequired required).bare =
            (memo.bareView id expr).withRequired required := by
          rw [ExprView.bare_withRequired, Memo.bare_fullView]
        refine (Post.boundedChildren h.wellFormed hview
          (fun group asked later hlater => Post.groupBoundBy h
            (fun alternative later hlater => ih hlater) hlater)
          (fun item hitem => ?_) (hviewed hcurrent)).andThen
            (fun _ _ hfail => ⟨hfail.1, fun hknown => hfail.2 hknown.2⟩) ?_
        · obtain ⟨child, hchild, hgroup⟩ := exists_child_of_bare
            (Memo.bare_fullView current.statistics? id expr) (List.fst_mem_of_mem_zipIdx hitem)
          exact ⟨child, h.wellFormed.childKnown id expr hexpr child hchild, hgroup⟩
        rintro result later ⟨hlater, hbounded⟩
        have hfloor : (memo.floors model segments).expr id { required, costedChild := costed }
            ((result.map (boundOver model segments
              ((memo.fullView current.statistics? id expr).withRequired required) required)).getD
                .infinite) := by
          intro expr' hexpr' hcovered
          obtain rfl := Option.some.inj (hexpr.symm.trans hexpr')
          exact h.exprFloor h.sound (h.assessed.reckons h.estimates hcurrent.toAssessed) hexpr
            (hop'.trans hop) hcovered hbounded
        cases result <;> exact Post.bind (Post.modify (Post.pure ⟨hlater.noteExpr hfloor, hfloor⟩))
      · -- no plan has an alternative on top that is not physical
        rename_i hother
        have hplain : ∀ op, expr.op ≠ .physical op := fun op hop => hother op (hop'.symm.trans hop)
        refine Post.pure ⟨hcurrent, fun expr' hexpr' _ => ⟨fun _ _ _ _ => .infinite, ?_⟩⟩
        intro group plan hplan hid _
        obtain ⟨context, found', op, hitem⟩ := h.itemized h.sound hplan
        obtain rfl := Option.some.inj (hexpr.symm.trans (hid ▸ hitem.expr_found))
        exact absurd hitem.physical (hplain op)

/-- A lower bound of an alternative is a floor. -/
theorem Post.lowerBound [IsStrictOrder GroupId below]
    (h : memo.Outcome planners model segments below exact start)
    (hcurrent : Bounding model segments below start memo base current) :
    FloorsExpr model segments below start memo base id required costed
      (lowerBound model segments id required costed) current := by
  unfold FloorsExpr Planning.lowerBound
  exact Post.bind (Post.get (Post.lowerBoundUpTo h hcurrent))

/-- A lower bound of a group is a floor. -/
theorem Post.groupLowerBound [IsStrictOrder GroupId below]
    (h : memo.Outcome planners model segments below exact start)
    (hcurrent : Bounding model segments below start memo base current) :
    FloorsGroup model segments below start memo base group required
      (groupLowerBound model segments group required) current := by
  unfold FloorsGroup Planning.groupLowerBound
  exact Post.bind (Post.get (Post.groupBoundBy h (fun _ _ hlater => Post.lowerBoundUpTo h hlater)
    hcurrent))

end Descent

end Planning

end QueryPlanner
