import QueryPlanner.Proofs.Optimizer.Columns

/-!
# Optimization asks for columns that make sense

`Memo.Sensible` is the invariant of a run: every context asks its group for an order and a
distribution whose columns make sense for it (`Memo.Asks`), and so do the enforcers that were added.
A run that starts with such a goal keeps it, however it ends (`Planning.Post.optimize_sensible`). No
order of groups is needed, so the memo may be cyclic.
-/

namespace QueryPlanner

open Memo (Grows Models SameContent Serves Stores)
open Planning (Keeps Post)

namespace Memo

variable {schemas : GroupId → Schema} {memo memo' memo'' : Memo}

/-- All contexts and enforcers mention columns that make sense. -/
structure Sensible (schemas : GroupId → Schema) (memo : Memo) : Prop
    extends memo.Tame (fun _ _ => True) where
  models : memo.Models Schema.reading schemas
  entries : ∀ id group, memo.group? id = some group → ∀ entry ∈ group.contexts,
    ∃ context, memo.context? entry.2 = some context ∧ context.goal = (id, entry.1.required)
  asked : ∀ id context, memo.context? id = some context →
    context.group.index < memo.groups.size ∧
    memo.Asks schemas context.group context.required.order.spec context.required.distribution.spec
  enforced : ∀ id expr op, memo.expr? id = some expr → expr.op = .physical op →
    ∀ child ∈ expr.children, memo.Asks schemas child op.enforcedOrder op.enforcedDistribution

/-- The run goes on from a memo, and contexts stay about their goals. -/
structure Proceeds (schemas : GroupId → Schema) (memo memo' : Memo) : Prop
    extends Grows Schema.reading memo schemas memo' schemas where
  sensible : memo'.Sensible schemas
  contexts : ∀ id context, memo.context? id = some context →
    ∃ context', memo'.context? id = some context' ∧ context'.goal = context.goal

namespace Proceeds

protected theorem refl (h : memo.Sensible schemas) : memo.Proceeds schemas memo where
  toGrows := .refl h.models
  sensible := h
  contexts _ context hcontext := ⟨context, hcontext, rfl⟩

protected theorem trans (h : memo.Proceeds schemas memo') (h' : memo'.Proceeds schemas memo'') :
    memo.Proceeds schemas memo'' where
  toGrows := h.toGrows.trans h'.toGrows
  sensible := h'.sensible
  contexts id context hcontext := by
    obtain ⟨middle, hmiddle, hgoal⟩ := h.contexts id context hcontext
    obtain ⟨final, hfinal, hgoal'⟩ := h'.contexts id middle hmiddle
    exact ⟨final, hfinal, hgoal'.trans hgoal⟩

/-- A context stays one of its group. -/
theorem owned (h : memo.Proceeds schemas memo') {own : ContextId} {group : GroupId}
    (hown : ∃ context, memo.context? own = some context ∧ context.group = group) :
    ∃ context, memo'.context? own = some context ∧ context.group = group := by
  obtain ⟨context, hcontext, hgroup⟩ := hown
  obtain ⟨final, hfinal, hgoal⟩ := h.contexts own context hcontext
  exact ⟨final, hfinal, (congrArg Prod.fst hgoal).trans hgroup⟩

end Proceeds

/-- What is stored leaves the memo sensible. -/
theorem Sensible.stored (h : memo.Sensible schemas) (hstores : memo.Stores memo') :
    memo.Proceeds schemas memo' := by
  have hgrows := h.models.regroups (hstores.regroups h.wellFormed)
  have hcontexts {id : ContextId} {context : Context} (hcontext : memo'.context? id = some context) :
      ∃ before, memo.context? id = some before ∧ context.goal = before.goal := by
    have hgoal := hstores.goals id
    rw [hcontext] at hgoal
    obtain ⟨before, hbefore, hsame⟩ := Option.map_eq_some_iff.mp hgoal.symm
    exact ⟨before, hbefore, hsame.symm⟩
  have hkept {id : ContextId} {context : Context} (hcontext : memo.context? id = some context) :
      ∃ final, memo'.context? id = some final ∧ final.goal = context.goal := by
    have hgoal := hstores.goals id
    rw [hcontext] at hgoal
    exact Option.map_eq_some_iff.mp hgoal
  refine ⟨hgrows, ⟨hstores.tame h.toTame, hgrows.models, Filed.stores h.entries hstores, ?_, ?_⟩,
    fun _ _ => hkept⟩
  · intro id context hcontext
    obtain ⟨before, hbefore, hgoal⟩ := hcontexts hcontext
    obtain ⟨hknown, hasked⟩ := h.asked id before hbefore
    rw [show context.group = before.group from congrArg Prod.fst hgoal,
      show context.required = before.required from congrArg Prod.snd hgoal, hstores.groups_size]
    exact ⟨hknown, hasked.mono hgrows.exprs⟩
  · intro id expr op hexpr hop child hchild
    obtain ⟨before, hbefore, houtline⟩ := hstores.exists_expr_before hexpr
    rw [show expr.op = before.op from congrArg (·.op) houtline] at hop
    rw [show expr.children = before.children from congrArg (·.children) houtline] at hchild
    exact (h.enforced id before op hbefore hop child hchild).mono hgrows.exprs

/-- A new context for a goal that makes sense. -/
theorem Sensible.addContext (h : memo.Sensible schemas) {owner : GroupId}
    {required : PlanRequirement} {stage : Nat} (hknown : owner.index < memo.groups.size)
    (hasked : memo.Asks schemas owner required.order.spec required.distribution.spec) :
    memo.Proceeds schemas (memo.addContext owner required stage) := by
  have hsame : SameQuery memo (memo.addContext owner required stage) := sameQuery_addContext
  have hgrows := h.models.regroups (hsame.regroups h.wellFormed)
  refine ⟨hgrows, ⟨hsame.tame h.toTame, hgrows.models, Filed.addContext h.entries, ?_, ?_⟩,
    fun id context hcontext => ⟨context, context?_addContext_of_some hcontext, rfl⟩⟩
  · intro id context hcontext
    rw [hsame.groups_size]
    rw [context?_addContext] at hcontext
    split at hcontext
    · obtain rfl := Option.some.inj hcontext
      exact ⟨hknown, hasked.mono hgrows.exprs⟩
    · obtain ⟨hgroup, hbefore⟩ := h.asked id context hcontext
      exact ⟨hgroup, hbefore.mono hgrows.exprs⟩
  · intro id expr op hexpr hop child hchild
    exact (h.enforced id expr op hexpr hop child hchild).mono hgrows.exprs

/-- A new enforcer that mentions columns that make sense. -/
theorem Sensible.addEnforcer (h : memo.Sensible schemas) {enforcer : PhysicalOperator}
    {owner : GroupId} {origin : Option Origin} (hcatalogued : enforcer.isCatalogued = true)
    (henforcer : enforcer.isEnforcer = true) (hknown : owner.index < memo.groups.size)
    (hasked : memo.Asks schemas owner enforcer.enforcedOrder enforcer.enforcedDistribution) :
    memo.Proceeds schemas (memo.addAlternative (.physical enforcer) [owner] owner origin) := by
  have htame : (memo.addAlternative (.physical enforcer) [owner] owner origin).Tame _ :=
    h.toTame.addEnforcer hcatalogued henforcer hknown
  have harity (count : Nat) (hcount : (Operator.physical enforcer).arity = some count) :
      [owner].length = count :=
    Option.some.inj
      ((PhysicalOperator.arity_of_enforcer hcatalogued henforcer).symm.trans hcount)
  have hgrows := h.models.addAlternative origin hknown (by simpa using hknown) harity
    (Schema.reading.apply_enforcer enforcer (schemas owner) hcatalogued henforcer)
  refine ⟨hgrows, ⟨htame, hgrows.models, Filed.addAlternative h.entries, ?_, ?_⟩,
    fun id context hcontext => ⟨context, hcontext, rfl⟩⟩
  · intro id context hcontext
    obtain ⟨hgroup, hbefore⟩ := h.asked id context hcontext
    rw [groups_size_addAlternative]
    exact ⟨hgroup, hbefore.mono hgrows.exprs⟩
  · intro id expr op hexpr hop child hchild
    rw [expr?_addAlternative] at hexpr
    split at hexpr
    · obtain rfl := Option.some.inj hexpr
      obtain rfl := Operator.physical.inj hop
      obtain rfl := List.mem_singleton.mp hchild
      exact hasked.mono hgrows.exprs
    · exact (h.enforced id expr op hexpr hop child hchild).mono hgrows.exprs

/-- A sensible memo proceeds. -/
def StaysSensible (schemas : GroupId → Schema) (memo memo' : Memo) : Prop :=
  memo.Sensible schemas → memo.Proceeds schemas memo'

instance : Optimizer.Store (StaysSensible schemas) where
  refl _ h := .refl h
  trans _ _ _ h h' hsensible := (h hsensible).trans (h' (h hsensible).sensible)
  stored _ _ hstores h := h.stored hstores

end Memo

/-- Enforcers mention only columns that are required. -/
theorem EnforcementDecision.asks_enforcer {schemas : GroupId → Schema} {memo : Memo}
    {group : GroupId} {decision : EnforcementDecision} {settings : EnforcerSettings}
    {required : PlanRequirement} {delivered : PlanProperties} {enforcer : PhysicalOperator}
    (h : enforcer ∈ decision.enforcers settings required delivered)
    (hasked : memo.Asks schemas group required.order.spec required.distribution.spec) :
    memo.Asks schemas group enforcer.enforcedOrder enforcer.enforcedDistribution := by
  -- only sorts and hash motions enforce something about columns
  have hnothing {distribution : Distribution} (hnone : distribution.hashColumns? = none) :
      memo.Asks schemas group .any distribution := .of_order hnone fun _ hkey => by
    simp [SortOrder.any] at hkey
  rcases offers_of_mem_enforcers h with h | h | h | h
  · unfold EnforcerSettings.sorts at h
    split at h
    · simp at h
    · obtain rfl := List.mem_singleton.mp h
      exact .of_order rfl hasked.order
  · unfold EnforcerSettings.motions at h
    split at h
    · rcases List.mem_cons.mp h with rfl | h
      · exact hnothing rfl
      · split at h
        · obtain rfl := List.mem_singleton.mp h
          exact .of_order rfl hasked.order
        · simp at h
    · rename_i columns nulls hdistribution
      obtain rfl := List.mem_singleton.mp h
      rw [hdistribution] at hasked
      exact .of_hashing hasked.hashing
    · obtain rfl := List.mem_singleton.mp h
      exact hnothing rfl
    · split at h
      · simp at h
      · obtain rfl := List.mem_singleton.mp h
        exact hnothing rfl
    · split at h
      · simp at h
      · obtain rfl := List.mem_singleton.mp h
        exact hnothing rfl
    · simp at h
    · simp at h
  · unfold EnforcerSettings.spools at h
    split at h
    · simp at h
    · obtain rfl := List.mem_singleton.mp h
      exact hnothing rfl
  · obtain ⟨entry, _, hentry⟩ := List.mem_filterMap.mp h
    split at hentry
    · split at hentry
      · obtain rfl := Option.some.inj hentry
        exact hnothing rfl
      · simp at hentry
    · simp at hentry

/-! ## Steps of a run -/

/-- However the computation ends, the run proceeds. -/
def Proceeding {α : Type} (schemas : GroupId → Schema) (action : Planning α) (memo : Memo) : Prop :=
  Post action memo (fun _ => memo.Proceeds schemas) (fun _ => memo.Proceeds schemas)

namespace Proceeding

variable {α β : Type} {schemas : GroupId → Schema} {memo memo' : Memo}

theorem pure {value : α} (h : memo.Sensible schemas) : Proceeding schemas (pure value) memo :=
  Post.pure (.refl h)

/-- Going on from a later memo. -/
theorem after {action : Planning α} (hproceeds : memo.Proceeds schemas memo')
    (h : Proceeding schemas action memo') :
    Post action memo' (fun _ => memo.Proceeds schemas) (fun _ => memo.Proceeds schemas) :=
  h.mono (fun _ _ hfinal => hproceeds.trans hfinal) (fun _ _ hfinal => hproceeds.trans hfinal)

/-- Two computations one after the other. -/
theorem bind {action : Planning α} {next : α → Planning β} (h : Proceeding schemas action memo)
    (hnext : ∀ value middle, memo.Proceeds schemas middle → Proceeding schemas (next value) middle) :
    Proceeding schemas (action >>= next) memo :=
  h.andThen (fun _ _ hfail => hfail) fun value middle hmiddle => after hmiddle (hnext value middle hmiddle)

/-- A computation that only stores something. -/
theorem store {action : Planning α} (h : memo.Sensible schemas)
    (hkeeps : Keeps (Memo.StaysSensible schemas) action) : Proceeding schemas action memo :=
  (hkeeps memo).mono (fun _ _ hfinal => hfinal h) (fun _ _ hfinal => hfinal h)

/-- A computation that only looks. -/
theorem quiet {action : Planning α} (h : memo.Sensible schemas) (hkeeps : Keeps SameContent action) :
    Proceeding schemas action memo :=
  store h (.quiet hkeeps)

/-- A loop whose rounds proceed. -/
theorem forM {items : List α} {body : α → Planning PUnit} (h : memo.Sensible schemas)
    (hround : ∀ item ∈ items, ∀ current, memo.Proceeds schemas current →
      Proceeding schemas (body item) current) :
    Proceeding schemas (items.forM body) memo :=
  Post.forM (memo.Proceeds schemas) (.refl h) fun item hitem current hcurrent =>
    after hcurrent (hround item hitem current hcurrent)

/-- Inserting an enforcer that mentions columns that make sense. -/
theorem insertAbove {enforcer : PhysicalOperator} {owner : GroupId} {origin : Option Origin}
    (h : memo.Sensible schemas) (hknown : owner.index < memo.groups.size)
    (hcatalogued : enforcer.isCatalogued = true) (henforcer : enforcer.isEnforcer = true)
    (hasked : memo.Asks schemas owner enforcer.enforcedOrder enforcer.enforcedDistribution) :
    Proceeding schemas (Planning.insert (.physical enforcer) [owner] (some owner) origin) memo := by
  refine (Post.insertAbove h.wellFormed (h.toTame.enclosesEnforcers _) hknown hcatalogued
    henforcer).mono ?_ (fun _ _ hfail => hfail.elim)
  rintro _ _ ⟨middle, hsame, ⟨_, rfl⟩ | ⟨_, rfl⟩⟩
  · exact h.stored hsame.stores
  · have hlooked := h.stored hsame.stores
    refine hlooked.trans (hlooked.sensible.addEnforcer hcatalogued henforcer ?_ ?_)
    · exact Nat.lt_of_lt_of_le (h.wellFormed.masterKnown owner hknown) hlooked.groups_size
    · exact (hasked.congr (congrArg Schema.columns (h.models.linked owner))).mono hlooked.exprs

end Proceeding

/-- A group that is no scalar has the schema of a relation. -/
theorem Memo.Models.ne_condition {schemas : GroupId → Schema} {memo : Memo}
    (h : memo.Models Schema.reading schemas) {id : GroupId} (hknown : id.index < memo.groups.size)
    (hrelation : (memo.properties id).isScalar = false) : schemas id ≠ .condition := by
  obtain ⟨group, hgroup⟩ := Memo.exists_group?_eq_some.mpr hknown
  intro hcondition
  have hfits : Schema.Fits group.properties (schemas id) := h.fits id group hgroup
  unfold Memo.properties at hrelation
  rw [hgroup, Option.map_some, Option.getD_some] at hrelation
  rw [hcondition] at hfits
  cases hproperties : group.properties with
  | relation _ => simp [hproperties, Schema.Fits] at hfits
  | scalar _ => simp [hproperties, GroupProperties.isScalar] at hrelation

namespace Planner

open Memo (Asks)

variable {schemas : GroupId → Schema} {memo : Memo} {planner : Planner} {id : ExprId}
  {op : PhysicalOperator} {own : ContextId} {context : Context} {request stage : Nat}

/-- Computations that optimize known groups for goals that make sense, and proceed. -/
def AsksSensibly (schemas : GroupId → Schema)
    (optimize : GroupId → PlanRequirement → Planning ContextId) : Prop :=
  ∀ memo group required, memo.Sensible schemas → group.index < memo.groups.size →
    memo.Asks schemas group required.order.spec required.distribution.spec →
    Proceeding schemas (optimize group required) memo

/-- The children are optimized for goals that make sense. -/
theorem proceeding_optimizeChildren {optimize : GroupId → PlanRequirement → Planning ContextId}
    (hoptimize : AsksSensibly schemas optimize) {view : ExprView} {positions : List Nat}
    {progress : ChildProgress} (h : memo.Sensible schemas)
    (hasks : ∀ position child siblings, view.children[position]? = some child →
      child.isScalar = false → child.group.index < memo.groups.size ∧
      memo.Asks schemas child.group
        (op.childRequirement view context.required position siblings request).order.spec
        (op.childRequirement view context.required position siblings request).distribution.spec) :
    Proceeding schemas
      (planner.optimizeChildren optimize id op view own context request positions progress)
      memo := by
  induction positions generalizing memo progress with
  | nil => exact Proceeding.pure h
  | cons position rest ih =>
      unfold optimizeChildren
      split
      · exact ih h hasks
      · rename_i child hchild
        split
        · exact ih h hasks
        · rename_i hscalar
          extract_lets asked
          split
          · exact Proceeding.pure h
          · obtain ⟨hknown, hasked⟩ := hasks position child progress.siblings hchild
              (by simpa using hscalar)
            refine Proceeding.bind (hoptimize memo _ _ h hknown hasked) fun reached first hfirst => ?_
            refine Proceeding.bind (.quiet hfirst.sensible Planning.keeps_context)
              fun found second hsecond => ?_
            split
            · exact Proceeding.pure hsecond.sensible
            · refine Proceeding.bind (.quiet hsecond.sensible Planning.keeps_costing)
                fun costing third hthird => ?_
              have hlater := (hfirst.trans hsecond).trans hthird
              extract_lets contexts finish
              -- both ways to get a bound go on in the same way
              have hfinish (bound : Option Cost) (current : Memo)
                  (hcurrent : memo.Proceeds schemas current) :
                  Proceeding schemas (finish bound) current := by
                cases bound with
                | some _ =>
                    exact Proceeding.bind
                      (.store hcurrent.sensible Optimizer.Records.keeps_recordPruned)
                      fun _ _ hfinal => Proceeding.pure hfinal.sensible
                | none =>
                    refine ih hcurrent.sensible fun position child siblings hchild hscalar => ?_
                    obtain ⟨hknown, hasked⟩ := hasks position child siblings hchild hscalar
                    exact ⟨Nat.lt_of_lt_of_le hknown hcurrent.groups_size,
                      hasked.mono hcurrent.exprs⟩
              split
              · exact Proceeding.bind (.quiet hthird.sensible Planner.keeps_pruneBound?)
                  fun bound current hcurrent => hfinish bound current (hlater.trans hcurrent)
              · exact Proceeding.bind (Proceeding.pure hthird.sensible)
                  fun bound current hcurrent => hfinish bound current (hlater.trans hcurrent)

/-- Enforcers are added for a context that asks for columns that make sense. -/
theorem proceeding_enforce {contexts : List (Option ContextId)} (h : memo.Sensible schemas)
    (hknown : context.group.index < memo.groups.size)
    (hasked : memo.Asks schemas context.group context.required.order.spec
      context.required.distribution.spec) :
    Proceeding schemas (planner.enforce id op context contexts) memo := by
  unfold enforce
  refine Proceeding.bind (.quiet h Planning.keeps_viewOver) fun view seen hseen => ?_
  dsimp only
  split
  · exact Proceeding.pure hseen.sensible
  · split
    · exact Proceeding.pure hseen.sensible
    · refine Proceeding.bind (Proceeding.forM hseen.sensible fun enforcer henforcer current hcurrent => ?_)
        fun _ final hfinal => Proceeding.pure hfinal.sensible
      obtain ⟨hcatalogued, henforces⟩ := EnforcementDecision.enforcers_catalogued henforcer
      have hnow := hseen.trans hcurrent
      have hoffered := EnforcementDecision.asks_enforcer henforcer (hasked.mono hnow.exprs)
      refine Proceeding.bind ?_ fun _ final hfinal => Proceeding.pure hfinal.sensible
      exact Proceeding.insertAbove hnow.sensible (Nat.lt_of_lt_of_le hknown hnow.groups_size)
        hcatalogued henforces hoffered

/-- What an alternative of a group asks of its relational children makes sense. -/
theorem asks_ofView (h : memo.Sensible schemas) {group : GroupId}
    (hserves : memo.Serves schemas group id) {expr : MemoExpr} (hexpr : memo.expr? id = some expr)
    (hop : expr.op = .physical op) {required : PlanRequirement}
    (hasked : memo.Asks schemas group required.order.spec required.distribution.spec)
    {view : ExprView} (hview : view.children.map ChildView.bare = expr.children.map memo.bareChild)
    {position : Nat} {child : ChildView} (hchild : view.children[position]? = some child)
    (hscalar : child.isScalar = false) (siblings : List PlanProperties) (request : Nat) :
    child.group.index < memo.groups.size ∧
      memo.Asks schemas child.group
        (op.childRequirement view required position siblings request).order.spec
        (op.childRequirement view required position siblings request).distribution.spec := by
  obtain ⟨below, hbelow, hbare⟩ : ∃ below, expr.children[position]? = some below ∧
      memo.bareChild below = child.bare := by
    have hseen := congrArg (·[position]?) hview
    simp only [List.getElem?_map, hchild, Option.map_some] at hseen
    exact Option.map_eq_some_iff.mp hseen.symm
  have hmem := List.mem_of_getElem? hbelow
  have hgroup : child.group = memo.master below := congrArg ChildView.group hbare.symm
  have hknown := h.wellFormed.masterKnown below (h.wellFormed.childKnown id expr hexpr below hmem)
  have hrelation : schemas below ≠ .condition := by
    have hproperties : child.isScalar = (memo.properties (memo.master below)).isScalar :=
      congrArg ChildView.isScalar hbare.symm
    rw [← h.models.linked]
    exact h.models.ne_condition hknown (hproperties.symm.trans hscalar)
  obtain ⟨_, found, hfound, hsame⟩ := hserves
  obtain rfl := Option.some.inj (hexpr.symm.trans hfound)
  have hown := hasked.congr (congrArg Schema.columns hsame)
  refine ⟨hgroup ▸ hknown, hgroup ▸ Asks.congr ?_ (congrArg Schema.columns (h.models.linked below))⟩
  exact h.models.asks_child hexpr hop hown hbelow (h.enforced id expr op hexpr hop below hmem)
    hrelation view siblings request

/-- One request of an alternative. -/
theorem proceeding_optimizeRequest {optimize : GroupId → PlanRequirement → Planning ContextId}
    (hoptimize : AsksSensibly schemas optimize) {group : GroupId} {expr : MemoExpr}
    (h : memo.Sensible schemas) (hserves : memo.Serves schemas group id)
    (hexpr : memo.expr? id = some expr) (hop : expr.op = .physical op)
    (hown : ∃ context, memo.context? own = some context ∧ context.group = group) :
    Proceeding schemas (planner.optimizeRequest optimize id op own request) memo := by
  unfold optimizeRequest
  refine Proceeding.bind (.quiet h Planning.keeps_checkAbort) fun _ checked hchecked => ?_
  refine Proceeding.bind (.store hchecked.sensible Optimizer.Offers.keeps_installRecorded)
    fun installed looked hlooked => ?_
  split
  · exact Proceeding.pure hlooked.sensible
  have hnow := hchecked.trans hlooked
  obtain ⟨before, hbefore, hgroup⟩ := hown
  obtain ⟨context, hcontext, hgoal⟩ := hnow.contexts own before hbefore
  have hgroup : context.group = group := (congrArg Prod.fst hgoal).trans hgroup
  obtain ⟨hknown, hasked⟩ := hnow.sensible.asked own context hcontext
  refine Post.bind (Post.context (fun found hfound => ?_) fun _ => .refl hnow.sensible)
  obtain rfl := Option.some.inj (hcontext.symm.trans hfound)
  refine Post.bind (Post.expr (fun again _ => ?_) fun _ => .refl hnow.sensible)
  extract_lets arity unplanned finish
  -- with and without pruning the request goes on in the same way
  have hfinish (bound : Option Cost) (current : Memo) (hcurrent : looked.Proceeds schemas current) :
      Proceeding schemas (finish bound) current := by
    cases bound with
    | some _ =>
        exact Proceeding.bind (.store hcurrent.sensible Optimizer.Records.keeps_recordPruned)
          fun _ _ hfinal => Proceeding.pure hfinal.sensible
    | none =>
        have hlater := hnow.trans hcurrent
        obtain ⟨expr', hexpr', hop', _⟩ := hlater.exprs id expr hexpr
        refine (Post.view hcurrent.sensible.wellFormed hexpr').andThen (fun _ _ hfail => hfail.elim) ?_
        rintro view viewed ⟨hviewed, hview⟩
        have hseen := hcurrent.sensible.stored hviewed.stores
        refine Proceeding.after hseen ?_
        dsimp only
        split
        · exact Proceeding.pure hseen.sensible
        have hall := hlater.trans hseen
        -- what the view shows of the children is still so in the memo that was left
        have hview : view.children.map ChildView.bare = expr'.children.map viewed.bareChild := by
          rw [hviewed.bareChild hcurrent.sensible.wellFormed.linksEnd]
          exact congrArg ExprView.children hview
        obtain ⟨last, hlast, hcontent⟩ := hviewed.exists_expr hexpr'
        have hopLast : last.op = .physical op :=
          (congrArg MemoExpr.op hcontent).trans (hop'.trans hop)
        rw [show expr'.children = last.children from (congrArg MemoExpr.children hcontent).symm]
          at hview
        refine Proceeding.bind (proceeding_optimizeChildren hoptimize hseen.sensible
          fun position child siblings hchild hscalar => ?_) fun children planned hplanned => ?_
        · have hasking := hgroup ▸ hasked.mono (hcurrent.trans hseen).exprs
          exact asks_ofView hseen.sensible (hall.serves h.models hserves) hlast hopLast hasking hview
            hchild hscalar siblings request
        split
        · exact Proceeding.pure hplanned.sensible
        have hstill := (hcurrent.trans hseen).trans hplanned
        refine Proceeding.bind (proceeding_enforce hplanned.sensible
          (Nat.lt_of_lt_of_le hknown hstill.groups_size) (hasked.mono hstill.exprs))
          fun allowed enforced henforced => ?_
        split
        · refine Proceeding.bind (.store henforced.sensible Optimizer.Records.keeps_cost)
            fun costed final hfinal => ?_
          split
          · exact Proceeding.bind (.store hfinal.sensible Optimizer.Settles.keeps_updateBest)
              fun _ _ hlast => Proceeding.pure hlast.sensible
          · exact Proceeding.bind (.store hfinal.sensible Optimizer.Offers.keeps_installRecorded)
              fun _ _ hlast => Proceeding.pure hlast.sensible
        · exact Proceeding.pure henforced.sensible
  split
  · exact Proceeding.bind (.quiet hnow.sensible Planner.keeps_pruneBound?) hfinish
  · exact Proceeding.bind (Proceeding.pure hnow.sensible) hfinish

/-- An alternative of the group of the own context. -/
theorem proceeding_visitAlternative
    {optimize : ExprId → GroupId → PlanRequirement → Planning ContextId}
    (hoptimize : ∀ id, AsksSensibly schemas (optimize id)) {parent : Option ExprId}
    {level : OptimizationLevel} {group : GroupId} (h : memo.Sensible schemas)
    (hid : id ∈ memo.alternativesOf group)
    (hown : ∃ context, memo.context? own = some context ∧ context.group = group) :
    Proceeding schemas (planner.visitAlternative optimize parent own level id) memo := by
  unfold visitAlternative
  refine Post.bind (Post.get (Post.bind (Post.expr (fun expr hexpr => ?_) fun _ => .refl h)))
  have hserves := h.models.serves hid
  cases hop : expr.op with
  | logical _ | scalar _ => exact Proceeding.pure h
  | physical op =>
      dsimp only
      split
      · refine Proceeding.forM h fun request _ current hcurrent => ?_
        obtain ⟨expr', hexpr', hop', _⟩ := hcurrent.exprs id expr hexpr
        refine proceeding_optimizeRequest (hoptimize id) hcurrent.sensible
          (hcurrent.serves h.models hserves) hexpr' (hop'.trans hop) ?_
        exact hcurrent.owned hown
      · exact Proceeding.pure h

/-- Going through the alternatives of the group of the own context, by induction on the steps
left. -/
theorem proceeding_visitAlternatives {visit : ExprId → Planning Unit} {group : GroupId}
    {fuel position : Nat} (h : memo.Sensible schemas)
    (hown : ∃ context, memo.context? own = some context ∧ context.group = group)
    (hvisit : ∀ current id, current.Sensible schemas → id ∈ current.alternativesOf group →
      (∃ context, current.context? own = some context ∧ context.group = group) →
      Proceeding schemas (visit id) current) :
    Proceeding schemas (visitAlternatives group visit fuel position) memo := by
  induction fuel generalizing memo position with
  | zero => exact Post.throw (.refl h)
  | succ fuel ih =>
      unfold visitAlternatives
      refine Post.bind (Post.get ?_)
      split
      · exact Proceeding.pure h
      · rename_i id hid
        refine Proceeding.bind (hvisit memo id h (List.mem_of_getElem? hid) hown)
          fun _ current hcurrent => ?_
        exact ih hcurrent.sensible (hcurrent.owned hown)

/-- Looking up or creating a context for a goal that makes sense. -/
theorem proceeding_lookupOrCreateContext {group : GroupId} {required : PlanRequirement}
    (h : memo.Sensible schemas) (hknown : group.index < memo.groups.size)
    (hasked : memo.Asks schemas group required.order.spec required.distribution.spec) :
    Post (Planning.lookupOrCreateContext group required stage) memo
      (fun found final => memo.Proceeds schemas final ∧
        ∃ context, final.context? found.1 = some context ∧ context.group = memo.master group)
      (fun _ _ => False) := by
  refine (Post.contextFor h.wellFormed h.entries hknown).mono ?_ (fun _ _ hfail => hfail)
  rintro found final ⟨looked, hsame, hfinal, context, hcontext, hgoal⟩
  refine ⟨?_, context, hcontext, congrArg Prod.fst hgoal⟩
  have hlooked := h.stored hsame.stores
  rcases hfinal with rfl | rfl
  · exact hlooked
  · refine hlooked.trans (hlooked.sensible.addContext ?_ ?_)
    · exact Nat.lt_of_lt_of_le (h.wellFormed.masterKnown group hknown) hlooked.groups_size
    · exact (hasked.congr (congrArg Schema.columns (h.models.linked group))).mono hlooked.exprs

/-- A run of the optimizer on a known group, by induction on the depth of the calls. -/
theorem asksSensibly_optimizeGroup {fuel : Nat} {parent : Option ExprId} {path : List ContextId} :
    AsksSensibly schemas (planner.optimizeGroup stage fuel parent path) := by
  induction fuel generalizing parent path with
  | zero => exact fun memo group required h _ _ => Post.throw (.refl h)
  | succ fuel ih =>
      intro memo group required h hknown hasked
      unfold optimizeGroup
      refine Post.bind (Post.checkAbort (fun _ => ?_) fun _ => .refl h)
      refine (Post.resolve hknown).andThen (fun _ _ hfail => hfail.elim) ?_
      rintro _ looked ⟨rfl, hsame⟩
      have hlooked := h.stored hsame.stores
      have hmaster := h.wellFormed.linksEnd.master_master group
      refine (proceeding_lookupOrCreateContext hlooked.sensible ?_ ?_).andThen
        (fun _ _ hfail => hfail.elim) ?_
      · exact Nat.lt_of_lt_of_le (h.wellFormed.masterKnown group hknown) hlooked.groups_size
      · exact (hasked.congr (congrArg Schema.columns (h.models.linked group))).mono hlooked.exprs
      rintro ⟨own, created⟩ found ⟨hfound, hown⟩
      rw [hsame.master h.wellFormed.linksEnd, hmaster] at hown
      have hfound := hlooked.trans hfound
      refine Proceeding.after hfound ?_
      refine Proceeding.bind (.quiet hfound.sensible Planning.keeps_context) fun context seen hseen => ?_
      split
      · exact Proceeding.pure hseen.sensible
      have hmarks (state : ContextState) : Keeps (Memo.StaysSensible schemas)
          (modify (·.modifyContext own fun context => { context with state })) :=
        Optimizer.Note.keeps_modifyContext fun _ => rfl
      refine Proceeding.bind (.store hseen.sensible (hmarks .optimizing)) fun _ marked hmarked => ?_
      refine Proceeding.bind (.quiet hmarked.sensible Planning.keeps_group) fun entered current hcurrent => ?_
      have hown := ((hseen.trans hmarked).trans hcurrent).owned hown
      refine Proceeding.bind (Proceeding.forM hcurrent.sensible fun level _ visited hvisited => ?_)
        fun _ last hlast => ?_
      · refine proceeding_visitAlternatives hvisited.sensible (hvisited.owned hown)
          fun current id hcurrent hid hown => ?_
        exact proceeding_visitAlternative (fun id => ih) hcurrent hid hown
      · exact Proceeding.bind (.store hlast.sensible (hmarks .optimized))
          fun _ _ hdone => Proceeding.pure hdone.sensible

/-- A run of the optimizer keeps a memo sensible, however it ends. -/
theorem proceeding_optimize {group : GroupId} {required : PlanRequirement}
    (h : memo.Sensible schemas)
    (hasked : memo.Asks schemas group required.order.spec required.distribution.spec) :
    Proceeding schemas (planner.optimize stage group required) memo := by
  by_cases hknown : group.index < memo.groups.size
  · exact Proceeding.bind (asksSensibly_optimizeGroup memo group required h hknown hasked)
      fun _ _ hfinal => .quiet hfinal.sensible (Keeps.bind Planning.keeps_context fun _ => Keeps.pure)
  · refine (optimizeGroup_unknown (Nat.le_of_not_lt hknown)).andThen ?_ (fun _ _ hok => hok.elim)
    rintro _ final rfl
    exact .refl h

end Planner

end QueryPlanner
