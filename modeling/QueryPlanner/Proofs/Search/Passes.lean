import QueryPlanner.Proofs.Memo.Reachable
import QueryPlanner.Proofs.Search.Steps

/-!
# The steps of exploration and implementation

Exploration and implementation look around, note which groups they visited and which rules they
applied, and insert what the rules answer. A relation of the states of a search that allows for these
steps holds between the state before and the one after, however the computation ends
(`Planner.keeps_exploreGroup`, `Planner.keeps_implementGroup`). A rule is only started as long as
rules may be applied to some more trees (`Planner.Fires`).
-/

namespace QueryPlanner

open Memo (SameContent)
open Planning (Keeps Post)

namespace Memo

variable {memo memo' : Memo}

/-- The names of the rules that were applied to an alternative. -/
def applied (memo : Memo) (id : ExprId) : List String :=
  ((memo.expr? id).map (·.appliedRules)).getD []

/-- The memos have the same content, and no rule was applied in between. -/
structure Observes (memo memo' : Memo) : Prop where
  same : SameContent memo memo'
  applied : ∀ id, memo'.applied id = memo.applied id

theorem applied_of_exprs (h : memo'.exprs = memo.exprs) (id : ExprId) :
    memo'.applied id = memo.applied id := by
  unfold applied expr?
  rw [h]

theorem exprs_compress (id : GroupId) : (memo.compress id).exprs = memo.exprs := by
  unfold compress
  exact List.foldlRecOn (motive := fun current : Memo => current.exprs = memo.exprs) _ _ rfl
    fun _ hcurrent _ _ => hcurrent

namespace Observes

protected theorem refl (memo : Memo) : memo.Observes memo := ⟨.refl memo, fun _ => rfl⟩

protected theorem trans {memo'' : Memo} (h : memo.Observes memo') (h' : memo'.Observes memo'') :
    memo.Observes memo'' :=
  ⟨h.same.trans h'.same, fun id => (h'.applied id).trans (h.applied id)⟩

instance : Glancing Observes where
  refl := .refl
  trans _ _ _ := .trans
  compressed _ id := ⟨sameContent_compress id, applied_of_exprs (exprs_compress id)⟩

theorem modifyGroup {id : GroupId} {change : Group → Group} (hsame : SameContent memo
    (memo.modifyGroup id change)) : memo.Observes (memo.modifyGroup id change) :=
  ⟨hsame, applied_of_exprs rfl⟩

theorem modifyExpr {id : ExprId} {change : MemoExpr → MemoExpr}
    (hcontent : ∀ expr, (change expr).content = expr.content)
    (happlied : ∀ expr, (change expr).appliedRules = expr.appliedRules) :
    memo.Observes (memo.modifyExpr id change) := by
  refine ⟨sameContent_modifyExpr hcontent, fun other => ?_⟩
  unfold Memo.applied
  rw [expr?_modifyExpr]
  split
  · rw [Option.map_map]
    congr 2
    funext expr
    exact happlied expr
  · rfl

end Observes

/-- A relation of memos that allows for glances and for inserting operators that are no enforcers. -/
class Filling (R : Memo → Memo → Prop) : Prop extends Std.Refl R, IsTrans Memo R where
  observed : ∀ memo memo', memo.Observes memo' → R memo memo'
  inserted : ∀ {op children target origin}, op.isEnforcer = false →
    Keeps R (Planning.insert op children target origin)

instance Filling.glancing {R : Memo → Memo → Prop} [Filling R] : Glancing R where
  compressed memo id := observed memo _ (Glancing.compressed memo id)

end Memo

/-! ## Inserting what rules answer -/

namespace Planning

variable {R : Memo → Memo → Prop} [Memo.Filling R]

/-- An enforcer has no group of its own, so inserting it without a target leaves the memo. -/
theorem keeps_insertNew {op : Operator} {children : List GroupId} {origin : Option Origin} :
    Keeps R (Planning.insert op children none origin) := by
  cases hop : op.isEnforcer with
  | false => exact Memo.Filling.inserted hop
  | true =>
      intro memo
      have hphysical : op.isPhysical = true := by
        cases op <;> first | rfl | simp [Operator.isEnforcer] at hop
      refine (Post.insert_fails fun hvalid => ?_).mono (fun _ _ hok => hok.elim)
        (fun _ _ hfinal => hfinal ▸ Std.Refl.refl _)
      simpa using hvalid.physical hphysical

mutual

/-- The group of a child of a result, by recursion on the child. -/
theorem keeps_childGroup (origin : Origin) :
    (child : RuleChild) → Keeps R (Planning.childGroup origin child)
  | .group _ => by
      unfold Planning.childGroup
      exact keeps_resolve
  | .new op children => by
      unfold Planning.childGroup
      refine Keeps.bind (keeps_childGroups origin children) fun groups => ?_
      exact Keeps.bind keeps_insertNew fun _ => Keeps.pure

/-- The groups of the children of a result. -/
theorem keeps_childGroups (origin : Origin) :
    (children : List RuleChild) → Keeps R (Planning.childGroups origin children)
  | [] => by
      unfold Planning.childGroups
      exact Keeps.pure
  | child :: rest => by
      unfold Planning.childGroups
      refine Keeps.bind (keeps_childGroup origin child) fun group => ?_
      exact Keeps.bind (keeps_childGroups origin rest) fun _ => Keeps.pure

end

theorem keeps_insertResult {group : GroupId} {origin : Origin} {result : RuleResult}
    (hplain : result.op.isEnforcer = false) :
    Keeps R (Planning.insertResult group origin result) :=
  Keeps.bind (keeps_childGroups origin result.children) fun _ => Memo.Filling.inserted hplain

end Planning

namespace Rule

/-- The rule answers no enforcers. -/
def IsPlain (rule : Rule) : Prop :=
  ∀ memo bound, ∀ result ∈ rule.apply memo bound, result.op.isEnforcer = false

/-- An implementation of logical operators by operators that are no enforcers. -/
theorem isPlain_implementing {name kind : String} {arity : Nat}
    {implement : LogicalOperator → List PhysicalOperator}
    (h : ∀ op, ∀ found ∈ implement op, found.isEnforcer = false) :
    (implementing name kind arity implement).IsPlain := by
  intro memo bound result hresult
  obtain ⟨found, hfound, rfl⟩ := List.mem_map.mp hresult
  cases hop : bound.op?.bind (·.logical?) with
  | none => simp [hop] at hfound
  | some op => exact h op found (by simpa [hop] using hfound)

/-- The transformations answer logical operators. -/
theorem isPlain_joinCommutativity : joinCommutativity.IsPlain := by
  intro memo bound result hresult
  unfold joinCommutativity at hresult
  dsimp only at hresult
  split at hresult
  · obtain rfl := List.mem_singleton.mp hresult
    rfl
  · simp at hresult

theorem isPlain_joinAssociativity : joinAssociativity.IsPlain := by
  intro memo bound result hresult
  unfold joinAssociativity at hresult
  dsimp only at hresult
  have hreassociated {upper lower : Scalar} {stay moved last : GroupId}
      (h : reassociate? memo upper lower stay moved last = some result) :
      result.op.isEnforcer = false := by
    unfold reassociate? at h
    dsimp only at h
    split at h
    · simp at h
    · obtain rfl := Option.some.inj h
      rfl
  split at hresult
  · split at hresult
    · rcases List.mem_append.mp hresult with h | h <;>
        exact hreassociated (Option.mem_toList.mp h)
    · simp at hresult
  · simp at hresult

theorem isPlain_predicatePushdown : predicatePushdown.IsPlain := by
  intro memo bound result hresult
  unfold predicatePushdown at hresult
  dsimp only at hresult
  split at hresult
  · split at hresult
    · obtain rfl := List.mem_singleton.mp hresult
      rfl
    · simp at hresult
  · simp at hresult

theorem isPlain_hashJoin : hashJoin.IsPlain := by
  intro memo bound result hresult
  unfold hashJoin at hresult
  dsimp only at hresult
  split at hresult
  · split at hresult
    · simp at hresult
    · obtain rfl := List.mem_singleton.mp hresult
      rfl
  · simp at hresult

end Rule

/-- No rule answers enforcers. -/
theorem standardRules_isPlain : ∀ rule ∈ standardRules, rule.IsPlain := by
  intro rule hrule
  simp only [standardRules, List.mem_cons, List.not_mem_nil, or_false] at hrule
  rcases hrule with rfl | rfl | rfl | rfl | rfl | rfl | rfl | rfl | rfl | rfl
  · exact Rule.isPlain_joinCommutativity
  · exact Rule.isPlain_joinAssociativity
  · exact Rule.isPlain_predicatePushdown
  · refine Rule.isPlain_implementing fun op found hfound => ?_
    cases op <;> simp_all [PhysicalOperator.isEnforcer, PhysicalOperator.enforcerKind?]
  · refine Rule.isPlain_implementing fun op found hfound => ?_
    cases op <;> simp at hfound
    obtain ⟨index, _, rfl⟩ := hfound
    rfl
  · refine Rule.isPlain_implementing fun op found hfound => ?_
    obtain rfl := List.mem_singleton.mp hfound
    rfl
  · exact Rule.isPlain_hashJoin
  · intro memo bound result hresult
    obtain rfl := List.mem_singleton.mp hresult
    rfl
  · refine Rule.isPlain_implementing fun op found hfound => ?_
    cases op <;> simp_all [PhysicalOperator.isEnforcer, PhysicalOperator.enforcerKind?]
  · refine Rule.isPlain_implementing fun op found hfound => ?_
    cases op <;> simp_all [PhysicalOperator.isEnforcer, PhysicalOperator.enforcerKind?]

/-! ## The steps -/

namespace SearchState

/-- The state with another memo. -/
def withMemo (state : SearchState) (memo : Memo) : SearchState := { state with memo }

/-- The state after a rule was started on an alternative. -/
def started (state : SearchState) (id : ExprId) (rule : Rule) : SearchState :=
  { state with
    memo := state.memo.modifyExpr id fun expr =>
      { expr with appliedRules := rule.name :: expr.appliedRules }
    stageApplications := state.stageApplications + 1 }

/-- The state after it was noted that a rule was applied to an alternative. -/
def marked (state : SearchState) (id : ExprId) (rule : Rule) : SearchState :=
  { state with
    memo := state.memo.modifyExpr id fun expr =>
      { expr with appliedRules := rule.name :: expr.appliedRules } }

/-- The states differ in their memos, which are related. -/
def Beside (R : SearchState → SearchState → Prop) (state : SearchState) (memo memo' : Memo) : Prop :=
  R (state.withMemo memo) (state.withMemo memo')

end SearchState

open SearchState (Beside)

/-- A relation of the states of a search that allows for looking around, for visits and for starting
rules. -/
class Searching.Stepping (R : SearchState → SearchState → Prop) : Prop
    extends Std.Refl R, IsTrans SearchState R where
  observed : ∀ state memo memo', memo.Observes memo' → Beside R state memo memo'
  visited : ∀ (state : SearchState) id, id ∉ state.visited →
    R state { state with visited := id :: state.visited }
  started : ∀ (state : SearchState) id (rule : Rule), (state.memo.expr? id).isSome →
    rule.name ∉ state.memo.applied id → R state (state.started id rule)

/-- A relation of the states of a search that allows for the steps of an exploration other than
inserting what rules answer. -/
class Searching.Filling (R : SearchState → SearchState → Prop) : Prop
    extends Searching.Stepping R where
  counted : ∀ state : SearchState, R state { state with iterations := state.iterations + 1 }

/-- A relation of the states of a search that allows for the steps of an implementation other than
applying rules to trees. -/
class Searching.Marking (R : SearchState → SearchState → Prop) : Prop
    extends Searching.Stepping R where
  marked : ∀ (state : SearchState) id (rule : Rule), R state (state.marked id rule)

namespace Searching

open Searching.Stepping

variable {R : SearchState → SearchState → Prop} [Searching.Stepping R]

omit [Searching.Stepping R] in
theorem keeps_onMemo {α : Type} {action : Planning α}
    (h : ∀ state, Keeps (Beside R state) action) : Keeps R (onMemo action) := fun state =>
  post_onMemo (h state state.memo)

theorem keeps_observe {α : Type} {action : Planning α} (h : Keeps Memo.Observes action) :
    Keeps R (onMemo action) :=
  keeps_onMemo fun state => h.mono (observed state)

theorem keeps_visit {id : GroupId} : Keeps R (visit id) := by
  refine Keeps.getThen fun state => ?_
  split
  · exact Post.pure (Std.Refl.refl state)
  · rename_i hnew
    exact Post.bind (Post.modify (Post.pure (visited state id (by simpa using hnew))))

theorem keeps_setPhase {id : GroupId} {phase : Phase} : Keeps R (setPhase id phase) :=
  keeps_observe (Keeps.modify fun _ =>
    .modifyGroup (Memo.sameContent_modifyGroup (fun _ => rfl) (fun _ => rfl)))

/-- Whether a rule was applied is looked up among what was applied. -/
theorem post_wasApplied {id : ExprId} {rule : Rule} {state : SearchState} :
    Post (wasApplied id rule) state
      (fun answer final => final = state ∧ (state.memo.expr? id).isSome ∧
        answer = decide (rule.name ∈ state.memo.applied id))
      (fun _ final => final = state ∧ state.memo.expr? id = none) := by
  refine post_onMemo (Post.bind (Post.expr (fun expr hexpr => ?_) fun hnone => ⟨rfl, hnone⟩))
  exact Post.pure ⟨rfl, by simp [hexpr], by simp [Memo.applied, hexpr]⟩

/-- Passes repeated until they settle, by induction on their number. -/
theorem keeps_repeatPasses {pass : Searching PassOutcome} (h : Keeps R pass) {fuel : Nat} :
    Keeps R (repeatPasses pass fuel) := by
  induction fuel with
  | zero => exact Keeps.throw
  | succ fuel ih =>
      refine Keeps.bind h fun outcome => ?_
      cases outcome with
      | stopped | settled => exact Keeps.pure
      | progressed => exact ih

end Searching

/-! ## Exploration -/

namespace Planner

open Searching

variable {R : SearchState → SearchState → Prop} {planner : Planner} {rule : Rule} {rules : List Rule}
  {limits : StageLimits} {source : ExprId} {group : GroupId}

theorem keeps_applyRule [Searching.Filling R] (hplain : rule.IsPlain)
    (hbeside : ∀ state, Memo.Filling (Beside R state)) {bound : BoundExpr} :
    Keeps R (planner.applyRule rule source group bound) := by
  unfold applyRule
  refine Keeps.bind (keeps_observe Planning.keeps_checkAbort) fun _ => ?_
  refine Keeps.bind (Keeps.modify Searching.Filling.counted) fun _ => ?_
  refine Keeps.bind Keeps.get fun state => ?_
  refine Keeps.foldlM fun found result hresult => ?_
  refine Keeps.bind (keeps_onMemo fun current => ?_) fun _ => Keeps.pure
  have := hbeside current
  exact Planning.keeps_insertResult (hplain state.memo bound result hresult)

theorem observes_bindExpr {pattern : Pattern} {limit : Option Nat} :
    Keeps Memo.Observes (Planning.bindExpr pattern source limit) :=
  Keeps.bind Planning.keeps_expr fun _ =>
    Keeps.getThen fun _ => Post.bind (Post.set (Post.pure Memo.Glancing.compressedAll))

/-- The relation allows for applying the rule to all trees at an alternative, as long as the rules may
be applied to some more trees. -/
def Fires (planner : Planner) (R : SearchState → SearchState → Prop) (rule : Rule) : Prop :=
  ∀ source group state, state.iterations < planner.config.maxIterations →
    Post (planner.fire rule source group) state (fun _ => R state) fun _ => R state

theorem fires_of_isPlain [Searching.Filling R] (hplain : rule.IsPlain)
    (hbeside : ∀ state, Memo.Filling (Beside R state)) : planner.Fires R rule := by
  intro source group state _
  suffices hkeeps : Keeps R (planner.fire rule source group) from hkeeps state
  unfold fire
  refine Keeps.bind (keeps_observe observes_bindExpr) fun trees => Keeps.foldlM fun found bound _ => ?_
  exact Keeps.bind (keeps_applyRule hplain hbeside) fun _ => Keeps.pure

/-- The budget of rules that are applied to trees is not used up when exploration goes on. -/
theorem iterations_lt_of_mayExplore {state : SearchState} (h : planner.mayExplore limits state = true) :
    state.iterations < planner.config.maxIterations := by
  simp only [mayExplore, Bool.and_eq_true, decide_eq_true_eq] at h
  exact h.1.1

/-- What comes after starting a rule. -/
theorem Fires.andThen {β : Type} [IsTrans SearchState R] (hfires : planner.Fires R rule)
    {state started : SearchState} (hstarted : R state started)
    (hbelow : started.iterations < planner.config.maxIterations) {next : Bool → Searching β}
    (hnext : ∀ inserted, Keeps R (next inserted)) :
    Post (planner.fire rule source group >>= next) started (fun _ => R state) fun _ => R state :=
  (hfires source group started hbelow).andThen
    (fun _ _ hfail => IsTrans.trans _ _ _ hstarted hfail) fun inserted middle hmiddle =>
      have hfired := IsTrans.trans _ _ _ hstarted hmiddle
      (hnext inserted middle).mono (fun _ _ hfinal => IsTrans.trans _ _ _ hfired hfinal)
        fun _ _ hfinal => IsTrans.trans _ _ _ hfired hfinal

section Exploration

variable [Searching.Stepping R]

/-- Transformation rules started on an alternative, by induction on the rules. -/
theorem keeps_transform (hfires : ∀ rule ∈ rules, planner.Fires R rule) {progressed : Bool} :
    Keeps R (planner.transform limits source group rules progressed) := by
  induction rules generalizing progressed with
  | nil => exact Keeps.pure
  | cons rule rest ih =>
      obtain ⟨hrule, hrest⟩ := List.forall_mem_cons.mp hfires
      intro state
      unfold transform
      refine post_wasApplied.andThen (fun _ _ hfail => hfail.1 ▸ Std.Refl.refl _) ?_
      rintro applied _ ⟨rfl, hknown, rfl⟩
      split
      · exact ih hrest _
      · rename_i hnew
        refine Post.bind (Post.get ?_)
        split
        · rename_i hmay
          refine Post.bind (post_onMemo (Post.modify (Post.bind (Post.modify ?_))))
          have hstarted := Searching.Stepping.started (R := R) _ source rule hknown
            (by simpa using hnew)
          have hbelow := iterations_lt_of_mayExplore hmay
          exact hrule.andThen hstarted hbelow fun _ => ih hrest
        · exact Post.pure (Std.Refl.refl _)

theorem keeps_explorePass (hfires : ∀ rule ∈ rules, planner.Fires R rule)
    {explore : GroupId → Searching Unit} (hexplore : ∀ child, Keeps R (explore child))
    {ids : List ExprId} {progressed : Bool} :
    Keeps R (planner.explorePass limits rules explore group ids progressed) := by
  induction ids generalizing progressed with
  | nil => exact Keeps.pure
  | cons id rest ih =>
      unfold explorePass
      refine Keeps.bind (keeps_observe Planning.keeps_expr) fun expr => ?_
      split
      · refine Keeps.bind (Keeps.forM fun child _ => hexplore child) fun _ => ?_
        refine Keeps.bind (keeps_transform hfires) fun outcome => ?_
        split
        · exact Keeps.pure
        · exact Keeps.bind (keeps_observe (Keeps.modify fun _ =>
            .modifyExpr (fun _ => rfl) fun _ => rfl)) fun _ => ih
      · exact ih

/-- Exploring a group, by induction on the depth of the calls. -/
theorem keeps_exploreGroup (hfires : ∀ rule ∈ rules, planner.Fires R rule) {fuel : Nat} {id : GroupId} :
    Keeps R (planner.exploreGroup limits rules fuel id) := by
  induction fuel generalizing id with
  | zero => exact Keeps.throw
  | succ fuel ih =>
      unfold exploreGroup
      refine Keeps.bind (keeps_observe Planning.keeps_resolve) fun id => ?_
      refine Keeps.bind keeps_visit fun first => ?_
      split
      · refine Keeps.bind (keeps_observe Planning.keeps_group) fun group => ?_
        refine Keeps.bind keeps_setPhase fun _ => ?_
        refine Keeps.bind (keeps_repeatPasses ?_) fun settled => keeps_setPhase
        refine Keeps.bind (keeps_observe Planning.keeps_checkAbort) fun _ => ?_
        exact Keeps.bind Keeps.get fun state => keeps_explorePass hfires fun _ => ih
      · exact Keeps.pure

end Exploration

/-! ## Implementation -/

section Implementation

variable [Searching.Marking R]

theorem keeps_wasApplied {id : ExprId} : Keeps R (wasApplied id rule) :=
  keeps_observe (Keeps.bind Planning.keeps_expr fun _ => Keeps.pure)

/-- Implementation rules started on an alternative, by induction on the rules. -/
theorem keeps_implementExpr (hfires : ∀ rule ∈ rules, planner.Fires R rule) :
    Keeps R (planner.implementExpr source group rules) := by
  induction rules with
  | nil => exact Keeps.pure
  | cons rule rest ih =>
      obtain ⟨hrule, hrest⟩ := List.forall_mem_cons.mp hfires
      unfold implementExpr
      refine Keeps.bind keeps_wasApplied fun applied => ?_
      split
      · exact ih hrest
      · refine Keeps.getThen fun state => ?_
        split
        · rename_i hbelow
          refine Post.bind (post_onMemo (Post.modify ?_))
          exact hrule.andThen (Searching.Marking.marked state source rule) hbelow fun _ => ih hrest
        · exact Post.pure (Std.Refl.refl _)

theorem keeps_implementPass (hfires : ∀ rule ∈ rules, planner.Fires R rule)
    {implement : GroupId → Searching Unit} (himplement : ∀ child, Keeps R (implement child))
    {ids : List ExprId} : Keeps R (planner.implementPass rules implement group ids) := by
  induction ids with
  | nil => exact Keeps.pure
  | cons id rest ih =>
      unfold implementPass
      refine Keeps.bind (keeps_observe Planning.keeps_checkAbort) fun _ => ?_
      refine Keeps.bind (keeps_observe Planning.keeps_expr) fun expr => ?_
      split
      · refine Keeps.bind (Keeps.forM fun child _ => himplement child) fun _ => ?_
        refine Keeps.bind (keeps_observe Planning.keeps_expr) fun again => ?_
        split
        · exact ih
        · refine Keeps.bind (keeps_implementExpr hfires) fun lasted => ?_
          split
          · exact Keeps.bind (keeps_observe (Keeps.modify fun _ =>
              .modifyExpr (fun _ => rfl) fun _ => rfl)) fun _ => ih
          · exact Keeps.pure
      · exact ih

/-- Implementing a group, by induction on the depth of the calls. -/
theorem keeps_implementGroup (hfires : ∀ rule ∈ rules, planner.Fires R rule) {fuel : Nat}
    {id : GroupId} : Keeps R (planner.implementGroup rules fuel id) := by
  induction fuel generalizing id with
  | zero => exact Keeps.throw
  | succ fuel ih =>
      unfold implementGroup
      refine Keeps.bind (keeps_observe Planning.keeps_resolve) fun id => ?_
      refine Keeps.bind keeps_visit fun first => ?_
      split
      · refine Keeps.bind keeps_setPhase fun _ => ?_
        refine Keeps.bind Keeps.get fun state => ?_
        refine Keeps.bind (keeps_implementPass hfires fun _ => ih) fun lasted => ?_
        split
        · exact keeps_setPhase
        · exact Keeps.pure
      · exact Keeps.pure

end Implementation

end Planner

end QueryPlanner
