import QueryPlanner.Proofs.Meaning.Kind
import QueryPlanner.Proofs.Search.Ending

/-!
# Explorations reach a fixpoint of the rules

An exploration ends, and starts no rule twice on an alternative. When nothing disturbs it, the groups
below the root are closed under the rules afterwards (`Memo.Closed`): whatever a rule answers for a
tree there is already known. Then exploring again starts no rule (`Planner.idles_exploreGroup`).
-/

namespace QueryPlanner

open Memo (SameContent)
open Planning (Keeps Post exec)

namespace Memo

variable {memo memo' : Memo} {rules : List Rule} {group : GroupId} {id : ExprId} {rule : Rule}

/-- Whatever the rules answer for the trees at the logical alternatives of a group can be inserted
again and is not new. -/
def Closed (memo : Memo) (rules : List Rule) (group : GroupId) : Prop :=
  ∀ id ∈ memo.alternativesOf group, ∀ expr, memo.expr? id = some expr → expr.op.isLogical = true →
    ∀ rule ∈ rules, ∃ trees, memo.Enumerates rule.pattern [id] trees ∧
      (exec (Planning.bindExpr rule.pattern id none) memo).1 = .ok trees ∧
      ∀ bound ∈ trees, ∀ result ∈ rule.apply memo bound, ∀ origin,
        Post (Planning.insertResult group origin result) memo
          (fun outcome final => outcome.isNew = false ∧ SameContent memo final) fun _ _ => False

/-- All rules were applied to the logical alternatives of the groups below a group. -/
def Exhausted (memo : Memo) (rules : List Rule) (root : GroupId) : Prop :=
  ∀ group, Relation.ReflTransGen memo.LeadsDown root group → ∀ id ∈ memo.alternativesOf group,
    ∀ expr, memo.expr? id = some expr → expr.op.isLogical = true →
      ∀ rule ∈ rules, rule.name ∈ memo.applied id

/-- Listing the trees at an alternative for a rule that has nothing left to do there. -/
theorem Saturated.exists_trees (h : memo.Saturated rule group id) (hattainable : memo.Attainable)
    (hacyclic : memo.Acyclic) (htransforms : rule.pattern.Transforms) (hid : (memo.expr? id).isSome) :
    ∃ trees, memo.Enumerates rule.pattern [id] trees ∧
      (exec (Planning.bindExpr rule.pattern id none) memo).1 = .ok trees ∧
      ∀ bound ∈ trees, ∀ result ∈ rule.apply memo bound, memo.Knows group result := by
  obtain ⟨trees, htrees, hlisted⟩ := (hattainable.bind_enumerates htransforms.isLeaf).1 id
    ((expr?_isSome id).mp hid) fun _ lower _ _ => hacyclic lower
  refine ⟨trees, htrees, hlisted none, ?_⟩
  obtain ⟨others, hothers, hknows⟩ := h
  obtain rfl : others = trees := (List.append_nil others).symm.trans (htrees.only _ (.cons hothers .nil))
  exact hknows

theorem Catalogued.scalarsAreLeaves (h : memo.Catalogued) : memo.ScalarsAreLeaves :=
  fun _ _ hexpr hscalar => h.scalar_children hexpr hscalar

end Memo

/-! ## Undisturbed explorations -/

namespace SearchState

variable {state : SearchState} {rules : List Rule}

/-- No group was visited yet, and no rule was started. -/
structure Fresh (state : SearchState) : Prop where
  visited : state.visited = []
  applied : ∀ id, state.memo.applied id = []

theorem Fresh.exploring (h : state.Fresh) (hattainable : state.memo.Attainable) :
    state.Exploring rules [] where
  attainable := hattainable
  known group hgroup := by simp [h.visited] at hgroup
  within := List.nil_subset _
  sound id expr _ rule _ hname := by simp [h.applied id] at hname
  complete group hgroup := by simp [Complete, h.visited] at hgroup

end SearchState

namespace Planner

open Searching

variable {planner : Planner} {limits : StageLimits} {rules : List Rule} {state final : SearchState}
  {root : GroupId} {fuel : ℕ}

/-- The exploration of a group leaves the groups below it complete. -/
theorem complete_of_explored (hrules : Transformations rules) (hfresh : state.Fresh)
    (hattainable : state.memo.Attainable)
    (hexec : exec (planner.exploreGroup limits rules fuel root) state = (.ok (), final))
    (hquiet : planner.Undisturbed limits state final) :
    final.Exploring rules [] ∧ ∀ group,
      Relation.ReflTransGen final.memo.LeadsDown (final.memo.master root) group →
        final.Complete [] group := by
  have hcompletes : planner.Completes limits rules [] (planner.exploreGroup limits rules fuel) :=
    completes_exploreGroup hrules
  obtain ⟨_, hensured⟩ :=
    (hcompletes state root (hfresh.exploring hattainable) (by simp)).of_ok hexec
  obtain ⟨hexploring, hcomplete, -⟩ := hensured hquiet
  refine ⟨hexploring, fun group hbelow => ?_⟩
  rw [hquiet.masters] at hbelow
  induction hbelow with
  | refl => exact hcomplete
  | tail _ hstep ih => exact hexploring.down hquiet.leaves ih hstep

/-- The groups below an explored group are closed under the rules, and nothing is left to start. -/
theorem closed_of_explored (hrules : Transformations rules) (hfresh : state.Fresh)
    (hattainable : state.memo.Attainable)
    (hexec : exec (planner.exploreGroup limits rules fuel root) state = (.ok (), final))
    (hquiet : planner.Undisturbed limits state final) :
    (∀ group, Relation.ReflTransGen final.memo.LeadsDown (final.memo.master root) group →
      final.memo.Closed rules group) ∧ final.memo.Exhausted rules (final.memo.master root) := by
  obtain ⟨hexploring, hcomplete⟩ := complete_of_explored hrules hfresh hattainable hexec hquiet
  have hwell := hexploring.attainable.inOrder.1
  have hfinished (group : GroupId)
      (hbelow : Relation.ReflTransGen final.memo.LeadsDown (final.memo.master root) group)
      (id : ExprId) (hid : id ∈ final.memo.alternativesOf group) :=
    hexploring.complete group (hcomplete group hbelow) id hid
  refine ⟨fun group hbelow id hid expr hexpr hlogical rule hrule => ?_,
    fun group hbelow id hid expr hexpr hlogical =>
      (hfinished group hbelow id hid expr hexpr hlogical).1⟩
  have happlied := (hfinished group hbelow id hid expr hexpr hlogical).1 rule hrule
  obtain ⟨_, owned, howned, howner⟩ := hwell.owned hid
  obtain rfl := Option.some.inj (hexpr.symm.trans howned)
  obtain ⟨hsaturated, -⟩ := hexploring.sound id expr hexpr rule hrule happlied
  obtain ⟨trees, htrees, hlisted, hknows⟩ := hsaturated.exists_trees hexploring.attainable
    hquiet.acyclic (hrules.transforms rule hrule) (Option.isSome_of_eq_some hexpr)
  rw [howner] at hknows
  exact ⟨trees, htrees, hlisted, fun bound hbound result hresult _ =>
    Planning.Post.insertResult_known hwell (hknows bound hbound result hresult)⟩

/-! ## Exploring again -/

/-- The search looked around and noted visits. No rule was started. -/
structure Idles (state final : SearchState) : Prop where
  observes : state.memo.Observes final.memo
  iterations : final.iterations = state.iterations
  applications : final.stageApplications = state.stageApplications

theorem Idles.observed {current : SearchState} (h : Idles state current) {memo : Memo}
    (hobserves : current.memo.Observes memo) : Idles state (current.withMemo memo) :=
  ⟨h.observes.trans hobserves, h.iterations, h.applications⟩

/-- However the computation ends, the search has only looked around since a state. -/
def Rests {β : Type} (state : SearchState) (action : Searching β) : Prop :=
  ∀ current, Idles state current → Post action current (fun _ => Idles state) fun _ => Idles state

namespace Rests

variable {β γ : Type}

theorem pure {value : β} : Rests state (pure value : Searching β) := fun _ h => Post.pure h

theorem bind {action : Searching β} {next : β → Searching γ} (h : Rests state action)
    (hnext : ∀ value, Rests state (next value)) : Rests state (action >>= next) :=
  fun current hcurrent => (h current hcurrent).andThen (fun _ _ hfail => hfail)
    fun value middle hmiddle => hnext value middle hmiddle

theorem look {action : Planning β} (h : Keeps Memo.Observes action) : Rests state (onMemo action) :=
  fun current hcurrent => post_onMemo ((h current.memo).mono
    (fun _ _ hfinal => hcurrent.observed hfinal) fun _ _ hfail => hcurrent.observed hfail)

theorem forM {items : List γ} {body : γ → Searching PUnit}
    (h : ∀ item ∈ items, Rests state (body item)) : Rests state (items.forM body) :=
  fun _ hcurrent => Post.forM (Idles state) hcurrent h

theorem visit {id : GroupId} : Rests state (visit id) := fun _ hcurrent => by
  refine Post.bind (Post.get ?_)
  split
  · exact Post.pure hcurrent
  · exact Post.bind (Post.modify (Post.pure ⟨hcurrent.observes, hcurrent.iterations,
      hcurrent.applications⟩))

theorem setPhase {id : GroupId} {phase : Phase} : Rests state (setPhase id phase) :=
  look (Keeps.modify fun _ => .modifyGroup (Memo.sameContent_modifyGroup (fun _ => rfl) fun _ => rfl))

theorem repeatPasses {pass : Searching PassOutcome} (h : Rests state pass) {fuel : ℕ} :
    Rests state (repeatPasses pass fuel) := by
  induction fuel with
  | zero => exact fun _ hcurrent => Post.throw hcurrent
  | succ fuel ih =>
      refine bind h fun outcome => ?_
      cases outcome with
      | stopped | settled => exact pure
      | progressed => exact ih

/-- Rules that were all applied to an alternative are not started again. -/
theorem transform {source : ExprId} {group : GroupId} {progressed : Bool}
    (h : ∀ rule ∈ rules, rule.name ∈ state.memo.applied source) :
    Rests state (planner.transform limits source group rules progressed) := by
  induction rules generalizing progressed with
  | nil => exact pure
  | cons rule rest ih =>
      obtain ⟨hrule, hrest⟩ := List.forall_mem_cons.mp h
      intro current hcurrent
      unfold Planner.transform
      refine post_wasApplied.andThen (fun _ _ hfail => hfail.1 ▸ hcurrent) ?_
      rintro _ _ ⟨rfl, -, rfl⟩
      rw [hcurrent.observes.applied, decide_eq_true hrule]
      exact ih hrest _ hcurrent

theorem explorePass {explore : GroupId → Searching Unit} {group : GroupId} {ids : List ExprId}
    {progressed : Bool} (hexplore : ∀ id ∈ ids, ∀ expr, state.memo.expr? id = some expr →
      expr.op.isLogical = true → (∀ child ∈ expr.children, Rests state (explore child)) ∧
        ∀ rule ∈ rules, rule.name ∈ state.memo.applied id) :
    Rests state (planner.explorePass limits rules explore group ids progressed) := by
  induction ids generalizing progressed with
  | nil => exact pure
  | cons id rest ih =>
      obtain ⟨hid, hrest⟩ := List.forall_mem_cons.mp hexplore
      intro current hcurrent
      unfold Planner.explorePass
      refine Post.bind (post_onMemo (Post.expr (fun expr' hexpr' => ?_) fun _ => hcurrent))
      obtain ⟨expr, hexpr, hcontent⟩ := hcurrent.observes.same.exists_expr_before hexpr'
      have hchildren : expr'.children = expr.children := congrArg (·.children) hcontent
      split
      · rename_i hlogical
        rw [show expr'.op = expr.op from congrArg (·.op) hcontent] at hlogical
        obtain ⟨hbelow, happlied⟩ := hid expr hexpr hlogical
        rw [hchildren]
        refine (bind (forM hbelow) fun _ => bind (transform happlied) fun outcome => ?_) _ hcurrent
        split
        · exact pure
        · exact bind (look (Keeps.modify fun _ => .modifyExpr (fun _ => rfl) fun _ => rfl))
            fun _ => ih hrest
      · exact ih hrest _ hcurrent

end Rests

/-- Exploring groups below which nothing is left to start starts no rule, by induction on the depth of
the calls. -/
theorem rests_exploreGroup (hends : state.memo.LinksEnd) {id : GroupId}
    (h : state.memo.Exhausted rules (state.memo.master id)) :
    Rests state (planner.exploreGroup limits rules fuel id) := by
  induction fuel generalizing id with
  | zero => exact fun _ hcurrent => Post.throw hcurrent
  | succ fuel ih =>
      intro current hcurrent
      unfold exploreGroup
      have hobserves : Keeps Memo.Observes (Planning.resolve id) := Planning.keeps_resolve
      have hresolved : Post (onMemo (Planning.resolve id)) current
          (fun group looked => state.memo.master id = group ∧ Idles state looked)
          fun _ => Idles state := by
        refine post_onMemo (((hobserves current.memo).both Planning.Post.resolved).mono ?_
          fun _ _ hfail => hcurrent.observed hfail.1)
        rintro _ memo ⟨hlooked, rfl, -⟩
        exact ⟨(hcurrent.observes.same.master hends id).symm, hcurrent.observed hlooked⟩
      refine hresolved.andThen (fun _ _ hfail => hfail) ?_
      rintro _ looked ⟨rfl, hlooked⟩
      refine (Rests.visit.bind fun first => ?_) looked hlooked
      split
      · refine (Rests.look Planning.keeps_group).bind fun found => Rests.setPhase.bind fun _ =>
          (Rests.repeatPasses ((Rests.look Planning.keeps_checkAbort).bind fun _ => ?_)).bind
            fun settled => Rests.setPhase
        intro current hcurrent
        refine Post.bind (Post.get ((Rests.explorePass fun source hsource expr hexpr hlogical => ?_)
          current hcurrent))
        rw [hcurrent.observes.same.alternativesOf] at hsource
        refine ⟨fun child hchild => ih fun group hbelow => h group (.head ?_ hbelow),
          h _ .refl source hsource expr hexpr hlogical⟩
        exact ⟨source, hsource, expr, hexpr, Operator.isPhysical_of_isLogical hlogical, child, hchild,
          rfl⟩
      · exact Rests.pure

/-- The catalogue is kept in an exploration with transformations among the standard rules. -/
theorem catalogued_of_explored (hlisted : ∀ rule ∈ rules, rule ∈ standardRules)
    (h : state.memo.Catalogued) :
    (exec (planner.exploreGroup limits rules fuel root) state).2.memo.Catalogued := by
  obtain ⟨kinds, hmodels⟩ := h
  have hrun : Searching.Preserves Kind.reading kinds (planner.exploreGroup limits rules fuel root)
      state :=
    planner.preserves_exploreGroup (fun rule hrule => Kind.admitsRules.sound rule (hlisted rule hrule))
      hmodels
  obtain ⟨kinds', hgrows⟩ := hrun.exec_snd
  exact ⟨kinds', hgrows.models⟩

end Planner

/-! ## Memos that are written down -/

namespace Memo

variable {memo : Memo} {rules : List Rule} {group : GroupId} {id : ExprId} {rule : Rule}

/-- Whether whatever the rule answers for the trees at an alternative is inserted again and not new. -/
def repeats (memo : Memo) (rule : Rule) (group : GroupId) (id : ExprId) : Bool :=
  match (exec (Planning.bindExpr rule.pattern id none) memo).1 with
  | .ok trees => trees.all fun bound => (rule.apply memo bound).all fun result =>
    match (exec (Planning.insertResult group { rule := rule.name, source := id } result) memo).1 with
    | .ok outcome => !outcome.isNew
    | .error _ => false
  | .error _ => false

theorem Closed.repeats (h : memo.Closed rules group) (hrule : rule ∈ rules)
    (hid : id ∈ memo.alternativesOf group) (hlogical : (memo.op? id).any (·.isLogical) = true) :
    memo.repeats rule group id = true := by
  obtain ⟨op, hop, hlogical⟩ := (Option.any_eq_true _ _).mp hlogical
  obtain ⟨expr, hexpr, rfl⟩ := Option.map_eq_some_iff.mp hop
  obtain ⟨trees, -, hlisted, hknown⟩ := h id hid expr hexpr hlogical rule hrule
  unfold Memo.repeats
  rw [hlisted]
  refine List.all_eq_true.mpr fun bound hbound => List.all_eq_true.mpr fun result hresult => ?_
  obtain ⟨outcome, _, hexec, hnew, -⟩ | ⟨_, _, _, hfail⟩ :=
    (hknown bound hbound result hresult { rule := rule.name, source := id }).exists_exec
  · rw [hexec]
    simp [hnew]
  · exact hfail.elim

/-- No group is linked to another one. -/
def unlinked (memo : Memo) : Bool := memo.groups.all (·.duplicateOf.isNone)

/-- Groups without links are their own masters. -/
theorem WellFormed.master_of_unlinked (hwell : memo.WellFormed) (hunlinked : memo.unlinked = true)
    (id : GroupId) : memo.master id = id := by
  refine hwell.linksEnd.master_eq_self_iff.mpr ?_
  unfold link?
  cases hgroup : memo.group? id with
  | none => rfl
  | some group =>
      exact Option.isNone_iff_eq_none.mp
        (Array.all_eq_true'.mp hunlinked group (Array.mem_of_getElem? hgroup))

/-- No group comes below itself if all alternatives read groups of a lower rank. -/
theorem WellFormed.acyclic_of_rank (hwell : memo.WellFormed)
    (hunlinked : memo.unlinked = true) (rank : GroupId → ℕ) (h : memo.exprs.all (fun expr => expr.children.all fun child =>
      decide (rank child < rank expr.group)) = true) : memo.Acyclic := by
  have hstep (upper lower : GroupId) (hleads : memo.LeadsDown upper lower) :
      rank lower < rank upper := by
    obtain ⟨id, hid, expr, hexpr, -, child, hchild, rfl⟩ := hleads
    obtain ⟨_, owned, howned, rfl⟩ := hwell.owned hid
    obtain rfl := Option.some.inj (hexpr.symm.trans howned)
    rw [hwell.master_of_unlinked hunlinked]
    have hexpr := Array.all_eq_true'.mp h expr (Array.mem_of_getElem? hexpr)
    exact of_decide_eq_true (List.all_eq_true.mp hexpr child hchild)
  have hfalls (upper lower : GroupId) (hbelow : Relation.TransGen memo.LeadsDown upper lower) :
      rank lower < rank upper := by
    induction hbelow with
    | single hleads => exact hstep _ _ hleads
    | tail _ hleads ih => exact (hstep _ _ hleads).trans ih
  exact fun group hcycle => Nat.lt_irrefl _ (hfalls group group hcycle)

/-- The memo after operators were inserted one after the other, some of them into given groups. -/
def extended (memo : Memo) (items : List (Operator × List GroupId × Option GroupId)) : Memo :=
  items.foldl (fun memo (op, children, target) =>
    (exec (Planning.insert op children target none) memo).2) memo

theorem Attainable.extended (h : memo.Attainable)
    (items : List (Operator × List GroupId × Option GroupId)) : (memo.extended items).Attainable :=
  List.foldlRecOn _ _ h fun _ hcurrent _ _ => hcurrent.insert _ _ _ _

/-- The kind of a group by its properties. -/
def kind (memo : Memo) (id : GroupId) : Kind :=
  match memo.group? id with
  | some group => match group.properties with
    | .relation _ => .relation
    | .scalar _ => .condition
  | none => .relation

theorem WellFormed.catalogued (hwell : memo.WellFormed)
    (hunlinked : memo.unlinked = true) (h : memo.exprs.all (fun expr => decide
      (Kind.apply expr.op (expr.children.map memo.kind) = some (memo.kind expr.group))) = true) :
    memo.Catalogued := by
  refine ⟨memo.kind, hwell, fun id => ?_, fun id group hgroup => ?_, fun id expr hexpr => ?_⟩
  · rw [hwell.master_of_unlinked hunlinked]
  · unfold kind
    rw [hgroup]
    cases hproperties : group.properties <;> simp only [hproperties] <;> trivial
  · exact of_decide_eq_true (Array.all_eq_true'.mp h expr (Array.mem_of_getElem? hexpr))

/-- The scan of a table, for inserting it. -/
def scanOf (table : ℕ) : Operator × List GroupId × Option GroupId :=
  (.logical (.get (.single table)), [], none)

/-- The equality of two columns, for inserting it. -/
def equalityOf (left right : ℕ) : Operator × List GroupId × Option GroupId :=
  (.scalar (.predicate (.equate left right)), [], none)

/-- A join of groups, for inserting it. -/
def joinOf (children : List GroupId) (target : Option GroupId) :
    Operator × List GroupId × Option GroupId :=
  (.logical .innerJoin, children, target)

/-- A join of a join of two tables with a third one. -/
def threeJoined : Memo :=
  extended {} [scanOf 0, scanOf 1, equalityOf 0 1, joinOf [⟨0⟩, ⟨1⟩, ⟨2⟩] none, scanOf 2, equalityOf 1 2,
    joinOf [⟨3⟩, ⟨4⟩, ⟨5⟩] none]

end Memo

/-- No rule was started on alternatives without notes. -/
theorem SearchState.fresh_of_unmarked {memo : Memo}
    (h : memo.exprs.all (fun expr => expr.appliedRules.isEmpty) = true) :
    SearchState.Fresh { memo := memo } where
  visited := rfl
  applied id := by
    show memo.applied id = []
    unfold Memo.applied
    cases hexpr : memo.expr? id with
    | none => rfl
    | some expr =>
        exact List.isEmpty_iff.mp (Array.all_eq_true'.mp h expr (Array.mem_of_getElem? hexpr))

namespace Planner

/-- A planner with a budget that lasts for the explorations of a few tables. -/
def patient : Planner where
  model := .unit
  config := { maxIterations := 64, pruning := false }
  fuel := 64

/-- The exploration of a group with all transformations. -/
def transformed (root : GroupId) (memo : Memo) : Except PlanningError Unit × SearchState :=
  exec (patient.exploreGroup {} (standardRules.filter (·.kind == .transformation)) 64 root)
    { memo := memo }

theorem attainable_transformed {root : GroupId} {memo : Memo} (h : memo.Attainable) :
    (transformed root memo).2.memo.Attainable :=
  (proceeds_exploreGroup standardRules_transformations.plain { memo := memo }).exec_snd.attainable h

end Planner

/-- Take the exploration of a group of a memo over the catalogue with the transformations among the
standard rules. Whatever its budgets are, it ends: with enough fuel for passes and calls it succeeds,
and more fuel changes nothing. No rule is started on an alternative a second time, and every start is
noted. If no rule was started before, no groups are united, no group comes below itself afterwards and
the budgets have lasted, then the groups below the root are closed under the transformations
afterwards, and exploring the root again starts no rule. -/
theorem Memo.Attainable.explored_closed {state : SearchState} (h : state.memo.Attainable)
    (hcatalogued : state.memo.Catalogued) {root : GroupId}
    (hroot : root.index < state.memo.groups.size) {planner : Planner} (hgo : planner.aborted = false)
    (limits : StageLimits) :
    let rules := standardRules.filter (·.kind == .transformation)
    (∃ bound final, ∀ passes ≥ bound, ∀ calls ≥ bound,
      exec ((planner.withFuel passes).exploreGroup limits rules calls root) state = (.ok (), final)) ∧
    ∀ fuel outcome final, exec (planner.exploreGroup limits rules fuel root) state = (outcome, final) →
      ((∀ id, (state.memo.applied id).Nodup) → ∀ id, (final.memo.applied id).Nodup) ∧
      final.memo.marks + state.stageApplications = state.memo.marks + final.stageApplications ∧
      (outcome = .ok () → state.Fresh → (∀ id, final.memo.master id = state.memo.master id) →
        final.memo.Acyclic → planner.mayExplore limits final = true →
        (∀ group, Relation.ReflTransGen final.memo.LeadsDown (final.memo.master root) group →
          final.memo.Closed rules group) ∧
        ∀ (planner : Planner) limits fuel again, again.memo = final.memo →
          Planner.Idles again (exec (planner.exploreGroup limits rules fuel root) again).2) := by
  intro rules
  have hrules : Transformations rules := standardRules_transformations
  constructor
  · obtain ⟨bound, _, final, _, hexec⟩ := Planner.succeeds_exploreGroup hgo hrules h hroot
    exact ⟨bound, final, hexec⟩
  · intro fuel outcome final hexec
    have hproceeds : state.Proceeds (exec (planner.exploreGroup limits rules fuel root) state).2 :=
      (Planner.proceeds_exploreGroup hrules.plain state).exec_snd
    have hkept : (exec (planner.exploreGroup limits rules fuel root) state).2.memo.Catalogued :=
      Planner.catalogued_of_explored (fun _ => List.mem_of_mem_filter) hcatalogued
    rw [hexec] at hproceeds hkept
    refine ⟨hproceeds.once, hproceeds.marks, ?_⟩
    rintro rfl hfresh hmasters hacyclic hbudget
    obtain ⟨hclosed, hexhausted⟩ := Planner.closed_of_explored hrules hfresh h hexec
      ⟨hmasters, hacyclic, hkept.scalarsAreLeaves, hbudget⟩
    refine ⟨hclosed, fun planner limits fuel again hagain => ?_⟩
    have hends : again.memo.LinksEnd := hagain ▸ (hproceeds.attainable h).inOrder.1.linksEnd
    exact (Planner.rests_exploreGroup hends (hagain ▸ hexhausted) again ⟨.refl _, rfl, rfl⟩).exec_snd

/-- The exploration of a join of three tables is closed under the transformations. -/
theorem Memo.closed_threeJoined :
    (Planner.transformed ⟨6⟩ threeJoined).1 = .ok () ∧
      (Planner.transformed ⟨6⟩ threeJoined).2.memo.Closed
        (standardRules.filter (·.kind == .transformation)) ⟨6⟩ := by
  have hattainable : ({ memo := threeJoined } : SearchState).memo.Attainable :=
    Attainable.extended .empty _
  have hwell : threeJoined.WellFormed := hattainable.inOrder.1
  have hunlinked : threeJoined.unlinked = true := by decide +kernel
  have hfinal : (Planner.transformed ⟨6⟩ threeJoined).2.memo.WellFormed :=
    (Planner.attainable_transformed hattainable).inOrder.1
  have hunlinked' : (Planner.transformed ⟨6⟩ threeJoined).2.memo.unlinked = true := by
    decide +kernel
  have hacyclic : (Planner.transformed ⟨6⟩ threeJoined).2.memo.Acyclic :=
    hfinal.acyclic_of_rank hunlinked' (fun id => [0, 0, 0, 1, 0, 0, 2, 1].getD id.index 0)
      (by decide +kernel)
  have hsucceeds : (Planner.transformed ⟨6⟩ threeJoined).1.toOption.any (fun _ => true) = true := by
    decide +kernel
  obtain ⟨_, hok, -⟩ := Planning.exists_ok_of_any hsucceeds
  have hknown : (⟨6⟩ : GroupId).index < threeJoined.groups.size := by decide +kernel
  have hgo : Planner.patient.aborted = false := rfl
  obtain ⟨-, hruns⟩ := Attainable.explored_closed hattainable
    (hwell.catalogued hunlinked (by decide +kernel)) hknown hgo {}
  obtain ⟨-, -, hclosed⟩ := hruns 64 _ _ (Prod.ext hok rfl)
  refine ⟨hok, (hclosed rfl (SearchState.fresh_of_unmarked (by decide +kernel)) (fun id => ?_) hacyclic
    (by decide +kernel)).1 ⟨6⟩ ?_⟩
  · exact (hfinal.master_of_unlinked hunlinked' id).trans (hwell.master_of_unlinked hunlinked id).symm
  · show Relation.ReflTransGen _ ((Planner.transformed ⟨6⟩ threeJoined).2.memo.master ⟨6⟩) ⟨6⟩
    rw [hfinal.master_of_unlinked hunlinked']

/-! ## Explorations that do not reach a fixpoint -/

namespace Memo

variable {memo : Memo} {group : GroupId} {id : ExprId} {rule : Rule}

/-- The exploration of a group of a memo over the catalogue, in which no group comes below itself,
succeeds within its budgets and unites no groups, and yet a group below the root is not closed. -/
structure Unfinished (memo : Memo) (root group : GroupId) : Prop where
  attainable : memo.Attainable
  catalogued : memo.Catalogued
  acyclic : memo.Acyclic
  succeeds : (Planner.transformed root memo).1 = .ok ()
  lasts : Planner.patient.mayExplore {} (Planner.transformed root memo).2 = true
  masters : ∀ id, (Planner.transformed root memo).2.memo.master id = memo.master id
  below : Relation.ReflTransGen (Planner.transformed root memo).2.memo.LeadsDown root group
  unclosed : ¬ (Planner.transformed root memo).2.memo.Closed
    (standardRules.filter (·.kind == .transformation)) group

/-- Whether a group is the root or read by a logical alternative of the root. -/
def isNear (memo : Memo) (root group : GroupId) : Bool :=
  root == group || (memo.alternativesOf root).any fun id => (memo.expr? id).any fun expr =>
    !expr.op.isPhysical && expr.children.contains group

theorem WellFormed.below_of_isNear (hwell : memo.WellFormed) (hunlinked : memo.unlinked = true)
    {root : GroupId} (h : memo.isNear root group = true) :
    Relation.ReflTransGen memo.LeadsDown root group := by
  obtain hroot | ⟨id, hid, h⟩ := ((Bool.or_eq_true _ _).mp h).imp_right List.any_eq_true.mp
  · rw [eq_of_beq hroot]
  · obtain ⟨expr, hexpr, h⟩ := (Option.any_eq_true _ _).mp h
    obtain ⟨hplain, hchild⟩ := (Bool.and_eq_true _ _).mp h
    exact .single ⟨id, hid, expr, hexpr, Bool.not_eq_true' _ |>.mp hplain, group,
      List.contains_iff_mem.mp hchild, hwell.master_of_unlinked hunlinked group⟩

/-- Whether a memo has alternatives of the right kinds and falling ranks, and the exploration of a
group succeeds within its budgets without links and leaves a rule something new. -/
def leavesNew (memo : Memo) (root group : GroupId) (rule : Rule) (id : ExprId)
    (rank : GroupId → ℕ) : Bool :=
  let final := (Planner.transformed root memo).2
  memo.unlinked &&
    memo.exprs.all (fun expr => decide
      (Kind.apply expr.op (expr.children.map memo.kind) = some (memo.kind expr.group))) &&
    memo.exprs.all (fun expr => expr.children.all fun child =>
      decide (rank child < rank expr.group)) &&
    (Planner.transformed root memo).1.toOption.any (fun _ => true) && Planner.patient.mayExplore {} final &&
    final.memo.unlinked && final.memo.isNear root group &&
    (final.memo.alternativesOf group).contains id &&
    (final.memo.op? id).any (·.isLogical) && !final.memo.repeats rule group id

theorem Attainable.unfinished {root : GroupId} (rule : Rule) (id : ExprId) (rank : GroupId → ℕ)
    (h : memo.Attainable) (hrule : rule ∈ standardRules.filter (·.kind == .transformation))
    (hchecks : memo.leavesNew root group rule id rank = true) : memo.Unfinished root group := by
  have hwell : memo.WellFormed := h.inOrder.1
  have hfinal : (Planner.transformed root memo).2.memo.WellFormed :=
    (Planner.attainable_transformed h).inOrder.1
  simp only [leavesNew, Bool.and_eq_true] at hchecks
  obtain ⟨⟨⟨⟨⟨⟨⟨⟨⟨hunlinked, hkinds⟩, hrank⟩, hok⟩, hlasts⟩, hunlinked'⟩, hnear⟩, hid⟩, hlogical⟩, hnew⟩ :=
    hchecks
  refine ⟨h, hwell.catalogued hunlinked hkinds, hwell.acyclic_of_rank hunlinked rank hrank,
    ?_, hlasts, fun id => ?_, hfinal.below_of_isNear hunlinked' hnear, fun hclosed => ?_⟩
  · obtain ⟨_, hok, -⟩ := Planning.exists_ok_of_any hok
    exact hok
  · rw [hfinal.master_of_unlinked hunlinked', hwell.master_of_unlinked hunlinked]
  · rw [hclosed.repeats hrule (List.contains_iff_mem.mp hid) hlogical] at hnew
    cases hnew

/-- A join of three tables that was explored, and then another join in place of the first one. -/
def resumed : Memo :=
  (Planner.transformed ⟨6⟩ threeJoined).2.memo.extended
    [equalityOf 1 0, joinOf [⟨0⟩, ⟨1⟩, ⟨8⟩] (some ⟨3⟩)]

/-- A join that is also a grouping of a join above a join of its own tables, and a selection. -/
def tangled : Memo :=
  extended {} [scanOf 1, scanOf 2, equalityOf 1 2, joinOf [⟨0⟩, ⟨1⟩, ⟨2⟩] none, scanOf 0, equalityOf 0 1,
    joinOf [⟨4⟩, ⟨0⟩, ⟨5⟩] none, joinOf [⟨6⟩, ⟨1⟩, ⟨2⟩] none,
    (.logical (.groupBy [⟨0⟩] []), [⟨7⟩], some ⟨3⟩), scanOf 3, equalityOf 1 3,
    joinOf [⟨0⟩, ⟨8⟩, ⟨9⟩] none,
    (.scalar (.predicate (.compare .equal (.column ⟨1⟩) (.literal (.integer 5)))), [], none),
    (.logical .select, [⟨10⟩, ⟨11⟩], some ⟨3⟩)]

/-- An exploration starts no rule again where an earlier one has started it, also if there are new
trees. And from a memo in which no rule was started, it can bring a group below itself, and start a
rule above that group before all its alternatives are there. -/
theorem unfinished_explorations :
    resumed.Unfinished ⟨6⟩ ⟨6⟩ ∧ tangled.Unfinished ⟨3⟩ ⟨7⟩ ∧
      SearchState.Fresh { memo := tangled } := by
  have hrule : Rule.joinAssociativity ∈ standardRules.filter (·.kind == .transformation) :=
    List.mem_filter.mpr ⟨by simp [standardRules], rfl⟩
  refine ⟨?_, ?_, SearchState.fresh_of_unmarked (by decide +kernel)⟩
  · have hattainable : resumed.Attainable :=
      (Planner.attainable_transformed (Attainable.extended .empty _)).extended _
    exact hattainable.unfinished .joinAssociativity ⟨6⟩
      (fun id => [0, 0, 0, 1, 0, 0, 2, 1].getD id.index 0) hrule (by decide +kernel)
  · have hattainable : tangled.Attainable := Attainable.extended .empty _
    exact hattainable.unfinished .joinAssociativity ⟨18⟩
      (fun id => [0, 0, 0, 3, 0, 0, 1, 2, 0, 0, 1, 0].getD id.index 0) hrule (by decide +kernel)

end Memo

end QueryPlanner
