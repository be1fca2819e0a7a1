import Mathlib.Logic.Relation
import QueryPlanner.Proofs.Optimizer.Run
import QueryPlanner.Proofs.Optimizer.Storing

/-!
# What optimization does to the memo at most

The optimizer records costings, keeps track of contexts, and puts enforcers above their own group. A
preorder of memos that allows these steps (`Optimizer.Passes`) relates the memo before to that after
`Planner.optimize`, however the run ends. The proof follows the calls; that of `optimizeGroup` is by
induction on their depth. Most relations allow for whatever planning stores (`Optimizer.Frame`).
-/

namespace QueryPlanner

open Memo (SameContent SameQuery)
open Planning (Keeps Post)

/-- A relation of memos that allows for what a planner does: costing an alternative and offering the
costing, marking how far a context has come, adding contexts and enforcers, and, if it prunes,
deciding whether to give an alternative up and doing so. -/
class Optimizer.Works (planner : Planner) (R : Memo → Memo → Prop) : Prop
    extends Optimizer.Offers R where
  weighed : planner.config.pruning = true → ∀ id context costed,
    Keeps R (planner.pruneBound? id context costed)
  costed : ∀ id context request children, Keeps R (planner.cost id context request children)
  givenUp : planner.config.pruning = true → ∀ id context request bound children,
    Keeps R (Optimizer.recordPruned id context request bound children)
  marked : ∀ (memo : Memo) id state,
    R memo (memo.modifyContext id fun context => { context with state })
  created : ∀ (memo : Memo) owner required stage, R memo (memo.addContext owner required stage)
  enforced : ∀ enforcer group origin, enforcer.isCatalogued = true → enforcer.isEnforcer = true →
    Keeps R (Planning.insert (.physical enforcer) [group] (some group) origin)

/-- A relation of memos that allows for each step of any planner: recording costings, marking how
far a context has come, and adding contexts and enforcers. -/
class Optimizer.Passes (R : Memo → Memo → Prop) : Prop extends Optimizer.Records R where
  marked : ∀ (memo : Memo) id state,
    R memo (memo.modifyContext id fun context => { context with state })
  created : ∀ (memo : Memo) owner required stage, R memo (memo.addContext owner required stage)
  enforced : ∀ enforcer group origin, enforcer.isCatalogued = true → enforcer.isEnforcer = true →
    Keeps R (Planning.insert (.physical enforcer) [group] (some group) origin)

/-- A relation of memos that allows for whatever planning stores, and for new contexts and
enforcers. -/
class Optimizer.Frame (R : Memo → Memo → Prop) : Prop extends Optimizer.Store R where
  created : ∀ (memo : Memo) owner required stage, R memo (memo.addContext owner required stage)
  enforced : ∀ enforcer group origin, enforcer.isCatalogued = true → enforcer.isEnforcer = true →
    Keeps R (Planning.insert (.physical enforcer) [group] (some group) origin)

instance Optimizer.Frame.passes {R : Memo → Memo → Prop} [Optimizer.Frame R] :
    Optimizer.Passes R where
  marked memo _ _ := Store.stored memo _ (Memo.stores_modifyContext fun _ => rfl)
  created := created
  enforced := enforced

instance Optimizer.Passes.works {R : Memo → Memo → Prop} [Optimizer.Passes R] {planner : Planner} :
    Optimizer.Works planner R where
  weighed _ _ _ _ := .quiet Planner.keeps_pruneBound?
  costed _ _ _ _ := Records.keeps_cost
  givenUp _ _ _ _ _ _ := Records.keeps_recordPruned
  marked := marked
  created := created
  enforced := enforced

/-! ## Requests -/

/-- A relation of memos that allows for what a planner does with one context: offering what is recorded
for it, costing an alternative for it and offering the costing, adding enforcers, and, if the planner
prunes, deciding whether to give an alternative up and doing so. -/
class Optimizer.WorksFor (planner : Planner) (own : ContextId) (R : Memo → Memo → Prop) : Prop
    extends Memo.Glancing R where
  weighed : planner.config.pruning = true → ∀ id context costed,
    Keeps R (planner.pruneBound? id context costed)
  installed : ∀ id request, Keeps R (Optimizer.installRecorded id own request)
  costed : ∀ id request children, Keeps R (do
    match ← planner.cost id own request children with
    | some costed =>
      let _ ← Planning.updateBest costed
    | none =>
      let _ ← Optimizer.installRecorded id own request)
  givenUp : planner.config.pruning = true → ∀ id request bound children,
    Keeps R (Optimizer.recordPruned id own request bound children)
  enforced : ∀ enforcer group origin, enforcer.isCatalogued = true → enforcer.isEnforcer = true →
    Keeps R (Planning.insert (.physical enforcer) [group] (some group) origin)

/-- What is allowed with every context is allowed with one. -/
instance Optimizer.Works.worksFor {planner : Planner} {own : ContextId} {R : Memo → Memo → Prop}
    [Optimizer.Works planner R] : Optimizer.WorksFor planner own R where
  weighed := Works.weighed
  installed _ _ := Offers.keeps_installRecorded
  costed id request children := by
    refine Keeps.bind (Works.costed _ _ _ _) fun costed => ?_
    cases costed with
    | some _ => exact Keeps.bind (Offers.offered _) fun _ => Keeps.pure
    | none => exact Keeps.bind Offers.keeps_installRecorded fun _ => Keeps.pure
  givenUp hpruning _ _ _ _ := Works.givenUp hpruning _ _ _ _ _
  enforced := Works.enforced planner

namespace Optimizer.WorksFor

variable {R : Memo → Memo → Prop} {planner : Planner} {own : ContextId}
  [Optimizer.WorksFor planner own R]

/-- The children are optimized by a computation that stays within the frame. -/
theorem keeps_optimizeChildren
    {optimize : GroupId → PlanRequirement → Planning ContextId}
    (hoptimize : ∀ group required, Keeps R (optimize group required)) {id : ExprId}
    {op : PhysicalOperator} {view : ExprView} {context : Context} {request : Nat}
    {positions : List Nat} {progress : Planner.ChildProgress} :
    Keeps R (planner.optimizeChildren optimize id op view own context request positions
      progress) := by
  induction positions generalizing progress with
  | nil => exact Keeps.pure
  | cons position rest ih =>
      unfold Planner.optimizeChildren
      split
      · exact ih
      · split
        · exact ih
        · extract_lets asked
          split
          · exact Keeps.pure
          · refine Keeps.bind (hoptimize _ _) fun reached => ?_
            refine Keeps.bind Planning.keeps_context fun found => ?_
            split
            · exact Keeps.pure
            · refine Keeps.bind Planning.keeps_costing fun costing => ?_
              extract_lets contexts finish
              split
              · rename_i hprunes
                have hpruning := (Bool.and_eq_true_iff.mp hprunes).2
                refine Keeps.bind (weighed own hpruning _ _ _) fun bound => ?_
                cases bound with
                | some _ => exact Keeps.bind (givenUp hpruning _ _ _ _) fun _ => Keeps.pure
                | none => exact ih
              · rw [pure_bind]
                exact ih

theorem keeps_enforce (own : ContextId) [Optimizer.WorksFor planner own R] {id : ExprId}
    {op : PhysicalOperator} {context : Context} {children : List (Option ContextId)} :
    Keeps R (planner.enforce id op context children) := by
  unfold Planner.enforce
  refine Keeps.bind Planning.keeps_viewOver fun view => ?_
  dsimp only
  split
  · exact Keeps.pure
  · split
    · exact Keeps.pure
    · refine Keeps.bind (Keeps.forM fun enforcer henforcer => ?_) fun _ => Keeps.pure
      obtain ⟨hcatalogued, henforces⟩ := EnforcementDecision.enforcers_catalogued henforcer
      exact Keeps.bind (enforced planner own enforcer _ _ hcatalogued henforces) fun _ => Keeps.pure

theorem keeps_optimizeRequest
    {optimize : GroupId → PlanRequirement → Planning ContextId}
    (hoptimize : ∀ group required, Keeps R (optimize group required)) {id : ExprId}
    {op : PhysicalOperator} {request : Nat} :
    Keeps R (planner.optimizeRequest optimize id op own request) := by
  unfold Planner.optimizeRequest
  refine Keeps.bind Planning.keeps_checkAbort fun _ => ?_
  refine Keeps.bind (installed planner _ _) fun installed => ?_
  split
  · exact Keeps.pure
  · refine Keeps.bind Planning.keeps_context fun context => ?_
    refine Keeps.bind Planning.keeps_expr fun expr => ?_
    extract_lets arity unplanned finish
    have hfinish : Keeps R (finish none) := by
      refine Keeps.bind Planning.keeps_view fun view => ?_
      dsimp only
      split
      · exact Keeps.pure
      · refine Keeps.bind (keeps_optimizeChildren hoptimize) fun children => ?_
        split
        · exact Keeps.pure
        · refine Keeps.bind (keeps_enforce own) fun allowed => ?_
          split
          · exact costed _ _ _
          · exact Keeps.pure
    split
    · rename_i hpruning
      refine Keeps.bind (weighed own hpruning _ _ _) fun bound => ?_
      cases bound with
      | some _ => exact Keeps.bind (givenUp hpruning _ _ _ _) fun _ => Keeps.pure
      | none => exact hfinish
    · rw [pure_bind]
      exact hfinish

theorem keeps_visitAlternative
    {optimize : ExprId → GroupId → PlanRequirement → Planning ContextId}
    (hoptimize : ∀ id group required, Keeps R (optimize id group required))
    {parent : Option ExprId} {level : OptimizationLevel} {id : ExprId} :
    Keeps R (planner.visitAlternative optimize parent own level id) := by
  unfold Planner.visitAlternative
  refine Keeps.bind Keeps.get fun memo => ?_
  refine Keeps.bind Planning.keeps_expr fun expr => ?_
  split
  · split
    · exact Keeps.forM fun request _ => keeps_optimizeRequest fun _ _ => hoptimize _ _ _
    · exact Keeps.pure
  · exact Keeps.pure

end Optimizer.WorksFor

theorem Optimizer.keeps_visitAlternatives {R : Memo → Memo → Prop} [Std.Refl R] [IsTrans Memo R]
    {group : GroupId} {visit : ExprId → Planning Unit} (hvisit : ∀ id, Keeps R (visit id))
    {fuel position : Nat} : Keeps R (Planner.visitAlternatives group visit fuel position) := by
  induction fuel generalizing position with
  | zero => exact Keeps.throw
  | succ fuel ih =>
      unfold Planner.visitAlternatives
      refine Keeps.bind Keeps.get fun memo => ?_
      split
      · exact Keeps.pure
      · exact Keeps.bind (hvisit _) fun _ => ih

/-! ## Groups -/

/-- A relation of memos that allows for what a planner does in one stage. `At own` is what is allowed
while the own context is worked on. It may allow for less, as long as the own context is one of this
stage. -/
class Optimizer.Tends (planner : Planner) (stage : Nat) (R : Memo → Memo → Prop)
    (At : ContextId → Memo → Memo → Prop) : Prop extends Memo.Glancing R where
  works : ∀ own, Optimizer.WorksFor planner own (At own)
  marked : ∀ own (memo : Memo) state,
    At own memo (memo.modifyContext own fun context => { context with state })
  within : ∀ own memo memo', R memo memo' → At own memo memo'
  entered : ∀ group required memo,
    Post (Planning.lookupOrCreateContext group required stage) memo
      (fun found final => R memo final ∧ ∀ later, At found.1 final later → R final later)
      (fun _ final => R memo final)

namespace Optimizer.Tends

variable {R : Memo → Memo → Prop} {planner : Planner} {stage : Nat}

/-- Optimizing a group, by induction on the depth of the calls. -/
theorem keeps_optimizeGroup (At : ContextId → Memo → Memo → Prop)
    [Optimizer.Tends planner stage R At] {fuel : Nat} {parent : Option ExprId}
    {path : List ContextId} {group : GroupId} {required : PlanRequirement} :
    Keeps R (planner.optimizeGroup stage fuel parent path group required) := by
  have : Memo.Glancing R := toGlancing planner stage At
  induction fuel generalizing parent path group required with
  | zero => exact Keeps.throw
  | succ fuel ih =>
      unfold Planner.optimizeGroup
      refine Keeps.bind Planning.keeps_checkAbort fun _ => ?_
      refine Keeps.bind Planning.keeps_resolve fun group memo => ?_
      refine (@entered planner stage R At _ group required memo).andThen (fun _ _ hfail => hfail) ?_
      rintro ⟨own, created⟩ middle ⟨hmiddle, hwithin⟩
      have : WorksFor planner own (At own) := works stage R own
      suffices hown : Keeps (At own) _ from
        (hown middle).mono (fun _ _ hfinal => IsTrans.trans _ _ _ hmiddle (hwithin _ hfinal))
          fun _ _ hfinal => IsTrans.trans _ _ _ hmiddle (hwithin _ hfinal)
      refine Keeps.bind Planning.keeps_context fun context => ?_
      split
      · exact Keeps.pure
      · refine Keeps.bind (Keeps.modify fun memo => marked planner stage R own memo .optimizing)
          fun _ => ?_
        refine Keeps.bind Planning.keeps_group fun found => ?_
        refine Keeps.bind (Keeps.forM fun level _ => ?_) fun _ => ?_
        · refine keeps_visitAlternatives fun _ => WorksFor.keeps_visitAlternative fun _ _ _ => ?_
          exact ih.mono (within planner stage own)
        · exact Keeps.bind (Keeps.modify fun memo =>
            marked planner stage R own memo .optimized) fun _ => Keeps.pure

/-- However the optimization of a group ends, the memo stays within the frame. -/
theorem keeps_optimize (At : ContextId → Memo → Memo → Prop)
    [Optimizer.Tends planner stage R At] {group : GroupId} {required : PlanRequirement} :
    Keeps R (planner.optimize stage group required) := by
  have : Memo.Glancing R := toGlancing planner stage At
  exact Keeps.bind (keeps_optimizeGroup At) fun _ => Keeps.bind Planning.keeps_context fun _ =>
    Keeps.pure

end Optimizer.Tends

namespace Optimizer.Works

variable {R : Memo → Memo → Prop}

theorem keeps_lookupOrCreateContext (planner : Planner) [Optimizer.Works planner R] {id : GroupId}
    {required : PlanRequirement} {stage : Nat} :
    Keeps R (Planning.lookupOrCreateContext id required stage) := by
  unfold Planning.lookupOrCreateContext
  refine Keeps.bind Planning.keeps_resolve fun id => ?_
  refine Keeps.bind Planning.keeps_group fun found => ?_
  split
  · exact Keeps.pure
  · refine Keeps.getThen fun memo => ?_
    exact Post.bind (Post.modify (Post.pure (created planner memo _ _ _)))

variable {planner : Planner} [Optimizer.Works planner R]

/-- What is allowed with every context is allowed in every stage. -/
instance tends {stage : Nat} : Optimizer.Tends planner stage R fun _ => R where
  works _ := worksFor
  marked _ memo _ := marked planner memo _ _
  within _ _ _ := id
  entered _ _ memo := (keeps_lookupOrCreateContext planner memo).mono
    (fun _ _ hfinal => ⟨hfinal, fun _ => id⟩) fun _ _ hfinal => hfinal

/-- However the optimization of a group ends, the memo stays within the frame. -/
theorem keeps_optimize {stage : Nat} {group : GroupId} {required : PlanRequirement} :
    Keeps R (planner.optimize stage group required) :=
  Tends.keeps_optimize fun _ => R

end Optimizer.Works

/-- The optimizer leaves every group its value. -/
instance Optimizer.frame_continues {α : Type} {reading : Reading α} :
    Optimizer.Frame (Memo.Continues reading) where
  refl := Std.Refl.refl
  trans := IsTrans.trans
  stored _ _ hstores := hstores.toSameQuery.continues
  created _ _ _ _ := Memo.sameQuery_addContext.continues
  enforced enforcer group origin hcatalogued henforcer memo := by
    refine Post.all fun meaning h => ?_
    have hcomputes : reading.apply (.physical enforcer) ([group].map meaning) =
        some (meaning group) :=
      reading.apply_enforcer enforcer (meaning group) hcatalogued henforcer
    refine (Post.insert_computes origin h hcomputes fun id hid => ?_).mono ?_ ?_
    · rw [Option.some.inj hid]
    · rintro _ final ⟨meaning', hgrows, _⟩
      exact ⟨meaning', hgrows⟩
    · rintro _ final ⟨rfl, _⟩
      exact ⟨meaning, .refl h⟩

/-! ## Memos that groups are optimized in -/

namespace Memo

/-- The references and the contexts stay in order. -/
def StaysInOrder (memo memo' : Memo) : Prop :=
  memo.WellFormed ∧ memo.Filed → memo'.WellFormed ∧ memo'.Filed

/-- The optimizer leaves references and contexts in order, whatever the operators are. -/
instance : Optimizer.Frame StaysInOrder where
  refl _ h := h
  trans _ _ _ h h' horder := h' (h horder)
  stored _ _ hstores h := ⟨hstores.wellFormed h.1, h.2.stores hstores⟩
  created _ _ _ _ h := ⟨sameQuery_addContext.wellFormed h.1, h.2.addContext⟩
  enforced _ _ _ _ _ := Keeps.whenever fun memo horder =>
    ((Post.insert_wellFormed horder.1 _ _ _ _).both (Planning.samePlans_insert memo)).mono
      (fun _ _ hfinal => ⟨hfinal.1, horder.2.samePlans hfinal.2⟩)
      fun _ _ hfinal => ⟨hfinal.1, horder.2.samePlans hfinal.2⟩

/-- What planning stores leaves the alternatives their levels. -/
theorem SameQuery.hasOwnLevels {memo memo' : Memo} (hsame : SameQuery memo memo')
    (h : memo.HasOwnLevels) : memo'.HasOwnLevels := by
  intro id expr hexpr
  obtain ⟨before, hbefore, houtline⟩ := hsame.exists_expr_before hexpr
  unfold MemoExpr.HasOwnLevel
  rw [show expr.op = before.op from congrArg (·.op) houtline,
    show expr.level = before.level from congrArg (·.level) houtline]
  exact h id before hbefore

/-- The alternatives keep the levels of their operators. -/
def KeepsLevels (memo memo' : Memo) : Prop :=
  memo.HasOwnLevels → memo'.HasOwnLevels

/-- The optimizer leaves the alternatives the levels of their operators. -/
instance : Optimizer.Frame KeepsLevels where
  refl _ h := h
  trans _ _ _ h h' hlevels := h' (h hlevels)
  stored _ _ hstores := hstores.toSameQuery.hasOwnLevels
  created _ _ _ _ := sameQuery_addContext.hasOwnLevels
  enforced _ _ _ _ _ := Keeps.of_exec fun memo =>
    (Planning.samePlans_insert memo).exec_snd.hasOwnLevels

/-- The steps that filling a memo and optimizing groups in it are made of. An operation that fails
counts with the memo it leaves. -/
inductive Transition : Memo → Memo → Prop
  | insert (memo : Memo) (op : Operator) (children : List GroupId) (target : Option GroupId)
      (origin : Option Origin) :
      Transition memo (Planning.exec (Planning.insert op children target origin) memo).2
  | addDuplicate (memo : Memo) (left right : GroupId) :
      Transition memo (Planning.exec (Planning.addDuplicate left right) memo).2
  | mergeInto (memo : Memo) (source target : GroupId) :
      Transition memo (Planning.exec (Planning.mergeInto source target) memo).2
  | mergeDuplicates (memo : Memo) : Transition memo memo.mergeDuplicates
  | look {memo memo' : Memo} (same : memo.SameContent memo') : Transition memo memo'
  | addContext (memo : Memo) (owner : GroupId) (required : PlanRequirement) (stage : Nat) :
      Transition memo (memo.addContext owner required stage)
  | mark (memo : Memo) (id : ContextId) (state : ContextState) :
      Transition memo (memo.modifyContext id fun context => { context with state })
  | insertCosting (memo : Memo) (candidate : Costing) :
      Transition memo (Planning.exec (Planning.insertCosting candidate) memo).2
  | updateBest (memo : Memo) (id : CostingId) :
      Transition memo (Planning.exec (Planning.updateBest id) memo).2

/-- The optimizer goes from one memo to the next by such steps. -/
instance : Optimizer.Passes (Relation.ReflTransGen Transition) where
  refl _ := .refl
  trans _ _ _ := .trans
  looked _ _ hsame := .single (.look hsame)
  offered id := Keeps.of_exec fun memo => .single (.updateBest memo id)
  recorded candidate := Keeps.of_exec fun memo => .single (.insertCosting memo candidate)
  marked memo id state := .single (.mark memo id state)
  created memo owner required stage := .single (.addContext memo owner required stage)
  enforced _ _ _ _ _ := Keeps.of_exec fun memo => .single (.insert memo ..)

/-- Each step leaves references and contexts in order. -/
theorem Transition.staysInOrder {memo memo' : Memo} (h : Transition memo memo') :
    StaysInOrder memo memo' := by
  intro horder
  cases h with
  | insert op children target origin =>
      exact ⟨(Post.insert_wellFormed horder.1 op children target origin).exec_snd,
        horder.2.samePlans (Planning.samePlans_insert memo).exec_snd⟩
  | addDuplicate left right =>
      exact ⟨(Post.addDuplicate_wellFormed horder.1 left right).exec_snd,
        horder.2.samePlans (Linking.keeps_addDuplicate memo).exec_snd⟩
  | mergeInto source target =>
      exact ⟨(Post.mergeInto_wellFormed horder.1 source target).exec_snd,
        horder.2.samePlans (Moving.keeps_mergeInto memo).exec_snd⟩
  | mergeDuplicates =>
      exact ⟨horder.1.mergeDuplicates.wellFormed, horder.2.samePlans (Moving.mergeDuplicates memo)⟩
  | look same => exact ⟨same.wellFormed horder.1, horder.2.samePlans same.samePlans⟩
  | addContext owner required stage =>
      exact ⟨sameQuery_addContext.wellFormed horder.1, horder.2.addContext⟩
  | mark id state =>
      have hstores : memo.Stores (memo.modifyContext id fun context => { context with state }) :=
        stores_modifyContext fun _ => rfl
      exact ⟨hstores.wellFormed horder.1, horder.2.stores hstores⟩
  | insertCosting candidate =>
      have hkeeps : Keeps StaysInOrder (Planning.insertCosting candidate) :=
        Optimizer.Records.recorded candidate
      exact (hkeeps memo).exec_snd horder
  | updateBest id =>
      have hkeeps : Keeps StaysInOrder (Planning.updateBest id) := Optimizer.Offers.offered id
      exact (hkeeps memo).exec_snd horder

/-- Any number of steps leave references and contexts in order. -/
theorem staysInOrder_of_transitions {memo memo' : Memo}
    (h : Relation.ReflTransGen Transition memo memo') : StaysInOrder memo memo' := by
  induction h with
  | refl => exact id
  | tail _ hstep ih => exact fun horder => hstep.staysInOrder (ih horder)

theorem inOrder_empty : ({} : Memo).WellFormed ∧ ({} : Memo).Filed :=
  ⟨wellFormed_empty, fun id group hgroup => by simp [group?] at hgroup⟩

/-- The memos that can come about when groups are optimized in between. An operation that fails
counts with the memo it leaves. -/
inductive Attainable : Memo → Prop
  | empty : Attainable {}
  | insert {memo : Memo} (before : Attainable memo) (op : Operator) (children : List GroupId)
      (target : Option GroupId) (origin : Option Origin) :
      Attainable (Planning.exec (Planning.insert op children target origin) memo).2
  | addDuplicate {memo : Memo} (before : Attainable memo) (left right : GroupId) :
      Attainable (Planning.exec (Planning.addDuplicate left right) memo).2
  | mergeInto {memo : Memo} (before : Attainable memo) (source target : GroupId) :
      Attainable (Planning.exec (Planning.mergeInto source target) memo).2
  | mergeDuplicates {memo : Memo} (before : Attainable memo) : Attainable memo.mergeDuplicates
  | look {memo memo' : Memo} (before : Attainable memo) (same : memo.SameContent memo') :
      Attainable memo'
  | optimize {memo : Memo} (before : Attainable memo) (planner : Planner) (stage : Nat)
      (group : GroupId) (required : PlanRequirement) :
      Attainable (Planning.exec (planner.optimize stage group required) memo).2

/-- Filling a memo is one way for it to come about. -/
theorem Reachable.attainable {memo : Memo} (h : memo.Reachable) : memo.Attainable := by
  induction h with
  | empty => exact .empty
  | insert _ op children target origin ih => exact ih.insert op children target origin
  | addDuplicate _ left right ih => exact ih.addDuplicate left right
  | mergeInto _ source target ih => exact ih.mergeInto source target
  | mergeDuplicates _ ih => exact ih.mergeDuplicates
  | look _ same ih => exact ih.look same

/-- Every memo that can come about does so by the steps. -/
theorem Attainable.transitions {memo : Memo} (h : memo.Attainable) :
    Relation.ReflTransGen Transition {} memo := by
  induction h with
  | empty => exact .refl
  | insert _ op children target origin ih => exact ih.tail (.insert ..)
  | addDuplicate _ left right ih => exact ih.tail (.addDuplicate ..)
  | mergeInto _ source target ih => exact ih.tail (.mergeInto ..)
  | mergeDuplicates _ ih => exact ih.tail (.mergeDuplicates _)
  | look _ same ih => exact ih.tail (.look same)
  | @optimize memo _ planner stage group required ih =>
      have hkeeps : Keeps (Relation.ReflTransGen Transition)
          (planner.optimize stage group required) := Optimizer.Works.keeps_optimize
      exact ih.trans (hkeeps memo).exec_snd

/-- References and contexts are in order in every memo that can come about. -/
theorem Attainable.inOrder {memo : Memo} (h : memo.Attainable) : memo.WellFormed ∧ memo.Filed :=
  staysInOrder_of_transitions h.transitions inOrder_empty

/-- Alternatives have the levels of their operators in every memo that can come about. -/
theorem Attainable.hasOwnLevels {memo : Memo} (h : memo.Attainable) : memo.HasOwnLevels := by
  induction h with
  | empty => exact fun id expr hexpr => by simp [expr?] at hexpr
  | @insert memo _ _ _ _ _ ih => exact (Planning.samePlans_insert memo).exec_snd.hasOwnLevels ih
  | @addDuplicate memo _ _ _ ih =>
      exact SamePlans.hasOwnLevels (Linking.keeps_addDuplicate memo).exec_snd ih
  | @mergeInto memo _ _ _ ih =>
      exact SamePlans.hasOwnLevels (Moving.keeps_mergeInto memo).exec_snd ih
  | mergeDuplicates _ ih => exact SamePlans.hasOwnLevels (Moving.mergeDuplicates _) ih
  | look _ same ih => exact same.samePlans.hasOwnLevels ih
  | @optimize memo _ planner stage group required ih =>
      have hkeeps : Keeps KeepsLevels (planner.optimize stage group required) :=
        Optimizer.Works.keeps_optimize
      exact (hkeeps memo).exec_snd ih

end Memo

end QueryPlanner
