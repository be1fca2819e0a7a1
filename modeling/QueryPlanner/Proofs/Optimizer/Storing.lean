import QueryPlanner.Proofs.Memo.Reading
import QueryPlanner.Proofs.Optimizer.Growth

/-!
# What planning stores

Costings are recorded with alternatives, and contexts note their best ones. Groups, alternatives and
the goals of contexts stay as they are (`Memo.Stores`), so a preorder of memos that allows for such
notes (`Optimizer.Store`) relates the memo before to that after whatever is recorded. Every context
that a group has is about that group (`Memo.Filed`), so a look-up finds the context of a goal.
-/

namespace QueryPlanner

open Memo (SameContent SameQuery)
open Planning (Keeps Post)

/-- The later memo has the same groups and alternatives, and the contexts are about the same goals. -/
structure Memo.Stores (memo memo' : Memo) : Prop extends SameQuery memo memo' where
  goals : ∀ id, (memo'.context? id).map Context.goal = (memo.context? id).map Context.goal
  filed : ∀ id, (memo'.group? id).map (·.contexts) = (memo.group? id).map (·.contexts)

namespace Memo

variable {memo memo' : Memo}

/-- Looking around stores no more than that. -/
theorem SameContent.stores (hsame : SameContent memo memo') : memo.Stores memo' where
  toSameQuery := hsame.sameQuery
  goals id := by rw [hsame.context?]
  filed := hsame.map_group? _ fun _ => rfl

/-- Notes on a context that leave its goal. -/
theorem stores_modifyContext {id : ContextId} {change : Context → Context}
    (hgoal : ∀ context, (change context).goal = context.goal) :
    memo.Stores (memo.modifyContext id change) where
  groups _ := rfl
  exprs _ := rfl
  links hends := ⟨hends.congr fun _ => rfl, master_congr _ hends fun _ => rfl⟩
  goals other := by
    rw [context?_modifyContext]
    split
    · rw [Option.map_map]
      exact congrArg (Option.map · _) (funext hgoal)
    · rfl
  filed _ := rfl

theorem stores_addCosting {candidate : Costing} : memo.Stores (memo.addCosting candidate) where
  toSameQuery := sameQuery_addCosting
  goals _ := rfl
  filed _ := rfl

end Memo

/-! ## Contexts that are filed -/

/-- The contexts that a group has are about it. -/
def Memo.Filed (memo : Memo) : Prop :=
  ∀ id group, memo.group? id = some group → ∀ entry ∈ group.contexts,
    ∃ context, memo.context? entry.2 = some context ∧ context.goal = (id, entry.1.required)

namespace Memo.Filed

variable {memo memo' : Memo}

theorem stores (h : memo.Filed) (hstores : memo.Stores memo') : memo'.Filed := by
  intro id group hgroup entry hentry
  have hfiled := hstores.filed id
  rw [hgroup] at hfiled
  obtain ⟨before, hbefore, hsame⟩ := Option.map_eq_some_iff.mp hfiled.symm
  obtain ⟨context, hcontext, hgoal⟩ := h id before hbefore entry (hsame ▸ hentry)
  have hkept := hstores.goals entry.2
  rw [hcontext] at hkept
  obtain ⟨final, hfinal, hsame⟩ := Option.map_eq_some_iff.mp hkept
  exact ⟨final, hfinal, hsame.trans hgoal⟩

/-- Filling a memo leaves the contexts where they are. -/
theorem samePlans (h : memo.Filed) (hsame : memo.SamePlans memo') : memo'.Filed := by
  intro id group hgroup entry hentry
  obtain hnone | ⟨before, hbefore, hkept⟩ := hsame.filed id group hgroup
  · simp [hnone] at hentry
  · obtain ⟨context, hcontext, hgoal⟩ := h id before hbefore entry (hkept ▸ hentry)
    refine ⟨context, ?_, hgoal⟩
    unfold context? at hcontext ⊢
    rw [hsame.contexts, hcontext]

theorem addContext (h : memo.Filed) {owner : GroupId} {required : PlanRequirement} {stage : Nat} :
    (memo.addContext owner required stage).Filed := by
  intro id group hgroup entry hentry
  obtain ⟨before, hbefore, hcontexts⟩ := group?_addContext hgroup
  have hold (hentry : entry ∈ before.contexts) :
      ∃ context, (memo.addContext owner required stage).context? entry.2 = some context ∧
        context.goal = (id, entry.1.required) := by
    obtain ⟨context, hcontext, hgoal⟩ := h id before hbefore entry hentry
    exact ⟨context, context?_addContext_of_some hcontext, hgoal⟩
  rw [hcontexts] at hentry
  split at hentry
  · rename_i howner
    rcases List.mem_cons.mp hentry with rfl | hentry
    · exact ⟨_, by rw [context?_addContext, if_pos rfl], by rw [← howner]; rfl⟩
    · exact hold hentry
  · exact hold hentry

theorem addAlternative (h : memo.Filed) {op : Operator} {children : List GroupId} {owner : GroupId}
    {origin : Option Origin} : (memo.addAlternative op children owner origin).Filed := by
  intro id group hgroup entry hentry
  obtain ⟨before, hbefore, _, _, _, hcontexts, _⟩ := group?_addAlternative hgroup
  exact h id before hbefore entry (hcontexts ▸ hentry)

end Memo.Filed

/-- The context for a goal is looked up, or it is added and found from now on. -/
theorem Planning.Post.contextFor {memo : Memo} (hwell : memo.WellFormed) (hfiled : memo.Filed)
    {group : GroupId} {required : PlanRequirement} {stage : Nat}
    (hknown : group.index < memo.groups.size) :
    Post (Planning.lookupOrCreateContext group required stage) memo
      (fun found final => ∃ looked, SameContent memo looked ∧
        (final = looked ∨ final = looked.addContext (memo.master group) required stage) ∧
        ∃ context, final.context? found.1 = some context ∧
          context.goal = (memo.master group, required))
      (fun _ _ => False) := by
  refine (Post.resolve hknown).andThen (fun _ _ hfail => hfail) ?_
  rintro _ looked ⟨rfl, hsame⟩
  refine Post.bind (Post.group (fun found hfound => ?_) (fun hnone => ?_))
  · cases hlookup : found.contexts.lookup { required, stage } with
    | some id =>
        obtain ⟨before, after, hentries, _⟩ := List.lookup_eq_some_iff.mp hlookup
        obtain ⟨context, hcontext, hgoal⟩ := hfiled.stores hsame.stores _ found hfound
          (⟨required, stage⟩, id) (by simp [hentries])
        exact Post.pure ⟨looked, hsame, .inl rfl, context, hcontext, hgoal⟩
    | none =>
        refine Post.bind (Post.get (Post.bind (Post.modify (Post.pure
          ⟨looked, hsame, .inr rfl, ?_⟩))))
        exact ⟨_, Memo.context?_addContext.trans (if_pos rfl), rfl⟩
  · rw [Memo.group?_eq_none, hsame.groups_size] at hnone
    exact absurd (hwell.masterKnown group hknown) (by omega)

/-! ## Costing an alternative -/

/-- A cost is what a model charges for a node over the best plans of some contexts. -/
def Memo.IsChargedOver (memo : Memo) (model : CostModel) (children : List (Option ContextId))
    (cost : Cost) : Prop :=
  ∃ view inputs, cost = model.cost view inputs ∧ ∀ child, some child ∈ children →
    ∃ known, memo.bestCosting? child = some known ∧
      ∃ input ∈ inputs.children, input.cost = known.cost

namespace Planning

variable {memo : Memo}

/-- What a node is charged for a context is the cost of its best plan. -/
theorem Post.bestPlanCost? {segments : Nat} {id : ContextId} :
    Post (Planning.bestPlanChild? segments id) memo
      (fun input final => final = memo ∧ ∀ found ∈ input, ∃ known,
        memo.bestCosting? id = some known ∧ found.cost = known.cost)
      (fun _ final => final = memo) := by
  unfold Planning.bestPlanChild?
  refine Post.bind (Post.context (fun context hcontext => ?_) fun _ => rfl)
  cases hbest : context.best with
  | none => exact Post.pure ⟨rfl, by simp⟩
  | some best =>
      refine Post.bind (Post.bind (Post.costing (fun known hknown => ?_) fun _ => rfl))
      refine Post.bind (Post.context (fun _ _ => Post.pure (Post.pure ⟨rfl, ?_⟩)) fun _ => rfl)
      rintro found hfound
      obtain rfl := Option.some.inj hfound
      refine ⟨known, ?_, rfl⟩
      unfold Memo.bestCosting? Memo.best?
      rw [hcontext, Option.bind_some, hbest, Option.bind_some, hknown]

/-- The inputs of a node hold the costs of the best plans of all its child contexts. -/
theorem Post.inputsOfBests {segments : Nat} {ids : List ContextId} :
    Post (Planner.cost.inputsOf segments ids) memo
      (fun inputs final => final = memo ∧ ∀ found ∈ inputs, ∀ id ∈ ids, ∃ known,
        memo.bestCosting? id = some known ∧ ∃ input ∈ found, input.cost = known.cost)
      (fun _ final => final = memo) := by
  induction ids with
  | nil => exact Post.pure ⟨rfl, by simp⟩
  | cons id rest ih =>
      refine Post.bestPlanCost?.andThen (fun _ _ hfail => hfail) ?_
      rintro (_ | input) _ ⟨rfl, hinput⟩
      · exact Post.pure ⟨rfl, by simp⟩
      · refine ih.andThen (fun _ _ hfail => hfail) ?_
        rintro (_ | inputs) _ ⟨rfl, hinputs⟩
        · exact Post.pure ⟨rfl, by simp⟩
        · refine Post.pure ⟨rfl, fun found hfound other hother => ?_⟩
          obtain rfl := Option.some.inj hfound
          rcases List.mem_cons.mp hother with rfl | hother
          · obtain ⟨known, hknown, hsame⟩ := hinput input rfl
            exact ⟨known, hknown, input, List.mem_cons_self .., hsame⟩
          · obtain ⟨known, hknown, found, hfound, hsame⟩ := hinputs inputs rfl other hother
            exact ⟨known, hknown, found, List.mem_cons_of_mem _ hfound, hsame⟩

end Planning

/-- A costing of an alternative for a context and a request, over the best plans of child contexts. -/
structure Costing.IsOf (candidate : Costing) (id : ExprId) (context : ContextId) (request : Nat)
    (children : List (Option ContextId)) : Prop where
  expr : candidate.expr = id
  context : candidate.context = context
  request : candidate.request = request
  children : candidate.childContexts = children
  costed : candidate.pruned = false
  delivers : ∃ delivered, candidate.delivered = some delivered

/-- Costing an alternative looks around, and may record a costing over the given child contexts that
is charged what the model says. -/
theorem Planner.answers_cost {R : Memo → Memo → Prop} [Memo.Looking R] {planner : Planner}
    {id : ExprId} {context : ContextId} {request : Nat} {children : List (Option ContextId)}
    {good : Option CostingId → Memo → Prop} (hnone : ∀ memo, good none memo)
    (hrecord : ∀ (memo : Memo) candidate, candidate.IsOf id context request children →
      memo.IsChargedOver planner.model children candidate.cost →
      Post (Planning.insertCosting candidate) memo
        (fun result final => R memo final ∧ good result final) (fun _ => R memo)) :
    Planning.Answers R good (planner.cost id context request children) := by
  have hnothing : Planning.Answers R good (pure none : Planning (Option CostingId)) := .pure hnone
  unfold Planner.cost
  refine .after (.quiet Planning.keeps_checkAbort) fun _ => ?_
  refine .after (.quiet Planning.keeps_expr) fun expr => ?_
  split
  · refine .after ?_ fun known => ?_
    · cases expr.costings.lookup (context, request) with
      | none => exact Keeps.pure
      | some recorded => exact Keeps.bind (.quiet Planning.keeps_costing) fun _ => Keeps.pure
    · split
      · exact hnothing
      · refine .after (.quiet Planning.keeps_context) fun found => ?_
        refine .after (.quiet Planning.keeps_viewOver) fun view => ?_
        split
        · exact hnothing
        · dsimp only
          split
          · exact hnothing
          · refine .after (.quiet Planning.keeps_contextStatistics) fun statistics => ?_
            intro memo
            refine Planning.Post.inputsOfBests.andThen
              (fun _ _ hfail => by rw [hfail]; exact Std.Refl.refl memo) ?_
            rintro (_ | inputs) _ ⟨rfl, hinputs⟩
            · exact hnothing _
            · refine hrecord _ _ ⟨rfl, rfl, rfl, rfl, rfl, _, rfl⟩
                ⟨view, _, rfl, fun child hchild => ?_⟩
              exact hinputs inputs rfl child (List.mem_filterMap.mpr ⟨some child, hchild, rfl⟩)
  · exact hnothing

/-- A relation of memos that allows for looking around and for recording such a costing. -/
theorem Planner.keeps_cost_of {R : Memo → Memo → Prop} [Memo.Looking R] {planner : Planner}
    {id : ExprId} {context : ContextId} {request : Nat} {children : List (Option ContextId)}
    (hrecord : ∀ (memo : Memo) candidate, candidate.IsOf id context request children →
      memo.IsChargedOver planner.model children candidate.cost →
      Post (Planning.insertCosting candidate) memo (fun _ => R memo) (fun _ => R memo)) :
    Keeps R (planner.cost id context request children) :=
  have hanswers : Planning.Answers R (fun _ _ => True)
      (planner.cost id context request children) :=
    answers_cost (fun _ => trivial) fun memo candidate hcosted hcharged =>
      (hrecord memo candidate hcosted hcharged).mono (fun _ _ hfinal => ⟨hfinal, trivial⟩)
        fun _ _ hfinal => hfinal
  hanswers.keeps

/-! ## Computations that record costings -/

/-- A relation of memos that allows for offering a costing as the best of its context. -/
class Optimizer.Offers (R : Memo → Memo → Prop) : Prop extends Memo.Glancing R where
  offered : ∀ id, Keeps R (Planning.updateBest id)

/-- A relation of memos that allows for recording a costing and for offering it. -/
class Optimizer.Records (R : Memo → Memo → Prop) : Prop extends Memo.Looking R where
  offered : ∀ id, Keeps R (Planning.updateBest id)
  recorded : ∀ candidate, Keeps R (Planning.insertCosting candidate)

instance Optimizer.Records.offers {R : Memo → Memo → Prop} [Optimizer.Records R] :
    Optimizer.Offers R where
  offered := offered

theorem Optimizer.Offers.keeps_installRecorded {R : Memo → Memo → Prop} [Optimizer.Offers R]
    {id : ExprId} {context : ContextId} {request : Nat} :
    Keeps R (Optimizer.installRecorded id context request) := by
  unfold Optimizer.installRecorded
  refine Keeps.bind Planning.keeps_expr fun expr => ?_
  split
  · exact Keeps.bind (offered _) fun _ => Keeps.pure
  · exact Keeps.pure

namespace Optimizer.Records

variable {R : Memo → Memo → Prop} [Optimizer.Records R]

theorem keeps_recordPruned {id : ExprId} {context : ContextId} {request : Nat} {bound : Cost}
    {children : List (Option ContextId)} :
    Keeps R (Optimizer.recordPruned id context request bound children) :=
  Keeps.bind (recorded _) fun _ => Keeps.pure

theorem keeps_cost {planner : Planner} {id : ExprId} {context : ContextId} {request : Nat}
    {children : List (Option ContextId)} : Keeps R (planner.cost id context request children) :=
  Planner.keeps_cost_of fun memo candidate _ _ => recorded candidate memo

end Optimizer.Records

/-! ## Computations that store -/

/-- A relation of memos that allows for resolving groups and for making a costing the best one of its
context. -/
class Optimizer.Settles (R : Memo → Memo → Prop) : Prop extends Memo.Glancing R where
  settled : ∀ (memo : Memo) id costing, R memo (memo.setBest id costing)

/-- A relation of memos that allows for notes on contexts. -/
class Optimizer.Note (R : Memo → Memo → Prop) : Prop extends Std.Refl R, IsTrans Memo R where
  noted : ∀ memo memo', memo.Stores memo' → (∀ id, memo'.costing? id = memo.costing? id) →
    R memo memo'

/-- A relation of memos that allows for what planning stores. -/
class Optimizer.Store (R : Memo → Memo → Prop) : Prop extends Std.Refl R, IsTrans Memo R where
  stored : ∀ memo memo', memo.Stores memo' → R memo memo'

/-- What may be stored includes notes. -/
instance Optimizer.Store.note {R : Memo → Memo → Prop} [Optimizer.Store R] : Optimizer.Note R where
  noted memo memo' hstores _ := stored memo memo' hstores

instance Optimizer.Note.looking {R : Memo → Memo → Prop} [Optimizer.Note R] : Memo.Looking R where
  looked memo final hsame := noted memo final hsame.stores hsame.costing?

namespace Optimizer.Note

variable {R : Memo → Memo → Prop} [Optimizer.Note R]

theorem keeps_modifyContext {id : ContextId} {change : Context → Context}
    (hgoal : ∀ context, (change context).goal = context.goal) :
    Keeps R (modify (·.modifyContext id change)) :=
  Keeps.modify fun memo => noted memo _ (Memo.stores_modifyContext hgoal) fun _ => rfl

instance settles : Optimizer.Settles R where
  settled memo _ _ := noted memo _ (Memo.stores_modifyContext fun _ => rfl) fun _ => rfl

end Optimizer.Note

namespace Optimizer.Settles

variable {R : Memo → Memo → Prop} [Optimizer.Settles R]

theorem keeps_setBest {id : CostingId} {costing : Costing} :
    Keeps R (modify (·.setBest id costing)) :=
  Keeps.modify fun _ => settled ..

theorem keeps_updateBest {id : CostingId} : Keeps R (Planning.updateBest id) := by
  unfold Planning.updateBest
  refine Keeps.bind Planning.keeps_costing fun candidate => ?_
  split
  · exact Keeps.pure
  · refine Keeps.bind Planning.keeps_context fun context => ?_
    extract_lets current finish
    have hfinish (improves : Bool) : Keeps R (finish improves) := by
      dsimp only [finish]
      split
      · exact Keeps.bind keeps_setBest fun _ => Keeps.pure
      · exact Keeps.pure
    clear_value current finish
    cases current with
    | none => exact Keeps.bind Keeps.pure hfinish
    | some current =>
        dsimp only
        split
        · exact Keeps.bind Keeps.pure hfinish
        · refine Keeps.bind Planning.keeps_costing fun recorded => ?_
          exact Keeps.bind Planning.keeps_betterThan hfinish

/-- Recording a costing that may be added. -/
theorem keeps_insertCosting_of {candidate : Costing}
    (hadd : ∀ memo : Memo, R memo (memo.addCosting candidate)) :
    Keeps R (Planning.insertCosting candidate) := by
  have keeps_addCosting : Keeps R (modify (·.addCosting candidate)) := Keeps.modify hadd
  unfold Planning.insertCosting
  refine Keeps.bind Planning.keeps_expr fun owner => ?_
  split
  · refine Keeps.bind Keeps.get fun memo => ?_
    exact Keeps.bind keeps_addCosting fun _ => Keeps.pure
  · refine Keeps.bind Planning.keeps_costing fun recorded => ?_
    refine Keeps.bind Planning.keeps_mayReplace fun replaces => ?_
    split
    · refine Keeps.bind Keeps.get fun memo => ?_
      refine Keeps.bind keeps_addCosting fun _ => ?_
      refine Keeps.bind Planning.keeps_context fun context => ?_
      dsimp only
      split
      · exact Keeps.bind keeps_setBest fun _ => Keeps.pure
      · exact Keeps.pure
    · exact Keeps.pure

end Optimizer.Settles

instance Optimizer.Settles.offers {R : Memo → Memo → Prop} [Optimizer.Settles R] :
    Optimizer.Offers R where
  offered _ := keeps_updateBest

instance Optimizer.Store.records {R : Memo → Memo → Prop} [Optimizer.Store R] :
    Optimizer.Records R where
  offered _ := Settles.keeps_updateBest
  recorded _ := Settles.keeps_insertCosting_of fun memo => stored memo _ Memo.stores_addCosting

end QueryPlanner
