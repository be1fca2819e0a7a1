import QueryPlanner.Proofs.Optimizer.Improvement

/-!
# Stages leave each other's plans

The optimizer works in the contexts of one stage. It records costings for them and makes one of these
the best, and it creates contexts and enforcers. So the contexts of every other stage keep their best
plans (`Memo.Spares`), and so they do while the memo is filled. That a costing found in a slot is one
for the context of the slot is part of the order that is kept on the way (`Memo.Staged`). The main
result is `Planner.upholds_optimize`.
-/

namespace QueryPlanner

open Memo (SameContent)
open Planning (Keeps Post exec)

namespace Memo

variable {memo middle memo' : Memo} {stage kept : Nat} {own : ContextId}

/-- Contexts are filed under their goals and stages, costings under their contexts, every best is a
costed alternative of its own context, and what was costed delivers something. -/
structure Staged (memo : Memo) : Prop where
  entries : ∀ id group, memo.group? id = some group → ∀ entry ∈ group.contexts,
    ∃ context, memo.context? entry.2 = some context ∧ context.goal = (id, entry.1.required) ∧
      context.stage = entry.1.stage
  slots : ∀ id expr, memo.expr? id = some expr → ∀ entry ∈ expr.costings,
    ∃ costing, memo.costing? entry.2 = some costing ∧ costing.context = entry.1.1
  bests : memo.BestsInOrder
  delivers : ∀ id costing, memo.costing? id = some costing → costing.pruned = false →
    ∃ delivered, costing.delivered = some delivered

/-- Groups keep the contexts that are filed with them. -/
def KeepsTables (memo memo' : Memo) : Prop :=
  ∀ id group, memo.group? id = some group →
    ∃ group', memo'.group? id = some group' ∧ group.contexts ⊆ group'.contexts

/-- Contexts and costings stay, and the contexts of a stage keep their bests. -/
structure Spares (kept : Nat) (memo memo' : Memo) : Prop where
  contexts : ∀ id context, memo.context? id = some context →
    ∃ context', memo'.context? id = some context' ∧ context'.stage = context.stage ∧
      (context.stage = kept → context'.best = context.best)
  costings : ∀ id costing, memo.costing? id = some costing → memo'.costing? id = some costing
  tables : memo.KeepsTables memo'

/-! ## The tables of contexts -/

namespace KeepsTables

instance : Std.Refl KeepsTables := ⟨fun _ _ group hgroup => ⟨group, hgroup, fun _ h => h⟩⟩

instance : IsTrans Memo KeepsTables where
  trans _ _ _ h h' id group hgroup := by
    obtain ⟨between, hbetween, hsubset⟩ := h id group hgroup
    obtain ⟨group', hgroup', hsubset'⟩ := h' id between hbetween
    exact ⟨group', hgroup', fun _ hentry => hsubset' (hsubset hentry)⟩

theorem modifyGroup {id : GroupId} {change : Group → Group}
    (h : ∀ group, group.contexts ⊆ (change group).contexts) :
    KeepsTables memo (memo.modifyGroup id change) := by
  intro other group hgroup
  rw [group?_modifyGroup, hgroup]
  split
  · exact ⟨_, rfl, h group⟩
  · exact ⟨group, rfl, fun _ hentry => hentry⟩

theorem of_group? (h : ∀ id group, memo.group? id = some group → memo'.group? id = some group) :
    KeepsTables memo memo' :=
  fun id group hgroup => ⟨group, h id group hgroup, fun _ hentry => hentry⟩

instance : Moving KeepsTables where
  looked _ _ hsame id group hgroup := by
    obtain ⟨group', hgroup', hcontent⟩ := hsame.exists_group hgroup
    refine ⟨group', hgroup', fun entry hentry => ?_⟩
    rwa [show group'.contexts = group.contexts from congrArg (·.contexts) hcontent]
  regrouped _ _ _ h := modifyGroup fun group entry hentry => by rwa [(h group).1]
  rehomed _ _ _ _ := of_group? fun _ _ hgroup => hgroup

instance : Inserting KeepsTables where
  linked := Moving.addDuplicate
  pushed memo properties := of_group? fun id group hgroup => by
    rw [group?_pushGroup, if_neg, hgroup]
    rintro rfl
    simp [group?] at hgroup
  added _ _ _ _ _ := modifyGroup fun _ _ hentry => hentry

end KeepsTables

/-! ## What is spared -/

namespace Spares

protected theorem refl (memo : Memo) : Spares kept memo memo where
  contexts _ context hcontext := ⟨context, hcontext, rfl, fun _ => rfl⟩
  costings _ _ hcosting := hcosting
  tables := Std.Refl.refl memo

protected theorem trans (h : Spares kept memo middle) (h' : Spares kept middle memo') :
    Spares kept memo memo' where
  contexts id context hcontext := by
    obtain ⟨between, hbetween, hstage, hbest⟩ := h.contexts id context hcontext
    obtain ⟨context', hcontext', hstage', hbest'⟩ := h'.contexts id between hbetween
    exact ⟨context', hcontext', hstage'.trans hstage, fun hkept =>
      (hbest' (hstage.trans hkept)).trans (hbest hkept)⟩
  costings id costing hcosting := h'.costings id costing (h.costings id costing hcosting)
  tables := IsTrans.trans _ _ _ h.tables h'.tables

/-- Contexts of the spared stage keep their best costings. -/
theorem bestCosting? (h : Spares kept memo memo') {id : ContextId} {context : Context}
    (hcontext : memo.context? id = some context) (hstage : context.stage = kept) {known : Costing}
    (hknown : memo.bestCosting? id = some known) : memo'.bestCosting? id = some known := by
  obtain ⟨context', hcontext', _, hbest⟩ := h.contexts id context hcontext
  unfold Memo.bestCosting? Memo.best? at *
  rw [hcontext, Option.bind_some] at hknown
  rw [hcontext', Option.bind_some, hbest hstage]
  obtain ⟨best, hheld, hcosting⟩ := Option.bind_eq_some_iff.mp hknown
  exact Option.bind_eq_some_iff.mpr ⟨best, hheld, h.costings best known hcosting⟩

/-- Filling a memo spares every stage. -/
theorem of_samePlans (hsame : memo.SamePlans memo') (htables : memo.KeepsTables memo') :
    Spares kept memo memo' where
  contexts id context hcontext := by
    refine ⟨context, ?_, rfl, fun _ => rfl⟩
    unfold context? at hcontext ⊢
    rw [hsame.contexts, hcontext]
  costings id costing hcosting := by
    unfold costing? at hcosting ⊢
    rw [hsame.costings, hcosting]
  tables := htables

/-- Notes on a context that leave its stage, and its best if it is of the spared stage. -/
theorem modifyContext {id : ContextId} {change : Context → Context}
    (hstage : ∀ context, (change context).stage = context.stage)
    (hbest : ∀ context, memo.context? id = some context → context.stage = kept →
      (change context).best = context.best) :
    Spares kept memo (memo.modifyContext id change) where
  contexts other context hcontext := by
    rw [context?_modifyContext, hcontext]
    split
    · rename_i hid
      exact ⟨_, rfl, hstage context, hbest context (hid ▸ hcontext)⟩
    · exact ⟨context, rfl, rfl, fun _ => rfl⟩
  costings _ _ hcosting := hcosting
  tables := .of_group? fun _ _ hgroup => hgroup

theorem addContext {owner : GroupId} {required : PlanRequirement} :
    Spares kept memo (memo.addContext owner required stage) where
  contexts _ context hcontext := ⟨context, context?_addContext_of_some hcontext, rfl, fun _ => rfl⟩
  costings _ _ hcosting := hcosting
  tables := KeepsTables.modifyGroup fun _ => List.subset_cons_self _ _

theorem addCosting {candidate : Costing} : Spares kept memo (memo.addCosting candidate) where
  contexts _ context hcontext := ⟨context, hcontext, rfl, fun _ => rfl⟩
  costings _ _ := costing?_addCosting_of_some
  tables := .of_group? fun _ _ hgroup => hgroup

end Spares

/-! ## The order is kept -/

namespace Staged

theorem samePlans (h : memo.Staged) (hsame : memo.SamePlans memo') : memo'.Staged where
  entries id group hgroup entry hentry := by
    obtain hnone | ⟨before, hbefore, hkept⟩ := hsame.filed id group hgroup
    · simp [hnone] at hentry
    · obtain ⟨context, hcontext, hfiled⟩ := h.entries id before hbefore entry (hkept ▸ hentry)
      refine ⟨context, ?_, hfiled⟩
      unfold context? at hcontext ⊢
      rw [hsame.contexts, hcontext]
  slots id expr hexpr entry hentry := by
    obtain hnone | ⟨before, hbefore, hkept⟩ := hsame.slots id expr hexpr
    · simp [hnone] at hentry
    · obtain ⟨costing, hcosting, hown⟩ := h.slots id before hbefore entry (hkept ▸ hentry)
      refine ⟨costing, ?_, hown⟩
      unfold costing? at hcosting ⊢
      rw [hsame.costings, hcosting]
  bests := ((SameBests.of_eq hsame.contexts hsame.costings).improves h.bests).inOrder
  delivers id costing hcosting := by
    unfold costing? at hcosting
    rw [hsame.costings] at hcosting
    exact h.delivers id costing hcosting

/-- Notes on a context that leave its goal and stage, and the bests in order. -/
theorem modifyContext (h : memo.Staged) {id : ContextId} {change : Context → Context}
    (hchange : ∀ context, (change context).goal = context.goal ∧
      (change context).stage = context.stage)
    (hbests : (memo.modifyContext id change).BestsInOrder) :
    (memo.modifyContext id change).Staged where
  entries other group hgroup entry hentry := by
    obtain ⟨context, hcontext, hgoal, hstage⟩ := h.entries other group hgroup entry hentry
    rw [context?_modifyContext, hcontext]
    split
    · exact ⟨_, rfl, (hchange context).1.trans hgoal, (hchange context).2.trans hstage⟩
    · exact ⟨context, rfl, hgoal, hstage⟩
  slots := h.slots
  bests := hbests
  delivers := h.delivers

theorem addContext (h : memo.Staged) {owner : GroupId} {required : PlanRequirement} :
    (memo.addContext owner required stage).Staged where
  entries id group hgroup entry hentry := by
    obtain ⟨before, hbefore, hcontexts⟩ := group?_addContext hgroup
    have hold (hentry : entry ∈ before.contexts) :
        ∃ context, (memo.addContext owner required stage).context? entry.2 = some context ∧
          context.goal = (id, entry.1.required) ∧ context.stage = entry.1.stage := by
      obtain ⟨context, hcontext, hfiled⟩ := h.entries id before hbefore entry hentry
      exact ⟨context, context?_addContext_of_some hcontext, hfiled⟩
    rw [hcontexts] at hentry
    split at hentry
    · rename_i howner
      rcases List.mem_cons.mp hentry with rfl | hentry
      · exact ⟨_, context?_addContext.trans (if_pos rfl), by rw [← howner]; rfl, rfl⟩
      · exact hold hentry
    · exact hold hentry
  slots := h.slots
  bests := (SameBests.addContext.improves h.bests).inOrder
  delivers := h.delivers

theorem addCosting (h : memo.Staged) {candidate : Costing}
    (hdelivers : candidate.pruned = false → ∃ delivered, candidate.delivered = some delivered) :
    (memo.addCosting candidate).Staged where
  entries := h.entries
  slots id expr hexpr entry hentry := by
    obtain rfl | ⟨before, hbefore, hold⟩ := mem_costings_addCosting hexpr hentry
    · exact ⟨candidate, costing?_addCosting.trans (if_pos rfl), rfl⟩
    · obtain ⟨costing, hcosting, hown⟩ := h.slots id before hbefore entry hold
      exact ⟨costing, costing?_addCosting_of_some hcosting, hown⟩
  bests := (SameBests.addCosting.improves h.bests).inOrder
  delivers id costing hcosting := by
    rw [costing?_addCosting] at hcosting
    split at hcosting
    · obtain rfl := Option.some.inj hcosting
      exact hdelivers
    · exact h.delivers id costing hcosting

end Staged

/-! ## What is done for one stage -/

/-- The order is kept, and all other stages are spared. -/
def Upholds (stage : Nat) (memo memo' : Memo) : Prop :=
  memo.Staged → memo'.Staged ∧ ∀ kept, kept ≠ stage → Spares kept memo memo'

/-- The context is there, and it is one of the stage. -/
def IsAt (memo : Memo) (own : ContextId) (stage : Nat) : Prop :=
  ∃ context, memo.context? own = some context ∧ context.stage = stage

/-- The order is kept, and all other stages are spared, as long as the own context is one of the
stage. -/
def UpholdsAt (stage : Nat) (own : ContextId) (memo memo' : Memo) : Prop :=
  memo.IsAt own stage → Upholds stage memo memo'

namespace Upholds

/-- Filling a memo. -/
theorem filled (hsame : memo.SamePlans memo') (htables : memo.KeepsTables memo') :
    Upholds stage memo memo' := fun h =>
  ⟨h.samePlans hsame, fun _ _ => .of_samePlans hsame htables⟩

theorem looked (hsame : SameContent memo memo') : Upholds stage memo memo' :=
  .filled hsame.samePlans (Looking.looked _ _ hsame)

protected theorem trans (h : Upholds stage memo middle) (h' : Upholds stage middle memo') :
    Upholds stage memo memo' := fun hstaged =>
  have hmiddle := h hstaged
  have hfinal := h' hmiddle.1
  ⟨hfinal.1, fun kept hkept => (hmiddle.2 kept hkept).trans (hfinal.2 kept hkept)⟩

instance : Looking (Upholds stage) where
  refl memo h := ⟨h, fun _ _ => .refl memo⟩
  trans _ _ _ := .trans
  looked _ _ := looked

/-- The contexts of the stage stay. -/
theorem isAt (h : Upholds stage memo memo') (hstaged : memo.Staged) {own : ContextId}
    (hown : memo.IsAt own stage) : memo'.IsAt own stage := by
  obtain ⟨context, hcontext, hstage⟩ := hown
  obtain ⟨context', hcontext', hstage', _⟩ :=
    ((h hstaged).2 (stage + 1) (Nat.succ_ne_self stage)).contexts own context hcontext
  exact ⟨context', hcontext', hstage'.trans hstage⟩

/-- A costed alternative becomes the best of a context of the stage. -/
theorem setBest {id : CostingId} {costing : Costing} (hcosting : memo.costing? id = some costing)
    (hcosted : costing.pruned = false) (hown : memo.IsAt costing.context stage) :
    Upholds stage memo (memo.setBest id costing) := by
  obtain ⟨own, hown, hstage⟩ := hown
  refine fun h => ⟨h.modifyContext (fun _ => ⟨rfl, rfl⟩) (h.bests.setBest hcosting hcosted),
    fun kept hkept => .modifyContext (fun _ => rfl) fun context hcontext hsame => ?_⟩
  obtain rfl := Option.some.inj (hcontext.symm.trans hown)
  exact absurd (hsame.symm.trans hstage) hkept

theorem mark {id : ContextId} {state : ContextState} :
    Upholds stage memo (memo.modifyContext id fun context => { context with state }) := fun h =>
  ⟨h.modifyContext (fun _ => ⟨rfl, rfl⟩) (SameBests.mark.improves h.bests).inOrder,
    fun _ _ => .modifyContext (fun _ => rfl) fun _ _ _ => rfl⟩

theorem addContext {owner : GroupId} {required : PlanRequirement} {own : Nat} :
    Upholds stage memo (memo.addContext owner required own) := fun h =>
  ⟨h.addContext, fun _ _ => .addContext⟩

theorem addCosting {candidate : Costing}
    (hdelivers : candidate.pruned = false → ∃ delivered, candidate.delivered = some delivered) :
    Upholds stage memo (memo.addCosting candidate) := fun h =>
  ⟨h.addCosting hdelivers, fun _ _ => .addCosting⟩

end Upholds

namespace UpholdsAt

variable {own : ContextId}

instance : Looking (UpholdsAt stage own) where
  refl memo _ h := ⟨h, fun _ _ => .refl memo⟩
  trans _ _ _ h h' hown hstaged :=
    ((h hown).trans (h' ((h hown).isAt hstaged hown))) hstaged
  looked _ _ hsame _ := .looked hsame

/-- Offering a costing of the own context. -/
theorem updateBest {id : CostingId}
    (hown : ∀ costing, memo.costing? id = some costing → costing.context = own) :
    Post (Planning.updateBest id) memo (fun _ => UpholdsAt stage own memo)
      (fun _ => UpholdsAt stage own memo) := by
  refine Planning.Post.updateBest_cases.mono ?_ fun _ _ hsame _ => .looked hsame
  rintro _ final (hsame | ⟨looked, candidate, hsame, hcandidate, hcosted, _, rfl⟩) hstage
  · exact .looked hsame
  · refine (Upholds.looked hsame).trans (.setBest hcandidate hcosted ?_)
    rw [hown candidate ((hsame.costing? id).symm.trans hcandidate)]
    obtain ⟨context, hcontext, hstage⟩ := hstage
    exact ⟨context, (hsame.context? own).trans hcontext, hstage⟩

/-- Recording a costing for the own context. What it takes the place of may be the best one, which
was not given up, so the new one was not either. -/
theorem insertCosting {candidate : Costing} (hown : candidate.context = own)
    (hdelivers : candidate.pruned = false → ∃ delivered, candidate.delivered = some delivered) :
    Post (Planning.insertCosting candidate) memo
      (fun recorded final => UpholdsAt stage own memo final ∧
        ∀ id ∈ recorded, ∃ costing, final.costing? id = some costing ∧ costing.context = own)
      (fun _ => UpholdsAt stage own memo) := by
  have hadded {looked : Memo} (hsame : SameContent memo looked) :
      Upholds stage memo (looked.addCosting candidate) :=
    (Upholds.looked hsame).trans (.addCosting hdelivers)
  have hfound {looked : Memo} :
      (looked.addCosting candidate).costing? ⟨looked.costings.size⟩ = some candidate :=
    costing?_addCosting.trans (if_pos rfl)
  refine Planning.Post.insertCosting_cases.mono ?_ ?_
  · rintro _ _ ⟨looked, hsame, ⟨rfl, rfl⟩ | ⟨rfl, hrecorded⟩⟩
    · exact ⟨fun _ => .looked hsame, by simp⟩
    · obtain rfl | ⟨⟨best, known, hbest, hknown, hcompared⟩, rfl⟩ := hrecorded
      · exact ⟨fun _ => hadded hsame, by simpa using ⟨candidate, hfound, hown⟩⟩
      · refine ⟨fun hstage hstaged => ?_, by simpa using ⟨candidate, hfound, hown⟩⟩
        obtain ⟨costing, hcosting, _, hunpruned⟩ := hstaged.bests _ best hbest
        obtain rfl := Option.some.inj (hcosting.symm.trans hknown)
        have hcosted : candidate.pruned = false :=
          (hcompared.resolve_left (by simp [hunpruned])).1
        refine ((hadded hsame).trans (.setBest hfound hcosted ?_)) hstaged
        exact (hadded hsame).isAt hstaged (hown ▸ hstage)
  · rintro _ _ ⟨looked, hsame, rfl | rfl⟩ _
    · exact .looked hsame
    · exact hadded hsame

/-- A costing that is found in a slot of the own context is one for it. -/
theorem keeps_installRecorded {id : ExprId} {request : Nat} :
    Keeps (UpholdsAt stage own) (Optimizer.installRecorded id own request) := by
  have hkeeps : Keeps (fun memo memo' => memo.Staged → UpholdsAt stage own memo memo')
      (Optimizer.installRecorded id own request) := by
    refine Keeps.whenever fun memo hstaged => ?_
    refine Post.bind (Post.expr (fun expr hexpr => ?_) fun _ => Std.Refl.refl memo)
    split
    · rename_i recorded hrecorded
      obtain ⟨before, after, hentries, _⟩ := List.lookup_eq_some_iff.mp hrecorded
      obtain ⟨costing, hcosting, hown⟩ :=
        hstaged.slots id expr hexpr ((own, request), recorded) (by simp [hentries])
      refine Post.bind ((updateBest fun found hfound => ?_).mono (fun _ _ h => Post.pure h)
        fun _ _ h => h)
      obtain rfl := Option.some.inj (hcosting.symm.trans hfound)
      exact hown
    · exact Post.pure (Std.Refl.refl memo)
  exact hkeeps.mono fun _ _ h hown hstaged => h hstaged hown hstaged

/-- Whatever planning does for the own context. -/
instance worksFor {planner : Planner} : Optimizer.WorksFor planner own (UpholdsAt stage own) where
  weighed _ _ _ _ := .quiet Planner.keeps_pruneBound?
  installed _ _ := keeps_installRecorded
  costed id request children := by
    intro memo
    have hcosted : Planning.Answers (UpholdsAt stage own)
        (fun result final => ∀ id ∈ result, ∃ costing, final.costing? id = some costing ∧
          costing.context = own) (planner.cost id own request children) :=
      Planner.answers_cost (by simp) fun memo candidate hcandidate _ =>
        insertCosting hcandidate.context fun _ => hcandidate.delivers
    refine (hcosted memo).andThen (fun _ _ hfail => hfail) ?_
    rintro (_ | costed) middle ⟨hmiddle, hresult⟩
    · refine Post.bind ((keeps_installRecorded middle).mono (fun _ _ hfinal => ?_)
        fun _ _ hfinal => IsTrans.trans _ _ _ hmiddle hfinal)
      exact Post.pure (IsTrans.trans _ _ _ hmiddle hfinal)
    · obtain ⟨costing, hcosting, hown⟩ := hresult costed rfl
      refine Post.bind ((updateBest fun found hfound => ?_).mono (fun _ _ hfinal => ?_)
        fun _ _ hfinal => IsTrans.trans _ _ _ hmiddle hfinal)
      · obtain rfl := Option.some.inj (hcosting.symm.trans hfound)
        exact hown
      · exact Post.pure (IsTrans.trans _ _ _ hmiddle hfinal)
  givenUp _ _ _ _ _ := Keeps.bind (fun memo => (insertCosting rfl (by simp)).mono
    (fun _ _ hfinal => hfinal.1) fun _ _ hfinal => hfinal) fun _ => Keeps.pure
  enforced _ _ _ _ _ memo := ((Planning.samePlans_insert memo).both
      (Inserting.keeps_insert (R := KeepsTables) memo)).mono
    (fun _ _ hfinal _ => .filled hfinal.1 hfinal.2) fun _ _ hfinal _ => .filled hfinal.1 hfinal.2

end UpholdsAt

/-- In one stage the own context is always one of this stage. -/
instance Upholds.tends {planner : Planner} :
    Optimizer.Tends planner stage (Upholds stage) (UpholdsAt stage) where
  works _ := UpholdsAt.worksFor
  marked _ _ _ _ := .mark
  within _ _ _ h _ := h
  entered group required memo := by
    unfold Planning.lookupOrCreateContext
    refine (Planning.keeps_resolve memo).andThen (fun _ _ hsame => .looked hsame) ?_
    intro owner looked (hsame : SameContent memo looked)
    refine Post.bind (Post.group (fun found hfound => ?_) fun _ => .looked hsame)
    split
    · rename_i own hown
      obtain ⟨before, after, hentries, _⟩ := List.lookup_eq_some_iff.mp hown
      refine Post.pure ⟨.looked hsame, fun later hlater hstaged => hlater ?_ hstaged⟩
      obtain ⟨context, hcontext, _, hstage⟩ :=
        hstaged.entries owner found hfound (⟨required, stage⟩, own) (by simp [hentries])
      exact ⟨context, hcontext, hstage⟩
    · refine Post.bind (Post.get (Post.bind (Post.modify (Post.pure ?_))))
      refine ⟨(Upholds.looked hsame).trans .addContext, fun later hlater => hlater ?_⟩
      exact ⟨_, context?_addContext.trans (if_pos rfl), rfl⟩

end Memo

/-- Optimizing a group in a stage keeps the order and spares all other stages. -/
theorem Planner.upholds_optimize {planner : Planner} {stage : Nat} {group : GroupId}
    {required : PlanRequirement} :
    Keeps (Memo.Upholds stage) (planner.optimize stage group required) :=
  Optimizer.Tends.keeps_optimize (Memo.UpholdsAt stage)

namespace Memo

variable {memo : Memo}

end Memo

end QueryPlanner
