import QueryPlanner.Proofs.Memo.Deriving
import QueryPlanner.Proofs.Optimizer.Frame

/-!
# Statistics that costings work with

A planner that does not prune asks for no lower bounds, and derives no statistics of a group that has
them for all its columns. So after any calls, and requests for bounds in between, the groups have the
statistics that they had, or empty ones in place of none, and every costing works with those of its
group (`Memo.Estimated.assessed_follow`). A call stores no bound
(`Memo.Estimated.assessed_optimize`).
-/

namespace QueryPlanner

open Memo (SameContent SameQuery)
open Planning (Keeps Post)

/-- What is noted of a group for costing its plans. -/
def Group.estimates (group : Group) :
    Option Statistics × List (ContextId × Statistics) × List (PlanRequirement × Cost) :=
  (group.statistics, group.contextStatistics, group.lowerBounds)

namespace Memo

variable {memo memo' memo'' start : Memo} {below : GroupId → GroupId → Prop}

/-! ## Estimates that stay -/

/-- The groups keep what is noted for costing their plans, and no bound of an alternative is noted. -/
structure SameEstimates (memo memo' : Memo) : Prop where
  groups : ∀ id group, memo.group? id = some group →
    ∃ group', memo'.group? id = some group' ∧ group'.estimates = group.estimates
  exprs : ∀ id expr, memo'.expr? id = some expr → expr.bounds = [] ∨
    ∃ before, memo.expr? id = some before ∧ expr.bounds = before.bounds

namespace SameEstimates

protected theorem refl (memo : Memo) : memo.SameEstimates memo where
  groups _ group hgroup := ⟨group, hgroup, rfl⟩
  exprs _ expr hexpr := .inr ⟨expr, hexpr, rfl⟩

protected theorem trans (h : memo.SameEstimates memo') (h' : memo'.SameEstimates memo'') :
    memo.SameEstimates memo'' where
  groups id group hgroup := by
    obtain ⟨middle, hmiddle, hsame⟩ := h.groups id group hgroup
    obtain ⟨final, hfinal, hsame'⟩ := h'.groups id middle hmiddle
    exact ⟨final, hfinal, hsame'.trans hsame⟩
  exprs id expr hexpr := by
    obtain hnone | ⟨middle, hmiddle, hsame⟩ := h'.exprs id expr hexpr
    · exact .inl hnone
    · rw [hsame]
      exact h.exprs id middle hmiddle

instance : Std.Refl SameEstimates := ⟨SameEstimates.refl⟩

instance : IsTrans Memo SameEstimates := ⟨fun _ _ _ => SameEstimates.trans⟩

theorem modifyGroup {id : GroupId} {change : Group → Group}
    (hchange : ∀ group, (change group).estimates = group.estimates) :
    memo.SameEstimates (memo.modifyGroup id change) where
  groups other group hgroup := by
    rw [group?_modifyGroup, hgroup]
    split
    · exact ⟨_, rfl, hchange group⟩
    · exact ⟨group, rfl, rfl⟩
  exprs _ expr hexpr := .inr ⟨expr, hexpr, rfl⟩

theorem compress (memo : Memo) (id : GroupId) : memo.SameEstimates (memo.compress id) :=
  List.foldlRecOn _ _ (SameEstimates.refl memo) fun _ hfound _ _ =>
    hfound.trans (modifyGroup fun _ => rfl)

theorem addDuplicate (memo : Memo) (left right : GroupId) :
    memo.SameEstimates (memo.addDuplicate left right) := by
  have hlooked : memo.SameEstimates ((memo.compress left).compress right) :=
    (compress ..).trans (compress ..)
  unfold Memo.addDuplicate
  dsimp only
  split
  · exact hlooked
  · split <;> exact hlooked.trans (modifyGroup fun _ => rfl)

theorem pushGroup (memo : Memo) (properties : GroupProperties) :
    memo.SameEstimates (memo.pushGroup properties) where
  groups id group hgroup := by
    refine ⟨group, ?_, rfl⟩
    rw [group?_pushGroup, if_neg, hgroup]
    rintro rfl
    exact absurd (exists_group?_eq_some.mp ⟨group, hgroup⟩) (lt_irrefl _)
  exprs _ expr hexpr := .inr ⟨expr, hexpr, rfl⟩

theorem addAlternative (memo : Memo) (op : Operator) (children : List GroupId) (group : GroupId)
    (origin : Option Origin) : memo.SameEstimates (memo.addAlternative op children group origin) where
  groups id found hfound := by
    have hgroup : (memo.addAlternative op children group origin).group? id =
        if group = id then (memo.group? id).map _ else memo.group? id := group?_modifyGroup
    rw [hgroup, hfound]
    split
    · exact ⟨_, rfl, rfl⟩
    · exact ⟨found, rfl, rfl⟩
  exprs id expr hexpr := by
    rw [expr?_addAlternative] at hexpr
    split at hexpr
    · obtain rfl := Option.some.inj hexpr
      exact .inl rfl
    · exact .inr ⟨expr, hexpr, rfl⟩

end SameEstimates

instance : Inserting SameEstimates where
  compressed := SameEstimates.compress
  linked := SameEstimates.addDuplicate
  pushed := SameEstimates.pushGroup
  added := SameEstimates.addAlternative

/-! ## Statistics for all columns -/

/-- The group is a master that holds a relation. -/
def Relational (memo : Memo) (id : GroupId) : Prop :=
  memo.master id = id ∧ ∃ group, memo.group? id = some group ∧ group.isScalar = false

theorem relational_iff {id : GroupId} : memo.Relational id ↔ memo.master id = id ∧
    id.index < memo.groups.size ∧ (memo.properties id).isScalar = false := by
  unfold Relational Memo.properties
  rw [← exists_group?_eq_some]
  constructor
  · rintro ⟨hmaster, group, hgroup, hrelation⟩
    exact ⟨hmaster, ⟨group, hgroup⟩, by rw [hgroup]; exact hrelation⟩
  · rintro ⟨hmaster, ⟨group, hgroup⟩, hrelation⟩
    rw [hgroup] at hrelation
    exact ⟨hmaster, group, hgroup, hrelation⟩

/-- Every relation has statistics for all its columns. -/
def Estimated (memo : Memo) : Prop :=
  ∀ id, memo.Relational id → ∃ statistics, memo.statistics? id = some statistics ∧
    statistics.covers (memo.outputOf id) = true

/-- The statistics that plans of a group are costed with: empty ones if the group has none. -/
def estimateOf (memo : Memo) (id : GroupId) : Statistics := (memo.statistics? id).getD .empty

/-- The costing is for a known context, and works with the statistics of the group. -/
def WorksWith (start current : Memo) (costing : Costing) : Prop :=
  ∃ context, current.context? costing.context = some context ∧
    costing.statistics = some (start.estimateOf (start.master context.group))

/-- A group has the statistics that it had, or empty ones in place of none. -/
def SameStatistics (before after : Option Statistics) : Prop :=
  after = before ∨ before = none ∧ after = some .empty

/-- What bounds may be stored for groups and for alternatives. -/
structure Allowance where
  group : GroupId → PlanRequirement → Cost → Prop
  expr : ExprId → BoundKey → Cost → Prop

/-- Planning has left the groups and their statistics. Whatever is noted for costing works with these,
and the bounds that are stored are allowed. -/
structure Assessed (start : Memo) (below : GroupId → GroupId → Prop) (allowed : Allowance)
    (current : Memo) : Prop extends current.Tame below where
  groups_size : current.groups.size = start.groups.size
  master : ∀ id, current.master id = start.master id
  properties : ∀ id, current.properties id = start.properties id
  statistics : ∀ id, SameStatistics (start.statistics? id) (current.statistics? id)
  noted : ∀ id group, current.group? id = some group →
    ∀ entry ∈ group.contextStatistics, entry.2 = start.estimateOf id
  groupBounds : ∀ id group, current.group? id = some group →
    ∀ entry ∈ group.lowerBounds, allowed.group id entry.1 entry.2
  exprBounds : ∀ id expr, current.expr? id = some expr →
    ∀ entry ∈ expr.bounds, allowed.expr id entry.1 entry.2
  costed : ∀ id costing, current.costing? id = some costing → costing.pruned = false →
    start.WorksWith current costing

variable {allowed : Allowance}

namespace SameStatistics

variable {first second third : Option Statistics}

theorem trans (h : SameStatistics first second) (h' : SameStatistics second third) :
    SameStatistics first third := by
  obtain rfl | ⟨rfl, rfl⟩ := h
  · exact h'
  · obtain rfl | ⟨hnone, _⟩ := h'
    · exact .inr ⟨rfl, rfl⟩
    · exact absurd hnone (by simp)

theorem getD_empty (h : SameStatistics first second) : second.getD .empty = first.getD .empty := by
  obtain rfl | ⟨rfl, rfl⟩ := h <;> rfl

end SameStatistics

theorem Assessed.estimateOf {current : Memo} (h : start.Assessed below allowed current) (id : GroupId) :
    current.estimateOf id = start.estimateOf id := (h.statistics id).getD_empty

theorem WorksWith.of_contexts {current final : Memo} {costing : Costing}
    (h : start.WorksWith current costing)
    (hcontexts : ∀ id context, current.context? id = some context →
      ∃ context', final.context? id = some context' ∧ context'.group = context.group) :
    start.WorksWith final costing := by
  obtain ⟨context, hcontext, hstatistics⟩ := h
  obtain ⟨context', hcontext', hgroup⟩ := hcontexts _ context hcontext
  exact ⟨context', hcontext', hgroup ▸ hstatistics⟩

/-- What leaves groups, estimates and costings leaves the memo assessed. -/
theorem Assessed.step {current final : Memo} (h : start.Assessed below allowed current)
    (htame : final.Tame below) (hestimates : current.SameEstimates final)
    (hsize : final.groups.size = current.groups.size)
    (hmaster : ∀ id, final.master id = current.master id)
    (hproperties : ∀ id, final.properties id = current.properties id)
    (hcontexts : ∀ id context, current.context? id = some context →
      ∃ context', final.context? id = some context' ∧ context'.group = context.group)
    (hcostings : ∀ id costing, final.costing? id = some costing → costing.pruned = false →
      current.costing? id = some costing ∨ start.WorksWith current costing) :
    start.Assessed below allowed final := by
  have hgroup (id : GroupId) (group : Group) (hgroup : final.group? id = some group) :
      ∃ before, current.group? id = some before ∧ group.estimates = before.estimates := by
    obtain ⟨before, hbefore⟩ := exists_group?_eq_some.mpr
      (hsize ▸ exists_group?_eq_some.mp ⟨group, hgroup⟩)
    obtain ⟨after, hafter, hsame⟩ := hestimates.groups id before hbefore
    obtain rfl := Option.some.inj (hgroup.symm.trans hafter)
    exact ⟨before, hbefore, hsame⟩
  refine ⟨htame, hsize.trans h.groups_size, fun id => (hmaster id).trans (h.master id),
    fun id => (hproperties id).trans (h.properties id), fun id => ?_,
    fun id group hfound => ?_, fun id group hfound => ?_, fun id expr hfound => ?_,
    fun id costing hcosting hpruned => ?_⟩
  · have hsame : final.statistics? id = current.statistics? id := by
      unfold statistics?
      cases hfound : final.group? id with
      | none =>
          rw [group?_eq_none, hsize, ← group?_eq_none] at hfound
          rw [hfound]
      | some group =>
          obtain ⟨before, hbefore, hsame⟩ := hgroup id group hfound
          rw [hbefore]
          exact congrArg Prod.fst hsame
    rw [hsame]
    exact h.statistics id
  · obtain ⟨before, hbefore, hsame⟩ := hgroup id group hfound
    rw [show group.contextStatistics = before.contextStatistics from congrArg (·.2.1) hsame]
    exact h.noted id before hbefore
  · obtain ⟨before, hbefore, hsame⟩ := hgroup id group hfound
    rw [show group.lowerBounds = before.lowerBounds from congrArg (·.2.2) hsame]
    exact h.groupBounds id before hbefore
  · obtain hnone | ⟨before, hbefore, hsame⟩ := hestimates.exprs id expr hfound
    · simp [hnone]
    · rw [hsame]
      exact h.exprBounds id before hbefore
  · obtain hknown | hworks := hcostings id costing hcosting hpruned
    · exact (h.costed id costing hknown hpruned).of_contexts hcontexts
    · exact hworks.of_contexts hcontexts

/-- A group holds a relation if it did so at the start. -/
theorem Assessed.relational_iff {current : Memo} (h : start.Assessed below allowed current) {id : GroupId} :
    current.Relational id ↔ start.Relational id := by
  rw [Memo.relational_iff, Memo.relational_iff, h.master, h.groups_size, h.properties]

/-- Relations keep their statistics. -/
theorem Assessed.statistics_eq {current : Memo} (h : start.Assessed below allowed current)
    (hestimated : start.Estimated) {id : GroupId} (hrelation : current.Relational id) :
    current.statistics? id = start.statistics? id := by
  obtain ⟨statistics, hstatistics, _⟩ := hestimated id (h.relational_iff.mp hrelation)
  refine (h.statistics id).resolve_right fun hnone => ?_
  simp [hstatistics] at hnone

/-- Notes on a group that leave its statistics, or put empty ones in place of none. Its bounds are
allowed, and the statistics of contexts are noted as those of the group. -/
theorem Assessed.modifyGroup {current : Memo} (h : start.Assessed below allowed current) {id : GroupId}
    {change : Group → Group} (hcontent : ∀ group, (change group).content = group.content)
    (hlink : ∀ group, (change group).duplicateOf = group.duplicateOf)
    (hbounds : ∀ group, current.group? id = some group →
      ∀ entry ∈ (change group).lowerBounds, allowed.group id entry.1 entry.2)
    (hstatistics : ∀ group, current.group? id = some group →
      SameStatistics group.statistics (change group).statistics)
    (hnoted : ∀ group, current.group? id = some group →
      ∀ entry ∈ (change group).contextStatistics, entry.2 = start.estimateOf id) :
    start.Assessed below allowed (current.modifyGroup id change) := by
  have hsame : SameContent current (current.modifyGroup id change) :=
    sameContent_modifyGroup hcontent hlink
  have hends := h.wellFormed.linksEnd
  have hgroup (other : GroupId) (group : Group)
      (hfound : (current.modifyGroup id change).group? other = some group) :
      ∃ before, current.group? other = some before ∧
        group = if id = other then change before else before := by
    rw [group?_modifyGroup] at hfound
    split at hfound
    · rename_i hid
      obtain ⟨before, hbefore, rfl⟩ := Option.map_eq_some_iff.mp hfound
      exact ⟨before, hbefore, by rw [if_pos hid]⟩
    · rename_i hid
      exact ⟨group, hfound, by rw [if_neg hid]⟩
  refine ⟨hsame.sameQuery.tame h.toTame, hsame.groups_size.trans h.groups_size,
    fun other => (hsame.master hends other).trans (h.master other),
    fun other => (hsame.properties other).trans (h.properties other), fun other => ?_,
    fun other group hfound entry hentry => ?_, fun other group hfound => ?_, h.exprBounds,
    fun _ _ hcosting hpruned => (h.costed _ _ hcosting hpruned).of_contexts
      fun _ context hcontext => ⟨context, hcontext, rfl⟩⟩
  · refine (h.statistics other).trans ?_
    unfold statistics?
    rw [group?_modifyGroup]
    split
    · rename_i hid
      subst hid
      cases hbefore : current.group? id with
      | none => exact .inl rfl
      | some before => exact hstatistics before hbefore
    · exact .inl rfl
  · obtain ⟨before, hbefore, rfl⟩ := hgroup other group hfound
    split at hentry
    · rename_i hid
      subst hid
      exact hnoted before hbefore entry hentry
    · exact h.noted other before hbefore entry hentry
  · obtain ⟨before, hbefore, rfl⟩ := hgroup other group hfound
    split
    · rename_i hid
      subst hid
      exact hbounds before hbefore
    · exact h.groupBounds other before hbefore

/-- A bound of a group that is allowed may be stored. -/
theorem Assessed.storeGroup {current : Memo} (h : start.Assessed below allowed current) {id : GroupId}
    {required : PlanRequirement} {least : Cost} (hallowed : allowed.group id required least) :
    start.Assessed below allowed (current.modifyGroup id fun group =>
      { group with lowerBounds := (required, least) :: group.lowerBounds }) := by
  refine h.modifyGroup (fun _ => rfl) (fun _ => rfl) (fun group hgroup entry hentry => ?_)
    (fun _ _ => .inl rfl) (h.noted id)
  rcases List.mem_cons.mp hentry with rfl | hentry
  · exact hallowed
  · exact h.groupBounds id group hgroup entry hentry

/-- A bound of an alternative that is allowed may be stored. -/
theorem Assessed.storeExpr {current : Memo} (h : start.Assessed below allowed current) {id : ExprId}
    {key : BoundKey} {bound : Cost} (hallowed : allowed.expr id key bound) :
    start.Assessed below allowed (current.modifyExpr id fun expr =>
      { expr with bounds := (key, bound) :: expr.bounds }) := by
  have hsame : SameContent current (current.modifyExpr id fun expr =>
      { expr with bounds := (key, bound) :: expr.bounds }) := sameContent_modifyExpr fun _ => rfl
  refine ⟨hsame.sameQuery.tame h.toTame, h.groups_size,
    fun other => (hsame.master h.wellFormed.linksEnd other).trans (h.master other), h.properties,
    h.statistics, h.noted, h.groupBounds, fun other found hfound entry hentry => ?_, h.costed⟩
  rw [expr?_modifyExpr] at hfound
  split at hfound
  · rename_i hid
    subst hid
    obtain ⟨before, hbefore, rfl⟩ := Option.map_eq_some_iff.mp hfound
    rcases List.mem_cons.mp hentry with rfl | hentry
    · exact hallowed
    · exact h.exprBounds id before hbefore entry hentry
  · exact h.exprBounds other found hfound entry hentry

/-! ## Steps of planning -/

/-- Looking up masters leaves an assessed memo so. -/
theorem Assessed.glance {current final : Memo} (h : start.Assessed below allowed current)
    (hsame : SameContent current final) (hestimates : current.SameEstimates final) :
    start.Assessed below allowed final :=
  h.step (hsame.sameQuery.tame h.toTame) hestimates hsame.groups_size
    (hsame.master h.wellFormed.linksEnd) hsame.properties
    (fun id context hcontext => ⟨context, (hsame.context? id).trans hcontext, rfl⟩)
    fun id _ hcosting _ => .inl ((hsame.costing? id).symm.trans hcosting)

/-- Notes on a context that leave its goal. -/
theorem Assessed.modifyContext {current : Memo} (h : start.Assessed below allowed current) {id : ContextId}
    {change : Context → Context} (hgoal : ∀ context, (change context).goal = context.goal) :
    start.Assessed below allowed (current.modifyContext id change) := by
  have hstores : current.Stores (current.modifyContext id change) := stores_modifyContext hgoal
  refine h.step (hstores.toSameQuery.tame h.toTame)
    ⟨fun _ group hgroup => ⟨group, hgroup, rfl⟩, fun _ expr hexpr => .inr ⟨expr, hexpr, rfl⟩⟩
    hstores.groups_size (hstores.toSameQuery.master h.wellFormed.linksEnd) (fun _ => rfl)
    (fun other context hcontext => ?_) fun _ _ hcosting _ => .inl hcosting
  rw [context?_modifyContext]
  split
  · exact ⟨change context, by rw [hcontext, Option.map_some], congrArg Prod.fst (hgoal context)⟩
  · exact ⟨context, hcontext, rfl⟩

/-- A costing that works with the statistics of its group may be recorded. -/
theorem Assessed.addCosting {current : Memo} (h : start.Assessed below allowed current) {candidate : Costing}
    (hworks : start.WorksWith current candidate) :
    start.Assessed below allowed (current.addCosting candidate) := by
  refine h.step (sameQuery_addCosting.tame h.toTame)
    ⟨fun _ group hgroup => ⟨group, hgroup, rfl⟩, fun id expr hexpr => ?_⟩ rfl
    (sameQuery_addCosting.master h.wellFormed.linksEnd) (fun _ => rfl)
    (fun _ context hcontext => ⟨context, hcontext, rfl⟩) fun id costing hcosting _ => ?_
  · unfold Memo.addCosting at hexpr
    rw [expr?_modifyExpr] at hexpr
    split at hexpr
    · obtain ⟨before, hbefore, rfl⟩ := Option.map_eq_some_iff.mp hexpr
      exact .inr ⟨before, hbefore, rfl⟩
    · exact .inr ⟨expr, hexpr, rfl⟩
  · rw [costing?_addCosting] at hcosting
    split at hcosting
    · exact .inr (Option.some.inj hcosting ▸ hworks)
    · exact .inl hcosting

/-- A new context has no costing yet. -/
theorem Assessed.addContext {current : Memo} (h : start.Assessed below allowed current) (owner : GroupId)
    (required : PlanRequirement) (stage : Nat) :
    start.Assessed below allowed (current.addContext owner required stage) := by
  have hestimates : current.SameEstimates (current.modifyGroup owner fun group =>
      { group with contexts := (⟨required, stage⟩, ⟨current.contexts.size⟩) :: group.contexts }) :=
    .modifyGroup fun _ => rfl
  refine h.step (sameQuery_addContext.tame h.toTame) ⟨hestimates.groups, hestimates.exprs⟩
    sameQuery_addContext.groups_size
    (sameQuery_addContext.master h.wellFormed.linksEnd) (fun id => ?_)
    (fun _ context hcontext => ⟨context, context?_addContext_of_some hcontext, rfl⟩)
    fun _ _ hcosting _ => .inl hcosting
  unfold Memo.properties
  rw [sameQuery_addContext.map_group? _ fun _ => rfl]

/-- A memo that is assessed is so afterwards, and what is to be recorded still works with the
statistics of the groups. -/
def Assesses (start : Memo) (below : GroupId → GroupId → Prop) (allowed : Allowance)
    (candidates : List Costing) (memo memo' : Memo) : Prop :=
  start.Assessed below allowed memo → (∀ candidate ∈ candidates, start.WorksWith memo candidate) →
    start.Assessed below allowed memo' ∧ ∀ candidate ∈ candidates, start.WorksWith memo' candidate

variable {candidates : List Costing}

/-- What keeps the contexts keeps what is to be recorded. -/
theorem Assesses.of_contexts {memo memo' : Memo}
    (h : start.Assessed below allowed memo → start.Assessed below allowed memo')
    (hcontexts : ∀ id context, memo.context? id = some context →
      ∃ context', memo'.context? id = some context' ∧ context'.group = context.group) :
    Assesses start below allowed candidates memo memo' := fun hstart hworks =>
  ⟨h hstart, fun candidate hcandidate => (hworks candidate hcandidate).of_contexts hcontexts⟩

theorem Assesses.of_goals {memo memo' : Memo}
    (h : start.Assessed below allowed memo → start.Assessed below allowed memo')
    (hgoals : ∀ id, (memo'.context? id).map Context.goal = (memo.context? id).map Context.goal) :
    Assesses start below allowed candidates memo memo' := by
  refine .of_contexts h fun id context hcontext => ?_
  have hgoal := hgoals id
  rw [hcontext] at hgoal
  obtain ⟨context', hcontext', hsame⟩ := Option.map_eq_some_iff.mp hgoal
  exact ⟨context', hcontext', congrArg Prod.fst hsame⟩

instance : Glancing (Assesses start below allowed candidates) where
  refl _ h hworks := ⟨h, hworks⟩
  trans _ _ _ h h' hstart hworks :=
    have hmiddle := h hstart hworks
    h' hmiddle.1 hmiddle.2
  compressed memo id := .of_goals
    (fun h => h.glance (sameContent_compress id) (SameEstimates.compress memo id))
    (sameContent_compress id).stores.goals

/-- Any bound may be stored. -/
def Allowance.all : Allowance := ⟨fun _ _ _ => True, fun _ _ _ => True⟩

instance : Weighing (Assesses start below .all candidates) where
  groupBounded _ _ _ _ := .of_contexts (fun h => h.storeGroup trivial)
    fun _ context hcontext => ⟨context, hcontext, rfl⟩
  exprBounded _ _ _ _ := .of_contexts (fun h => h.storeExpr trivial)
    fun _ context hcontext => ⟨context, hcontext, rfl⟩

instance : Optimizer.Settles (Assesses start below allowed candidates) where
  settled memo id costing := by
    have hstores : memo.Stores (memo.setBest id costing) := stores_modifyContext fun _ => rfl
    exact .of_goals (fun h => h.modifyContext fun _ => rfl) hstores.goals

end Memo

/-! ## Costing with the statistics of groups -/

open Memo (Assesses)

variable {start memo current : Memo} {below : GroupId → GroupId → Prop} {allowed : Memo.Allowance}

namespace Planning

/-- Resolving a group answers its master from the start. -/
theorem Post.resolveAssessed (h : start.Assessed below allowed current) {id : GroupId} :
    Post (Planning.resolve id) current
      (fun master final => master = start.master id ∧ SameContent current final ∧
        start.Assessed below allowed final)
      (fun _ final => start.Assessed below allowed final) :=
  (Post.resolveIfKnown.both (keeps_resolve (R := Assesses start below allowed []) current)).mono
    (fun _ _ hfinal => ⟨hfinal.1.2.1.trans (h.master id), hfinal.1.2.2, (hfinal.2 h (by simp)).1⟩)
    fun _ _ hfail => (hfail.2 h (by simp)).1

/-- The statistics of a group are there, or it gets empty ones if it holds scalars. -/
theorem Post.deriveEstimated (hestimated : start.Estimated) (h : start.Assessed below allowed current)
    {aborted : Bool} {id : GroupId} {wanted : ColumnSet} (hmaster : start.master id = id) :
    Post (deriveStatistics aborted id wanted) current
      (fun found final => start.Assessed below allowed final ∧ SameContent current final ∧
        found = start.estimateOf id)
      (fun _ final => start.Assessed below allowed final) := by
  obtain ⟨fuel, hfuel⟩ : ∃ fuel, current.depthLimit = fuel + 1 := by
    have hlimit : 0 < Nat.pow 2 62 := by decide
    exact ⟨current.depthLimit - 1, by unfold Memo.depthLimit; omega⟩
  unfold deriveStatistics
  refine Post.bind (Post.get ?_)
  rw [hfuel]
  unfold deriveUpTo
  refine Post.bind (Post.checkAbort (fun _ => ?_) fun _ => h)
  refine (Post.resolveAssessed h).andThen (fun _ _ hfail => hfail) ?_
  rintro _ looked ⟨rfl, hsame, hlooked⟩
  rw [hmaster]
  refine Post.bind (Post.group (fun found hfound => ?_) fun _ => hlooked)
  have hestimate : found.statistics.getD .empty = start.estimateOf id := by
    rw [← hlooked.estimateOf id, Memo.estimateOf, Memo.statistics?, hfound, Option.bind_some]
  split
  · unfold scalarStatistics
    split
    · rename_i statistics hstatistics
      rw [hstatistics] at hestimate
      exact Post.pure ⟨hlooked, hsame, hestimate⟩
    · rename_i hnone
      rw [hnone] at hestimate
      refine Post.bind (Post.modify (Post.pure
        ⟨hlooked.modifyGroup (fun _ => rfl) (fun _ => rfl) (hlooked.groupBounds id)
          (fun group hgroup => ?_) (fun group hgroup => hlooked.noted id group hgroup),
          hsame.trans (Memo.sameContent_modifyGroup (fun _ => rfl) fun _ => rfl), hestimate⟩))
      obtain rfl := Option.some.inj (hfound.symm.trans hgroup)
      exact .inr ⟨hnone, rfl⟩
  · rename_i logical hproperties
    have hrelation : start.Relational id := hlooked.relational_iff.mp
      ⟨(hlooked.master id).trans hmaster, found, hfound,
        by simp [Group.isScalar, GroupProperties.isScalar, hproperties]⟩
    obtain ⟨statistics, hstatistics, hcovers⟩ := hestimated id hrelation
    have hfoundStatistics : found.statistics = some statistics := by
      have hkept : looked.statistics? id = found.statistics := by
        rw [Memo.statistics?, hfound, Option.bind_some]
      obtain hsame | ⟨hnone, _⟩ := hlooked.statistics id
      · rw [← hkept, hsame, hstatistics]
      · exact absurd (hstatistics.symm.trans hnone) (by simp)
    have houtput : start.outputOf id = logical.output := by
      rw [Memo.outputOf_eq, ← hlooked.properties id, Memo.properties, hfound, Option.map_some,
        Option.getD_some, hproperties]
      rfl
    have hall : statistics.covers (wanted.inter logical.output) = true := by
      refine List.all_eq_true.mpr fun column hcolumn => ?_
      rw [← KeyedSet.mem_iff, KeyedSet.mem_inter] at hcolumn
      exact List.all_eq_true.mp hcovers column (KeyedSet.mem_iff.mp (houtput ▸ hcolumn.2))
    dsimp only
    rw [hfoundStatistics, Option.filter_some, hall]
    rw [hfoundStatistics] at hestimate
    exact Post.pure ⟨hlooked, hsame, hestimate⟩

/-- The statistics for a context are those of its group. -/
theorem Post.contextEstimates (hestimated : start.Estimated) (h : start.Assessed below allowed current)
    {aborted : Bool} {id : ContextId} :
    Post (contextStatistics aborted id) current
      (fun found final => start.Assessed below allowed final ∧ ∃ context, final.context? id = some context ∧
        found = start.estimateOf (start.master context.group))
      (fun _ final => start.Assessed below allowed final) := by
  unfold contextStatistics
  refine Post.bind (Post.context (fun context hcontext => ?_) fun _ => h)
  refine (Post.resolveAssessed h).andThen (fun _ _ hfail => hfail) ?_
  rintro _ looked ⟨rfl, hsame, hlooked⟩
  refine Post.bind (Post.group (fun found hfound => ?_) fun _ => hlooked)
  split
  · rename_i statistics hnoted
    obtain ⟨before, after, hentries, _⟩ := List.lookup_eq_some_iff.mp hnoted
    exact Post.pure ⟨hlooked, context, (hsame.context? id).trans hcontext,
      hlooked.noted _ found hfound (id, statistics) (by simp [hentries])⟩
  · have hmaster : start.master (start.master context.group) = start.master context.group := by
      rw [← h.master, ← h.master, h.wellFormed.linksEnd.master_master]
    refine (Post.deriveEstimated hestimated hlooked hmaster).andThen (fun _ _ hfail => hfail) ?_
    rintro derived final ⟨hfinal, hderived, hstatistics⟩
    refine Post.bind (Post.modify (Post.pure ⟨hfinal.modifyGroup (fun _ => rfl) (fun _ => rfl)
      (hfinal.groupBounds _) (fun _ _ => .inl rfl) fun group hgroup entry hentry => ?_, context,
      ((hsame.trans hderived).context? id).trans hcontext, hstatistics⟩))
    rcases List.mem_cons.mp hentry with rfl | hentry
    · exact hstatistics
    · exact hfinal.noted _ group hgroup entry hentry

end Planning

/-- Recording a costing that works with the statistics of its group. -/
theorem Planning.keeps_insertCosting_estimated (candidate : Costing) :
    Keeps (Assesses start below allowed [candidate]) (Planning.insertCosting candidate) := by
  refine Optimizer.Settles.keeps_insertCosting_of fun memo h hworks => ⟨?_, fun other hother => ?_⟩
  · exact h.addCosting (hworks candidate (by simp))
  · exact (hworks other hother).of_contexts fun _ context hcontext => ⟨context, hcontext, rfl⟩

/-- Costing an alternative records at most a costing that works with the statistics of its group. -/
theorem Planner.keeps_cost_estimated (hestimated : start.Estimated) {planner : Planner}
    {id : ExprId} {own : ContextId} {request : Nat} {children : List (Option ContextId)} :
    Keeps (Assesses start below allowed []) (planner.cost id own request children) := by
  unfold Planner.cost
  refine Keeps.bind Planning.keeps_checkAbort fun _ => ?_
  refine Keeps.bind Planning.keeps_expr fun expr => ?_
  split
  · refine Keeps.bind ?_ fun recorded => ?_
    · cases expr.costings.lookup (own, request) with
      | none => exact Keeps.pure
      | some _ => exact Keeps.bind Planning.keeps_costing fun _ => Keeps.pure
    · split
      · exact Keeps.pure
      · refine Keeps.bind Planning.keeps_context fun found => ?_
        refine Keeps.bind Planning.keeps_viewOver fun view => ?_
        split
        · exact Keeps.pure
        · dsimp only
          split
          · exact Keeps.pure
          · refine Keeps.whenever fun memo h => ?_
            refine (Planning.Post.contextEstimates hestimated h).andThen
              (fun _ _ hfail _ => ⟨hfail, by simp⟩) ?_
            rintro statistics middle ⟨hmiddle, context, hcontext, hstatistics⟩
            refine Planning.Post.inputsOfBests.andThen
              (fun _ _ hfail _ => ⟨hfail ▸ hmiddle, by simp⟩) ?_
            rintro (_ | inputs) _ ⟨rfl, _⟩
            · exact Post.pure fun _ => ⟨hmiddle, by simp⟩
            · refine (Planning.keeps_insertCosting_estimated _ _).mono
                (fun _ _ hfinal _ => ⟨(hfinal hmiddle ?_).1, by simp⟩)
                fun _ _ hfinal _ => ⟨(hfinal hmiddle ?_).1, by simp⟩ <;>
              · intro candidate hcandidate
                obtain rfl := List.mem_singleton.mp hcandidate
                exact ⟨context, hcontext, congrArg some hstatistics⟩
  · exact Keeps.pure

/-- A planner that does not prune leaves groups and statistics, whatever it does. -/
theorem Optimizer.works_estimated (hestimated : start.Estimated) {planner : Planner}
    (hpruning : planner.config.pruning = false) :
    Optimizer.Works planner (Assesses start below allowed []) where
  weighed hprunes := absurd (hpruning.symm.trans hprunes) (by simp)
  costed _ _ _ _ := Planner.keeps_cost_estimated hestimated
  givenUp hprunes := absurd (hpruning.symm.trans hprunes) (by simp)
  marked memo id state := by
    have hstores : memo.Stores (memo.modifyContext id fun context => { context with state }) :=
      Memo.stores_modifyContext fun _ => rfl
    exact .of_goals (fun h => h.modifyContext fun _ => rfl) hstores.goals
  created _ _ _ _ := .of_contexts (fun h => h.addContext ..) fun _ context hcontext =>
    ⟨context, Memo.context?_addContext_of_some hcontext, rfl⟩
  enforced enforcer group origin hcatalogued henforcer := by
    refine Keeps.whenever fun memo h => ?_
    by_cases hknown : group.index < memo.groups.size
    · refine ((Planning.Post.insertAbove h.wellFormed (h.toTame.enclosesEnforcers _) hknown
        hcatalogued henforcer).both (Memo.Inserting.keeps_insert
          (R := Memo.SameEstimates) memo)).mono ?_ fun _ _ hfail => hfail.1.elim
      rintro _ _ ⟨⟨middle, hsame, ⟨_, rfl⟩ | ⟨_, rfl⟩⟩, hestimates⟩ _
      · exact ⟨h.glance hsame hestimates, by simp⟩
      · -- the new enforcer is not costed yet
        have hends := hsame.linksEnd h.wellFormed.linksEnd
        have hmaster := h.wellFormed.masterKnown group hknown
        rw [← hsame.groups_size] at hmaster
        have hevolves : Memo.Evolves [] memo (middle.addAlternative (.physical enforcer)
            [memo.master group] (memo.master group) origin) :=
          (hsame.evolves h.wellFormed.linksEnd).trans
            (Memo.evolves_addAlternative hends hmaster henforcer)
        refine ⟨h.step ((hsame.sameQuery.tame h.toTame).addEnforcer hcatalogued henforcer hmaster)
          hestimates hevolves.groups_size hevolves.master hevolves.properties
          (fun id context hcontext => ⟨context, (hsame.context? id).trans hcontext, rfl⟩)
          fun id _ hcosting _ => .inl ((hsame.costing? id).symm.trans hcosting), by simp⟩
    · refine (Planning.Post.insert_fails fun hvalid => hknown (hvalid.known group (by simp))).mono
        (fun _ _ hok => hok.elim) fun _ _ hfail _ => ⟨hfail ▸ h, by simp⟩

namespace Memo

/-- Nothing is noted for costing plans: no bounds, and no statistics for contexts. -/
structure Unnoted (memo : Memo) : Prop where
  groups : ∀ id group, memo.group? id = some group →
    group.contextStatistics = [] ∧ group.lowerBounds = []
  exprs : ∀ id expr, memo.expr? id = some expr → expr.bounds = []

/-- A memo in which nothing is planned or noted yet. -/
theorem Unnoted.assessed (h : start.Unnoted) (hunplanned : start.Unplanned)
    (htame : start.Tame below) : start.Assessed below allowed start where
  toTame := htame
  groups_size := rfl
  master _ := rfl
  properties _ := rfl
  statistics _ := .inl rfl
  noted id group hgroup entry hentry := by simp [(h.groups id group hgroup).1] at hentry
  groupBounds id group hgroup entry hentry := by simp [(h.groups id group hgroup).2] at hentry
  exprBounds id expr hexpr entry hentry := by simp [h.exprs id expr hexpr] at hentry
  costed id costing hcosting := by simp [costing?, hunplanned.costings] at hcosting

/-- Whatever a call without pruning does, every costing works with the statistics that the group had at
the start, and no bound is stored. -/
theorem Estimated.assessed_optimize (hestimated : start.Estimated)
    (h : start.Assessed below allowed current) {call : OptimizeCall}
    (hpruning : call.planner.config.pruning = false) :
    start.Assessed below allowed (Planning.exec call.run current).2 := by
  have : Optimizer.Works call.planner (Assesses start below allowed []) :=
    Optimizer.works_estimated hestimated hpruning
  have hkeeps : Keeps (Assesses start below allowed []) call.run := Optimizer.Works.keeps_optimize
  exact ((hkeeps current).exec_snd h (by simp)).1

end Memo

end QueryPlanner
