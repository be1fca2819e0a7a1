import QueryPlanner.Proofs.Optimizer.Preference

/-!
# What planning adds to a memo

Planning adds contexts, costings and enforcers, and it changes the notes on a context that it works
on. Each of these steps leaves all that was found before in order, whatever contexts are held
(`Memo.Advances`).
-/

namespace QueryPlanner.Memo

variable {planners : List Planner} {below : GroupId → GroupId → Prop} {memo memo' : Memo}
  {held : List ContextId}

/-! ## Planning goes on -/

/-- Planning goes on from a memo and leaves all in order. When costs are equal or well apart, the best
costings stay the best of all that are registered. -/
structure Advances (planners : List Planner) (below : GroupId → GroupId → Prop)
    (held : List ContextId) (memo memo' : Memo) : Prop where
  evolves : Evolves held memo memo'
  settled : memo'.Settled planners below
  peaks : PricesApart planners → memo.Peaks → memo'.Peaks

theorem Settled.advances (h : memo.Settled planners below) :
    Advances planners below held memo memo :=
  ⟨.refl memo, h, fun _ hpeaks => hpeaks⟩

theorem Advances.trans {middle : Memo} (h : Advances planners below held memo middle)
    (h' : Advances planners below held middle memo') : Advances planners below held memo memo' :=
  ⟨h.evolves.trans h'.evolves, h'.settled, fun hprices hpeaks => h'.peaks hprices (h.peaks hprices hpeaks)⟩

/-- Fewer contexts are held further up. -/
theorem Advances.mono {fewer : List ContextId} (h : Advances planners below held memo memo')
    (hfewer : fewer ⊆ held) : Advances planners below fewer memo memo' :=
  ⟨h.evolves.mono hfewer, h.settled, h.peaks⟩

/-- Where bests stay and nothing new is registered, the bests stay the best. -/
theorem Settled.advancesTo (h : memo.Settled planners below) (hevolves : Evolves held memo memo')
    (hsettled : memo'.Settled planners below) (hbest : ∀ id, memo'.best? id = memo.best? id)
    (hslots : ∀ id expr, memo'.expr? id = some expr → ∀ entry ∈ expr.costings,
      ∃ before, memo.expr? id = some before ∧ entry ∈ before.costings) :
    Advances planners below held memo memo' :=
  ⟨hevolves, hsettled, fun _ hpeaks => hpeaks.evolves h hevolves hbest
    fun id expr hexpr entry hentry _ => ⟨by simp, hslots id expr hexpr entry hentry⟩⟩

/-- Quiet computations leave all in order. -/
theorem Settled.quiet (h : memo.Settled planners below) (hsame : SameContent memo memo') :
    Advances planners below held memo memo' := by
  have hevolves : Evolves held memo memo' := hsame.evolves h.wellFormed.linksEnd
  have hslots (id : ExprId) (expr : MemoExpr) (hexpr : memo'.expr? id = some expr) :
      ∃ before, memo.expr? id = some before ∧ expr.costings = before.costings := by
    obtain ⟨before, hbefore, hcontent⟩ := hsame.exists_expr_before hexpr
    exact ⟨before, hbefore, congrArg (·.costings) hcontent⟩
  refine h.advancesTo hevolves ⟨hsame.sameQuery.tame h.toTame, ?_, ?_, ?_, ?_, ?_, ?_, ?_⟩ ?_ ?_
  · intro id context hcontext
    rw [hsame.context?] at hcontext
    rw [hevolves.master]
    exact h.contextHome id context hcontext
  · intro id context hcontext
    rw [hsame.context?] at hcontext
    obtain ⟨group, hgroup, hfiled⟩ := h.filed id context hcontext
    obtain ⟨group', hgroup', hcontent⟩ := hsame.exists_group hgroup
    refine ⟨group', hgroup', ?_⟩
    rwa [show group'.contexts = group.contexts from congrArg (·.contexts) hcontent]
  · intro id group hgroup entry hentry
    obtain ⟨before, hbefore, hcontent⟩ := hsame.exists_group_before hgroup
    rw [show group.contexts = before.contexts from congrArg (·.contexts) hcontent] at hentry
    rw [hsame.context?]
    exact h.entries id before hbefore entry hentry
  · intro id context best hcontext hbest
    rw [hsame.context?] at hcontext
    rw [hsame.costing?]
    exact h.best id context best hcontext hbest
  · intro id expr hexpr entry hentry
    obtain ⟨before, hbefore, hcostings⟩ := hslots id expr hexpr
    rw [hsame.costing?]
    exact h.slots id before hbefore entry (hcostings ▸ hentry)
  · intro id costing hcosting hpruned
    rw [hsame.costing?] at hcosting
    exact (h.accounted id costing hcosting hpruned).evolves hevolves
  · intro id costing hcosting hpruned
    rw [hsame.costing?] at hcosting
    exact (h.beaten id costing hcosting hpruned).evolves hevolves
  · intro id
    unfold Memo.best?
    rw [hsame.context?]
  · intro id expr hexpr entry hentry
    obtain ⟨before, hbefore, hcostings⟩ := hslots id expr hexpr
    exact ⟨before, hbefore, hcostings ▸ hentry⟩

/-! ## Changes of contexts -/

/-- Changing the notes on a context that is neither optimized nor held. -/
theorem Settled.modifyContext (h : memo.Settled planners below) {own : ContextId}
    {context : Context} {change : Context → Context} (hown : memo.context? own = some context)
    (hopen : context.state ≠ .optimized) (hheld : own ∉ held)
    (hgoal : (change context).goal = context.goal) (hstage : (change context).stage = context.stage)
    (hkeeps : context.best.isSome → (change context).best.isSome)
    (hbest : ∀ best, (change context).best = some best → ∃ costing,
      memo.costing? best = some costing ∧ costing.context = own ∧ costing.pruned = false) :
    Evolves held memo (memo.modifyContext own change) ∧
      (memo.modifyContext own change).Settled planners below := by
  have hsame : SameQuery memo (memo.modifyContext own change) := sameQuery_modifyContext
  have hcontexts (id : ContextId) : ((memo.modifyContext own change).context? id) =
      if own = id then some (change context) else memo.context? id :=
    context?_modifyContext_eq hown id
  have hevolves : Evolves held memo (memo.modifyContext own change) :=
    evolves_modifyContext h.wellFormed.linksEnd hown hopen hheld hgoal hstage hkeeps
  have hbefore (id : ContextId) (found : Context)
      (hfound : (memo.modifyContext own change).context? id = some found) :
      ∃ before, memo.context? id = some before ∧ found.goal = before.goal ∧
        found.stage = before.stage := by
    rw [hcontexts] at hfound
    split at hfound
    · rename_i hid
      obtain rfl := Option.some.inj hfound
      exact ⟨context, hid ▸ hown, hgoal, hstage⟩
    · exact ⟨found, hfound, rfl, rfl⟩
  refine ⟨hevolves, hsame.tame h.toTame, ?_, ?_, ?_, ?_, h.slots, ?_, ?_⟩
  · intro id found hfound
    obtain ⟨before, hbefore, hsameGoal, _⟩ := hbefore id found hfound
    rw [hevolves.master, show found.group = before.group from congrArg Prod.fst hsameGoal]
    exact h.contextHome id before hbefore
  · intro id found hfound
    obtain ⟨before, hbefore, hsameGoal, hsameStage⟩ := hbefore id found hfound
    rw [show found.group = before.group from congrArg Prod.fst hsameGoal,
      show found.required = before.required from congrArg Prod.snd hsameGoal, hsameStage]
    exact h.filed id before hbefore
  · intro id group hgroup entry hentry
    obtain ⟨before, hbefore, hentryGoal, hentryStage⟩ := h.entries id group hgroup entry hentry
    obtain ⟨found, hfound, hsameGoal, hsameStage, _⟩ := hevolves.context _ _ hbefore
    exact ⟨found, hfound, hsameGoal.trans hentryGoal, hsameStage.trans hentryStage⟩
  · intro id found best hfound hheldBest
    rw [hcontexts] at hfound
    split at hfound
    · rename_i hid
      obtain rfl := Option.some.inj hfound
      exact hid ▸ hbest best hheldBest
    · exact h.best id found best hfound hheldBest
  · exact fun id costing hcosting hpruned => (h.accounted id costing hcosting hpruned).evolves hevolves
  · exact fun id costing hcosting hpruned => (h.beaten id costing hcosting hpruned).evolves hevolves

/-! ## A new context -/

/-- The memo with one more context of a group. -/
def addContext (memo : Memo) (id : GroupId) (required : PlanRequirement) (stage : Nat) : Memo :=
  { memo with contexts := memo.contexts.push { group := id, required, stage } }.modifyGroup id
    fun group => { group with
      contexts := ({ required, stage }, ⟨memo.contexts.size⟩) :: group.contexts }

section AddContext

variable {owner : GroupId} {required : PlanRequirement} {stage : Nat}

theorem context?_addContext {id : ContextId} :
    (memo.addContext owner required stage).context? id =
      if id = ⟨memo.contexts.size⟩ then some { group := owner, required, stage }
      else memo.context? id := by
  obtain ⟨index⟩ := id
  simp [context?, addContext, modifyGroup, Array.getElem?_push]

/-- The contexts from before stay. -/
theorem context?_addContext_of_some {id : ContextId} {context : Context}
    (hcontext : memo.context? id = some context) :
    (memo.addContext owner required stage).context? id = some context := by
  rw [context?_addContext, if_neg, hcontext]
  rintro rfl
  simp [context?] at hcontext

theorem best?_addContext {id : ContextId} :
    (memo.addContext owner required stage).best? id = memo.best? id := by
  unfold best?
  rw [context?_addContext]
  split
  · rename_i hid
    subst hid
    simp [context?]
  · rfl

theorem sameQuery_addContext : SameQuery memo (memo.addContext owner required stage) where
  groups id := by
    unfold addContext
    rw [group?_modifyGroup]
    split
    · rw [Option.map_map]
      rfl
    · rfl
  exprs _ := rfl
  links hends := by
    have hlinks (id : GroupId) :
        (memo.addContext owner required stage).link? id = memo.link? id := by
      unfold link? addContext
      rw [group?_modifyGroup]
      split
      · rw [Option.bind_map]
        rfl
      · rfl
    exact ⟨hends.congr hlinks, master_congr _ hends hlinks⟩

/-- The new context is filed with its group; no other group changes. -/
theorem group?_addContext {id : GroupId} {group : Group}
    (hgroup : (memo.addContext owner required stage).group? id = some group) :
    ∃ before, memo.group? id = some before ∧ group.contexts =
      if owner = id then (⟨required, stage⟩, ⟨memo.contexts.size⟩) :: before.contexts
      else before.contexts := by
  unfold addContext at hgroup
  rw [group?_modifyGroup] at hgroup
  split at hgroup
  · rename_i howner
    obtain ⟨before, hbefore, rfl⟩ := Option.map_eq_some_iff.mp hgroup
    exact ⟨before, hbefore, by rw [if_pos howner]⟩
  · rename_i howner
    exact ⟨group, hgroup, by rw [if_neg howner]⟩

theorem evolves_addContext (hends : memo.LinksEnd) :
    Evolves held memo (memo.addContext owner required stage) where
  groups_size := sameQuery_addContext.groups_size
  master := sameQuery_addContext.master hends
  properties _ := by
    unfold Memo.properties
    rw [sameQuery_addContext.map_group? _ fun _ => rfl]
  expr _ expr hexpr := ⟨expr, hexpr, rfl, rfl, rfl⟩
  context _ context hcontext :=
    ⟨context, context?_addContext_of_some hcontext, rfl, rfl, fun hbest => hbest, fun _ => rfl⟩
  costing _ _ hcosting := hcosting
  alternatives id := sameQuery_addContext.alternativesOf id ▸ List.prefix_refl _
  added id _ halternative := .inl (sameQuery_addContext.alternativesOf id ▸ halternative)

/-- A new context of a master. -/
theorem Settled.addContext (h : memo.Settled planners below)
    (howner : memo.master owner = owner) (hknown : owner.index < memo.groups.size) :
    Advances planners below held memo (memo.addContext owner required stage) := by
  have hsame : SameQuery memo (memo.addContext owner required stage) := sameQuery_addContext
  have hevolves : Evolves held memo (memo.addContext owner required stage) :=
    evolves_addContext h.wellFormed.linksEnd
  -- the owner files the new context before all others
  have hgroup (id : GroupId) (before : Group) (hbefore : memo.group? id = some before) :
      ∃ group, (memo.addContext owner required stage).group? id = some group ∧ group.contexts =
        if owner = id then (⟨required, stage⟩, ⟨memo.contexts.size⟩) :: before.contexts
        else before.contexts := by
    obtain ⟨group, hgroup⟩ := exists_group?_eq_some.mpr
      (hevolves.groups_size ▸ exists_group?_eq_some.mp ⟨before, hbefore⟩)
    obtain ⟨before', hbefore', hcontexts⟩ := group?_addContext hgroup
    obtain rfl := Option.some.inj (hbefore.symm.trans hbefore')
    exact ⟨group, hgroup, hcontexts⟩
  refine h.advancesTo hevolves ⟨hsame.tame h.toTame, ?_, ?_, ?_, ?_, h.slots, ?_, ?_⟩
    (fun _ => best?_addContext) fun id expr hexpr entry hentry => ⟨expr, hexpr, hentry⟩
  · intro id context hcontext
    rw [hevolves.master]
    rw [context?_addContext] at hcontext
    split at hcontext
    · obtain rfl := Option.some.inj hcontext
      exact howner
    · exact h.contextHome id context hcontext
  · intro id context hcontext
    rw [context?_addContext] at hcontext
    split at hcontext
    · rename_i hid
      obtain rfl := Option.some.inj hcontext
      obtain ⟨before, hbefore⟩ := exists_group?_eq_some.mpr hknown
      obtain ⟨group, hgroup, hcontexts⟩ := hgroup owner before hbefore
      exact ⟨group, hgroup, by rw [hcontexts, if_pos rfl, hid]; exact .head _⟩
    · obtain ⟨before, hbefore, hfiled⟩ := h.filed id context hcontext
      obtain ⟨group, hgroup, hcontexts⟩ := hgroup _ before hbefore
      refine ⟨group, hgroup, ?_⟩
      rw [hcontexts]
      split
      · exact .tail _ hfiled
      · exact hfiled
  · intro id group hgroup entry hentry
    obtain ⟨before, hbefore, hcontexts⟩ := group?_addContext hgroup
    -- what is filed leads to a context with that goal, the new entry to the new one
    have hcases : entry ∈ before.contexts ∨
        owner = id ∧ entry = (⟨required, stage⟩, ⟨memo.contexts.size⟩) := by
      rw [hcontexts] at hentry
      split at hentry
      · rename_i hid
        exact (List.mem_cons.mp hentry).symm.imp_right fun hnew => ⟨hid, hnew⟩
      · exact .inl hentry
    rcases hcases with hold | ⟨rfl, rfl⟩
    · obtain ⟨context, hcontext, hgoal, hstage⟩ := h.entries id before hbefore entry hold
      exact ⟨context, context?_addContext_of_some hcontext, hgoal, hstage⟩
    · exact ⟨_, by rw [context?_addContext, if_pos rfl], rfl, rfl⟩
  · intro id context best hcontext hbest
    rw [context?_addContext] at hcontext
    split at hcontext
    · obtain rfl := Option.some.inj hcontext
      simp at hbest
    · exact h.best id context best hcontext hbest
  · exact fun id costing hcosting hpruned => (h.accounted id costing hcosting hpruned).evolves hevolves
  · exact fun id costing hcosting hpruned => (h.beaten id costing hcosting hpruned).evolves hevolves

end AddContext

/-! ## A new costing -/

section AddCosting

variable {candidate : Costing}

theorem costing?_addCosting {id : CostingId} :
    (memo.addCosting candidate).costing? id =
      if id = ⟨memo.costings.size⟩ then some candidate else memo.costing? id := by
  obtain ⟨index⟩ := id
  simp [costing?, addCosting, modifyExpr, Array.getElem?_push]

/-- The costings from before stay. -/
theorem costing?_addCosting_of_some {id : CostingId} {costing : Costing}
    (hcosting : memo.costing? id = some costing) :
    (memo.addCosting candidate).costing? id = some costing := by
  rw [costing?_addCosting, if_neg, hcosting]
  rintro rfl
  simp [costing?] at hcosting

theorem sameQuery_addCosting : SameQuery memo (memo.addCosting candidate) where
  groups _ := rfl
  exprs id := by
    unfold addCosting
    rw [expr?_modifyExpr]
    split
    · rw [Option.map_map]
      rfl
    · rfl
  links hends := ⟨hends.congr fun _ => rfl, master_congr _ hends fun _ => rfl⟩

/-- A new costing takes the place of an older one for its context and request. -/
theorem mem_costings_addCosting {id : ExprId} {expr : MemoExpr}
    {entry : (ContextId × Nat) × CostingId}
    (hexpr : (memo.addCosting candidate).expr? id = some expr) (hentry : entry ∈ expr.costings) :
    entry = ((candidate.context, candidate.request), ⟨memo.costings.size⟩) ∨
      ∃ before, memo.expr? id = some before ∧ entry ∈ before.costings := by
  unfold addCosting at hexpr
  rw [expr?_modifyExpr] at hexpr
  split at hexpr
  · obtain ⟨before, hbefore, rfl⟩ := Option.map_eq_some_iff.mp hexpr
    rcases List.mem_cons.mp hentry with hnew | hold
    · exact .inl hnew
    · exact .inr ⟨before, hbefore, List.mem_of_mem_filter hold⟩
  · exact .inr ⟨expr, hexpr, hentry⟩

theorem evolves_addCosting (hends : memo.LinksEnd) :
    Evolves held memo (memo.addCosting candidate) where
  groups_size := rfl
  master := sameQuery_addCosting.master hends
  properties _ := rfl
  expr _ _ hexpr := by
    obtain ⟨expr', hexpr', houtline⟩ := sameQuery_addCosting.exists_expr hexpr
    exact ⟨expr', hexpr', congrArg (·.op) houtline, congrArg (·.children) houtline,
      congrArg (·.group) houtline⟩
  context _ context hcontext := ⟨context, hcontext, rfl, rfl, id, fun _ => rfl⟩
  costing _ _ hcosting := costing?_addCosting_of_some hcosting
  alternatives _ := List.prefix_refl _
  added _ _ := .inl

/-- A new costing, right in all that it records, or given up for one that is cheaper. It was not
offered yet. -/
theorem Settled.addCosting (h : memo.Settled planners below)
    (hcandidate : candidate.pruned = false → memo.Accounted planners below candidate)
    (hbeaten : candidate.pruned = true → memo.Beaten candidate) :
    Evolves held memo (memo.addCosting candidate) ∧
      (memo.addCosting candidate).Settled planners below ∧
      (memo.Peaks → (memo.addCosting candidate).PeaksBut (some ⟨memo.costings.size⟩)) := by
  have hsame : SameQuery memo (memo.addCosting candidate) := sameQuery_addCosting
  have hevolves : Evolves held memo (memo.addCosting candidate) :=
    evolves_addCosting h.wellFormed.linksEnd
  refine ⟨hevolves, ⟨hsame.tame h.toTame, ?_, h.filed, h.entries, ?_, ?_, ?_, ?_⟩,
    fun hpeaks => hpeaks.evolves h hevolves (fun _ => rfl) ?_⟩
  · intro id context hcontext
    rw [hevolves.master]
    exact h.contextHome id context hcontext
  · intro id context best hcontext hbest
    obtain ⟨costing, hcosting, hrest⟩ := h.best id context best hcontext hbest
    exact ⟨costing, costing?_addCosting_of_some hcosting, hrest⟩
  · intro id expr hexpr entry hentry
    rcases mem_costings_addCosting hexpr hentry with rfl | ⟨before, hbefore, hold⟩
    · exact ⟨candidate, by rw [costing?_addCosting, if_pos rfl], rfl⟩
    · obtain ⟨costing, hcosting, hown⟩ := h.slots id before hbefore entry hold
      exact ⟨costing, costing?_addCosting_of_some hcosting, hown⟩
  · intro id costing hcosting hpruned
    rw [costing?_addCosting] at hcosting
    split at hcosting
    · obtain rfl := Option.some.inj hcosting
      exact (hcandidate hpruned).evolves hevolves
    · exact (h.accounted id costing hcosting hpruned).evolves hevolves
  · intro id costing hcosting hpruned
    rw [costing?_addCosting] at hcosting
    split at hcosting
    · obtain rfl := Option.some.inj hcosting
      exact (hbeaten hpruned).evolves hevolves
    · exact (h.beaten id costing hcosting hpruned).evolves hevolves
  · intro id expr hexpr entry hentry hold
    rcases mem_costings_addCosting hexpr hentry with rfl | hbefore
    · exact absurd rfl hold
    · exact ⟨by simp, hbefore⟩

end AddCosting

/-! ## A new enforcer -/

section AddEnforcer

variable {enforcer : PhysicalOperator} {owner : GroupId} {origin : Option Origin}

/-- An enforcer above its group keeps a memo tame: it adds no way down to another group. -/
theorem Tame.addEnforcer (h : memo.Tame below) (hcatalogued : enforcer.isCatalogued = true)
    (henforcer : enforcer.isEnforcer = true) (hknown : owner.index < memo.groups.size) :
    (memo.addAlternative (.physical enforcer) [owner] owner origin).Tame below := by
  have hmasters := master_congr (memo.addAlternative (.physical enforcer) [owner] owner
    origin) h.wellFormed.linksEnd link?_addAlternative
  refine ⟨h.wellFormed.addAlternative hknown (by simpa using hknown) ?_, ?_, ?_, ?_⟩
  · intro count hcount
    have : (1 : Nat) = count :=
      Option.some.inj
        ((PhysicalOperator.arity_of_enforcer hcatalogued henforcer).symm.trans hcount)
    simpa using this
  · intro id expr op hexpr hop
    rw [expr?_addAlternative] at hexpr
    split at hexpr
    · obtain rfl := Option.some.inj hexpr
      obtain rfl := Operator.physical.inj hop
      exact hcatalogued
    · exact h.catalogued id expr op hexpr hop
  · intro id expr hexpr hop
    rw [funext hmasters]
    rw [expr?_addAlternative] at hexpr
    split at hexpr
    · obtain rfl := Option.some.inj hexpr
      rfl
    · exact h.enforcing id expr hexpr hop
  · rintro parent child ⟨hparent, id, expr, hid, hexpr, hop, child', hchild, hmaster⟩
    rw [hmasters] at hparent hmaster
    rw [expr?_addAlternative] at hexpr
    split at hexpr
    · obtain rfl := Option.some.inj hexpr
      exact absurd (henforcer.symm.trans hop) (by simp)
    · rename_i hold
      refine h.descending parent child ⟨hparent, id, expr, ?_, hexpr, hop, child', hchild, hmaster⟩
      rw [alternativesOf_addAlternative hknown] at hid
      split at hid
      · simpa [hold] using hid
      · exact hid

/-- A new enforcer leaves all that was there. -/
theorem evolves_addAlternative {op : Operator} {children : List GroupId} (hends : memo.LinksEnd)
    (hknown : owner.index < memo.groups.size) (henforces : op.isEnforcer = true) :
    Evolves held memo (memo.addAlternative op children owner origin) where
  groups_size := groups_size_addAlternative
  master := master_congr _ hends link?_addAlternative
  properties id := by
    unfold Memo.properties
    cases hfound : (memo.addAlternative op children owner origin).group? id with
    | none =>
        rw [group?_eq_none, groups_size_addAlternative, ← group?_eq_none] at hfound
        rw [hfound]
    | some found =>
        obtain ⟨before, hbefore, hproperties, _⟩ := group?_addAlternative hfound
        rw [hbefore, Option.map_some, Option.map_some, hproperties]
  expr _ expr hexpr := ⟨expr, expr?_addAlternative_of_some hexpr, rfl, rfl, rfl⟩
  context _ context hcontext := ⟨context, hcontext, rfl, rfl, id, fun _ => rfl⟩
  costing _ _ hcosting := hcosting
  alternatives _ := prefix_addAlternative hknown
  added id alternative halternative := by
    rw [alternativesOf_addAlternative hknown] at halternative
    split at halternative
    · obtain hold | hnew := List.mem_append.mp halternative
      · exact .inl hold
      · obtain rfl := List.mem_singleton.mp hnew
        exact .inr ⟨_, by rw [expr?_addAlternative, if_pos rfl], henforces⟩
    · exact .inl halternative

/-- An enforcer above its own group. -/
theorem Settled.addEnforcer (h : memo.Settled planners below)
    (hcatalogued : enforcer.isCatalogued = true) (henforcer : enforcer.isEnforcer = true)
    (hknown : owner.index < memo.groups.size) : Advances planners below held memo
      (memo.addAlternative (.physical enforcer) [owner] owner origin) := by
  have hgroup (id : GroupId) (before : Group) (hbefore : memo.group? id = some before) :
      ∃ group, (memo.addAlternative (.physical enforcer) [owner] owner origin).group? id =
        some group ∧ group.contexts = before.contexts := by
    obtain ⟨group, hgroup⟩ := exists_group?_eq_some.mpr
      (groups_size_addAlternative ▸ exists_group?_eq_some.mp ⟨before, hbefore⟩)
    obtain ⟨before', hbefore', _, _, _, hcontexts, _⟩ := group?_addAlternative hgroup
    obtain rfl := Option.some.inj (hbefore.symm.trans hbefore')
    exact ⟨group, hgroup, hcontexts⟩
  have hevolves : Evolves held memo
      (memo.addAlternative (.physical enforcer) [owner] owner origin) :=
    evolves_addAlternative h.wellFormed.linksEnd hknown henforcer
  have hslots (id : ExprId) (expr : MemoExpr)
      (hexpr : (memo.addAlternative (.physical enforcer) [owner] owner origin).expr? id = some expr)
      (entry : (ContextId × Nat) × CostingId) (hentry : entry ∈ expr.costings) :
      ∃ before, memo.expr? id = some before ∧ entry ∈ before.costings := by
    rw [expr?_addAlternative] at hexpr
    split at hexpr
    · obtain rfl := Option.some.inj hexpr
      simp at hentry
    · exact ⟨expr, hexpr, hentry⟩
  refine h.advancesTo hevolves ⟨h.toTame.addEnforcer hcatalogued henforcer hknown, ?_, ?_, ?_,
    h.best, ?_, ?_, ?_⟩ (fun _ => rfl) hslots
  · intro id context hcontext
    rw [hevolves.master]
    exact h.contextHome id context hcontext
  · intro id context hcontext
    obtain ⟨before, hbefore, hfiled⟩ := h.filed id context hcontext
    obtain ⟨group, hgroup, hcontexts⟩ := hgroup _ before hbefore
    exact ⟨group, hgroup, hcontexts ▸ hfiled⟩
  · intro id group hgroup entry hentry
    obtain ⟨before, hbefore, _, _, _, hcontexts, _⟩ := group?_addAlternative hgroup
    exact h.entries id before hbefore entry (hcontexts ▸ hentry)
  · intro id expr hexpr entry hentry
    obtain ⟨before, hbefore, hlisted⟩ := hslots id expr hexpr entry hentry
    exact h.slots id before hbefore entry hlisted
  · exact fun id costing hcosting hpruned => (h.accounted id costing hcosting hpruned).evolves hevolves
  · exact fun id costing hcosting hpruned => (h.beaten id costing hcosting hpruned).evolves hevolves

end AddEnforcer

end QueryPlanner.Memo
