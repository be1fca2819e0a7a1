import QueryPlanner.Proofs.Optimizer.TableGroup

/-!
# A memo with the group of a table

While the group of a table is optimized, its alternatives are the access, the scan and enforcers that
help, none of them twice (`TableRun.Stands`). The contexts of the group hold plans that deliver what
they may, and one that is optimized has a plan if its requirement can be met (`TableRun.InOrder`).
Whatever planning stores for the group keeps this.
-/

namespace QueryPlanner

open Memo (SameContent SameQuery Evolves)

/-- Alternatives keep their operators. -/
theorem Memo.Evolves.op?_eq_some {memo memo' : Memo} {held : List ContextId}
    (hevolves : Evolves held memo memo') {id : ExprId} {op : Operator}
    (hop : memo.op? id = some op) : memo'.op? id = some op := by
  obtain ⟨expr, hexpr, hsame⟩ := Option.map_eq_some_iff.mp hop
  obtain ⟨expr', hexpr', hop', _⟩ := hevolves.expr id expr hexpr
  rw [Memo.op?, hexpr', Option.map_some, hop', hsame]

namespace TableRun

variable {run : TableRun} {memo memo' : Memo} {held : List ContextId} {own : ContextId}
  {required : PlanRequirement} {op : PhysicalOperator}

/-! ## The alternatives of the group -/

/-- The operators that the group may list. -/
def roster (run : TableRun) : List Operator :=
  .logical (.get run.access) :: .physical (.tableScan run.access) ::
    run.helpers.map Operator.physical

/-- An alternative is a leaf, or an enforcer above its own group. -/
structure Belongs (run : TableRun) (expr : MemoExpr) : Prop where
  op : expr.op ∈ run.roster
  children : expr.children = if expr.op.isEnforcer then [run.group] else []
  group : expr.group = run.group
  level : expr.op.isPhysical = true → expr.level = .low

/-- The group is that of the table. -/
structure Stands (run : TableRun) (memo : Memo) : Prop where
  wellFormed : memo.WellFormed
  known : run.group.index < memo.groups.size
  master : memo.master run.group = run.group
  properties : memo.properties run.group = .relation run.logical
  belongs : ∀ id ∈ memo.alternativesOf run.group,
    ∃ expr, memo.expr? id = some expr ∧ run.Belongs expr
  different : ((memo.alternativesOf run.group).map memo.op?).Nodup
  get : ∃ id ∈ memo.alternativesOf run.group, memo.op? id = some (.logical (.get run.access))
  scan : run.Lists memo (.tableScan run.access)
  enclosed : ∀ id expr, memo.expr? id = some expr → expr.op.isEnforcer = true →
    expr.children = [run.group] → id ∈ memo.alternativesOf run.group

/-- The physical operators on the roster. -/
theorem physical_mem_roster (h : Operator.physical op ∈ run.roster) :
    op = .tableScan run.access ∨ op ∈ run.helpers := by
  simp only [roster, List.mem_cons, List.mem_map] at h
  rcases h with h | h | ⟨other, hother, hsame⟩
  · exact absurd h (by simp)
  · exact .inl (Operator.physical.inj h)
  · exact .inr (Operator.physical.inj hsame ▸ hother)

namespace Stands

/-- Each of the operators is listed at most once. -/
theorem length_le (h : run.Stands memo) : (memo.alternativesOf run.group).length ≤ 6 := by
  have hsubset : (memo.alternativesOf run.group).map memo.op? ⊆ run.roster.map some := by
    intro found hfound
    obtain ⟨id, hid, rfl⟩ := List.mem_map.mp hfound
    obtain ⟨expr, hexpr, hbelongs⟩ := h.belongs id hid
    exact List.mem_map.mpr ⟨expr.op, hbelongs.op, by rw [Memo.op?, hexpr, Option.map_some]⟩
  have hshort := (List.subperm_of_subset h.different hsubset).length_le
  have := length_helpers_le run
  simp only [List.length_map, roster, List.length_cons] at hshort
  omega

theorem logical (h : run.Stands memo) : memo.logical run.group = run.logical := by
  have hproperties := h.properties
  unfold Memo.properties at hproperties
  unfold Memo.logical
  cases hgroup : memo.group? run.group with
  | none => exact absurd h.known (Nat.not_lt.mpr (Memo.group?_eq_none.mp hgroup))
  | some group =>
      rw [hgroup, Option.map_some, Option.getD_some] at hproperties
      exact congrArg GroupProperties.relationOrEmpty hproperties

/-- Enforcers over the group are alternatives of the group. -/
theorem enclosesEnforcers (h : run.Stands memo) : memo.EnclosesEnforcers run.group := by
  intro id expr hexpr hop hchildren
  obtain ⟨found, hfound, hbelongs⟩ := h.belongs id (h.enclosed id expr hexpr hop hchildren)
  obtain rfl := Option.some.inj (hexpr.symm.trans hfound)
  rw [hbelongs.group, h.master]

/-- What planning stores leaves the group as it is. -/
theorem sameQuery (h : run.Stands memo) (hsame : SameQuery memo memo') : run.Stands memo' := by
  have hop (id : ExprId) : memo'.op? id = memo.op? id := by
    have hmap := congrArg (Option.map MemoExpr.op) (hsame.exprs id)
    rwa [Option.map_map, Option.map_map] at hmap
  have hlists (op : Operator)
      (hlists : ∃ id ∈ memo.alternativesOf run.group, memo.op? id = some op) :
      ∃ id ∈ memo'.alternativesOf run.group, memo'.op? id = some op := by
    simpa only [hsame.alternativesOf, hop] using hlists
  refine
    { wellFormed := hsame.wellFormed h.wellFormed
      known := hsame.groups_size ▸ h.known
      master := (hsame.master h.wellFormed.linksEnd _).trans h.master
      properties := ?_
      belongs := fun id hid => ?_
      different := by simpa only [hsame.alternativesOf, funext hop] using h.different
      get := hlists _ h.get
      scan := hlists _ h.scan
      enclosed := fun id expr hexpr => ?_ }
  · rw [← h.properties]
    unfold Memo.properties
    rw [hsame.map_group? Group.properties fun _ => rfl]
  · rw [hsame.alternativesOf] at hid
    obtain ⟨before, hbefore, hbelongs⟩ := h.belongs id hid
    obtain ⟨expr, hexpr, houtline⟩ := hsame.exists_expr hbefore
    have hsameOp : expr.op = before.op := congrArg (·.op) houtline
    refine ⟨expr, hexpr, hsameOp ▸ hbelongs.op, ?_, ?_, ?_⟩
    · rw [hsameOp, ← hbelongs.children]
      exact congrArg (·.children) houtline
    · rw [← hbelongs.group]
      exact congrArg (·.group) houtline
    · rw [hsameOp, show expr.level = before.level from congrArg (·.level) houtline]
      exact hbelongs.level
  · obtain ⟨before, hbefore, houtline⟩ := hsame.exists_expr_before hexpr
    rw [show expr.op = before.op from congrArg (·.op) houtline,
      show expr.children = before.children from congrArg (·.children) houtline,
      hsame.alternativesOf]
    exact h.enclosed id before hbefore

/-- An enforcer that helps is listed when it has a twin. -/
theorem lists_of_findTwin? (h : run.Stands memo) (hop : run.Helps op) {twin : ExprId}
    (htwin : memo.findTwin? (.physical op) [run.group] = some twin) : run.Lists memo op := by
  obtain ⟨expr, hexpr, hsame, _⟩ := Memo.findTwin?_eq_some htwin
  obtain ⟨henforcer, hchildren⟩ :=
    Memo.enforcer_of_findTwin? htwin hexpr hop.isCatalogued hop.isEnforcer
  refine ⟨twin, h.enclosed twin expr hexpr henforcer hchildren, ?_⟩
  rw [Memo.op?, hexpr, Option.map_some]
  cases hfound : expr.op with
  | logical _ | scalar _ => simp [hfound, Operator.isEnforcer] at henforcer
  | physical found =>
      rw [hfound] at hsame
      cases hop <;> cases found <;> simp_all [Operator.same, PhysicalOperator.same]

/-- An enforcer without a twin is not listed. -/
theorem not_lists_of_findTwin? (h : run.Stands memo) (hop : run.Helps op)
    (hnone : memo.findTwin? (.physical op) [run.group] = none) : ¬ run.Lists memo op := by
  rintro ⟨id, hid, hfound⟩
  obtain ⟨expr, hexpr, hbelongs⟩ := h.belongs id hid
  rw [Memo.op?, hexpr, Option.map_some] at hfound
  have hsameOp := Option.some.inj hfound
  have hsame : expr.op.same (.physical op) = true := by
    rw [hsameOp]
    cases hop <;> simp [Operator.same, PhysicalOperator.same]
  refine Memo.findTwin?_eq_none hnone hexpr hsame ?_
  rw [hbelongs.children, hsameOp, if_pos (show (Operator.physical op).isEnforcer = true from
    hop.isEnforcer)]

/-- A new enforcer that helps. -/
theorem addAlternative (h : run.Stands memo) (hop : run.Helps op) (hmem : op ∈ run.helpers)
    (hnone : memo.findTwin? (.physical op) [run.group] = none) (origin : Option Origin) :
    run.Stands (memo.addAlternative (.physical op) [run.group] run.group origin) ∧
      run.Lists (memo.addAlternative (.physical op) [run.group] run.group origin) op := by
  have hevolves : Evolves [] memo
      (memo.addAlternative (.physical op) [run.group] run.group origin) :=
    Memo.evolves_addAlternative h.wellFormed.linksEnd h.known hop.isEnforcer
  have hlist : (memo.addAlternative (.physical op) [run.group] run.group origin).alternativesOf
      run.group = memo.alternativesOf run.group ++ [⟨memo.exprs.size⟩] :=
    (Memo.alternativesOf_addAlternative h.known).trans (if_pos rfl)
  have hold {id : ExprId} (hid : id ∈ memo.alternativesOf run.group) :
      (memo.addAlternative (.physical op) [run.group] run.group origin).op? id = memo.op? id := by
    obtain ⟨expr, hexpr, _⟩ := h.belongs id hid
    rw [Memo.op?, Memo.op?, Memo.expr?_addAlternative_of_some hexpr, hexpr]
  have hnew : (memo.addAlternative (.physical op) [run.group] run.group origin).op?
      ⟨memo.exprs.size⟩ = some (.physical op) := by
    rw [Memo.op?, Memo.expr?_addAlternative, if_pos rfl]
    rfl
  -- what was listed is listed still
  have hlists (op' : Operator)
      (hlists : ∃ id ∈ memo.alternativesOf run.group, memo.op? id = some op') :
      ∃ id ∈ (memo.addAlternative (.physical op) [run.group] run.group origin).alternativesOf
          run.group,
        (memo.addAlternative (.physical op) [run.group] run.group origin).op? id = some op' := by
    obtain ⟨id, hid, hfound⟩ := hlists
    exact ⟨id, by simp [hlist, hid], (hold hid).trans hfound⟩
  refine ⟨
    { wellFormed := ?_
      known := hevolves.groups_size ▸ h.known
      master := (hevolves.master _).trans h.master
      properties := (hevolves.properties _).trans h.properties
      belongs := fun id hid => ?_
      different := ?_
      get := hlists _ h.get
      scan := hlists _ h.scan
      enclosed := fun id expr hexpr hchild hchildren => ?_ }, ⟨_, by simp [hlist], hnew⟩⟩
  · refine h.wellFormed.addAlternative h.known (by simpa using h.known) fun count hcount => ?_
    have harity := PhysicalOperator.arity_of_enforcer hop.isCatalogued hop.isEnforcer
    exact Option.some.inj (harity.symm.trans hcount)
  · rw [hlist, List.mem_append, List.mem_singleton] at hid
    rcases hid with hid | rfl
    · obtain ⟨expr, hexpr, hbelongs⟩ := h.belongs id hid
      exact ⟨expr, Memo.expr?_addAlternative_of_some hexpr, hbelongs⟩
    · refine ⟨_, by rw [Memo.expr?_addAlternative, if_pos rfl], ?_, ?_, rfl, fun _ => ?_⟩
      · simp [roster, hmem]
      · rw [if_pos (show (Operator.physical op).isEnforcer = true from hop.isEnforcer)]
      · show memo.newLevel (.physical op) [run.group] = .low
        cases hop <;> rfl
  · rw [hlist, List.map_append, List.map_singleton, hnew, List.map_congr_left fun _ => hold]
    refine List.nodup_append.mpr ⟨h.different, List.nodup_singleton _, ?_⟩
    rintro found hfound _ hother rfl
    obtain rfl := List.mem_singleton.mp hother
    obtain ⟨id, hid, hfound⟩ := List.mem_map.mp hfound
    exact h.not_lists_of_findTwin? hop hnone ⟨id, hid, hfound⟩
  · rw [hlist, List.mem_append, List.mem_singleton]
    rw [Memo.expr?_addAlternative] at hexpr
    split at hexpr
    · exact .inr ‹_›
    · exact .inl (h.enclosed id expr hexpr hchild hchildren)

end Stands

/-! ## The plans of the group -/

/-- A costing of an alternative of the group: it meets the requirement of its context and delivers
what may be delivered for it. -/
structure Good (run : TableRun) (memo : Memo) (costing : Costing) : Prop where
  pruned : costing.pruned = false
  listed : costing.expr ∈ memo.alternativesOf run.group
  plan : ∃ context delivered, memo.context? costing.context = some context ∧
    costing.delivered = some delivered ∧
    context.required.isSatisfiedBy run.logical delivered = true ∧
    run.Delivers context.required delivered

theorem Good.evolves {costing : Costing} (h : run.Good memo costing)
    (hevolves : Evolves held memo memo') : run.Good memo' costing := by
  obtain ⟨context, delivered, hcontext, hdelivered, hmeets, hdelivers⟩ := h.plan
  obtain ⟨context', hcontext', hgoal, _⟩ := hevolves.context _ context hcontext
  have hrequired : context'.required = context.required := congrArg Prod.snd hgoal
  exact ⟨h.pruned, (hevolves.alternatives _).subset h.listed, context', delivered, hcontext',
    hdelivered, hrequired ▸ hmeets, hrequired ▸ hdelivers⟩

/-- A context of the group for a requirement. Its best plan is a good one, and once it is optimized
it has one if the requirement can be met. -/
structure Entry (run : TableRun) (memo : Memo) (id : ContextId) (required : PlanRequirement)
    (context : Context) : Prop where
  found : memo.context? id = some context
  goal : context.goal = (run.group, required)
  best : ∀ best ∈ context.best, ∃ costing, memo.costing? best = some costing ∧
    costing.context = id ∧ run.Good memo costing
  planned : context.state = .optimized → run.Feasible required → context.best.isSome

theorem Entry.evolves {id : ContextId} {context : Context} (h : run.Entry memo id required context)
    (hevolves : Evolves held memo memo') (hcontext : memo'.context? id = some context) :
    run.Entry memo' id required context where
  found := hcontext
  goal := h.goal
  best best hbest := by
    obtain ⟨costing, hcosting, hown, hgood⟩ := h.best best hbest
    exact ⟨costing, hevolves.costing best costing hcosting, hown, hgood.evolves hevolves⟩
  planned := h.planned

/-- A costing of the group is recorded with an alternative. -/
def Slot (run : TableRun) (memo : Memo) (entry : (ContextId × Nat) × CostingId) : Prop :=
  ∃ costing, memo.costing? entry.2 = some costing ∧ costing.context = entry.1.1 ∧
    run.Good memo costing

theorem Slot.evolves {entry : (ContextId × Nat) × CostingId} (h : run.Slot memo entry)
    (hevolves : Evolves held memo memo') : run.Slot memo' entry := by
  obtain ⟨costing, hcosting, hown, hgood⟩ := h
  exact ⟨costing, hevolves.costing _ costing hcosting, hown, hgood.evolves hevolves⟩

/-- All that was planned for the group is in order. -/
structure InOrder (run : TableRun) (memo : Memo) : Prop extends run.Stands memo where
  entries : ∀ group, memo.group? run.group = some group → ∀ entry ∈ group.contexts,
    run.Relates entry.1.required ∧ ∃ context, run.Entry memo entry.2 entry.1.required context
  slots : ∀ id ∈ memo.alternativesOf run.group, ∀ expr, memo.expr? id = some expr →
    ∀ entry ∈ expr.costings, run.Slot memo entry

namespace InOrder

/-- A change that leaves what was planned, or adds to it what is in order. -/
theorem change (h : run.InOrder memo) (hstands : run.Stands memo')
    (hevolves : Evolves held memo memo')
    (hentry : ∀ id required context, run.Entry memo id required context →
      ∃ context', run.Entry memo' id required context')
    (hentries : ∀ group, memo'.group? run.group = some group → ∀ entry ∈ group.contexts,
      (∃ before, memo.group? run.group = some before ∧ entry ∈ before.contexts) ∨
        run.Relates entry.1.required ∧ ∃ context, run.Entry memo' entry.2 entry.1.required context)
    (hslots : ∀ id ∈ memo'.alternativesOf run.group, ∀ expr, memo'.expr? id = some expr →
      ∀ entry ∈ expr.costings, (id ∈ memo.alternativesOf run.group ∧
        ∃ before, memo.expr? id = some before ∧ entry ∈ before.costings) ∨ run.Slot memo' entry) :
    run.InOrder memo' where
  toStands := hstands
  entries group hgroup entry hmem := by
    rcases hentries group hgroup entry hmem with ⟨before, hbefore, hold⟩ | hnew
    · obtain ⟨hrelates, context, hcontext⟩ := h.entries before hbefore entry hold
      exact ⟨hrelates, hentry _ _ context hcontext⟩
    · exact hnew
  slots id hid expr hexpr entry hmem := by
    rcases hslots id hid expr hexpr entry hmem with ⟨hlisted, before, hbefore, hold⟩ | hnew
    · exact (h.slots id hlisted before hbefore entry hold).evolves hevolves
    · exact hnew

theorem quiet (h : run.InOrder memo) (held : List ContextId) (hsame : SameContent memo memo') :
    Evolves held memo memo' ∧ run.InOrder memo' := by
  have hevolves : Evolves held memo memo' := hsame.evolves h.wellFormed.linksEnd
  refine ⟨hevolves, h.change (h.toStands.sameQuery hsame.sameQuery) hevolves
    (fun id _ context hentry => ⟨context, hentry.evolves hevolves
      ((hsame.context? id).trans hentry.found)⟩) ?_ ?_⟩
  · intro group hgroup entry hmem
    obtain ⟨before, hbefore, hcontent⟩ := hsame.exists_group_before hgroup
    rw [show group.contexts = before.contexts from congrArg (·.contexts) hcontent] at hmem
    exact .inl ⟨before, hbefore, hmem⟩
  · intro id hid expr hexpr entry hmem
    obtain ⟨before, hbefore, hcontent⟩ := hsame.exists_expr_before hexpr
    rw [show expr.costings = before.costings from congrArg (·.costings) hcontent] at hmem
    exact .inl ⟨hsame.alternativesOf _ ▸ hid, before, hbefore, hmem⟩

/-- Changing the notes on a context of the group that is neither optimized nor held. -/
theorem modifyContext (h : run.InOrder memo) {context : Context} (change : Context → Context)
    (hown : run.Entry memo own required context) (hopen : context.state ≠ .optimized)
    (hfree : own ∉ held) (hgoal : (change context).goal = context.goal)
    (hstage : (change context).stage = context.stage)
    (hkeeps : context.best.isSome → (change context).best.isSome)
    (hbest : ∀ best ∈ (change context).best, ∃ costing, memo.costing? best = some costing ∧
      costing.context = own ∧ run.Good memo costing)
    (hplanned : (change context).state = .optimized → run.Feasible required →
      (change context).best.isSome) :
    Evolves held memo (memo.modifyContext own change) ∧
      run.InOrder (memo.modifyContext own change) ∧
      run.Entry (memo.modifyContext own change) own required (change context) := by
  have hevolves : Evolves held memo (memo.modifyContext own change) :=
    Memo.evolves_modifyContext h.wellFormed.linksEnd hown.found hopen hfree hgoal hstage hkeeps
  have hfound (id : ContextId) : (memo.modifyContext own change).context? id =
      if own = id then some (change context) else memo.context? id :=
    Memo.context?_modifyContext_eq hown.found id
  have hchanged : run.Entry (memo.modifyContext own change) own required (change context) :=
    { found := by rw [hfound, if_pos rfl]
      goal := hgoal.trans hown.goal
      best := fun best hheld => by
        obtain ⟨costing, hcosting, hits, hgood⟩ := hbest best hheld
        exact ⟨costing, hcosting, hits, hgood.evolves hevolves⟩
      planned := hplanned }
  refine ⟨hevolves, h.change (h.toStands.sameQuery Memo.sameQuery_modifyContext) hevolves
    (fun id wanted found hentry => ?_) (fun group hgroup entry hmem => .inl ⟨group, hgroup, hmem⟩)
    (fun id hid expr hexpr entry hmem => .inl ⟨hid, expr, hexpr, hmem⟩), hchanged⟩
  by_cases hid : own = id
  · subst hid
    obtain rfl := Option.some.inj (hown.found.symm.trans hentry.found)
    obtain rfl : wanted = required := congrArg Prod.snd (hentry.goal.symm.trans hown.goal)
    exact ⟨_, hchanged⟩
  · exact ⟨found, hentry.evolves hevolves (by rw [hfound, if_neg hid, hentry.found])⟩

/-- A new context of the group. -/
theorem addContext (h : run.InOrder memo) (hrelates : run.Relates required) (stage : Nat) :
    Evolves held memo (memo.addContext run.group required stage) ∧
      run.InOrder (memo.addContext run.group required stage) ∧
      run.Entry (memo.addContext run.group required stage) ⟨memo.contexts.size⟩ required
        { group := run.group, required, stage } := by
  have hevolves : Evolves held memo (memo.addContext run.group required stage) :=
    Memo.evolves_addContext h.wellFormed.linksEnd
  have hnew : run.Entry (memo.addContext run.group required stage) ⟨memo.contexts.size⟩ required
      { group := run.group, required, stage } :=
    ⟨by rw [Memo.context?_addContext, if_pos rfl], rfl, by simp, by simp⟩
  refine ⟨hevolves, h.change (h.toStands.sameQuery Memo.sameQuery_addContext) hevolves
    (fun id _ context hentry => ⟨context, hentry.evolves hevolves
      (Memo.context?_addContext_of_some hentry.found)⟩) ?_
    (fun id hid expr hexpr entry hmem => .inl
      ⟨Memo.sameQuery_addContext.alternativesOf _ ▸ hid, expr, hexpr, hmem⟩), hnew⟩
  intro group hgroup entry hmem
  obtain ⟨before, hbefore, hcontexts⟩ := Memo.group?_addContext hgroup
  rw [if_pos rfl] at hcontexts
  rw [hcontexts, List.mem_cons] at hmem
  rcases hmem with rfl | hold
  · exact .inr ⟨hrelates, _, hnew⟩
  · exact .inl ⟨before, hbefore, hold⟩

/-- A new costing of the group. -/
theorem addCosting (h : run.InOrder memo) (held : List ContextId) {candidate : Costing}
    (hgood : run.Good memo candidate) :
    Evolves held memo (memo.addCosting candidate) ∧ run.InOrder (memo.addCosting candidate) := by
  have hevolves : Evolves held memo (memo.addCosting candidate) :=
    Memo.evolves_addCosting h.wellFormed.linksEnd
  refine ⟨hevolves, h.change (h.toStands.sameQuery Memo.sameQuery_addCosting) hevolves
    (fun id _ context hentry => ⟨context, hentry.evolves hevolves hentry.found⟩)
    (fun group hgroup entry hmem => .inl ⟨group, hgroup, hmem⟩) ?_⟩
  intro id hid expr hexpr entry hmem
  rcases Memo.mem_costings_addCosting hexpr hmem with rfl | ⟨before, hbefore, hold⟩
  · exact .inr ⟨candidate, by rw [Memo.costing?_addCosting, if_pos rfl], rfl,
      hgood.evolves hevolves⟩
  · exact .inl ⟨hid, before, hbefore, hold⟩

/-- A new enforcer that helps. -/
theorem addAlternative (h : run.InOrder memo) (held : List ContextId) (hop : run.Helps op)
    (hmem : op ∈ run.helpers) (hnone : memo.findTwin? (.physical op) [run.group] = none) (origin : Option Origin) :
    Evolves held memo (memo.addAlternative (.physical op) [run.group] run.group origin) ∧
      run.InOrder (memo.addAlternative (.physical op) [run.group] run.group origin) ∧
      run.Lists (memo.addAlternative (.physical op) [run.group] run.group origin) op := by
  have hevolves : Evolves held memo
      (memo.addAlternative (.physical op) [run.group] run.group origin) :=
    Memo.evolves_addAlternative h.wellFormed.linksEnd h.known hop.isEnforcer
  obtain ⟨hstands, hlists⟩ := h.toStands.addAlternative hop hmem hnone origin
  refine ⟨hevolves, h.change hstands hevolves
    (fun id _ context hentry => ⟨context, hentry.evolves hevolves hentry.found⟩) ?_ ?_, hlists⟩
  · intro group hgroup entry hentry
    obtain ⟨before, hbefore, _, _, _, hcontexts, _⟩ := Memo.group?_addAlternative hgroup
    exact .inl ⟨before, hbefore, hcontexts ▸ hentry⟩
  · intro id hid expr hexpr entry hentry
    rw [Memo.expr?_addAlternative] at hexpr
    split at hexpr
    · obtain rfl := Option.some.inj hexpr
      simp at hentry
    · rename_i hold
      rw [Memo.alternativesOf_addAlternative h.known, if_pos rfl, List.mem_append,
        List.mem_singleton] at hid
      exact .inl ⟨hid.resolve_right hold, expr, hexpr, hentry⟩

end InOrder

/-! ## A context that is being optimized -/

/-- In each of the held contexts there is more left to be enforced than for a requirement. -/
def Lighter (required : PlanRequirement) (memo : Memo) (held : List ContextId) : Prop :=
  ∀ id ∈ held, ∃ context, memo.context? id = some context ∧
    required.weight < context.required.weight

theorem Lighter.evolves {holds : List ContextId} (h : Lighter required memo holds)
    (hevolves : Evolves held memo memo') : Lighter required memo' holds := by
  intro id hid
  obtain ⟨context, hcontext, hweight⟩ := h id hid
  obtain ⟨context', hcontext', hgoal, _⟩ := hevolves.context id context hcontext
  have hrequired : context'.required = context.required := congrArg Prod.snd hgoal
  exact ⟨context', hcontext', hrequired ▸ hweight⟩

/-- A context of the group is being optimized. -/
structure At (run : TableRun) (held : List ContextId) (own : ContextId)
    (required : PlanRequirement) (memo : Memo) : Prop extends run.InOrder memo where
  relates : run.Relates required
  busy : ∃ context, run.Entry memo own required context ∧ context.state = .optimizing
  lighter : Lighter required memo held

/-- A context for the requirement is not held. -/
theorem Lighter.free {context : Context} (h : Lighter required memo held)
    (hentry : run.Entry memo own required context) : own ∉ held := by
  intro hheld
  obtain ⟨found, hfound, hweight⟩ := h own hheld
  obtain rfl := Option.some.inj (hentry.found.symm.trans hfound)
  rw [show context.required = required from congrArg Prod.snd hentry.goal] at hweight
  exact Nat.lt_irrefl _ hweight

/-- The optimization of the context goes on. -/
structure Proceeds (run : TableRun) (held : List ContextId) (own : ContextId)
    (required : PlanRequirement) (memo memo' : Memo) : Prop where
  evolves : Evolves held memo memo'
  still : run.At held own required memo'

namespace Proceeds

protected theorem refl (h : run.At held own required memo) :
    run.Proceeds held own required memo memo :=
  ⟨.refl memo, h⟩

protected theorem trans {memo'' : Memo} (h : run.Proceeds held own required memo memo')
    (h' : run.Proceeds held own required memo' memo'') :
    run.Proceeds held own required memo memo'' :=
  ⟨h.evolves.trans h'.evolves, h'.still⟩

end Proceeds

namespace At

/-- What holds the own context leaves it open. -/
theorem step (h : run.At held own required memo) (hevolves : Evolves (own :: held) memo memo')
    (horder : run.InOrder memo') : run.Proceeds held own required memo memo' := by
  obtain ⟨context, hentry, hstate⟩ := h.busy
  have hfound := hevolves.context?_eq hentry.found (.inr (List.mem_cons_self ..))
  exact ⟨hevolves.mono (List.subset_cons_self _ _),
    { toInOrder := horder
      relates := h.relates
      busy := ⟨context, hentry.evolves hevolves hfound, hstate⟩
      lighter := h.lighter.evolves hevolves }⟩

theorem quiet (h : run.At held own required memo) (hsame : SameContent memo memo') :
    run.Proceeds held own required memo memo' :=
  have hquiet := h.toInOrder.quiet (own :: held) hsame
  h.step hquiet.1 hquiet.2

/-- A good costing becomes the best one of the own context. -/
theorem setBest (h : run.At held own required memo) {id : CostingId} {candidate : Costing}
    (hcosting : memo.costing? id = some candidate) (hown : candidate.context = own)
    (hgood : run.Good memo candidate) :
    run.Proceeds held own required memo (memo.setBest id candidate) ∧
      ((memo.setBest id candidate).best? own).isSome := by
  obtain ⟨context, hentry, hstate⟩ := h.busy
  obtain ⟨hevolves, horder, hchanged⟩ := h.toInOrder.modifyContext
    (fun context => { context with
      best := some id
      multiStageAggregate :=
        ((memo.physical? candidate.expr).map (·.isMultiStageAggregate)).getD false })
    hentry (by simp [hstate]) (h.lighter.free hentry) rfl rfl (fun _ => rfl)
    (fun best hbest => Option.some.inj hbest ▸ ⟨candidate, hcosting, hown, hgood⟩) (fun _ _ => rfl)
  unfold Memo.setBest
  rw [hown]
  exact ⟨⟨hevolves, horder, h.relates, ⟨_, hchanged, hstate⟩, h.lighter.evolves hevolves⟩,
    by rw [Memo.best?, hchanged.found]; rfl⟩

end At

/-! ## What lasts -/

theorem best_evolves (hevolves : Evolves held memo memo') (h : (memo.best? own).isSome) :
    (memo'.best? own).isSome := by
  unfold Memo.best? at h ⊢
  cases hcontext : memo.context? own with
  | none => simp [hcontext] at h
  | some context =>
      obtain ⟨context', hcontext', _, _, hbest, _⟩ := hevolves.context own context hcontext
      rw [hcontext, Option.bind_some] at h
      rw [hcontext', Option.bind_some]
      exact hbest h

theorem Lists.evolves (h : run.Lists memo op) (hevolves : Evolves held memo memo') :
    run.Lists memo' op := by
  obtain ⟨id, hid, hop⟩ := h
  exact ⟨id, (hevolves.alternatives _).subset hid, hevolves.op?_eq_some hop⟩

theorem Concludes.evolves {fits : Bool} {delivered : PlanProperties}
    (h : run.Concludes memo own required fits delivered) (hevolves : Evolves held memo memo') :
    run.Concludes memo' own required fits delivered where
  best hfits hmeets := best_evolves hevolves (h.best hfits hmeets)
  listed op hop := (h.listed op hop).evolves hevolves

theorem Tried.evolves (h : run.Tried memo own required op) (hevolves : Evolves held memo memo') :
    run.Tried memo' own required op := by
  obtain ⟨view, request, hview, htried⟩ := h
  refine ⟨view, request, hview, fun hfeasible => ?_⟩
  obtain ⟨below, hbelow, hmeets, hconcludes⟩ := htried hfeasible
  exact ⟨below, hbelow, hmeets, hconcludes.evolves hevolves⟩

end TableRun

end QueryPlanner
