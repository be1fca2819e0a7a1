import QueryPlanner.Proofs.Optimizer.Frame
import QueryPlanner.Proofs.Optimizer.TableSearch

/-!
# Plans for a table

A group with the access to a table and its scan (`Memo.IsTableGroup`) has a plan for a distribution
that the table has or a motion delivers, whatever order and rewindability go with it. This is
`Memo.Attainable.exists_plan`. Enforcers pass a distribution on without its matching discipline, so one
that is required exactly has to survive on the way (`PlanRequirement.Survives`). Requirements for which
it does not, and groups in which something was done before, are in `Memo.fails_enforceable`.
-/

namespace QueryPlanner

open Memo (Evolves)
open Planning (Post exec)

/-! ## Distributions that survive -/

/-- The required distribution does not get lost with its discipline on the way to a plan over a table. -/
inductive PlanRequirement.Survives (settings : EnforcerSettings) (table : Distribution)
    (required : PlanRequirement) : Prop
  /-- The discipline asks for no more than what is sufficient. -/
  | lax (sufficient : required.distribution.matching ≠ .exact)
  /-- The discipline makes no difference to the table, and can be met without it as well. -/
  | alike (same : table.satisfies required.distribution.spec required.distribution.matching =
        table.satisfies required.distribution.spec .satisfy)
      (meets : table.CanMeet required.distribution.spec .satisfy)
  /-- A motion over the scan is all that is needed. -/
  | moved (once : required.rewindability.spec = .notRewindable)
      (order : required.order.spec = .any ∨
        settings.gatherMerge = true ∧ required.distribution.spec = .singleton)
      (spread : ¬ (table.isHashed = true ∧ required.distribution.spec = .random))
  /-- Nothing is needed above the scan. -/
  | scanned (meets : required.distribution.isSatisfiedBy table = true)
      (order : required.order.spec = .any)
      (rewindability : required.rewindability.isSatisfiedBy .rewindable = true)

namespace TableRun

variable {run : TableRun} {required : PlanRequirement}

/-- A scan that has the distribution and can be read often enough is a plan if no order is required. -/
theorem feasible_of_scanned (hrelates : run.Relates required)
    (hmeets : required.distribution.isSatisfiedBy run.access.table.distribution = true)
    (horder : required.order.spec = .any)
    (hrewindability : required.rewindability.isSatisfiedBy .rewindable = true) :
    run.Feasible required :=
  .inl ((hrelates.isSatisfiedBy_iff rfl).mpr
    ⟨.inr (hrelates.order_any horder), hmeets, hrewindability⟩)

section Meets

variable (hrelates : run.Relates required)
  (hmeets : run.access.table.distribution.CanMeet required.distribution.spec
    required.distribution.matching)
include hrelates hmeets

/-- A motion over the scan is a plan when rows need not be read again. -/
theorem feasible_of_moved (honce : required.rewindability.spec = .notRewindable)
    (horder : required.order.spec = .any ∨
      run.planner.enforcers.gatherMerge = true ∧ required.distribution.spec = .singleton)
    (hspread : ¬ (run.access.table.distribution.isHashed = true ∧
      required.distribution.spec = .random)) : run.Feasible required := by
  by_cases hmet : run.access.table.distribution.satisfies required.distribution.spec
      required.distribution.matching = true
  · rcases horder with horder | ⟨_, hsingle⟩
    · exact feasible_of_scanned hrelates hmet horder (Enforced.isSatisfiedBy_notRewindable honce)
    · have hlax : run.access.table.distribution.satisfies required.distribution.spec .satisfy =
          true := by
        rw [hsingle] at hmet ⊢
        exact Distribution.satisfies_singleton hmet
      exact .inr (.inr (hmeets.dependable (.inl hlax) (hmet.trans hlax.symm)))
  · have hother : ¬ (required.distribution.spec = .nonSingleton ∧
        required.distribution.matching = .exact) := by
      rintro ⟨hspec, hexact⟩
      rw [hspec, hexact] at hmeets hmet
      rw [hmeets.eq_nonSingleton] at hmet
      simp [Distribution.satisfies] at hmet
    have hwhole (h : required.distribution.spec = .random ∨
        required.distribution.spec = .nonSingleton) :
        run.access.table.distribution.isPartitioned = false :=
      Distribution.isPartitioned_eq_false (Bool.eq_false_iff.mpr hmet) (h.imp
        (fun hrandom => ⟨hrandom, fun _ => Bool.eq_false_iff.mpr fun h => hspread ⟨h, hrandom⟩⟩)
        fun hnonSingleton => ⟨hnonSingleton, fun hexact => hother ⟨hnonSingleton, hexact⟩⟩)
    obtain ⟨move, hmove, hkept⟩ := EnforcerSettings.exists_ordered_motion
      (hmeets.satisfies_or_moved.resolve_left hmet) hwhole horder
    obtain ⟨_, hsame, htarget, _⟩ := EnforcerSettings.mem_motions hmove
    obtain rfl := PhysicalOperator.motion.inj hsame
    exact .inr (.inl ⟨Bool.eq_false_iff.mpr hmet, honce, move, hmove, hkept,
      hmeets.satisfies_of_moved? hother htarget⟩)

/-- A requirement can be met when the distribution can be and survives. -/
theorem feasible_of_survives
    (hsurvives : required.Survives run.planner.enforcers run.access.table.distribution) :
    run.Feasible required := by
  cases hsurvives with
  | lax hsufficient =>
      have hsame (delivered : Distribution) :
          delivered.satisfies required.distribution.spec required.distribution.matching =
            delivered.satisfies required.distribution.spec .satisfy :=
        Distribution.satisfies_eq_satisfy hsufficient
      exact .inr (.inr (hmeets.dependable (by simpa only [Distribution.CanMeet, hsame] using hmeets)
        (hsame _)))
  | alike hsame hlax => exact .inr (.inr (hmeets.dependable hlax hsame))
  | moved honce horder hspread => exact feasible_of_moved hrelates hmeets honce horder hspread
  | scanned hmet horder hrewindability =>
      exact feasible_of_scanned hrelates hmet horder hrewindability

end Meets

end TableRun

/-! ## The group of a table -/

/-- The group holds the access to a table and its scan, and nothing was planned for it. No enforcer
over it is kept elsewhere. -/
structure Memo.IsTableGroup (memo : Memo) (group : GroupId) (access : TableAccess)
    (logical : RelationProperties) : Prop where
  master : memo.master group = group
  properties : memo.properties group = .relation logical
  alternatives : ∃ get scan, memo.alternativesOf group = [get, scan] ∧
    memo.op? get = some (.logical (.get access)) ∧
    memo.op? scan = some (.physical (.tableScan access))
  noContexts : ∀ found, memo.group? group = some found → found.contexts = []
  noCostings : ∀ id ∈ memo.alternativesOf group, ∀ expr, memo.expr? id = some expr →
    expr.costings = []
  noEnforcers : ∀ id expr, memo.expr? id = some expr → expr.op.isEnforcer = true →
    expr.children ≠ [group]

namespace Memo.IsTableGroup

variable {memo : Memo} {run : TableRun} (h : memo.IsTableGroup run.group run.access run.logical)
include h

/-- The alternatives are the access and the scan. -/
theorem op_of_mem {id : ExprId} {expr : MemoExpr} (hid : id ∈ memo.alternativesOf run.group)
    (hexpr : memo.expr? id = some expr) :
    expr.op = .logical (.get run.access) ∨ expr.op = .physical (.tableScan run.access) := by
  obtain ⟨get, scan, hlist, hget, hscan⟩ := h.alternatives
  rw [hlist, List.mem_cons, List.mem_singleton] at hid
  refine hid.imp ?_ ?_
  · rintro rfl
    simpa [op?, hexpr] using hget
  · rintro rfl
    simpa [op?, hexpr] using hscan

/-- The group is in order before it is optimized. -/
theorem inOrder (hattainable : memo.Attainable) : run.InOrder memo := by
  obtain ⟨get, scan, hlist, hget, hscan⟩ := h.alternatives
  have hwell := hattainable.inOrder.1
  have hlisted : get ∈ memo.alternativesOf run.group := by simp [hlist]
  refine
    { wellFormed := hwell
      known := (hwell.owned hlisted).1
      master := h.master
      properties := h.properties
      belongs := fun id hid => ?_
      different := by simp [hlist, hget, hscan]
      get := ⟨get, by simp [hlist], hget⟩
      scan := ⟨scan, by simp [hlist], hscan⟩
      enclosed := fun id expr hexpr henforces hchildren =>
        absurd hchildren (h.noEnforcers id expr hexpr henforces)
      entries := fun group hgroup entry hentry => ?_
      slots := fun id hid expr hexpr entry hentry => ?_ }
  · obtain ⟨_, expr, hexpr, howner⟩ := hwell.owned hid
    have hleaf (hzero : expr.op.arity = some 0) : expr.children = [] :=
      List.length_eq_zero_iff.mp (hwell.arity id expr hexpr 0 hzero)
    have hlevel := hattainable.hasOwnLevels id expr hexpr
    refine ⟨expr, hexpr, ?_⟩
    rcases h.op_of_mem hid hexpr with hop | hop
    · exact ⟨by simp [hop, TableRun.roster], by rw [hleaf (by rw [hop]; rfl), hop]; rfl, howner,
        fun hphysical => by simp [hop, Operator.isPhysical, Operator.physical?] at hphysical⟩
    · exact ⟨by simp [hop, TableRun.roster], by rw [hleaf (by rw [hop]; rfl), hop]; rfl, howner,
        fun _ => hlevel _ hop rfl⟩
  · simp [h.noContexts group hgroup] at hentry
  · simp [h.noCostings id hid expr hexpr] at hentry

end Memo.IsTableGroup

/-- What is planned for a group in order: a best plan that meets the requirement, if it can be met. -/
theorem TableRun.InOrder.post_optimize {memo : Memo} {run : TableRun} (h : run.InOrder memo)
    (haborted : run.planner.aborted = false) (hpruning : run.planner.config.pruning = false)
    (hwhole : run.access.partition = .none) (hfuel : 16 ≤ run.planner.fuel)
    {required : PlanRequirement} (hrelates : run.Relates required)
    (hfeasible : run.Feasible required) :
    Post (run.planner.optimize run.stage run.group required) memo
      (fun answer final => ∃ best costing delivered, answer = some best ∧
        final.costing? best = some costing ∧ costing.delivered = some delivered ∧
        required.isSatisfiedBy run.logical delivered = true)
      (fun _ _ => False) := by
  unfold Planner.optimize
  refine (reaches_optimizeGroup haborted hpruning hwhole (by omega) run.planner.fuel none [] memo
    required h hrelates (by simp) (by simp [Lighter])
    (required.weight_lt.trans_le hfuel)).andThen (fun _ _ hfail => hfail) ?_
  rintro own final ⟨_, _, context, hentry, hoptimized⟩
  refine Post.bind (Post.context (fun found hfound => ?_) fun hnone =>
    absurd hentry.found (by simp [hnone]))
  obtain rfl := Option.some.inj (hentry.found.symm.trans hfound)
  obtain ⟨best, hbest⟩ := Option.isSome_iff_exists.mp (hentry.planned hoptimized hfeasible)
  obtain ⟨costing, hcosting, hown, hgood⟩ := hentry.best best hbest
  obtain ⟨found, delivered, hfound', hdelivered, hmeets, _⟩ := hgood.plan
  rw [hown] at hfound'
  obtain rfl := Option.some.inj (hfound.symm.trans hfound')
  rw [show context.required = required from congrArg Prod.snd hentry.goal] at hmeets
  exact Post.pure ⟨best, costing, delivered, hbest, hcosting, hdelivered, hmeets⟩

/-! ## One table -/

/-- The access to a table of two columns in one piece. -/
def TableAccess.whole (distribution : Distribution) : TableAccess :=
  { table := { id := 0, name := "", rows := 0, distribution }, columns := [⟨1⟩, ⟨2⟩] }

namespace Memo

/-- Going on with a memo by inserting operators. -/
def inserting (memo : Memo) (items : List (Operator × List GroupId × Option GroupId)) : Memo :=
  items.foldl (fun memo (op, children, target) =>
    (exec (Planning.insert op children target none) memo).2) memo

/-- A memo with the group of a table. -/
def ofTable (distribution : Distribution) : Memo :=
  inserting {} [(.logical (.get (.whole distribution)), [], none),
    (.physical (.tableScan (.whole distribution)), [], some ⟨0⟩)]

theorem reachable_ofTable (distribution : Distribution) : (ofTable distribution).Reachable :=
  (Reachable.empty.insert _ _ _ _).insert _ _ _ _

theorem alternatives_ofTable (distribution : Distribution) :
    (ofTable distribution).alternativesOf ⟨0⟩ = [⟨0⟩, ⟨1⟩] := by
  with_unfolding_all rfl

theorem get_ofTable (distribution : Distribution) :
    (ofTable distribution).op? ⟨0⟩ = some (.logical (.get (.whole distribution))) := by
  with_unfolding_all rfl

theorem scan_ofTable (distribution : Distribution) :
    (ofTable distribution).op? ⟨1⟩ = some (.physical (.tableScan (.whole distribution))) := by
  with_unfolding_all rfl

theorem isTableGroup_ofTable :
    (ofTable .random).IsTableGroup ⟨0⟩ (.whole .random)
      ((LogicalOperator.get (.whole .random)).properties []) := by
  have hunplanned := (reachable_ofTable .random).unplanned
  have hnone : (ofTable .random).exprs.all (fun expr => !expr.op.isEnforcer) = true := by
    decide +kernel
  refine
    { master := by decide +kernel
      properties := by decide +kernel
      alternatives := ⟨⟨0⟩, ⟨1⟩, alternatives_ofTable _, get_ofTable _, scan_ofTable _⟩
      noContexts := hunplanned.filed _
      noCostings := fun id _ expr hexpr => hunplanned.slots id expr hexpr
      noEnforcers := fun id expr hexpr henforces => ?_ }
  have hplain := Array.all_eq_true'.mp hnone expr (Array.mem_of_getElem? hexpr)
  simp [henforces] at hplain

/-- The planner with unit costs and without pruning. -/
def unpruned : Planner := { model := .unit, config := { pruning := false }, fuel := 16 }

/-! ## Every distribution that survives -/

/-- Take any memo that can come about, a group in it with the access to a whole table and its scan, and
a requirement on columns, order, distribution and rewindability. If the distribution is that of the
table or the target of a motion, and survives, then the optimizer answers with a plan that meets the
requirement, whatever the costs are. -/
theorem Attainable.exists_plan {memo : Memo} (hattainable : memo.Attainable) {group : GroupId}
    {access : TableAccess} {logical : RelationProperties}
    (htable : memo.IsTableGroup group access logical) (hwhole : access.table.isPartitioned = false)
    {planner : Planner} (haborted : planner.aborted = false)
    (hpruning : planner.config.pruning = false) (hfuel : 16 ≤ planner.fuel) (stage : Nat)
    {required : PlanRequirement} (hcolumns : required.columns.subset logical.output = true)
    (hpartition : required.partition.spec = .none) (hctes : required.ctes = .empty)
    (hmeets : access.table.distribution.CanMeet required.distribution.spec
      required.distribution.matching)
    (hsurvives : required.Survives planner.enforcers access.table.distribution) :
    ∃ best costing delivered final,
      exec (planner.optimize stage group required) memo = (.ok (some best), final) ∧
      final.costing? best = some costing ∧ costing.delivered = some delivered ∧
      required.isSatisfiedBy logical delivered = true := by
  let run : TableRun := { group, access, logical, planner, stage, base := required }
  have hrelates : run.Relates required :=
    { columns := hcolumns
      order := .inr rfl
      distribution := .inr rfl
      rewindability := .inr rfl
      partition := hpartition
      ctes := hctes
      unordered := fun hnone => congrArg Enforced.spec hnone }
  have hpartitionless : run.access.partition = .none := by
    simp [TableAccess.partition, TableAccess.partitionScan?, run, hwhole]
  have hfeasible : run.Feasible required := TableRun.feasible_of_survives hrelates hmeets hsurvives
  have horder : run.InOrder memo := htable.inOrder hattainable
  obtain ⟨_, final, hexec, best, costing, delivered, rfl, hplan⟩ | ⟨_, _, _, hfail⟩ :=
    (horder.post_optimize haborted hpruning hpartitionless hfuel hrelates hfeasible).exists_exec
  · exact ⟨best, costing, delivered, final, hexec, hplan⟩
  · exact hfail.elim

/-- A table on random hosts can be read sorted, again and again, and on one host exactly. -/
theorem ofTable_exists_plan :
    let required : PlanRequirement :=
      { columns := .ofList [⟨1⟩], order := ⟨.ascending [⟨1⟩], .exact⟩
        distribution := ⟨.singleton, .exact⟩, rewindability := ⟨.markRestore, .satisfy⟩ }
    ∃ best costing delivered final,
      exec (unpruned.optimize 0 ⟨0⟩ required) (ofTable .random) = (.ok (some best), final) ∧
      final.costing? best = some costing ∧ costing.delivered = some delivered ∧
      required.isSatisfiedBy ((LogicalOperator.get (.whole .random)).properties []) delivered =
        true := by
  intro required
  have hcolumns : required.columns.subset
      ((LogicalOperator.get (.whole .random)).properties []).output = true := by decide
  have hfuel : 16 ≤ unpruned.fuel := by decide
  exact (reachable_ofTable .random).attainable.exists_plan isTableGroup_ofTable rfl
    rfl rfl hfuel 0 hcolumns rfl rfl (.inr ⟨.gather, by decide⟩)
    (.alike (by decide) (.inr ⟨.gather, by decide⟩))

/-- A memo with the access to a table and its scan in the first group fails a requirement: nothing is
found for it, though its distribution is that of the table or the target of a motion. -/
structure Fails (memo : Memo) (access : TableAccess) (required : PlanRequirement) : Prop where
  alternatives : memo.alternativesOf ⟨0⟩ = [⟨0⟩, ⟨1⟩]
  get : memo.op? ⟨0⟩ = some (.logical (.get access))
  scan : memo.op? ⟨1⟩ = some (.physical (.tableScan access))
  meets : access.table.distribution.CanMeet required.distribution.spec
    required.distribution.matching
  nothing : (exec (unpruned.optimize 0 ⟨0⟩ required) memo).1.toOption = some none

/-- Not every requirement that can be met as far as the distribution goes is met. An exact distribution
gets lost above hashed rows, or below an enforcer for something else, and what was done with the memo
before can stand in the way. -/
theorem fails_enforceable :
    -- hashed rows are not spread at random once more
    (ofTable (.hashedOn [⟨1⟩])).Fails (.whole (.hashedOn [⟨1⟩]))
      { columns := .ofList [⟨1⟩], distribution := ⟨.random, .exact⟩ } ∧
    -- below the sort, the hashing of the table is sufficient
    (ofTable (.hashedOn [⟨2⟩])).Fails (.whole (.hashedOn [⟨2⟩]))
      { columns := .ofList [⟨1⟩], order := ⟨.ascending [⟨1⟩], .satisfy⟩
        distribution := ⟨.hashedOn [⟨1⟩, ⟨2⟩], .exact⟩ } ∧
    -- below the spool, rows on every host are sufficient
    (ofTable .universal).Fails (.whole .universal)
      { columns := .ofList [⟨1⟩], distribution := ⟨.singleton, .exact⟩
        rewindability := ⟨.markRestore, .satisfy⟩ } ∧
    -- below the sort, nothing is sufficient for hashing on no columns
    (ofTable .random).Fails (.whole .random)
      { columns := .ofList [⟨1⟩], order := ⟨.ascending [⟨1⟩], .satisfy⟩
        distribution := ⟨.hashedOn [], .exact⟩ } ∧
    -- a group is not optimized again when it gets a scan
    (inserting (exec (unpruned.optimize 0 ⟨0⟩ {}) (inserting {}
        [(.logical (.get (.whole .random)), [], none)])).2
      [(.physical (.tableScan (.whole .random)), [], some ⟨0⟩)]).Fails (.whole .random) {} ∧
    -- a sort that another group lists is not listed in the group itself
    (inserting (ofTable .random) [(.logical (.groupBy [⟨1⟩] []), [⟨0⟩], none),
        (.physical (.sort (.ascending [⟨1⟩])), [⟨0⟩], some ⟨1⟩)]).Fails (.whole .random)
      { columns := .ofList [⟨1⟩], order := ⟨.ascending [⟨1⟩], .satisfy⟩ } := by
  refine ⟨?_, ?_, ?_, ?_, ?_, ?_⟩
  · exact ⟨alternatives_ofTable _, get_ofTable _, scan_ofTable _, .inr ⟨.random, by decide⟩,
      by decide +kernel⟩
  · exact ⟨alternatives_ofTable _, get_ofTable _, scan_ofTable _,
      .inr ⟨.redistribute [⟨1⟩, ⟨2⟩], by decide⟩, by decide +kernel⟩
  · exact ⟨alternatives_ofTable _, get_ofTable _, scan_ofTable _, .inr ⟨.gather, by decide⟩,
      by decide +kernel⟩
  · exact ⟨alternatives_ofTable _, get_ofTable _, scan_ofTable _,
      .inr ⟨.redistribute [], by decide⟩, by decide +kernel⟩
  · exact ⟨by decide +kernel, by with_unfolding_all rfl, by with_unfolding_all rfl,
      .inl (by decide), by decide +kernel⟩
  · exact ⟨by decide +kernel, by with_unfolding_all rfl, by with_unfolding_all rfl,
      .inl (by decide), by decide +kernel⟩

end Memo

end QueryPlanner
