import QueryPlanner.Proofs.Optimizer.TableRequest

/-!
# Optimizing the group of a table

Enforcers are appended to the list of alternatives that is being gone through, at most four of them, so
all alternatives are visited in the end (`TableRun.does_visitLevels`). A context in which all of them were
visited has a best plan if its requirement can be met. By induction on the depth of calls, optimizing
the group ends with such a context (`TableRun.reaches_optimizeGroup`).
-/

namespace QueryPlanner

open Memo (SameContent SameQuery Evolves)
open Planning (Post)
open Optimizer (servesRequirement)

namespace TableRun

variable {run : TableRun} {memo memo' : Memo} {held : List ContextId} {own : ContextId}
  {required : PlanRequirement} {parent : Option ExprId}

/-! ## Alternatives -/

/-- An alternative was tried in a context, unless it is the parent or not physical. -/
def Visited (run : TableRun) (own : ContextId) (required : PlanRequirement)
    (parent : Option ExprId) (memo : Memo) (id : ExprId) : Prop :=
  ∃ op, memo.op? id = some op ∧ (parent ≠ some id → ∀ physical, op = .physical physical →
    run.Handled memo own required physical)

theorem Visited.evolves {id : ExprId} (h : run.Visited own required parent memo id)
    (hevolves : Evolves held memo memo') : run.Visited own required parent memo' id := by
  obtain ⟨op, hop, hhandled⟩ := h
  exact ⟨op, hevolves.op?_eq_some hop, fun hother physical hphysical =>
    (hhandled hother physical hphysical).evolves hevolves⟩

section Visit

variable {level : OptimizationLevel} {id : ExprId}
  {optimize : ExprId → GroupId → PlanRequirement → Planning ContextId}
  (haborted : run.planner.aborted = false) (hpruning : run.planner.config.pruning = false)
  (hwhole : run.access.partition = .none)
include haborted hpruning hwhole

/-- Visiting an alternative at the low level tries it. -/
theorem does_visitAlternative {bound : Nat}
    (hreaches : ∀ id, run.Reaches (own :: held) (some id) bound (optimize id))
    (h : run.At held own required memo) (hbound : required.weight ≤ bound)
    (hid : id ∈ memo.alternativesOf run.group) :
    run.Does held own required (run.planner.visitAlternative optimize parent own level id) memo
      fun _ final => level = .low → run.Visited own required parent final id := by
  obtain ⟨expr, hexpr, hbelongs⟩ := h.belongs id hid
  have hfound : memo.op? id = some expr.op := by rw [Memo.op?, hexpr, Option.map_some]
  unfold Planner.visitAlternative
  refine Post.bind (Post.get (Does.expr hexpr ?_))
  cases hop : expr.op with
  | logical _ | scalar _ =>
      exact Does.pure h fun _ => ⟨_, hfound, fun _ _ hphysical => by simp [hop] at hphysical⟩
  | physical op =>
      rw [hop] at hfound
      have hplain : op.shouldOptimize (parent.bind memo.physical?) = true ∧ op.requestTotal = 1 := by
        rcases physical_mem_roster (hop ▸ hbelongs.op) with rfl | hmem
        · exact ⟨rfl, rfl⟩
        · cases helps_of_mem hmem <;> exact ⟨rfl, rfl⟩
      dsimp only
      split
      · rw [hplain.2]
        refine Does.bind (does_optimizeRequest haborted hpruning hwhole (hreaches id) h hbound hid
          hfound) fun _ final hfinal hhandled => Does.pure hfinal.still fun _ =>
            ⟨_, hfinal.evolves.op?_eq_some hfound, fun _ physical hphysical => ?_⟩
        obtain rfl := Operator.physical.inj hphysical
        exact hhandled
      · rename_i hskipped
        refine Does.pure h fun hlow => ⟨_, hfound, fun hother => absurd ?_ hskipped⟩
        exact ⟨hother, by rw [hbelongs.level (hop ▸ rfl), hlow], hplain.1⟩

end Visit

/-- Going through the alternatives from a position on visits them all, those that are appended on the
way included, by induction on the steps left. -/
theorem does_visitAlternatives {visit : ExprId → Planning Unit} {done : Memo → ExprId → Prop}
    {fuel position : Nat}
    (hvisit : ∀ id current, run.At held own required current →
      id ∈ current.alternativesOf run.group →
      run.Does held own required (visit id) current fun _ final => done final id)
    (hlasts : ∀ current final id, Evolves held current final → done current id → done final id)
    (h : run.At held own required memo) (hposition : position ≤ 6) (hfuel : 6 < fuel + position) :
    run.Does held own required (Planner.visitAlternatives run.group visit fuel position) memo
      fun _ final => ∀ index id, position ≤ index →
        (final.alternativesOf run.group)[index]? = some id → done final id := by
  induction fuel generalizing memo position with
  | zero => omega
  | succ fuel ih =>
      unfold Planner.visitAlternatives
      refine Post.bind (Post.get ?_)
      cases hid : (memo.alternativesOf run.group)[position]? with
      | none =>
          refine Does.pure h fun index id hindex hlisted => ?_
          have hlength := List.getElem?_eq_none_iff.mp hid
          have hshort := (List.getElem?_eq_some_iff.mp hlisted).1
          omega
      | some id =>
          have hlength := (List.getElem?_eq_some_iff.mp hid).1
          have hshort := h.toStands.length_le
          refine Does.bind (hvisit id memo h (List.mem_of_getElem? hid))
            fun _ current hcurrent hdone => ?_
          refine Does.mono (ih hcurrent.still (by omega) (by omega)) fun _ final hfinal hrest => ?_
          intro index other hindex hlisted
          rcases Nat.eq_or_lt_of_le hindex with rfl | hlater
          · obtain ⟨more, hmore⟩ := (hcurrent.evolves.trans hfinal.evolves).alternatives run.group
            rw [← hmore, List.getElem?_append_left hlength, hid] at hlisted
            obtain rfl := Option.some.inj hlisted
            exact hlasts _ _ _ hfinal.evolves hdone
          · exact hrest index other hlater hlisted

/-! ## The group -/

/-- The context of the group for a requirement is found or created. -/
theorem post_lookupOrCreateContext (h : run.InOrder memo) (held : List ContextId)
    (hrelates : run.Relates required) :
    Post (Planning.lookupOrCreateContext run.group required run.stage) memo
      (fun found final => Evolves held memo final ∧ run.InOrder final ∧
        ∃ context, run.Entry final found.1 required context ∧
          (found.2 = true → context.state = .init))
      (fun _ _ => False) := by
  refine (Post.resolve h.known).andThen (fun _ _ hfail => hfail) ?_
  rintro _ looked ⟨rfl, hsame⟩
  rw [h.master]
  obtain ⟨hlooked, horder⟩ := h.quiet held hsame
  refine Post.bind (Post.group (fun group hgroup => ?_) fun hnone =>
    absurd horder.known (Nat.not_lt.mpr (Memo.group?_eq_none.mp hnone)))
  cases hfound : group.contexts.lookup { required, stage := run.stage } with
  | some found =>
      obtain ⟨before, after, hentries, _⟩ := List.lookup_eq_some_iff.mp hfound
      obtain ⟨_, context, hentry⟩ := horder.entries group hgroup
        (⟨required, run.stage⟩, found) (by simp [hentries])
      exact Post.pure ⟨hlooked, horder, context, hentry, by simp⟩
  | none =>
      obtain ⟨hevolves, hnew, hentry⟩ := horder.addContext hrelates run.stage
      exact Post.bind (Post.get (Post.bind (Post.modify (Post.pure
        ⟨hlooked.trans hevolves, hnew, _, hentry, fun _ => rfl⟩))))

/-- The own context has a best plan when its requirement can be met and all alternatives were
visited. -/
theorem best_of_visited (h : run.At held own required memo)
    (hbarred : ∀ id ∈ parent, ∃ op, memo.op? id = some (.physical op) ∧
      servesRequirement op (run.seen op) required = false)
    (hvisited : ∀ id ∈ memo.alternativesOf run.group, run.Visited own required parent memo id)
    (hfeasible : run.Feasible required) : (memo.best? own).isSome := by
  by_contra hnone
  have hhandled (op : PhysicalOperator) (hlists : run.Lists memo op)
      (hserves : servesRequirement op (run.seen op) required = true) :
      (op = .tableScan run.access → run.Concludes memo own required true run.scanned) ∧
        (run.Helps op → servesRequirement op (run.seen op) required = true →
          run.Tried memo own required op) := by
    obtain ⟨id, hid, hop⟩ := hlists
    obtain ⟨found, hfound, hdone⟩ := hvisited id hid
    refine (hdone (fun hparent => ?_) op (Option.some.inj (hfound.symm.trans hop))).resolve_left hnone
    obtain ⟨again, hagain, hmisses⟩ := hbarred id hparent
    obtain rfl := Operator.physical.inj (Option.some.inj (hop.symm.trans hagain))
    simp [hserves] at hmisses
  refine hnone (best_of_tried h.relates ((hhandled _ h.scan ?_).1 rfl)
    (fun op hop hlists hserves => (hhandled op hlists hserves).2 hop hserves) hfeasible)
  exact Bool.and_eq_true_iff.mpr ⟨h.relates.columns, rfl⟩

section Group

variable (haborted : run.planner.aborted = false) (hpruning : run.planner.config.pruning = false)
  (hwhole : run.access.partition = .none)
include haborted hpruning hwhole

/-- Going through the levels of the group visits all its alternatives. -/
theorem does_visitLevels {top : OptimizationLevel} {bound : Nat}
    {optimize : ExprId → GroupId → PlanRequirement → Planning ContextId}
    (hfuel : 6 < run.planner.fuel)
    (hreaches : ∀ id, run.Reaches (own :: held) (some id) bound (optimize id))
    (h : run.At held own required memo) (hbound : required.weight ≤ bound) :
    run.Does held own required
      (top.downward.forM fun level => Planner.visitAlternatives run.group
        (run.planner.visitAlternative optimize parent own level) run.planner.fuel 0) memo
      fun _ final => ∀ id ∈ final.alternativesOf run.group,
        run.Visited own required parent final id := by
  have hlevel (level : OptimizationLevel) (current : Memo)
      (hcurrent : run.At held own required current) :
      run.Does held own required (Planner.visitAlternatives run.group
        (run.planner.visitAlternative optimize parent own level) run.planner.fuel 0) current
        fun _ final => level = .low → ∀ id ∈ final.alternativesOf run.group,
          run.Visited own required parent final id := by
    refine Does.mono (does_visitAlternatives (fun id memo hmemo hid =>
      does_visitAlternative haborted hpruning hwhole hreaches hmemo hbound hid)
      (fun _ _ _ hevolves hdone hlow => (hdone hlow).evolves hevolves) hcurrent (Nat.zero_le _)
      hfuel) fun _ final _ hvisited hlow id hid => ?_
    obtain ⟨index, hindex⟩ := List.mem_iff_getElem?.mp hid
    exact hvisited index id (Nat.zero_le _) hindex hlow
  cases top with
  | low =>
      exact Does.bind (hlevel .low memo h) fun _ final hfinal hvisited =>
        Does.pure hfinal.still (hvisited rfl)
  | high =>
      exact Does.bind (hlevel .high memo h) fun _ current hcurrent _ =>
        Does.bind (hlevel .low current hcurrent.still) fun _ final hfinal hvisited =>
          Does.pure hfinal.still (hvisited rfl)

/-- Optimizing the group ends with an optimized context, by induction on the depth of calls. -/
theorem reaches_optimizeGroup (hfuel : 6 < run.planner.fuel) (depth : Nat)
    (parent : Option ExprId) (held : List ContextId) :
    run.Reaches held parent depth (run.planner.optimizeGroup run.stage depth parent held) := by
  induction depth generalizing parent held with
  | zero => exact fun _ _ _ _ _ _ hweight => absurd hweight (Nat.not_lt_zero _)
  | succ depth ih =>
      intro memo asked h hrelates hbarred hlighter hweight
      unfold Planner.optimizeGroup
      refine Post.bind (Post.checkAbort (fun _ => ?_) fun habort => by simp [haborted] at habort)
      refine (Post.resolve h.known).andThen (fun _ _ hfail => hfail) ?_
      rintro _ looked ⟨rfl, hsame⟩
      rw [h.master]
      obtain ⟨hlooked, horder⟩ := h.quiet held hsame
      refine (post_lookupOrCreateContext horder held hrelates).andThen (fun _ _ hfail => hfail) ?_
      rintro ⟨own, created⟩ found ⟨hfound, horder, context, hentry, hcreated⟩
      replace hfound := hlooked.trans hfound
      have hfree := (hlighter.evolves hfound).free hentry
      refine Post.bind (Post.context (fun again hagain => ?_) fun hnone =>
        absurd hentry.found (by simp [hnone]))
      obtain rfl := Option.some.inj (hentry.found.symm.trans hagain)
      dsimp only
      split
      · rename_i hdone
        refine Post.pure ⟨hfound, horder, context, hentry, ?_⟩
        simpa [hfree] using (Bool.and_eq_true_iff.mp hdone).2
      · rename_i hopen
        -- an optimized context that was there before would have been answered
        have hnew : context.state ≠ .optimized := by
          intro hoptimized
          cases created with
          | true => simp [hcreated rfl] at hoptimized
          | false => simp [hoptimized] at hopen
        obtain ⟨hmarked, horder, hentry⟩ := horder.modifyContext
          (fun context => { context with state := .optimizing }) hentry hnew hfree rfl rfl
          (fun hbest => hbest) hentry.best (by simp)
        have hat : run.At held own asked _ :=
          { toInOrder := horder
            relates := hrelates
            busy := ⟨_, hentry, rfl⟩
            lighter := hlighter.evolves (hfound.trans hmarked) }
        refine Post.bind (Post.modify (Post.bind (Post.group (fun entered _ => ?_) fun hnone =>
          absurd hat.known (Nat.not_lt.mpr (Memo.group?_eq_none.mp hnone)))))
        refine Post.andThen (does_visitLevels haborted hpruning hwhole hfuel
          (fun id => ih (some id) (own :: held)) hat (Nat.le_of_lt_succ hweight))
          (fun _ _ hfail => hfail) ?_
        rintro _ final ⟨hfinal, hvisited⟩
        obtain ⟨last, hlast, hoptimizing⟩ := hfinal.still.busy
        have hevolves := (hfound.trans hmarked).trans hfinal.evolves
        -- every alternative was visited but the parent, which would not serve the requirement
        have hplanned : run.Feasible asked → last.best.isSome := by
          intro hfeasible
          have hbest := best_of_visited hfinal.still (fun id hid => ?_) hvisited hfeasible
          · rwa [Memo.best?, hlast.found] at hbest
          · obtain ⟨op, hop, hmisses⟩ := hbarred id hid
            exact ⟨op, hevolves.op?_eq_some hop, hmisses⟩
        obtain ⟨hmarked, horder, hentry⟩ := hfinal.still.toInOrder.modifyContext
          (fun context => { context with state := .optimized }) hlast (by simp [hoptimizing])
          (hfinal.still.lighter.free hlast) rfl rfl (fun hbest => hbest) hlast.best
          (fun _ => hplanned)
        exact Post.bind (Post.modify (Post.pure ⟨hevolves.trans hmarked, horder, _, hentry, rfl⟩))

end Group

end TableRun

end QueryPlanner
