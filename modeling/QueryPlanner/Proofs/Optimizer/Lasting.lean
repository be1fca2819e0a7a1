import QueryPlanner.Proofs.Optimizer.Children
import QueryPlanner.Proofs.Plan.Scalar

/-!
# Looking around does not run out of fuel

Deriving statistics and bounding costs go down from group to group. In a tame memo the groups come
one below the other, so both take fewer steps than `Memo.depthLimit` allows
(`Planning.lasts_deriveStatistics`, `Planning.lasts_lowerBound`). Other look-ups have no bound on
their steps at all (`Planning.Steady`).
-/

namespace QueryPlanner

open Memo (SameContent)

namespace Planning

variable {α β σ : Type}

/-- The computation does not run out of fuel. -/
def Lasts (action : Fallible σ α) (state : σ) : Prop :=
  Post action state (fun _ _ => True) (fun error _ => error ≠ .outOfFuel)

/-- Nothing in the computation can run out of fuel. -/
def Steady (action : Fallible σ α) : Prop := ∀ state, Lasts action state

/-- What holds after a computation that does not run out of fuel. -/
theorem Lasts.of_post {action : Fallible σ α} {state : σ} {ok : α → σ → Prop}
    (h : Post action state ok fun error _ => error ≠ .outOfFuel) : Lasts action state :=
  h.mono (fun _ _ _ => trivial) fun _ _ hfail => hfail

/-- A computation that lasts, with what is known of it. -/
theorem Lasts.keeping {action : Fallible σ α} {state : σ} {R : σ → σ → Prop}
    (h : Lasts action state) (hkeeps : Keeps R action) :
    Post action state (fun _ final => R state final)
      (fun error final => error ≠ .outOfFuel ∧ R state final) :=
  (h.both (hkeeps state)).mono (fun _ _ hok => hok.2) fun _ _ hfail => hfail

theorem Lasts.bind {action : Fallible σ α} {next : α → Fallible σ β} {state : σ}
    {R : σ → σ → Prop} (h : Lasts action state) (hkeeps : Keeps R action)
    (hnext : ∀ value middle, R state middle → Lasts (next value) middle) :
    Lasts (action >>= next) state :=
  (h.keeping hkeeps).andThen (fun _ _ hfail => hfail.1) hnext

namespace Steady

theorem pure {value : α} : Steady (pure value : Fallible σ α) := fun _ => Post.pure trivial

theorem throw {error : PlanningError} (h : error ≠ .outOfFuel) :
    Steady (throw error : Fallible σ α) := fun _ => Post.throw h

theorem get : Steady (get : Fallible σ σ) := fun _ => Post.get trivial

theorem set {next : σ} : Steady (set next : Fallible σ PUnit) := fun _ => Post.set trivial

theorem modify {change : σ → σ} : Steady (modify change : Fallible σ PUnit) := fun _ =>
  Post.modify trivial

theorem bind {action : Fallible σ α} {next : α → Fallible σ β} (h : Steady action)
    (hnext : ∀ value, Steady (next value)) : Steady (action >>= next) := fun state =>
  (h state).andThen (fun _ _ hfail => hfail) fun value middle _ => hnext value middle

theorem map {action : Fallible σ α} {change : α → β} (h : Steady action) :
    Steady (change <$> action) := fun state => Post.map (h state)

theorem forM {items : List α} {body : α → Fallible σ PUnit} (h : ∀ item, Steady (body item)) :
    Steady (items.forM body) := fun _ =>
  Post.forM (fun _ => True) trivial fun item _ current _ => h item current

theorem foldlM {items : List α} {body : β → α → Fallible σ β} {start : β}
    (h : ∀ found item, Steady (body found item)) : Steady (items.foldlM body start) := fun _ =>
  Post.foldlM (fun _ _ => True) trivial fun found item _ current _ => h found item current

theorem mapM {items : List α} {body : α → Fallible σ β} (h : ∀ item, Steady (body item)) :
    Steady (items.mapM body) := fun _ =>
  Lasts.of_post (Post.mapM (fun _ => True) (fun _ _ => True) trivial fun item _ current _ =>
    (h item current).mono (fun _ _ _ => ⟨trivial, trivial⟩) fun _ _ hfail => hfail)

end Steady

/-! ## Look-ups -/

theorem steady_group {id : GroupId} : Steady (group id) := fun _ =>
  Post.group (fun _ _ => trivial) fun _ => by simp

theorem steady_expr {id : ExprId} : Steady (expr id) := fun _ =>
  Post.expr (fun _ _ => trivial) fun _ => by simp

theorem steady_context {id : ContextId} : Steady (context id) := fun _ =>
  Post.context (fun _ _ => trivial) fun _ => by simp

theorem steady_costing {id : CostingId} : Steady (costing id) := fun _ =>
  Post.costing (fun _ _ => trivial) fun _ => by simp

theorem steady_checkAbort {aborted : Bool} : Steady (checkAbort aborted) := fun _ =>
  Post.checkAbort (fun _ => trivial) fun _ => by simp

theorem steady_resolve {id : GroupId} : Steady (resolve id) :=
  .bind steady_group fun _ => .bind .get fun _ => .bind .set fun _ => .pure

theorem steady_view {id : ExprId} : Steady (view id) :=
  .bind steady_expr fun _ => .bind steady_resolve fun _ =>
    .bind (.mapM fun _ => .bind steady_resolve fun _ => .bind steady_group fun _ => .pure) fun _ =>
      .bind steady_group fun _ => .pure

theorem steady_viewOver {id : ExprId} {children : List (Option ContextId)}
    {required : PlanRequirement} : Steady (Optimizer.viewOver id children required) := by
  refine .bind steady_view fun view => .bind (.foldlM fun found item => ?_) fun _ => .pure
  unfold withBestPlan
  refine .bind ?_ fun found => ?_
  · cases item.1 with
    | none => exact .pure
    | some _ => exact .map steady_context
  · split
    · exact .bind steady_costing fun _ => .pure
    · exact .pure

theorem steady_betterThan {left right : Costing} : Steady (betterThan left right) := by
  refine .bind .get fun memo => .bind (.forM fun costing => ?_) fun _ => .bind .get fun _ => .pure
  unfold visitJoinInputs
  split
  · exact .bind steady_context fun _ => .bind steady_context fun _ =>
      .bind steady_resolve fun _ => .pure
  · exact .pure

theorem steady_lookupBestContext {id : GroupId} {required : PlanRequirement} {stages : Nat} :
    Steady (lookupBestContext id required stages) := by
  unfold lookupBestContext
  split
  · exact .pure
  · refine .bind steady_resolve fun id => .bind steady_group fun group => ?_
    refine .bind (.foldlM fun best found => .bind steady_context fun context => ?_) fun _ => .pure
    split
    · refine .bind steady_costing fun candidate => ?_
      split
      · exact .pure
      · refine .bind steady_betterThan fun better => ?_
        split <;> exact .pure
    · exact .pure

theorem steady_bestPlanChild? {segments : Nat} {id : ContextId} :
    Steady (bestPlanChild? segments id) := by
  refine .bind steady_context fun context => ?_
  cases context.best with
  | none => exact .pure
  | some _ => exact .map (.bind steady_costing fun _ => .bind steady_context fun _ => .pure)

theorem steady_costedChild {segments : Nat} {id : CostingId} : Steady (costedChild segments id) :=
  .bind steady_costing fun _ => .bind steady_context fun _ => .pure

theorem steady_inputsOf {segments : Nat} {ids : List ContextId} :
    Steady (Planner.cost.inputsOf segments ids) := by
  induction ids with
  | nil => exact .pure
  | cons id rest ih =>
      unfold Planner.cost.inputsOf
      refine .bind steady_bestPlanChild? fun input => ?_
      split
      · exact .pure
      · exact .bind ih fun _ => .pure

/-! ## Recording -/

theorem steady_updateBest {id : CostingId} : Steady (updateBest id) := by
  unfold updateBest
  refine .bind steady_costing fun candidate => ?_
  split
  · exact .pure
  · refine .bind steady_context fun context => ?_
    extract_lets current finish
    have hfinish (improves : Bool) : Steady (finish improves) := by
      dsimp only [finish]
      split
      · exact .bind .modify fun _ => .pure
      · exact .pure
    clear_value current finish
    cases current with
    | none => exact .bind .pure hfinish
    | some current =>
        dsimp only
        split
        · exact .bind .pure hfinish
        · exact .bind steady_costing fun _ => .bind steady_betterThan hfinish

theorem steady_insertCosting {candidate : Costing} : Steady (insertCosting candidate) := by
  unfold insertCosting
  refine .bind steady_expr fun owner => ?_
  split
  · exact .bind .get fun _ => .bind .modify fun _ => .pure
  · refine .bind steady_costing fun recorded => .bind ?_ fun replaces => ?_
    · unfold mayReplace
      split
      · exact .pure
      · split
        · exact .pure
        · exact steady_betterThan
    · split
      · refine .bind .get fun _ => .bind .modify fun _ => .bind steady_context fun _ => ?_
        dsimp only
        split
        · exact .bind .modify fun _ => .pure
        · exact .pure
      · exact .pure

theorem steady_installRecorded {id : ExprId} {context : ContextId} {request : Nat} :
    Steady (Optimizer.installRecorded id context request) := by
  refine .bind steady_expr fun expr => ?_
  split
  · exact .bind steady_updateBest fun _ => .pure
  · exact .pure

theorem steady_recordPruned {id : ExprId} {context : ContextId} {request : Nat} {bound : Cost}
    {children : List (Option ContextId)} :
    Steady (Optimizer.recordPruned id context request bound children) :=
  .bind steady_insertCosting fun _ => .pure

/-! ## Statistics -/

/-- The preferred one of several sources is one of them. -/
theorem StatisticsSource.mem_of_best? {sources : List StatisticsSource} {source : StatisticsSource}
    (h : StatisticsSource.best? sources = some source) : source ∈ sources := by
  have hall : ∀ found ∈ StatisticsSource.best? sources, found ∈ sources := by
    refine List.foldlRecOn (motive := fun best : Option StatisticsSource =>
      ∀ found ∈ best, found ∈ sources) sources _ (by simp) fun best hbest candidate hcandidate => ?_
    cases best with
    | none => simpa using hcandidate
    | some current =>
        dsimp only
        split
        · simpa using hcandidate
        · exact hbest
  exact hall source h

/-- There is a preferred source of statistics when there is any source. -/
theorem StatisticsSource.best?_isSome {sources : List StatisticsSource}
    (h : sources ≠ []) : (StatisticsSource.best? sources).isSome := by
  obtain ⟨first, rest, rfl⟩ := List.exists_cons_of_ne_nil h
  refine List.foldlRecOn (motive := fun best : Option StatisticsSource => best.isSome) rest _
    rfl fun best hbest candidate _ => ?_
  obtain ⟨current, rfl⟩ := Option.isSome_iff_exists.mp hbest
  dsimp only
  split <;> rfl

section Descent

variable {below : GroupId → GroupId → Prop} {memo : Memo} {rank : GroupId → Nat} {aborted : Bool}
  {fuel : Nat}

/-- Resolving a group does not run out of fuel, and succeeds only for a known one. -/
theorem Post.resolveIfKnown {id : GroupId} :
    Post (Planning.resolve id) memo (fun master final => id.index < memo.groups.size ∧
      master = memo.master id ∧ SameContent memo final) (fun error _ => error ≠ .outOfFuel) := by
  by_cases hid : id.index < memo.groups.size
  · exact (Post.resolve hid).mono (fun _ _ h => ⟨hid, h⟩) fun _ _ hfail => hfail.elim
  · refine Post.bind (Post.group (fun found hfound => ?_) fun _ => by simp)
    exact absurd (Memo.exists_group?_eq_some.mp ⟨found, hfound⟩) hid

/-- The preferred source of statistics is an alternative that enforces nothing. -/
theorem Post.statisticsSource {id : GroupId} {group : Group} {required : ColumnSet} :
    Post (Planning.statisticsSource id group required) memo
      (fun source final => SameContent memo final ∧ source.expr ∈ group.alternatives ∧
        ∃ expr, memo.expr? source.expr = some expr ∧ expr.op.isEnforcer = false)
      (fun error _ => error ≠ .outOfFuel) := by
  unfold Planning.statisticsSource
  refine Post.bind (Post.get (Post.bind (Post.modify ?_)))
  split
  · rename_i source hbest
    refine Post.pure ⟨Memo.sameContent_compressAll, ?_⟩
    obtain ⟨alternative, halternative, hsource⟩ :=
      List.mem_filterMap.mp (StatisticsSource.mem_of_best? hbest)
    unfold Memo.statisticsSource? at hsource
    obtain ⟨expr, hexpr, hsource⟩ := Option.bind_eq_some_iff.mp hsource
    obtain ⟨op, hop, hsource⟩ := Option.bind_eq_some_iff.mp hsource
    split at hsource
    · exact absurd hsource (by simp)
    · obtain rfl := Option.some.inj hsource
      refine ⟨halternative, expr, hexpr, ?_⟩
      cases hkind : expr.op with
      | physical _ => simp [hkind, Operator.logical?] at hop
      | _ => rfl
  · exact Post.throw (by simp)

/-- The rank of a group falls when it is read from another one. -/
theorem rank_lt_of_reads (h : memo.Tame below)
    (hrank : ∀ upper index, index < memo.groups.size → below upper ⟨index⟩ →
      rank ⟨index⟩ < rank upper) {id : ExprId} {expr : MemoExpr} {parent child : GroupId}
    (hparent : memo.master parent = parent) (hid : id ∈ memo.alternativesOf parent)
    (hexpr : memo.expr? id = some expr) (hplain : expr.op.isEnforcer = false)
    (hchild : child ∈ expr.children) : rank (memo.master child) < rank parent :=
  hrank parent _
    (h.wellFormed.masterKnown child (h.wellFormed.childKnown id expr hexpr child hchild))
    (h.descending _ _ ⟨hparent, id, expr, hid, hexpr, hplain, child, hchild, rfl⟩)

/-- Deriving statistics ends within the rank of the group, by induction on the levels left. -/
theorem lasts_deriveUpTo (h : memo.Tame below)
    (hrank : ∀ upper index, index < memo.groups.size → below upper ⟨index⟩ →
      rank ⟨index⟩ < rank upper) {id : GroupId} {wanted : ColumnSet}
    (hfuel : rank (memo.master id) < fuel) :
    Lasts (deriveUpTo aborted fuel id wanted) memo := by
  induction fuel generalizing id wanted memo with
  | zero => omega
  | succ fuel ih =>
      unfold deriveUpTo
      refine (steady_checkAbort _).bind (R := SameContent) keeps_checkAbort
        fun _ checked hchecked => ?_
      have hends := h.wellFormed.linksEnd
      refine Post.resolveIfKnown.andThen (fun _ _ hfail => hfail) ?_
      rintro _ looked ⟨_, rfl, hlooked⟩
      have hsame := hchecked.trans hlooked
      -- the rest is stated of the memo after looking up the master
      have hlevel : rank (looked.master id) < fuel + 1 := by rwa [hsame.master hends]
      have hmaster : checked.master id = looked.master id := by
        rw [hchecked.master hends, hsame.master hends]
      rw [hmaster]
      replace h := hsame.sameQuery.tame h
      rw [← hsame.groups_size] at hrank
      clear hfuel hmaster hsame hlooked hchecked hends
      have hends := h.wellFormed.linksEnd
      refine Post.bind (Post.group (fun found hfound => ?_) fun _ => by simp)
      split
      · unfold scalarStatistics
        split
        · exact Steady.pure _
        · exact Steady.bind .modify (fun _ => .pure) _
      · dsimp only
        split
        · exact Steady.pure _
        · refine Post.statisticsSource.andThen (fun _ _ hfail => hfail) ?_
          rintro source middle ⟨hmiddle, hlisted, before, hbefore, hplain⟩
          have hid : source.expr ∈ looked.alternativesOf (looked.master id) := by
            unfold Memo.alternativesOf
            rw [hfound]
            exact hlisted
          refine Post.bind (Post.expr (fun expr hexpr => ?_) fun _ => by simp)
          obtain ⟨expr', hexpr', hcontent⟩ := hmiddle.exists_expr hbefore
          obtain rfl := Option.some.inj (hexpr.symm.trans hexpr')
          have hchildren : expr.children = before.children := congrArg (·.children) hcontent
          have hknown := h.wellFormed.childKnown source.expr before hbefore
          split
          · rw [hchildren]
            refine (Post.resolveAll (hmiddle.linksEnd hends)
              (hmiddle.groups_size ▸ hknown)).andThen (fun _ _ hfail => hfail.elim) ?_
            rintro _ resolved ⟨rfl, hresolved⟩
            rw [funext (hmiddle.master hends)]
            replace hresolved := hmiddle.trans hresolved
            refine Lasts.bind (R := SameContent) (Steady.mapM (fun _ => steady_group) _)
              (Keeps.mapM fun _ _ => keeps_group) fun below read hread => ?_
            replace hread := hresolved.trans hread
            refine (Post.mapM (SameContent looked) (fun _ _ => True) hread
              fun item hitem current hcurrent => ?_).andThen (fun _ _ hfail => hfail)
                fun statistics derived _ => ?_
            · obtain ⟨⟨master, group⟩, position⟩ := item
              obtain ⟨child, hchild, rfl⟩ := List.mem_map.mp
                (List.of_mem_zip (List.fst_mem_of_mem_zipIdx hitem)).1
              dsimp only
              split
              · exact Post.pure ⟨hcurrent, trivial⟩
              -- the source enforces nothing, so its children come below the group
              · have hlower := rank_lt_of_reads h hrank (hends.master_master _) hid hbefore hplain
                  hchild
                have hchildLevel : rank (current.master (looked.master child)) < fuel := by
                  rw [hcurrent.master hends, hends.master_master]
                  omega
                refine Post.map (((ih (hcurrent.sameQuery.tame h) (hcurrent.groups_size ▸ hrank)
                  hchildLevel).keeping (R := SameContent) keeps_deriveUpTo).mono (fun _ final hfinal => ?_)
                    fun _ _ hfail => hfail.1)
                exact ⟨hcurrent.trans hfinal, trivial⟩
            · refine Steady.bind .get (fun memo => ?_) _
              split
              · exact .throw (by simp)
              · exact .bind .modify fun _ => .bind steady_group fun _ => .pure
          · exact Steady.throw (by simp) _

/-- The groups are fewer than what a descent is allowed for. -/
theorem size_lt_depthLimit : memo.groups.size < memo.depthLimit :=
  Nat.lt_add_of_pos_right (by decide)

/-- Deriving statistics takes no more levels than there are groups. -/
theorem lasts_deriveUpTo_of_size_lt [IsStrictOrder GroupId below] (h : memo.Tame below)
    (hlevels : memo.groups.size < fuel) {id : GroupId} {required : ColumnSet} :
    Lasts (deriveUpTo aborted fuel id required) memo := by
  obtain ⟨rank, hbound, hfalls⟩ := exists_rank below GroupId.mk memo.groups.size
  exact lasts_deriveUpTo h hfalls ((hbound _).trans_lt hlevels)

theorem lasts_deriveStatistics [IsStrictOrder GroupId below] (h : memo.Tame below) {id : GroupId}
    {required : ColumnSet} : Lasts (deriveStatistics aborted id required) memo :=
  Post.bind (Post.get (lasts_deriveUpTo_of_size_lt h size_lt_depthLimit))

theorem lasts_contextStatistics [IsStrictOrder GroupId below] (h : memo.Tame below)
    {id : ContextId} : Lasts (contextStatistics aborted id) memo := by
  unfold contextStatistics
  refine (steady_context _).bind (R := SameContent) keeps_context fun context first hfirst => ?_
  refine (steady_resolve _).bind sameContent_resolve fun owner second hsecond => ?_
  refine (steady_group _).bind (R := SameContent) keeps_group fun found third hthird => ?_
  have hsame := (hfirst.trans hsecond).trans hthird
  split
  · exact Steady.pure _
  · refine (lasts_deriveStatistics (hsame.sameQuery.tame h)).bind keeps_deriveStatistics
      fun derived final _ => ?_
    exact Steady.bind .modify (fun _ => .pure) _

/-- The groups that were not visited yet. -/
def unvisited (count : Nat) (visited : Visited) : Finset Nat :=
  (Finset.range count).filter fun index => (visited.lookup ⟨index⟩).isNone

/-- Visiting a group leaves fewer, if more was visited since. -/
theorem card_unvisited_lt {count : Nat} {visited later : Visited} {id : GroupId}
    (hknown : id.index < count) (hfirst : visited.lookup id = none)
    (hvisited : (later.lookup id).isSome)
    (hlater : ∀ key, (visited.lookup key).isSome → (later.lookup key).isSome) :
    (unvisited count later).card < (unvisited count visited).card := by
  refine Finset.card_lt_card ((Finset.ssubset_iff_of_subset fun index hindex => ?_).mpr
    ⟨id.index, ?_, ?_⟩)
  · obtain ⟨hrange, hnone⟩ := Finset.mem_filter.mp hindex
    refine Finset.mem_filter.mpr ⟨hrange, ?_⟩
    rw [Option.isNone_iff_eq_none] at hnone ⊢
    refine Option.not_isSome_iff_eq_none.mp fun hsome => ?_
    have hvisited := hlater ⟨index⟩ hsome
    rw [hnone] at hvisited
    exact Bool.false_ne_true hvisited
  · exact Finset.mem_filter.mpr ⟨Finset.mem_range.mpr hknown, by rw [hfirst]; rfl⟩
  · intro hmem
    have hnone := (Finset.mem_filter.mp hmem).2
    rw [Option.isNone_iff_eq_none] at hnone
    rw [hnone] at hvisited
    exact Bool.false_ne_true hvisited

/-- Resetting statistics ends in any memo, because no group is entered twice: by induction on the
levels left, which are more than the groups that were not visited. -/
theorem lasts_resetUpTo (hwell : memo.WellFormed) {visited : Visited} {id : GroupId}
    (hfuel : (unvisited memo.groups.size visited).card < fuel) :
    Post (resetUpTo fuel visited id) memo
      (fun found final => SameContent memo final ∧
        ∀ key, (visited.lookup key).isSome → (found.1.lookup key).isSome)
      (fun error _ => error ≠ .outOfFuel) := by
  induction fuel generalizing visited id memo with
  | zero => omega
  | succ fuel ih =>
      unfold resetUpTo
      refine Post.resolveIfKnown.andThen (fun _ _ hfail => hfail) ?_
      rintro _ looked ⟨hid, rfl, hlooked⟩
      have hknown := hwell.masterKnown id hid
      split
      · exact Post.pure ⟨hlooked, fun _ hkey => hkey⟩
      · rename_i hfirst
        have hentered : ∀ key, (visited.lookup key).isSome →
            (((memo.master id, false) :: visited).lookup key).isSome := by
          intro key hkey
          rw [List.lookup_cons]
          split <;> simp [hkey]
        refine Post.bind (Post.get ?_)
        refine (Post.foldlM (fun found current => SameContent memo current ∧
          ∀ key, (((memo.master id, false) :: visited).lookup key).isSome →
            (found.1.lookup key).isSome) ⟨hlooked, fun _ hkey => hkey⟩
          fun found child _ current hcurrent => ?_).andThen (fun _ _ hfail => hfail) ?_
        · obtain ⟨hsame, hkeys⟩ := hcurrent
          -- the group was entered since, so fewer are left for the child
          have hfewer := card_unvisited_lt hknown hfirst
            (hkeys _ (by rw [List.lookup_cons_self]; rfl)) fun key hkey => hkeys key (hentered key hkey)
          refine (ih (hsame.wellFormed hwell)
            (by rw [hsame.groups_size]; omega)).andThen (fun _ _ hfail => hfail) ?_
          rintro ⟨later, reset⟩ final ⟨hfinal, hlater⟩
          exact Post.pure ⟨hsame.trans hfinal, fun key hkey => hlater key (hkeys key hkey)⟩
        · rintro ⟨later, reset⟩ final ⟨hfinal, hkeys⟩
          have hall (reset : Bool) : ∀ key, (visited.lookup key).isSome →
              (((memo.master id, reset) :: later).lookup key).isSome := by
            intro key hkey
            rw [List.lookup_cons]
            split
            · rfl
            · exact hkeys key (hentered key hkey)
          refine Post.bind (Post.group (fun group _ => ?_) fun _ => by simp)
          dsimp only
          split
          · exact Post.bind (Post.modify
              (Post.pure ⟨hfinal.trans Memo.sameContent_forgetStatistics, hall _⟩))
          · exact Post.pure ⟨hfinal, hall _⟩

theorem lasts_resetStatistics (hwell : memo.WellFormed) : Lasts resetStatistics memo := by
  have hroot : Post root memo (fun _ final => SameContent memo final)
      (fun error _ => error ≠ .outOfFuel) := by
    unfold root
    refine Post.bind (Post.get ?_)
    split
    · refine Post.resolveIfKnown.andThen (fun _ _ hfail => hfail) ?_
      rintro master final ⟨_, _, hfinal⟩
      exact Post.pure hfinal
    · exact Post.pure (.refl memo)
  unfold resetStatistics
  refine hroot.andThen (fun _ _ hfail => hfail) fun found looked hlooked => ?_
  split
  · exact Steady.pure _
  · refine Post.bind (Post.get ?_)
    have hcount : (unvisited looked.groups.size []).card ≤ looked.groups.size := by
      unfold unvisited
      exact (Finset.card_filter_le _ _).trans (Finset.card_range _).le
    exact (lasts_resetUpTo (hlooked.wellFormed hwell) (Nat.lt_succ_of_le hcount)).andThen
      (fun _ _ hfail => hfail) fun _ _ _ => Steady.pure _

/-! ## Lower bounds -/

variable {model : CostModel} {segments : Nat}

/-- The bound of a group lasts when those of its alternatives that enforce nothing do. -/
theorem lasts_groupBoundBy {bound : ExprId → PlanRequirement → Planning Cost} {id : GroupId}
    {required : PlanRequirement}
    (hkeeps : ∀ alternative required, Keeps SameContent (bound alternative required))
    (hbound : ∀ alternative op current, alternative ∈ memo.alternativesOf (memo.master id) →
      memo.physical? alternative = some op → op.isEnforcer = false → SameContent memo current →
      Lasts (bound alternative required) current) :
    Lasts (groupBoundBy bound id required) memo := by
  unfold groupBoundBy
  refine Post.resolveIfKnown.andThen (fun _ _ hfail => hfail) ?_
  rintro _ looked ⟨_, rfl, hlooked⟩
  refine Post.bind (Post.group (fun found hfound => ?_) fun _ => by simp)
  split
  · exact Steady.pure _
  · refine Post.bind (Post.get ?_)
    refine (Post.foldlM (fun _ current => SameContent memo current) hlooked
      fun least alternative halternative current hcurrent => ?_).andThen (fun _ _ hfail => hfail)
        fun least final _ => ?_
    · obtain ⟨hlisted, hconsidered⟩ := List.mem_filter.mp halternative
      rw [hlooked.physical?] at hconsidered
      have hid : alternative ∈ memo.alternativesOf (memo.master id) := by
        rw [← hlooked.alternativesOf]
        unfold Memo.alternativesOf
        rw [hfound]
        exact hlisted
      cases hop : memo.physical? alternative with
      | none => simp [hop] at hconsidered
      | some op =>
          have hplain : op.isEnforcer = false := by simpa [hop] using hconsidered
          refine ((hbound alternative op current hid hop hplain hcurrent).keeping
            (hkeeps alternative required)).andThen (fun _ _ hfail => hfail.1) fun _ _ hfinal => ?_
          exact Post.pure (hcurrent.trans hfinal)
    · exact Steady.bind .modify (fun _ => .pure) _

/-- Bounds of children that last, each for a child that is not a scalar. -/
theorem lasts_boundedChildren {op : PhysicalOperator} {view : ExprView} {required : PlanRequirement}
    {costed : Option (Nat × CostingId)} {bound : GroupId → PlanRequirement → Planning Cost}
    (hkeeps : ∀ id required, Keeps SameContent (bound id required))
    {children : List (ChildView × Nat)}
    (hbound : ∀ child ∈ children, ∀ asked current, SameContent memo current →
      Lasts (bound child.1.group asked) current) {current : Memo} (hsame : SameContent memo current) :
    Lasts (boundedChildren segments op view required costed bound children) current := by
  induction children generalizing current with
  | nil => exact Steady.pure _
  | cons item rest ih =>
      obtain ⟨child, position⟩ := item
      replace ih {current : Memo} := @ih (fun other hother => hbound other (by simp [hother])) current
      unfold boundedChildren
      split
      · exact ih hsame
      · split
        · refine (steady_costedChild _).bind (R := SameContent) keeps_costedChild
            fun input middle hmiddle => ?_
          exact (ih (hsame.trans hmiddle)).bind (keeps_boundedChildren hkeeps _) fun _ _ _ =>
            Steady.pure _
        · refine (hbound (child, position) (by simp) _ current hsame).bind (hkeeps _ _)
            fun least middle hmiddle => ?_
          split
          · exact Steady.pure _
          · exact (ih (hsame.trans hmiddle)).bind (keeps_boundedChildren hkeeps _) fun _ _ _ =>
              Steady.pure _

/-- A child that an alternative sees is the master of one of its children. -/
theorem exists_child_of_bare {view : ExprView} {id : ExprId} {expr : MemoExpr}
    (hview : view.bare = memo.bareView id expr) {seen : ChildView} (hseen : seen ∈ view.children) :
    ∃ child ∈ expr.children, seen.group = memo.master child := by
  have hchildren : view.children.map ChildView.bare = expr.children.map memo.bareChild :=
    congrArg (·.children) hview
  have hmem : seen.bare ∈ expr.children.map memo.bareChild :=
    hchildren ▸ List.mem_map_of_mem hseen
  obtain ⟨child, hchild, hsame⟩ := List.mem_map.mp hmem
  exact ⟨child, hchild, (congrArg (·.group) hsame).symm⟩

/-- A physical operator is that of an alternative. -/
theorem exists_expr_of_physical? {id : ExprId} {op : PhysicalOperator}
    (h : memo.physical? id = some op) : ∃ expr, memo.expr? id = some expr ∧ expr.op = .physical op := by
  unfold Memo.physical? Memo.op? at h
  obtain ⟨found, hfound, hop⟩ := Option.bind_eq_some_iff.mp h
  obtain ⟨expr, hexpr, rfl⟩ := Option.map_eq_some_iff.mp hfound
  refine ⟨expr, hexpr, ?_⟩
  cases hkind : expr.op with
  | physical other =>
      rw [hkind] at hop
      rw [Option.some.inj hop]
  | logical _ => simp [hkind, Operator.physical?] at hop
  | scalar _ => simp [hkind, Operator.physical?] at hop

/-- Bounding an alternative ends within the rank of its group, and one level more for an enforcer,
by induction on the levels left. -/
theorem lasts_lowerBoundUpTo (h : memo.Tame below)
    (hrank : ∀ upper index, index < memo.groups.size → below upper ⟨index⟩ →
      rank ⟨index⟩ < rank upper) {goal : GroupId × PlanRequirement} {id : ExprId}
    {op : PhysicalOperator} {children : List GroupId} {required : PlanRequirement}
    {costed : Option (Nat × CostingId)} (hoffers : memo.Offers below goal id op children)
    (hfuel : rank goal.1 + (if op.isEnforcer then 1 else 0) < fuel) :
    Lasts (lowerBoundUpTo model segments fuel id required costed) memo := by
  induction fuel generalizing goal id op children required costed memo with
  | zero => omega
  | succ fuel ih =>
      obtain ⟨expr, hexpr, hop, rfl, hhome⟩ := hoffers.found
      unfold lowerBoundUpTo
      refine Post.bind (Post.expr (fun found hfound => ?_) fun _ => by simp)
      obtain rfl := Option.some.inj (hexpr.symm.trans hfound)
      rw [hop]
      dsimp only
      cases expr.bounds.lookup { required, costedChild := costed } with
      | some _ => exact Steady.pure _
      | none =>
        refine (Post.view h.wellFormed hexpr).andThen (fun _ _ hfail => hfail.elim) ?_
        rintro view viewed ⟨hviewed, hview⟩
        refine (lasts_boundedChildren (fun _ _ => keeps_groupBoundBy fun _ _ => keeps_lowerBoundUpTo)
          (fun item hitem asked current hcurrent => ?_) hviewed).bind (R := SameContent)
            (keeps_boundedChildren (fun _ _ => keeps_groupBoundBy fun _ _ => keeps_lowerBoundUpTo) _)
            fun found final _ => Steady.bind .modify (fun _ => .pure) _
        have hends := h.wellFormed.linksEnd
        obtain ⟨child, hchild, hgroup⟩ := exists_child_of_bare hview
          (List.fst_mem_of_mem_zipIdx hitem)
        -- the child is a group further down, or the own group when the alternative enforces
        have hlevel : rank (memo.master child) < fuel := by
          cases henforcer : op.isEnforcer with
          | true =>
              rw [henforcer, if_pos rfl] at hfuel
              rw [hoffers.enforcing henforcer child hchild]
              omega
          | false =>
              have hlower : rank (memo.master child) < rank goal.1 :=
                hrank _ _ (h.wellFormed.masterKnown child (hoffers.known child hchild))
                  (hoffers.descending henforcer child hchild)
              omega
        have hmaster : current.master item.1.group = memo.master child := by
          rw [hcurrent.master hends, hgroup, hends.master_master]
        refine lasts_groupBoundBy (fun _ _ => keeps_lowerBoundUpTo)
          fun alternative other later hid hother hplain hlater => ?_
        have hall := hcurrent.trans hlater
        have htame := hall.sameQuery.tame h
        rw [hmaster, ← hlater.alternativesOf] at hid
        rw [← hlater.physical?] at hother
        obtain ⟨found, hfound, hfoundOp⟩ := exists_expr_of_physical? hother
        have hstill : later.master (memo.master child) = memo.master child := by
          rw [hall.master hends, hends.master_master]
        have hlower : later.Offers below (memo.master child, asked) alternative other found.children :=
          htame.offers hstill hid hfound hfoundOp
        refine ih htame (hall.groups_size ▸ hrank) hlower ?_
        rw [hplain, if_neg Bool.false_ne_true]
        exact hlevel

theorem lasts_lowerBound [IsStrictOrder GroupId below] (h : memo.Tame below)
    {goal : GroupId × PlanRequirement} {id : ExprId} {op : PhysicalOperator} {children : List GroupId}
    {required : PlanRequirement} {costed : Option (Nat × CostingId)}
    (hoffers : memo.Offers below goal id op children) :
    Lasts (lowerBound model segments id required costed) memo := by
  obtain ⟨rank, hbound, hfalls⟩ := exists_rank below GroupId.mk memo.groups.size
  refine Post.bind (Post.get (lasts_lowerBoundUpTo h hfalls hoffers ?_))
  have hlevel := hbound goal.1
  have hlimit : 1 < Nat.pow 2 62 := by decide
  unfold Memo.depthLimit
  split <;> omega

/-- A lower bound of a group takes no more levels than there are groups. -/
theorem lasts_groupBoundBy_of_size_lt [IsStrictOrder GroupId below] (h : memo.Tame below)
    (hlevels : memo.groups.size < fuel) {id : GroupId} {required : PlanRequirement} :
    Lasts (groupBoundBy (fun alternative required =>
      lowerBoundUpTo model segments fuel alternative required none) id required) memo := by
  obtain ⟨rank, hbound, hfalls⟩ := exists_rank below GroupId.mk memo.groups.size
  refine lasts_groupBoundBy (fun _ _ => keeps_lowerBoundUpTo)
    fun alternative op current hid hop hplain hsame => ?_
  have htame := hsame.sameQuery.tame h
  have hends := h.wellFormed.linksEnd
  rw [← hsame.alternativesOf] at hid
  rw [← hsame.physical?] at hop
  obtain ⟨expr, hexpr, hphysical⟩ := exists_expr_of_physical? hop
  have hmaster : current.master (memo.master id) = memo.master id := by
    rw [hsame.master hends, hends.master_master]
  have hoffers : current.Offers below (memo.master id, required) alternative op expr.children :=
    htame.offers hmaster hid hexpr hphysical
  refine lasts_lowerBoundUpTo htame (hsame.groups_size ▸ hfalls) hoffers ?_
  rw [hplain, if_neg Bool.false_ne_true]
  exact (hbound _).trans_lt hlevels

theorem lasts_groupLowerBound [IsStrictOrder GroupId below] (h : memo.Tame below) {id : GroupId}
    {required : PlanRequirement} : Lasts (groupLowerBound model segments id required) memo := by
  refine Post.bind (Post.get (lasts_groupBoundBy_of_size_lt h ?_))
  have hlimit : 0 < Nat.pow 2 62 := by decide
  unfold Memo.depthLimit
  omega

end Descent

end Planning

/-! ## Pruning -/

namespace Planner

open Planning

variable {below : GroupId → GroupId → Prop} [IsStrictOrder GroupId below] {memo : Memo}
  {planner : Planner} {id : ExprId}

theorem lasts_pruneBound? (h : memo.Tame below) {goal : GroupId × PlanRequirement}
    {op : PhysicalOperator} {children : List GroupId} {context : Context}
    {costed : Option (Nat × CostingId)} (hoffers : memo.Offers below goal id op children) :
    Lasts (planner.pruneBound? id context costed) memo := by
  unfold pruneBound?
  refine (steady_lookupBestContext _).bind keeps_lookupBestContext fun known first hfirst => ?_
  split
  · exact Steady.pure _
  · refine (steady_context _).bind (R := SameContent) keeps_context fun found second hsecond => ?_
    split
    · exact Steady.pure _
    · refine (steady_costing _).bind (R := SameContent) keeps_costing fun best third hthird => ?_
      have hsame := (hfirst.trans hsecond).trans hthird
      have hevolves : Memo.Evolves [] memo third := hsame.evolves h.wellFormed.linksEnd
      exact (lasts_lowerBound (hsame.sameQuery.tame h) (hoffers.evolves hevolves)).bind
        (R := SameContent) keeps_lowerBound fun bound _ _ => Steady.pure _

end Planner

end QueryPlanner
