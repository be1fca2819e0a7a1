import QueryPlanner.Proofs.Meaning.Profile
import QueryPlanner.Proofs.Meaning.Query
import QueryPlanner.Proofs.Memo.Derivation
import QueryPlanner.Proofs.Memo.Estimates

/-!
# All alternatives agree on logical properties

The properties of a group are recorded when it is created, from its first alternative. In a memo that
queries are inserted in and that is searched, every logical alternative of the group derives the same
properties, and so does every group that was found to be its duplicate (`Memo.Queried.alternatives_agree`). The
profiles of groups (`Profile.reading`) are kept by all rules, and together with the scans that the
accesses of the memo consume they settle the properties.
-/

namespace QueryPlanner

open Memo (SameContent)
open Planning (Keeps Post exec)

/-! ## What a search does to a memo at most -/

/-- The memo of a search changes within a relation of memos. -/
def SearchState.Within (R : Memo → Memo → Prop) (state final : SearchState) : Prop :=
  R state.memo final.memo

namespace SearchState.Within

variable {R : Memo → Memo → Prop}

instance [Std.Refl R] : Std.Refl (SearchState.Within R) := ⟨fun state => Std.Refl.refl state.memo⟩

instance [IsTrans Memo R] : IsTrans SearchState (SearchState.Within R) :=
  ⟨fun first second third => IsTrans.trans first.memo second.memo third.memo⟩

theorem onMemo {α : Type} {action : Planning α} (h : Keeps R action) :
    Keeps (SearchState.Within R) (Searching.onMemo action) := fun state =>
  Searching.post_onMemo (h state.memo)

theorem modify [Std.Refl R] {change : SearchState → SearchState}
    (h : ∀ state, (change state).memo = state.memo) :
    Keeps (SearchState.Within R) (modify change) :=
  Keeps.modify fun state => show R state.memo (change state).memo by
    rw [h]
    exact Std.Refl.refl _

/-- A computation that stays within a relation may come before one that fails within it. -/
theorem andThen [IsTrans Memo R] {α β : Type} {action : Searching α} {next : α → Searching β}
    {state : SearchState} {origin : Memo} {ok : β → SearchState → Prop}
    (hstart : R origin state.memo) (h : Keeps (SearchState.Within R) action)
    (hnext : ∀ value middle, R origin middle.memo →
      Post (next value) middle ok (fun _ final => R origin final.memo)) :
    Post (action >>= next) state ok (fun _ final => R origin final.memo) :=
  (h state).andThen (fun _ _ hfail => IsTrans.trans _ _ _ hstart hfail) fun value middle hmiddle =>
    hnext value middle (IsTrans.trans _ _ _ hstart hmiddle)

end SearchState.Within

namespace Planner

open SearchState (Within)

variable {R : Memo → Memo → Prop} {planner : Planner} {rules : List Rule}

/-- Extracting the best plan so far leaves the content. -/
theorem sameContent_of_planSoFar {root : GroupId} {required : PlanRequirement} {stages : Nat}
    {memo final : Memo} {outcome : Except PlanningError (Option PlanNode)}
    (hexec : exec (planSoFar root required stages) memo = (outcome, final)) :
    SameContent memo final := by
  have hsame : SameContent memo (exec (planSoFar root required stages) memo).2 :=
    (keeps_planSoFar memo).exec_snd
  rwa [hexec] at hsame

section Stages

variable (hfills : ∀ {memo memo' : Memo}, memo.Fills memo' → R memo memo')
include hfills

/-- One stage: exploration fills the memo and duplicates are merged, implementation fills it further,
and the root is optimized. Then the best plan is extracted for what the root was after the merge. -/
theorem post_runStage [IsTrans Memo R] (hplain : ∀ rule ∈ rules, rule.IsPlain)
    {root : GroupId} {required : PlanRequirement} {stage : Nat}
    (hoptimize : ∀ group, Keeps R (planner.optimize stage group required)) {state : SearchState} :
    Post (planner.runStage rules root required stage) state
      (fun found final => ∃ merged optimized : Memo, R state.memo merged ∧ R merged optimized ∧
        exec (planSoFar (merged.master (state.memo.master root)) required (stage + 1)) optimized =
          (.ok found, final.memo))
      (fun _ final => R state.memo final.memo) := by
  have hlook {memo memo' : Memo} (hsame : SameContent memo memo') : R memo memo' :=
    hfills (.look .refl hsame)
  have hkind (kind : RuleKind) : ∀ rule ∈ rules.filter (·.kind == kind), rule.IsPlain :=
    fun rule hrule => hplain rule (List.mem_of_mem_filter hrule)
  have : Std.Refl R := ⟨fun _ => hfills .refl⟩
  unfold runStage
  refine Post.bind (Searching.post_onMemo (Planning.Post.resolved.mono ?_ fun _ _ hsame =>
    hlook hsame))
  rintro _ looked ⟨rfl, hlooked⟩
  refine Within.andThen (hlook hlooked) (Within.modify fun _ => rfl) fun _ counted hcounted => ?_
  refine Within.andThen hcounted (Within.modify fun _ => rfl) fun _ started hstarted => ?_
  refine Within.andThen hstarted ((fills_exploreGroup (hkind .transformation)).mono
    fun _ _ => hfills) fun _ explored hexplored => ?_
  refine Post.bind (Searching.post_onMemo (post_finishExploration.mono ?_ fun _ _ hsame => ?_))
  · rintro _ finished ⟨rfl, hfinished⟩
    have hmerged := IsTrans.trans _ _ _ hexplored (hfills Memo.Fills.refl.mergeDuplicates)
    suffices hrest : Post _ _
        (fun found (final : SearchState) => ∃ optimized : Memo,
          R explored.memo.mergeDuplicates optimized ∧
            exec _ optimized = (.ok found, final.memo))
        (fun _ (final : SearchState) => R explored.memo.mergeDuplicates final.memo) from
      hrest.mono (fun _ _ ⟨optimized, hfinal⟩ => ⟨_, optimized, hmerged, hfinal⟩)
        fun _ _ hfail => IsTrans.trans _ _ _ hmerged hfail
    refine Within.andThen (hlook hfinished) (Within.modify fun _ => rfl) fun _ again hagain => ?_
    refine Within.andThen hagain ((fills_implementGroup (hkind .implementation)).mono
      fun _ _ => hfills) fun _ implemented himplemented => ?_
    refine Within.andThen himplemented (Within.onMemo (hoptimize _)) fun _ optimized hoptimized => ?_
    refine Searching.post_onMemo (Post.of_exec (fun found final hexec => ?_) fun _ final hexec => ?_)
    · exact ⟨optimized.memo, hoptimized, hexec⟩
    · exact IsTrans.trans _ _ _ hoptimized (hlook (sameContent_of_planSoFar hexec))
  · exact IsTrans.trans _ _ _ (IsTrans.trans _ _ _ hexplored
      (hfills Memo.Fills.refl.mergeDuplicates)) (hlook hsame)

/-- However a stage ends, it stays within a relation that allows for filling and optimizing. -/
theorem within_runStage [Optimizer.Works planner R] (hplain : ∀ rule ∈ rules, rule.IsPlain)
    {root : GroupId} {required : PlanRequirement} {stage : Nat} :
    Keeps (Within R) (planner.runStage rules root required stage) := fun state => by
  refine (post_runStage hfills hplain fun _ => Optimizer.Works.keeps_optimize).mono ?_
    fun _ _ hfinal => hfinal
  rintro found final ⟨merged, optimized, hmerged, hoptimized, hexec⟩
  have hlooked : R optimized final.memo := hfills (.look .refl (sameContent_of_planSoFar hexec))
  exact IsTrans.trans state.memo _ _ hmerged (IsTrans.trans _ _ _ hoptimized hlooked)

/-- Several stages, by induction on them. -/
theorem within_runStages [Optimizer.Works planner R] (hplain : ∀ rule ∈ rules, rule.IsPlain)
    {root : GroupId} {required : PlanRequirement} {stages : List Nat} {best : Option PlanNode} :
    Keeps (Within R) (planner.runStages rules root required stages best) := by
  induction stages generalizing best with
  | nil => exact Keeps.pure
  | cons stage rest ih =>
      unfold runStages
      refine Keeps.bind (within_runStage hfills hplain) fun found => ?_
      dsimp only
      split
      · split
        · exact Keeps.pure
        · exact ih
      · exact ih

/-- However a search ends, it stays within a relation that allows for filling and optimizing. -/
theorem within_search (planner : Planner) [Optimizer.Works planner R] (root : GroupId)
    (required : PlanRequirement) (memo : Memo) :
    R memo (planner.search standardRules root required memo).state.memo := by
  have hlook {α : Type} {action : Planning α} (h : Keeps SameContent action) : Keeps R action :=
    h.mono fun _ _ hsame => hfills (.look .refl hsame)
  have hsearch : Keeps (Within R) (planner.searchRoot standardRules root required) := by
    unfold searchRoot
    refine Keeps.bind (Within.onMemo (hlook (Keeps.modify fun _ => Memo.sameContent_setRoot)))
      fun _ => ?_
    refine Keeps.bind (within_runStages hfills standardRules_isPlain) fun best => ?_
    split
    · exact Keeps.pure
    · exact Keeps.bind (Within.onMemo (hlook Planning.keeps_resolve)) fun _ => Keeps.throw
  exact (hsearch { memo }).exec_snd

end Stages

end Planner

/-! ## Queries and searches -/

/-- The memos that come about by inserting queries and searching for the best plans of groups. An
operation that fails counts with the memo it leaves. -/
inductive Memo.Queried : Memo → Prop
  | empty : Queried {}
  | insert {memo : Memo} (before : Queried memo) (query : Query) :
      Queried (exec query.insert memo).2
  | search {memo : Memo} (before : Queried memo) (planner : Planner) (root : GroupId)
      (required : PlanRequirement) :
      Queried (planner.search standardRules root required memo).state.memo

/-- A relation that allows for insertions of logical operators and predicates allows for those of
queries. -/
theorem Query.keeps_insert {R : Memo → Memo → Prop} [Std.Refl R] [IsTrans Memo R]
    (hfills : ∀ {memo memo' : Memo}, memo.Fills memo' → R memo memo') (query : Query) :
    Keeps R query.insert := by
  have hinsert {op : Operator} {children : List GroupId} (hplain : op.isEnforcer = false) :
      Keeps R (do
        let inserted ← Planning.insert op children none none
        return inserted.group) :=
    Keeps.bind ((Planning.keeps_insert hplain).mono fun _ _ => hfills) fun _ => Keeps.pure
  have hpredicate (predicate : Scalar) : Keeps R (insertPredicate predicate) := hinsert rfl
  have hover (op : LogicalOperator) (children : List GroupId) : Keeps R (insertOver op children) :=
    hinsert rfl
  induction query with
  | get access => exact hover _ _
  | select input predicate ih =>
      exact Keeps.bind ih fun _ => Keeps.bind (hpredicate _) fun _ => hover _ _
  | join outer inner predicate ihouter ihinner =>
      exact Keeps.bind ihouter fun _ => Keeps.bind ihinner fun _ =>
        Keeps.bind (hpredicate _) fun _ => hover _ _
  | groupBy grouping aggregates input ih => exact Keeps.bind ih fun _ => hover _ _

/-- Every query has a profile. -/
theorem Profile.exists_reading_query? (query : Query) :
    ∃ profile, Profile.reading.query? query = some (.relation profile) := by
  induction query with
  | get access => exact ⟨_, rfl⟩
  | select input predicate ih =>
      obtain ⟨profile, hprofile⟩ := ih
      exact ⟨profile, by rw [Reading.query?, hprofile]; rfl⟩
  | join outer inner predicate ihouter ihinner =>
      obtain ⟨left, hleft⟩ := ihouter
      obtain ⟨right, hright⟩ := ihinner
      exact ⟨left.join right, by rw [Reading.query?, hleft, hright]; rfl⟩
  | groupBy grouping aggregates input ih =>
      obtain ⟨profile, hprofile⟩ := ih
      exact ⟨profile.aggregate grouping aggregates, by rw [Reading.query?, hprofile]; rfl⟩

namespace Memo

variable {memo : Memo}

/-- Properties stay derived by alternatives. -/
theorem Queried.derived (h : memo.Queried) : memo.Derived := by
  induction h with
  | empty => exact .empty
  | @insert memo _ query ih =>
      have hkeeps : Keeps KeepsDerived query.insert := query.keeps_insert Fills.keepsDerived
      exact (hkeeps memo).exec_snd ih
  | @search memo _ planner root required ih =>
      exact planner.within_search Fills.keepsDerived root required memo ih

/-- Groups have profiles. -/
theorem Queried.exists_profiles (h : memo.Queried) :
    ∃ profiles, memo.Models Profile.reading profiles := by
  induction h with
  | empty => exact ⟨fun _ => .condition {}, models_empty _ _⟩
  | @insert memo _ query ih =>
      obtain ⟨profiles, hmodels⟩ := ih
      obtain ⟨profile, hprofile⟩ := Profile.exists_reading_query? query
      have hinserted : Post query.insert memo
          (fun _ final => ∃ profiles, final.Models Profile.reading profiles)
          (fun _ final => ∃ profiles, final.Models Profile.reading profiles) :=
        (Planning.Yields.insertQuery hprofile hmodels).mono
          (fun _ _ ⟨profiles', hgrows, _⟩ => ⟨profiles', hgrows.models⟩) fun _ _ hfail => hfail.elim
      exact hinserted.exec_snd
  | @search memo _ planner root required ih =>
      obtain ⟨profiles, hmodels⟩ := ih
      obtain ⟨profiles', hgrows⟩ :=
        planner.continues_search Profile.admitsRules.sound root required memo profiles hmodels
      exact ⟨profiles', hgrows.models⟩

/-! ## Agreement -/

/-- Some access of the memo with the key consumes the scan. -/
def Consumes (memo : Memo) (key : AccessKey) (scan : ScanId) : Prop :=
  ∃ id expr access, memo.expr? id = some expr ∧ expr.op = .logical (.get access) ∧
    access.key = key ∧ access.partitionScan? = some scan

/-- An access of the memo consumes the scans that its key is said to consume. -/
theorem Derived.consumes_iff (h : memo.Derived) {id : ExprId} {expr : MemoExpr}
    {access : TableAccess} (hexpr : memo.expr? id = some expr)
    (hop : expr.op = .logical (.get access)) (scan : ScanId) :
    access.partitionScan? = some scan ↔ memo.Consumes access.key scan := by
  constructor
  · intro hscan
    exact ⟨id, expr, access, hexpr, hop, rfl, hscan⟩
  · rintro ⟨id', expr', access', hexpr', hop', hkey, hscan⟩
    obtain rfl := h.accesses id' id expr' expr access' access hexpr' hexpr hop' hop
      (TableAccess.same_iff.mpr hkey)
    obtain rfl := Option.some.inj (hexpr'.symm.trans hexpr)
    rw [hop] at hop'
    cases hop'
    exact hscan

/-- The properties of a known group. -/
theorem properties_eq {id : GroupId} {group : Group} (h : memo.group? id = some group) :
    memo.properties id = group.properties := by
  unfold properties
  rw [h]
  rfl

/-- The properties of several known groups. -/
theorem filterMap_properties {children : List GroupId}
    (hknown : ∀ child ∈ children, child.index < memo.groups.size) :
    (children.filterMap fun child => (memo.group? child).map (·.properties)) =
      children.map memo.properties := by
  induction children with
  | nil => rfl
  | cons child rest ih =>
      obtain ⟨group, hgroup⟩ := exists_group?_eq_some.mpr (hknown child (by simp))
      rw [List.filterMap_cons, List.map_cons, hgroup, properties_eq hgroup,
        ih fun other hother => hknown other (by simp [hother])]
      rfl

variable {profiles : GroupId → Profile}

/-- An operator of the memo derives properties that fit from properties that fit. -/
theorem Derived.fits_logical (h : memo.Derived) (hmodels : memo.Models Profile.reading profiles)
    {id : ExprId} {expr : MemoExpr} {op : LogicalOperator} (hexpr : memo.expr? id = some expr)
    (hop : expr.op = .logical op) {below : List GroupProperties}
    (hbelow : List.Forall₂ (Profile.Fits memo.Consumes) below (expr.children.map profiles)) :
    Profile.Fits memo.Consumes (.relation (op.properties below)) (profiles expr.group) := by
  refine Profile.fits_properties hbelow (fun access haccess scan => ?_) ?_
  · exact h.consumes_iff hexpr (by rw [hop, haccess]) scan
  · rw [← hop]
    exact hmodels.computed id expr hexpr

/-- The properties of a group fit its profile, by induction on the age of the group: they are derived
over older groups. -/
theorem Derived.fits (h : memo.Derived) (hmodels : memo.Models Profile.reading profiles) :
    ∀ id group, memo.group? id = some group →
      Profile.Fits memo.Consumes group.properties (profiles id) := by
  intro id
  induction hindex : id.index using Nat.strong_induction_on generalizing id with
  | _ index ih =>
      subst hindex
      intro group hgroup
      obtain ⟨source, expr, hexpr, howner, holder, hderived⟩ := h.properties id group hgroup
      have hsame : profiles expr.group = profiles id := by
        rw [← hmodels.linked expr.group, howner, hmodels.linked]
      rw [← hsame]
      have hchildren := h.wellFormed.childKnown source expr hexpr
      have hbelow : List.Forall₂ (Profile.Fits memo.Consumes)
          (expr.children.filterMap fun child => (memo.group? child).map (·.properties))
          (expr.children.map profiles) := by
        rw [filterMap_properties hchildren]
        refine List.forall₂_map_left_iff.mpr (List.forall₂_map_right_iff.mpr
          (List.forall₂_same.mpr fun child hchild => ?_))
        obtain ⟨found, hfound⟩ := exists_group?_eq_some.mpr (hchildren child hchild)
        rw [properties_eq hfound]
        exact ih child.index (holder child hchild) child rfl found hfound
      cases hop : expr.op with
      | physical _ => rw [hop] at hderived; simp [newProperties?] at hderived
      | logical op =>
          rw [hop] at hderived
          rw [← Option.some.inj hderived]
          exact h.fits_logical hmodels hexpr hop hbelow
      | scalar op =>
          have hcomputed := hmodels.computed source expr hexpr
          rw [hop] at hderived hcomputed
          rw [← Option.some.inj hderived]
          obtain ⟨taken, htaken, hstep⟩ := Profile.apply_eq_some.mp hcomputed
          cases op with
          | custom _ => simp [Operator.step?] at htaken
          | predicate predicate =>
              obtain rfl := Option.some.inj htaken
              rw [(Profile.step_condition hstep).2]
              rfl

/-- However queries are inserted and searched for, every logical alternative of a group derives the
properties that are recorded with the group from those of its child groups, and groups that were
found to be duplicates have the same properties. -/
theorem Queried.alternatives_agree (h : memo.Queried) :
    (∀ id, memo.Agrees id) ∧ ∀ id, memo.properties (memo.master id) = memo.properties id := by
  obtain ⟨profiles, hmodels⟩ := h.exists_profiles
  have hderived := h.derived
  have hfits (id : GroupId) (hknown : id.index < memo.groups.size) :
      Profile.Fits memo.Consumes (memo.properties id) (profiles id) := by
    obtain ⟨group, hgroup⟩ := exists_group?_eq_some.mpr hknown
    rw [properties_eq hgroup]
    exact hderived.fits hmodels id group hgroup
  refine ⟨?_, fun id => ?_⟩
  · rintro id op children ⟨alternative, hlisted, expr, hexpr, hop, rfl⟩
    obtain ⟨hknown, found, hfound, howner⟩ := hmodels.wellFormed.owned hlisted
    obtain rfl := Option.some.inj (hexpr.symm.trans hfound)
    refine (hfits id hknown).unique ?_
    rw [← howner]
    refine hderived.fits_logical hmodels hexpr hop ?_
    rw [List.map_map]
    refine List.forall₂_map_left_iff.mpr (List.forall₂_map_right_iff.mpr
      (List.forall₂_same.mpr fun child hchild => ?_))
    rw [← hmodels.linked child]
    exact hfits _ (hmodels.wellFormed.masterKnown child
      (hmodels.wellFormed.childKnown alternative expr hexpr child hchild))
  · by_cases hknown : id.index < memo.groups.size
    · refine (hfits _ (hmodels.wellFormed.masterKnown id hknown)).unique ?_
      rw [hmodels.linked]
      exact hfits id hknown
    · have hmaster : memo.master id = id := by
        refine hmodels.wellFormed.linksEnd.master_eq_self_iff.mpr ?_
        unfold link?
        rw [group?_eq_none.mpr (Nat.le_of_not_lt hknown)]
        rfl
      rw [hmaster]

/-- Two queries that join a partitioned table and another one in different orders, and a search for
the best plan of the first. -/
def joinedTwice : Memo :=
  let partitioned : TableAccess :=
    { table := { id := 0, name := "", rows := 1, partitionKeys := [⟨0⟩] }
      columns := [⟨0⟩]
      scan := some 1 }
  let first := Query.join (.get partitioned) (.get (.single 1)) (.equate 0 1)
  let second := Query.join (.get (.single 1)) (.get partitioned) (.equate 0 1)
  let filled := (exec second.insert (exec first.insert {}).2).2
  (Planner.exploring.search standardRules ⟨3⟩ {} filled).state.memo

/-- Commutativity finds the two groups to be one, with two alternatives over a scan that consumes
partitions. -/
theorem joinedTwice_agree : joinedTwice.Queried ∧
    joinedTwice.master ⟨3⟩ = ⟨4⟩ ∧ joinedTwice.alternativesOf ⟨4⟩ = [⟨4⟩, ⟨3⟩] ∧
    (joinedTwice.logical ⟨3⟩).consumers.toList = [1] ∧
    (∀ id, joinedTwice.Agrees id) ∧
    ∀ id, joinedTwice.properties (joinedTwice.master id) = joinedTwice.properties id := by
  have hqueried : joinedTwice.Queried := .search (.insert (.insert .empty _) _) _ _ _
  exact ⟨hqueried, by decide +kernel, by decide +kernel, by decide +kernel, hqueried.alternatives_agree⟩

end Memo

end QueryPlanner
