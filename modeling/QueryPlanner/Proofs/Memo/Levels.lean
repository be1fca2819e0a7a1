import QueryPlanner.Optimizer
import QueryPlanner.Proofs.Memo.Reachable

/-!
# Levels of alternatives

A group remembers the highest level of the alternatives inserted into it, and the optimizer starts
at this level. `Memo.Recorded` fills a memo and writes down the group that each alternative is
inserted into. `Memo.Recorded.visited_iff` says when the level of an alternative is among those that
the optimizer goes through: alternatives that are moved to another group bring no level along.
-/

namespace QueryPlanner

open Planning (exec)

namespace OptimizationLevel

theorem max_eq_high {left right : OptimizationLevel} :
    left.max right = .high ↔ left = .high ∨ right = .high := by
  cases left <;> cases right <;> decide

/-- Going down from a level leaves out at most the high level. -/
theorem mem_downward {level top : OptimizationLevel} :
    level ∈ top.downward ↔ level = .low ∨ top = .high := by
  cases level <;> cases top <;> decide

end OptimizationLevel

namespace Memo

/-- The memos that can come about, each with the groups that its alternatives were inserted into. -/
inductive Recorded : List GroupId → Memo → Prop
  | empty : Recorded [] {}
  | insert {births : List GroupId} {memo : Memo} (before : Recorded births memo) (op : Operator)
      (children : List GroupId) (target : Option GroupId) (origin : Option Origin) :
      Recorded
        (births ++ ((exec (Planning.insert op children target origin) memo).2.exprs.toList.drop
          memo.exprs.size).map (·.group))
        (exec (Planning.insert op children target origin) memo).2
  | addDuplicate {births : List GroupId} {memo : Memo} (before : Recorded births memo)
      (left right : GroupId) : Recorded births (exec (Planning.addDuplicate left right) memo).2
  | mergeInto {births : List GroupId} {memo : Memo} (before : Recorded births memo)
      (source target : GroupId) : Recorded births (exec (Planning.mergeInto source target) memo).2
  | mergeDuplicates {births : List GroupId} {memo : Memo} (before : Recorded births memo) :
      Recorded births memo.mergeDuplicates
  | look {births : List GroupId} {memo memo' : Memo} (before : Recorded births memo)
      (same : memo.SameContent memo') : Recorded births memo'

/-- Writing down the groups restricts nothing. -/
theorem reachable_iff_recorded {memo : Memo} : memo.Reachable ↔ ∃ births, Recorded births memo := by
  constructor
  · intro h
    induction h with
    | empty => exact ⟨_, .empty⟩
    | insert _ op children target origin ih =>
        obtain ⟨_, h⟩ := ih
        exact ⟨_, h.insert op children target origin⟩
    | addDuplicate _ left right ih => exact ih.imp fun _ h => h.addDuplicate left right
    | mergeInto _ source target ih => exact ih.imp fun _ h => h.mergeInto source target
    | mergeDuplicates _ ih => exact ih.imp fun _ h => h.mergeDuplicates
    | look _ same ih => exact ih.imp fun _ h => h.look same
  · rintro ⟨births, h⟩
    induction h with
    | empty => exact .empty
    | insert _ op children target origin ih => exact ih.insert op children target origin
    | addDuplicate _ left right ih => exact ih.addDuplicate left right
    | mergeInto _ source target ih => exact ih.mergeInto source target
    | mergeDuplicates _ ih => exact ih.mergeDuplicates
    | look _ same ih => exact ih.look same

/-! ## Operations that leave all levels -/

/-- Groups and alternatives have the same levels. -/
structure SameLevels (memo memo' : Memo) : Prop where
  groups : ∀ id, (memo'.group? id).map (·.maxLevel) = (memo.group? id).map (·.maxLevel)
  exprs : ∀ id, (memo'.expr? id).map (·.level) = (memo.expr? id).map (·.level)

namespace SameLevels

variable {memo memo' memo'' : Memo}

protected theorem refl (memo : Memo) : SameLevels memo memo := ⟨fun _ => rfl, fun _ => rfl⟩

protected theorem trans (h : SameLevels memo memo') (h' : SameLevels memo' memo'') :
    SameLevels memo memo'' :=
  ⟨fun id => (h'.groups id).trans (h.groups id), fun id => (h'.exprs id).trans (h.exprs id)⟩

instance : Std.Refl SameLevels := ⟨SameLevels.refl⟩

instance : IsTrans Memo SameLevels := ⟨fun _ _ _ => SameLevels.trans⟩

/-- The level of a group that is found afterwards was the same before. -/
theorem exists_group_before (h : SameLevels memo memo') {id : GroupId} {group' : Group}
    (hgroup' : memo'.group? id = some group') :
    ∃ group, memo.group? id = some group ∧ group'.maxLevel = group.maxLevel := by
  have hmap := h.groups id
  rw [hgroup'] at hmap
  obtain ⟨group, hgroup, hlevel⟩ := Option.map_eq_some_iff.mp hmap.symm
  exact ⟨group, hgroup, hlevel.symm⟩

/-- The alternatives of a level are the same before and afterwards. -/
theorem exists_level_iff (h : SameLevels memo memo') (level : OptimizationLevel) (id : ExprId) :
    (∃ expr, memo'.expr? id = some expr ∧ expr.level = level) ↔
      ∃ expr, memo.expr? id = some expr ∧ expr.level = level := by
  rw [← Option.map_eq_some_iff, ← Option.map_eq_some_iff]
  exact iff_of_eq (congrArg (· = some level) (h.exprs id))

theorem exprs_size (h : SameLevels memo memo') : memo'.exprs.size = memo.exprs.size :=
  exprs_size_congr fun id => by simpa using congrArg Option.isSome (h.exprs id)

end SameLevels

variable {memo memo' : Memo}

/-- Levels are part of the content. -/
theorem SameContent.sameLevels (h : SameContent memo memo') : SameLevels memo memo' where
  groups := h.map_group? (·.maxLevel) fun _ => rfl
  exprs := h.map_expr? fun _ => rfl

theorem sameLevels_modifyGroup {id : GroupId} {change : Group → Group}
    (hchange : ∀ group, (change group).maxLevel = group.maxLevel) :
    SameLevels memo (memo.modifyGroup id change) := by
  refine ⟨fun other => ?_, fun _ => rfl⟩
  rw [group?_modifyGroup]
  split
  · simp [Function.comp_def, hchange]
  · rfl

theorem sameLevels_modifyExpr {id : ExprId} {change : MemoExpr → MemoExpr}
    (hchange : ∀ expr, (change expr).level = expr.level) :
    SameLevels memo (memo.modifyExpr id change) := by
  refine ⟨fun _ => rfl, fun other => ?_⟩
  rw [expr?_modifyExpr]
  split
  · simp [Function.comp_def, hchange]
  · rfl

/-- Moving alternatives raises no level, unlike inserting them. -/
instance : Moving SameLevels where
  looked _ _ := SameContent.sameLevels
  regrouped _ _ _ h := sameLevels_modifyGroup fun group => (h group).2
  rehomed _ _ _ h := sameLevels_modifyExpr fun expr => (h expr).2.1

instance : Linking SameLevels where
  linked := Moving.addDuplicate

variable {births : List GroupId}

/-! ## What the levels of groups say -/

/-- An insertion raises the level of the group to that of the new alternative. -/
theorem group?_addAlternative_level {op : Operator} {children : List GroupId} {group : GroupId}
    {origin : Option Origin} {id : GroupId} {found : Group}
    (hfound : (memo.addAlternative op children group origin).group? id = some found) :
    ∃ before, memo.group? id = some before ∧ found.maxLevel =
      if id = group then before.maxLevel.max (memo.newLevel op children) else before.maxLevel := by
  unfold addAlternative at hfound
  dsimp only at hfound
  rw [group?_modifyGroup] at hfound
  by_cases hid : id = group
  · subst hid
    rw [if_pos rfl] at hfound
    obtain ⟨before, hbefore, rfl⟩ := Option.map_eq_some_iff.mp hfound
    exact ⟨before, hbefore, by rw [if_pos rfl]⟩
  · rw [if_neg (Ne.symm hid)] at hfound
    exact ⟨found, hfound, by rw [if_neg hid]⟩

/-- The groups that alternatives were inserted into have the same masters as their owners, and the
level of a group is high exactly if an alternative of this level was inserted into it. -/
structure Levelled (births : List GroupId) (memo : Memo) : Prop where
  count : births.length = memo.exprs.size
  known : ∀ birth ∈ births, birth.index < memo.groups.size
  home : ∀ id expr birth, memo.expr? id = some expr → births[id.index]? = some birth →
    memo.master expr.group = memo.master birth
  watermark : ∀ id group, memo.group? id = some group → (group.maxLevel = .high ↔
    ∃ alternative, births[alternative.index]? = some id ∧
      ∃ expr, memo.expr? alternative = some expr ∧ expr.level = .high)

namespace Levelled

/-- Uniting two classes keeps the record when it leaves all levels. -/
theorem unites (h : Levelled births memo) {joining into : GroupId}
    (hunites : Unites joining into memo memo') (hlevels : SameLevels memo memo') :
    Levelled births memo' where
  count := h.count.trans hunites.exprs_size.symm
  known birth hbirth := by
    rw [hunites.groups_size]
    exact h.known birth hbirth
  home id expr' birth hexpr' hbirth := by
    obtain ⟨expr, hexpr, _, _, howner⟩ := hunites.exprs id expr' hexpr'
    rw [howner, hunites.masters, hunites.masters, h.home id expr birth hexpr hbirth]
  watermark id group' hgroup' := by
    obtain ⟨group, hgroup, hlevel⟩ := hlevels.exists_group_before hgroup'
    rw [hlevel, h.watermark id group hgroup]
    simp only [hlevels.exists_level_iff]

theorem regroups (h : Levelled births memo) (hregroups : Regroups memo memo')
    (hlevels : SameLevels memo memo') : Levelled births memo' :=
  h.unites (hregroups.unites ⟨0⟩) hlevels

theorem sameContent (h : Levelled births memo) (hwell : memo.WellFormed)
    (hsame : memo.SameContent memo') : Levelled births memo' :=
  h.regroups (hsame.regroups hwell) hsame.sameLevels

/-- A new group is of the low level, and nothing was inserted into it. -/
theorem pushGroup (h : Levelled births memo) (hends : memo.LinksEnd)
    {properties : GroupProperties} : Levelled births (memo.pushGroup properties) := by
  have hsize : (memo.pushGroup properties).groups.size = memo.groups.size + 1 := by
    simp [Memo.pushGroup]
  have hmasters := master_congr (memo.pushGroup properties) hends fun _ => link?_pushGroup
  refine ⟨h.count, fun birth hbirth => ?_, fun id expr birth hexpr hbirth => ?_,
    fun id group hgroup => ?_⟩
  · have := h.known birth hbirth
    omega
  · rw [hmasters, hmasters]
    exact h.home id expr birth hexpr hbirth
  · rw [group?_pushGroup] at hgroup
    split at hgroup
    · rename_i hnew
      obtain rfl := Option.some.inj hgroup
      refine iff_of_false (by simp) ?_
      rintro ⟨alternative, hbirth, _⟩
      have := h.known id (List.mem_of_getElem? hbirth)
      simp [hnew] at this
    · exact h.watermark id group hgroup

/-- A new alternative is recorded with its group, whose level is raised to its own. -/
theorem addAlternative (h : Levelled births memo) (hends : memo.LinksEnd) {op : Operator}
    {children : List GroupId} {group : GroupId} {origin : Option Origin}
    (hgroup : group.index < memo.groups.size) :
    Levelled (births ++ [group]) (memo.addAlternative op children group origin) := by
  have hmasters := master_congr (memo.addAlternative op children group origin) hends
    link?_addAlternative
  have hnew : (births ++ [group])[memo.exprs.size]? = some group := by
    rw [← h.count, List.getElem?_concat_length]
  have hold (id : ExprId) (hid : id ≠ ⟨memo.exprs.size⟩) :
      (births ++ [group])[id.index]? = births[id.index]? := by
    have hindex : id.index ≠ births.length := fun heq =>
      hid (congrArg ExprId.mk (heq.trans h.count))
    rcases Nat.lt_or_gt_of_ne hindex with hlt | hgt
    · exact List.getElem?_append_left hlt
    · rw [List.getElem?_eq_none (by rw [List.length_append, List.length_singleton]; omega),
        List.getElem?_eq_none hgt.le]
  refine ⟨?_, fun birth hbirth => ?_, fun id expr birth hexpr hbirth => ?_,
    fun id found hfound => ?_⟩
  · rw [List.length_append, List.length_singleton, h.count, exprs_size_addAlternative]
  · rw [groups_size_addAlternative]
    rcases List.mem_append.mp hbirth with hbirth | hbirth
    · exact h.known birth hbirth
    · rwa [List.mem_singleton.mp hbirth]
  · rw [hmasters, hmasters]
    rw [expr?_addAlternative] at hexpr
    split at hexpr
    · rename_i hid
      obtain rfl := Option.some.inj hexpr
      rw [hid, hnew] at hbirth
      rw [Option.some.inj hbirth]
    · rename_i hid
      rw [hold id hid] at hbirth
      exact h.home id expr birth hexpr hbirth
  · obtain ⟨before, hbefore, hlevel⟩ := group?_addAlternative_level hfound
    -- an alternative of high level was born in the group if the new one is one, or an older one
    have hsplit : (∃ alternative, (births ++ [group])[alternative.index]? = some id ∧
        ∃ expr, (memo.addAlternative op children group origin).expr? alternative = some expr ∧
          expr.level = .high) ↔
        (id = group ∧ memo.newLevel op children = .high) ∨
          ∃ alternative, births[alternative.index]? = some id ∧
            ∃ expr, memo.expr? alternative = some expr ∧ expr.level = .high := by
      constructor
      · rintro ⟨alternative, hbirth, expr, hexpr, hhigh⟩
        by_cases hid : alternative = ⟨memo.exprs.size⟩
        · subst hid
          rw [expr?_addAlternative, if_pos rfl] at hexpr
          obtain rfl := Option.some.inj hexpr
          exact .inl ⟨(Option.some.inj (hnew.symm.trans hbirth)).symm, hhigh⟩
        · rw [expr?_addAlternative, if_neg hid] at hexpr
          rw [hold alternative hid] at hbirth
          exact .inr ⟨alternative, hbirth, expr, hexpr, hhigh⟩
      · rintro (⟨rfl, hhigh⟩ | ⟨alternative, hbirth, expr, hexpr, hhigh⟩)
        · exact ⟨⟨memo.exprs.size⟩, hnew, _, by rw [expr?_addAlternative, if_pos rfl], hhigh⟩
        · refine ⟨alternative, ?_, expr, expr?_addAlternative_of_some hexpr, hhigh⟩
          rw [hold, hbirth]
          rintro rfl
          have := (expr?_isSome _).mp (Option.isSome_of_eq_some hexpr)
          exact Nat.lt_irrefl _ this
    rw [hsplit, ← h.watermark id before hbefore, hlevel]
    by_cases hid : id = group
    · simp [hid, OptimizationLevel.max_eq_high, or_comm]
    · simp [hid]

/-- An insertion records the group of what is new. -/
theorem insert (h : Levelled births memo) (hwell : memo.WellFormed) (op : Operator)
    (children : List GroupId) (target : Option GroupId) (origin : Option Origin) :
    let final := (exec (Planning.insert op children target origin) memo).2
    Levelled (births ++ (final.exprs.toList.drop memo.exprs.size).map (·.group)) final := by
  refine Planning.Post.exec_snd (P := fun final =>
    Levelled (births ++ (final.exprs.toList.drop memo.exprs.size).map (·.group)) final) ?_
  have hnone {final : Memo} (hsize : final.exprs.size = memo.exprs.size)
      (hfinal : Levelled births final) :
      Levelled (births ++ (final.exprs.toList.drop memo.exprs.size).map (·.group)) final := by
    rw [List.drop_eq_nil_of_le (by simp [hsize])]
    simpa using hfinal
  have hone {middle : Memo} {group : GroupId} (hsize : middle.exprs.size = memo.exprs.size)
      (hmiddle : Levelled births middle) (hends : middle.LinksEnd)
      (hgroup : group.index < middle.groups.size) :
      Levelled (births ++ ((middle.addAlternative op (children.map memo.master) group
        origin).exprs.toList.drop memo.exprs.size).map (·.group))
        (middle.addAlternative op (children.map memo.master) group origin) := by
    have hadded : Levelled (births ++ [group])
        (middle.addAlternative op (children.map memo.master) group origin) :=
      hmiddle.addAlternative hends hgroup
    rw [← hsize]
    simpa [Memo.addAlternative, modifyGroup] using hadded
  by_cases hvalid : memo.Insertable op children target
  · refine ((Planning.Post.insert origin hwell hvalid).both
      (Linking.insert_found (R := SameLevels))).mono ?_ fun _ _ hfail => hfail.1.elim
    rintro outcome final ⟨hinserts, hlevels⟩
    cases hinserts with
    | found _ _ _ same => exact hnone same.exprs_size (h.sameContent hwell same)
    | united _ _ _ _ _ unites => exact hnone unites.exprs_size (h.unites unites (hlevels rfl))
    | @added middle id _ target_given same =>
        refine hone same.exprs_size (h.sameContent hwell same) (same.linksEnd hwell.linksEnd) ?_
        rw [same.groups_size]
        exact hwell.masterKnown id (hvalid.known id (by simp [target_given]))
    | @created middle properties _ _ _ same =>
        have hends := same.linksEnd hwell.linksEnd
        have hsize : (middle.pushGroup properties).exprs.size = memo.exprs.size := same.exprs_size
        rw [← same.groups_size]
        exact hone hsize ((h.sameContent hwell same).pushGroup hends)
          (hends.congr fun _ => link?_pushGroup) (by simp [Memo.pushGroup])
  · exact (Planning.Post.insert_fails hvalid).mono (fun _ _ hok => hok.elim)
      fun _ final hfinal => hnone (by rw [hfinal]) (hfinal ▸ h)

end Levelled

/-- The record of every memo is in order. -/
theorem Recorded.levelled (h : Recorded births memo) : Levelled births memo := by
  have hwell {births : List GroupId} {memo : Memo} (h : Recorded births memo) : memo.WellFormed :=
    (reachable_iff_recorded.mpr ⟨births, h⟩).wellFormed
  induction h with
  | empty =>
      refine ⟨rfl, fun _ h => by simp at h, fun id expr _ hexpr => ?_, fun id group hgroup => ?_⟩
      · simp [expr?] at hexpr
      · simp [group?] at hgroup
  | insert before op children target origin ih =>
      exact ih.insert (hwell before) op children target origin
  | addDuplicate before left right ih =>
      refine Planning.Post.exec_snd (Planning.Post.bind (Planning.Post.group (fun _ hleft => ?_)
        fun _ => ih))
      refine Planning.Post.bind (Planning.Post.group (fun _ hright => Planning.Post.modify ?_)
        fun _ => ih)
      obtain ⟨_, _, hunites, _⟩ := (hwell before).addDuplicate
        (exists_group?_eq_some.mp ⟨_, hleft⟩) (exists_group?_eq_some.mp ⟨_, hright⟩)
      exact ih.unites hunites (Moving.addDuplicate ..)
  | mergeInto before source target ih =>
      refine Planning.Post.exec_snd (Planning.Post.bind (Planning.Post.group (fun _ hsource => ?_)
        fun _ => ih))
      refine Planning.Post.bind (Planning.Post.group (fun _ htarget => Planning.Post.modify ?_)
        fun _ => ih)
      exact ih.unites ((hwell before).mergeInto (exists_group?_eq_some.mp ⟨_, hsource⟩)
        (exists_group?_eq_some.mp ⟨_, htarget⟩)) (Moving.mergeInto ..)
  | mergeDuplicates before ih =>
      exact ih.regroups (hwell before).mergeDuplicates (Moving.mergeDuplicates _)
  | look before same ih => exact ih.sameContent (hwell before) same

end Memo

/-- An alternative of another level is passed over. -/
theorem Planner.visitAlternative_other_level {memo : Memo} {id : ExprId} {expr : MemoExpr}
    (hexpr : memo.expr? id = some expr) (planner : Planner)
    (optimize : ExprId → GroupId → PlanRequirement → Planning ContextId)
    (parent : Option ExprId) (own : ContextId) {level : OptimizationLevel}
    (hlevel : expr.level ≠ level) :
    exec (planner.visitAlternative optimize parent own level id) memo = (.ok (), memo) := by
  have hpost : Planning.Post (planner.visitAlternative optimize parent own level id) memo
      (fun _ final => final = memo) (fun _ _ => False) := by
    refine Planning.Post.bind (Planning.Post.get (Planning.Post.bind (Planning.Post.expr
      (fun found hfound => ?_) fun hnone => by simp [hexpr] at hnone)))
    rw [hexpr] at hfound
    obtain rfl := Option.some.inj hfound
    cases expr.op with
    | physical op =>
        dsimp only
        rw [if_neg fun hvisits => hlevel hvisits.2.1]
        exact Planning.Post.pure rfl
    | logical _ | scalar _ => exact Planning.Post.pure rfl
  obtain ⟨_, final, hexec, rfl⟩ | ⟨_, _, _, hfail⟩ := hpost.exists_exec
  · exact hexec
  · exact hfail.elim

/-- Whether the optimizer reaches the level of an alternative in use of a group. It does so exactly
if the level is low or an alternative of the high level was inserted into this very group. So an
alternative is only passed over in a group that it was moved to by a merge. -/
theorem Memo.Recorded.visited_iff {births : List GroupId} {memo : Memo}
    (h : memo.Recorded births) {id : GroupId} {group : Group} {alternative : ExprId}
    {expr : MemoExpr} (hgroup : memo.group? id = some group)
    (hlisted : alternative ∈ group.alternatives) (hexpr : memo.expr? alternative = some expr) :
    ∃ birth, births[alternative.index]? = some birth ∧ memo.master birth = memo.master id ∧
      (expr.level ∈ group.maxLevel.downward ↔ expr.level = .low ∨
        ∃ other, births[other.index]? = some id ∧
          ∃ found, memo.expr? other = some found ∧ found.level = .high) ∧
      (birth = id → expr.level ∈ group.maxLevel.downward) ∧
      (expr.level ∉ group.maxLevel.downward →
        ∀ (planner : Planner) (optimize : ExprId → GroupId → PlanRequirement → Planning ContextId)
          (parent : Option ExprId) (own : ContextId), ∀ level ∈ group.maxLevel.downward,
          exec (planner.visitAlternative optimize parent own level alternative) memo =
            (.ok (), memo)) := by
  have hlevelled := h.levelled
  have hwell := (reachable_iff_recorded.mpr ⟨births, h⟩).wellFormed
  obtain ⟨_, hother, howner⟩ := hwell.listed id group hgroup alternative
    (List.mem_append_left _ hlisted)
  obtain rfl := Option.some.inj (hexpr.symm.trans hother)
  have hcount : alternative.index < births.length := by
    rw [hlevelled.count]
    exact (expr?_isSome alternative).mp (Option.isSome_of_eq_some hexpr)
  have hbirth : births[alternative.index]? = some births[alternative.index] :=
    List.getElem?_eq_getElem hcount
  refine ⟨births[alternative.index], hbirth, ?_, ?_, fun hborn => ?_, fun hhidden planner optimize
    parent own level hlevel => ?_⟩
  · rw [← hlevelled.home alternative expr _ hexpr hbirth, howner]
  · rw [OptimizationLevel.mem_downward, hlevelled.watermark id group hgroup]
  · rw [OptimizationLevel.mem_downward, hlevelled.watermark id group hgroup]
    cases hlevel : expr.level with
    | low => exact .inl rfl
    | high => exact .inr ⟨alternative, hborn ▸ hbirth, expr, hexpr, hlevel⟩
  · exact Planner.visitAlternative_other_level hexpr planner optimize parent own
      fun hsame => hhidden (hsame ▸ hlevel)

/-- Two tables and their joins in both orders, with scans. The second join has a hash join, and its
group is merged into that of the first join. -/
def Memo.sunk : Memo :=
  let access (column : Nat) : TableAccess :=
    { table := { id := column, name := "", rows := 0 }, columns := [⟨column⟩] }
  let equal := Scalar.compare .equal (.column ⟨0⟩) (.column ⟨1⟩)
  let filled : Memo :=
    [(Operator.logical (.get (access 0)), [], none), (.logical (.get (access 1)), [], none),
      (.scalar (.predicate equal), [], none), (.logical .innerJoin, [⟨0⟩, ⟨1⟩, ⟨2⟩], none),
      (.logical .innerJoin, [⟨1⟩, ⟨0⟩, ⟨2⟩], none),
      (.physical (.hashJoin [⟨1⟩] [⟨0⟩]), [⟨1⟩, ⟨0⟩, ⟨2⟩], some ⟨4⟩)].foldl
        (fun memo (op, children, target) => (exec (Planning.insert op children target none) memo).2)
        {}
  (exec (Planning.mergeInto ⟨4⟩ ⟨3⟩) filled).2

theorem Memo.reachable_sunk : sunk.Reachable := by
  unfold sunk
  simp only [List.foldl_cons, List.foldl_nil]
  refine Reachable.mergeInto ?_ _ _
  repeat refine Reachable.insert ?_ _ _ _ _
  exact .empty

/-- The hash join is passed over at every level of its new group. -/
theorem Memo.sunk_passed_over :
    ∃ group expr, sunk.group? ⟨3⟩ = some group ∧ ⟨5⟩ ∈ group.alternatives ∧
      sunk.expr? ⟨5⟩ = some expr ∧ expr.group = ⟨3⟩ ∧
      ∀ (planner : Planner) (optimize : ExprId → GroupId → PlanRequirement → Planning ContextId)
        (parent : Option ExprId) (own : ContextId), ∀ level ∈ group.maxLevel.downward,
        exec (planner.visitAlternative optimize parent own level ⟨5⟩) sunk = (.ok (), sunk) := by
  obtain ⟨births, hrecorded⟩ := reachable_iff_recorded.mp reachable_sunk
  have hgroup : (sunk.group? ⟨3⟩).any (fun group =>
      group.alternatives.contains ⟨5⟩ && group.maxLevel == .low) = true := by decide +kernel
  have hexpr : (sunk.expr? ⟨5⟩).any (fun expr =>
      expr.group == ⟨3⟩ && expr.level == .high) = true := by decide +kernel
  obtain ⟨group, hgroup, hlisted⟩ := (Option.any_eq_true _ _).mp hgroup
  obtain ⟨expr, hexpr, howner⟩ := (Option.any_eq_true _ _).mp hexpr
  simp only [Bool.and_eq_true, List.contains_iff_mem, beq_iff_eq] at hlisted howner
  obtain ⟨_, _, _, _, _, hhidden⟩ := hrecorded.visited_iff hgroup hlisted.1 hexpr
  refine ⟨group, expr, hgroup, hlisted.1, hexpr, howner.1, hhidden ?_⟩
  rw [OptimizationLevel.mem_downward, hlisted.2, howner.2]
  decide

end QueryPlanner
