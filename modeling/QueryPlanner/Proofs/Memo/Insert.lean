import QueryPlanner.Memo.Insert
import QueryPlanner.Proofs.Memo.Regroup

/-!
# What an insertion does

`Memo.Inserts` lists the four ways an insertion can end: an alternative is found again, with or
without a new link between two groups, or it is new, in a given group or in a group of its own.
`Planning.Post.insert` shows that a possible insertion always ends in one of these ways.
-/

namespace QueryPlanner

open Memo (SameContent)

namespace Memo

variable {memo memo' : Memo} {op : Operator} {children : List GroupId} {target : Option GroupId}

/-- The operator can be inserted over the children into the target. -/
structure Insertable (memo : Memo) (op : Operator) (children : List GroupId)
    (target : Option GroupId) : Prop where
  known : ∀ id ∈ children ++ target.toList, id.index < memo.groups.size
  arity : ∀ count, op.arity = some count → children.length = count
  physical : op.isPhysical = true → target.isSome

/-! ## Finding a twin -/

namespace SameContent

variable (hsame : SameContent memo memo')
include hsame

/-- The alternatives are the same up to notes. -/
theorem map_exprs : memo'.exprs.map MemoExpr.content = memo.exprs.map MemoExpr.content := by
  apply Array.ext_getElem?
  intro index
  rw [Array.getElem?_map, Array.getElem?_map]
  exact hsame.exprs ⟨index⟩

theorem findTwin? (op : Operator) (children : List GroupId) :
    memo'.findTwin? op children = memo.findTwin? op children := by
  have hread (memo : Memo) : memo.findTwin? op children =
      ((memo.exprs.map MemoExpr.content).findIdx? fun expr => expr.op.same op &&
        filedChildren expr.op expr.children == filedChildren op children).map ExprId.mk := by
    rw [Array.findIdx?_map]
    rfl
  rw [hread, hread, hsame.map_exprs]

theorem newProperties? (op : Operator) (children : List GroupId) :
    memo'.newProperties? op children = memo.newProperties? op children := by
  unfold Memo.newProperties?
  rw [show (fun child => (memo'.group? child).map (·.properties)) =
    fun child => (memo.group? child).map (·.properties) from
      funext fun child => hsame.map_group? Group.properties (fun _ => rfl) child]

end SameContent

/-- What the search for a twin finds: an alternative with an equal operator that was filed under the
same children. -/
theorem findTwin?_eq_some {twin : ExprId} (h : memo.findTwin? op children = some twin) :
    ∃ expr, memo.expr? twin = some expr ∧ expr.op.same op = true ∧
      filedChildren expr.op expr.children = filedChildren op children := by
  obtain ⟨index, hindex, rfl⟩ := Option.map_eq_some_iff.mp h
  obtain ⟨hlt, hmatch, _⟩ := Array.findIdx?_eq_some_iff_getElem.mp hindex
  rw [Bool.and_eq_true, beq_iff_eq] at hmatch
  exact ⟨memo.exprs[index], by simp [expr?, hlt], hmatch⟩

/-- Nothing is found only if no alternative with an equal operator was filed under the children. -/
theorem findTwin?_eq_none (h : memo.findTwin? op children = none) {id : ExprId} {expr : MemoExpr}
    (hexpr : memo.expr? id = some expr) (hop : expr.op.same op = true) :
    filedChildren expr.op expr.children ≠ filedChildren op children := by
  intro hfiled
  have hnone := Array.findIdx?_eq_none_iff.mp (Option.map_eq_none_iff.mp h) expr
    (Array.mem_of_getElem? hexpr)
  simp [hop, hfiled] at hnone

/-! ## A new group and a new alternative -/

/-- Only a physical operator has no group of its own. -/
theorem not_physical_of_newProperties? {properties : GroupProperties}
    (h : memo.newProperties? op children = some properties) : op.isPhysical = false := by
  cases op with
  | physical _ => simp [newProperties?] at h
  | logical _ | scalar _ => rfl

/-- The memo with one more group, which is empty. -/
def pushGroup (memo : Memo) (properties : GroupProperties) : Memo :=
  { memo with groups := memo.groups.push { properties } }

theorem group?_pushGroup {properties : GroupProperties} {id : GroupId} :
    (memo.pushGroup properties).group? id =
      if id = ⟨memo.groups.size⟩ then some { properties } else memo.group? id := by
  obtain ⟨index⟩ := id
  simp [group?, pushGroup, Array.getElem?_push]

theorem link?_pushGroup {properties : GroupProperties} {id : GroupId} :
    (memo.pushGroup properties).link? id = memo.link? id := by
  unfold link?
  rw [group?_pushGroup]
  split
  · rename_i hid
    rw [show memo.group? id = none by rw [group?_eq_none, hid]]
    rfl
  · rfl

/-- A new group refers to nothing, and nothing refers to it. -/
theorem Consistent.pushGroup (h : memo.Consistent) (properties : GroupProperties) :
    (memo.pushGroup properties).Consistent := by
  have hmasters := master_congr (memo.pushGroup properties) h.linksEnd
    fun _ => link?_pushGroup
  have hsize : (memo.pushGroup properties).groups.size = memo.groups.size + 1 := by
    simp [Memo.pushGroup]
  refine ⟨h.linksEnd.congr fun _ => link?_pushGroup, ?_, ?_, ?_, h.arity, ?_⟩
  · intro id hid
    rw [hmasters, hsize] at *
    by_cases hknown : id.index < memo.groups.size
    · have := h.masterKnown id hknown
      omega
    · have hnone : memo.link? id = none := by
        unfold link?
        rw [group?_eq_none.mpr (by omega)]
        rfl
      rw [h.linksEnd.master_eq_self_iff.mpr hnone]
      exact hid
  · intro id expr hexpr
    have := h.ownerKnown id expr hexpr
    omega
  · intro id expr hexpr child hchild
    have := h.childKnown id expr hexpr child hchild
    omega
  · intro id group hgroup alternative hmem
    rw [group?_pushGroup] at hgroup
    split at hgroup
    · obtain rfl := Option.some.inj hgroup
      simp at hmem
    · exact h.listed id group hgroup alternative hmem

variable {group : GroupId} {origin : Option Origin}

theorem expr?_addAlternative {id : ExprId} :
    (memo.addAlternative op children group origin).expr? id =
      if id = ⟨memo.exprs.size⟩ then
        some { op, children, group, position := (memo.alternativesOf group).length, origin,
               level := memo.newLevel op children }
      else memo.expr? id := by
  obtain ⟨index⟩ := id
  simp [addAlternative, expr?, modifyGroup, Array.getElem?_push]

/-- The alternatives from before stay. -/
theorem expr?_addAlternative_of_some {id : ExprId} {expr : MemoExpr}
    (hexpr : memo.expr? id = some expr) :
    (memo.addAlternative op children group origin).expr? id = some expr := by
  rw [expr?_addAlternative, if_neg, hexpr]
  rintro rfl
  have := (expr?_isSome _).mp (Option.isSome_of_eq_some hexpr)
  exact absurd this (Nat.lt_irrefl _)

/-- A group that gets an alternative lists it last; nothing else of what it holds changes but the
record of common table expressions and levels. -/
theorem group?_addAlternative {id : GroupId} {found : Group}
    (hfound : (memo.addAlternative op children group origin).group? id = some found) :
    ∃ before, memo.group? id = some before ∧ found.properties = before.properties ∧
      found.duplicateOf = before.duplicateOf ∧ found.duplicates = before.duplicates ∧
      found.contexts = before.contexts ∧ found.alternatives =
        if id = group then before.alternatives ++ [⟨memo.exprs.size⟩] else before.alternatives := by
  unfold addAlternative at hfound
  dsimp only at hfound
  rw [group?_modifyGroup] at hfound
  by_cases hid : id = group
  · subst hid
    rw [if_pos rfl] at hfound
    obtain ⟨before, hbefore, rfl⟩ := Option.map_eq_some_iff.mp hfound
    exact ⟨before, hbefore, rfl, rfl, rfl, rfl, by rw [if_pos rfl]⟩
  · rw [if_neg (Ne.symm hid)] at hfound
    exact ⟨found, hfound, rfl, rfl, rfl, rfl, by rw [if_neg hid]⟩

theorem groups_size_addAlternative :
    (memo.addAlternative op children group origin).groups.size = memo.groups.size := by
  unfold addAlternative
  exact groups_size_modifyGroup

/-- The alternatives of a group after one is added to some group. -/
theorem alternativesOf_addAlternative (hknown : group.index < memo.groups.size) {id : GroupId} :
    (memo.addAlternative op children group origin).alternativesOf id =
      if id = group then memo.alternativesOf id ++ [⟨memo.exprs.size⟩] else memo.alternativesOf id := by
  unfold alternativesOf
  cases hfound : (memo.addAlternative op children group origin).group? id with
  | none =>
      rw [group?_eq_none, groups_size_addAlternative] at hfound
      rw [if_neg (by rintro rfl; omega), group?_eq_none.mpr hfound]
  | some found =>
      obtain ⟨before, hbefore, _, _, _, _, halternatives⟩ := group?_addAlternative hfound
      rw [hbefore, Option.map_some, Option.map_some, Option.getD_some, Option.getD_some,
        halternatives]

/-- Alternatives are added at the end. -/
theorem prefix_addAlternative (hknown : group.index < memo.groups.size) {id : GroupId} :
    memo.alternativesOf id <+: (memo.addAlternative op children group origin).alternativesOf id := by
  rw [alternativesOf_addAlternative hknown]
  split
  · exact List.prefix_append _ _
  · exact List.prefix_refl _

theorem exprs_size_addAlternative :
    (memo.addAlternative op children group origin).exprs.size = memo.exprs.size + 1 := by
  simp [addAlternative, modifyGroup]

theorem link?_addAlternative (id : GroupId) :
    (memo.addAlternative op children group origin).link? id = memo.link? id := by
  unfold link?
  cases hfound : (memo.addAlternative op children group origin).group? id with
  | none =>
      rw [group?_eq_none, groups_size_addAlternative, ← group?_eq_none] at hfound
      rw [hfound]
  | some found =>
      obtain ⟨before, hbefore, _, hlink, _⟩ := group?_addAlternative hfound
      rw [hbefore]
      exact hlink

/-- An alternative over known groups in a known group leaves all references in order. -/
theorem Consistent.addAlternative (h : memo.Consistent)
    (hgroup : group.index < memo.groups.size)
    (hchildren : ∀ child ∈ children, child.index < memo.groups.size)
    (harity : ∀ count, op.arity = some count → children.length = count) :
    (memo.addAlternative op children group origin).Consistent := by
  have hmasters := master_congr (memo.addAlternative op children group origin) h.linksEnd
    link?_addAlternative
  refine ⟨h.linksEnd.congr link?_addAlternative, ?_, ?_, ?_, ?_, ?_⟩
  · intro id hid
    rw [groups_size_addAlternative] at hid ⊢
    rw [hmasters]
    exact h.masterKnown id hid
  · intro id expr hexpr
    rw [expr?_addAlternative] at hexpr
    rw [groups_size_addAlternative]
    split at hexpr
    · obtain rfl := Option.some.inj hexpr
      exact hgroup
    · exact h.ownerKnown id expr hexpr
  · intro id expr hexpr
    rw [expr?_addAlternative] at hexpr
    rw [groups_size_addAlternative]
    split at hexpr
    · obtain rfl := Option.some.inj hexpr
      exact hchildren
    · exact h.childKnown id expr hexpr
  · intro id expr hexpr
    rw [expr?_addAlternative] at hexpr
    split at hexpr
    · obtain rfl := Option.some.inj hexpr
      exact harity
    · exact h.arity id expr hexpr
  · intro id found hfound alternative hmem
    obtain ⟨before, hbefore, _, _, hduplicates, _, halternatives⟩ := group?_addAlternative hfound
    rw [hduplicates, halternatives] at hmem
    -- a group lists what it did, and the new alternative if it is the owner
    have hcases : alternative ∈ before.alternatives ++ before.duplicates ∨
        id = group ∧ alternative = ⟨memo.exprs.size⟩ := by
      split at hmem <;> simp only [List.mem_append, List.mem_singleton] at hmem ⊢ <;> tauto
    rcases hcases with hlisted | ⟨rfl, rfl⟩
    · obtain ⟨expr, hexpr, howner⟩ := h.listed id before hbefore alternative hlisted
      exact ⟨expr, expr?_addAlternative_of_some hexpr, howner⟩
    · exact ⟨_, by rw [expr?_addAlternative, if_pos rfl], rfl⟩

/-- An alternative in a group of a well-formed memo. -/
theorem WellFormed.addAlternative (h : memo.WellFormed) (hgroup : group.index < memo.groups.size)
    (hchildren : ∀ child ∈ children, child.index < memo.groups.size)
    (harity : ∀ count, op.arity = some count → children.length = count) :
    (memo.addAlternative op children group origin).WellFormed := by
  refine ⟨h.toConsistent.addAlternative hgroup hchildren harity, fun id found hfound hmaster => ?_⟩
  rw [master_congr _ h.linksEnd link?_addAlternative] at hmaster
  obtain ⟨before, hbefore, _, _, _, _, halternatives⟩ := group?_addAlternative hfound
  obtain ⟨first, expr, hfirst, hexpr, hphysical⟩ := h.supplied id before hbefore hmaster
  refine ⟨first, expr, ?_, expr?_addAlternative_of_some hexpr, hphysical⟩
  rw [halternatives]
  split
  · exact head?_of_prefix (List.prefix_append _ _) hfirst
  · exact hfirst

/-- An alternative in a new group of a well-formed memo. -/
theorem WellFormed.addToNewGroup (h : memo.WellFormed) {properties : GroupProperties}
    (hphysical : op.isPhysical = false)
    (hchildren : ∀ child ∈ children, child.index < memo.groups.size)
    (harity : ∀ count, op.arity = some count → children.length = count) :
    ((memo.pushGroup properties).addAlternative op children ⟨memo.groups.size⟩ origin).WellFormed := by
  have hsize : (memo.pushGroup properties).groups.size = memo.groups.size + 1 := by
    simp [pushGroup]
  have hpushed := h.toConsistent.pushGroup properties
  refine ⟨hpushed.addAlternative ?_ (fun child hchild => ?_) harity,
    fun id found hfound hmaster => ?_⟩
  · rw [hsize]
    exact Nat.lt_succ_self _
  · have := hchildren child hchild
    omega
  · rw [master_congr _ hpushed.linksEnd link?_addAlternative,
      master_congr _ h.linksEnd fun _ => link?_pushGroup] at hmaster
    obtain ⟨before, hbefore, _, _, _, _, halternatives⟩ := group?_addAlternative hfound
    rw [group?_pushGroup] at hbefore
    by_cases hid : id = ⟨memo.groups.size⟩
    · rw [if_pos hid] at hbefore halternatives
      obtain rfl := Option.some.inj hbefore
      exact ⟨_, _, by rw [halternatives]; rfl, by rw [expr?_addAlternative, if_pos rfl], hphysical⟩
    · rw [if_neg hid] at hbefore halternatives
      rw [halternatives]
      obtain ⟨first, expr, hfirst, hexpr, hop⟩ := h.supplied id before hbefore hmaster
      have hexpr : (memo.pushGroup properties).expr? first = some expr := hexpr
      exact ⟨first, expr, hfirst, expr?_addAlternative_of_some hexpr, hop⟩

/-- The outcome of an insertion into a memo, and the memo it leaves. -/
inductive Inserts (memo : Memo) (op : Operator) (children : List GroupId)
    (target : Option GroupId) (origin : Option Origin) : Insertion → Memo → Prop
  /-- The alternative is there, in the target. -/
  | found {twin : ExprId} {expr : MemoExpr} {final : Memo}
      (twin_found : memo.findTwin? op (children.map memo.master) = some twin)
      (expr_found : memo.expr? twin = some expr)
      (home : ∀ id ∈ target, memo.master id = memo.master expr.group)
      (same : SameContent memo final) :
      Inserts memo op children target origin ⟨twin, final.master expr.group, false⟩ final
  /-- The alternative is there, in another group than the target. -/
  | united {twin : ExprId} {expr : MemoExpr} {final : Memo} {id joining into : GroupId}
      (twin_found : memo.findTwin? op (children.map memo.master) = some twin)
      (expr_found : memo.expr? twin = some expr)
      (target_given : target = some id)
      (away : memo.master id ≠ memo.master expr.group)
      (linked : joining = memo.master id ∧ into = memo.master expr.group ∨
        joining = memo.master expr.group ∧ into = memo.master id)
      (unites : Unites joining into memo final) :
      Inserts memo op children target origin ⟨twin, final.master expr.group, false⟩ final
  /-- The alternative is new in the target. -/
  | added {middle : Memo} {id : GroupId}
      (no_twin : memo.findTwin? op (children.map memo.master) = none)
      (target_given : target = some id)
      (same : SameContent memo middle) :
      Inserts memo op children target origin ⟨⟨memo.exprs.size⟩, memo.master id, true⟩
        (middle.addAlternative op (children.map memo.master) (memo.master id) origin)
  /-- The alternative is new in a group of its own. -/
  | created {middle : Memo} {properties : GroupProperties}
      (no_twin : memo.findTwin? op (children.map memo.master) = none)
      (no_target : target = none)
      (properties_found : memo.newProperties? op (children.map memo.master) = some properties)
      (same : SameContent memo middle) :
      Inserts memo op children target origin ⟨⟨memo.exprs.size⟩, ⟨memo.groups.size⟩, true⟩
        ((middle.pushGroup properties).addAlternative op (children.map memo.master)
          ⟨memo.groups.size⟩ origin)

/-- A possible insertion keeps a memo well formed. -/
theorem Inserts.wellFormed {outcome : Insertion} {final : Memo}
    (hinserts : memo.Inserts op children target origin outcome final) (h : memo.WellFormed)
    (hvalid : memo.Insertable op children target) : final.WellFormed := by
  have hmasters : ∀ child ∈ children.map memo.master, child.index < memo.groups.size := by
    intro master hmaster
    obtain ⟨child, hchild, rfl⟩ := List.mem_map.mp hmaster
    exact h.masterKnown child (hvalid.known child (by simp [hchild]))
  have harity : ∀ count, op.arity = some count → (children.map memo.master).length = count := by
    simpa using hvalid.arity
  cases hinserts with
  | found _ _ _ same => exact same.wellFormed h
  | united _ _ _ _ _ unites => exact unites.wellFormed
  | @added middle id _ target_given same =>
      refine (same.wellFormed h).addAlternative ?_ (fun child hchild => ?_) harity
      · rw [same.groups_size]
        exact h.masterKnown id (hvalid.known id (by simp [target_given]))
      · rw [same.groups_size]
        exact hmasters child hchild
  | @created middle properties _ _ hproperties same =>
      rw [← same.groups_size]
      refine (same.wellFormed h).addToNewGroup (not_physical_of_newProperties? hproperties)
        (fun child hchild => ?_) harity
      rw [same.groups_size]
      exact hmasters child hchild

/-- After an insertion there are the alternatives from before and the inserted one. -/
theorem Inserts.expr_before {outcome : Insertion} {final : Memo}
    (hinserts : memo.Inserts op children target origin outcome final) {id : ExprId}
    {expr : MemoExpr} (hexpr : final.expr? id = some expr) :
    (∃ before, memo.expr? id = some before ∧ expr.op = before.op ∧
      expr.children = before.children) ∨
    (expr.op = op ∧ expr.children = children.map memo.master) := by
  have hlooked {middle : Memo} (same : SameContent memo middle)
      (hmiddle : middle.expr? id = some expr) :
      ∃ before, memo.expr? id = some before ∧ expr.op = before.op ∧
        expr.children = before.children := by
    obtain ⟨before, hbefore, hcontent⟩ := same.exists_expr_before hmiddle
    exact ⟨before, hbefore, congrArg (·.op) hcontent, congrArg (·.children) hcontent⟩
  cases hinserts with
  | found _ _ _ same => exact .inl (hlooked same hexpr)
  | united _ _ _ _ _ unites =>
      obtain ⟨before, hbefore, hop, hchildren, _⟩ := unites.exprs id expr hexpr
      exact .inl ⟨before, hbefore, hop, hchildren⟩
  | added _ _ same =>
      rw [expr?_addAlternative] at hexpr
      split at hexpr
      · obtain rfl := Option.some.inj hexpr
        exact .inr ⟨rfl, rfl⟩
      · exact .inl (hlooked same hexpr)
  | created _ _ _ same =>
      rw [expr?_addAlternative] at hexpr
      split at hexpr
      · obtain rfl := Option.some.inj hexpr
        exact .inr ⟨rfl, rfl⟩
      · exact .inl (hlooked same hexpr)

end Memo

namespace Planning

open Memo (Insertable)

variable {memo : Memo} {op : Operator} {children : List GroupId} {target : Option GroupId}

/-- Only the insertions that are possible pass the check. -/
theorem Post.checkInsertion :
    Post (checkInsertion op children target) memo
      (fun _ final => final = memo ∧ memo.Insertable op children target)
      (fun _ final => final = memo ∧ ¬ memo.Insertable op children target) := by
  unfold Planning.checkInsertion
  refine Post.bind (Post.get ?_)
  dsimp only
  cases hmissing :
      (children ++ target.toList).find? fun id => decide (memo.groups.size ≤ id.index) with
  | some missing =>
      refine Post.bind (Post.throw ⟨rfl, fun hvalid => ?_⟩)
      have hknown := hvalid.known missing (List.mem_of_find?_eq_some hmissing)
      have hunknown := List.find?_some hmissing
      rw [decide_eq_true_eq] at hunknown
      omega
  | none =>
      have hknown : ∀ id ∈ children ++ target.toList, id.index < memo.groups.size := by
        intro id hid
        simpa using List.find?_eq_none.mp hmissing id hid
      -- the last check, once the number of children is known to be right
      have hlast (harity : ∀ count, op.arity = some count → children.length = count) :
          Post (if op.isPhysical && target.isNone then
              MonadExcept.throw (PlanningError.invalidInsertion (.physicalWithoutTarget op.kind))
            else Pure.pure ()) memo
            (fun _ final => final = memo ∧ memo.Insertable op children target)
            (fun _ final => final = memo ∧ ¬ memo.Insertable op children target) := by
        split
        · rename_i hrefused
          refine Post.throw ⟨rfl, fun hvalid => ?_⟩
          rw [Bool.and_eq_true, Option.isNone_iff_eq_none] at hrefused
          have := hvalid.physical hrefused.1
          simp [hrefused.2] at this
        · rename_i hpasses
          refine Post.pure ⟨rfl, hknown, harity, fun hphysical => ?_⟩
          cases target with
          | none => simp [hphysical] at hpasses
          | some _ => rfl
      dsimp only
      cases harity : op.arity with
      | none => exact hlast (by simp [harity])
      | some count =>
          dsimp only
          split
          · rename_i hne
            refine Post.bind (Post.throw ⟨rfl, fun hvalid => hne ?_⟩)
            exact (hvalid.arity count harity).symm
          · rename_i heq
            rw [ne_eq, not_not] at heq
            exact hlast fun other hother => by rw [← heq, ← Option.some.inj (harity.symm.trans hother)]

open Memo (Inserts)

/-- Recording two known groups as duplicates succeeds. -/
theorem Post.addDuplicate {left right : GroupId} (hleft : left.index < memo.groups.size)
    (hright : right.index < memo.groups.size) :
    Post (addDuplicate left right) memo (fun _ final => final = memo.addDuplicate left right)
      (fun _ _ => False) := by
  refine Post.bind (Post.group (fun _ _ => ?_) (fun hnone => ?_))
  · refine Post.bind (Post.group (fun _ _ => Post.modify rfl) (fun hnone => ?_))
    rw [Memo.group?_eq_none] at hnone
    omega
  · rw [Memo.group?_eq_none] at hnone
    omega

/-- Finding an alternative again, for a target that is a master. -/
theorem Post.reuse {twin : ExprId} {expr : MemoExpr} (h : memo.WellFormed)
    (hexpr : memo.expr? twin = some expr)
    (htarget : ∀ id ∈ target, id.index < memo.groups.size ∧ memo.master id = id) :
    Post (reuse twin target) memo (fun outcome final =>
        outcome = ⟨twin, final.master expr.group, false⟩ ∧
        ((∀ id ∈ target, id = memo.master expr.group) ∧ SameContent memo final ∨
          ∃ id joining into, target = some id ∧ id ≠ memo.master expr.group ∧
            (joining = id ∧ into = memo.master expr.group ∨
              joining = memo.master expr.group ∧ into = id) ∧
            Memo.Unites joining into memo final))
      (fun _ _ => False) := by
  have howner := h.ownerKnown twin expr hexpr
  unfold Planning.reuse
  refine Post.bind (Post.expr (fun found hfound => ?_) (fun hnone => by simp [hnone] at hexpr))
  rw [hexpr] at hfound
  obtain rfl := Option.some.inj hfound
  refine (Post.resolve howner).andThen (fun _ _ hfail => hfail) ?_
  rintro _ looked ⟨rfl, hlooked⟩
  have hwell := hlooked.wellFormed h
  have hmasterKnown := h.masterKnown _ howner
  -- the group of the outcome is looked up last
  have hlast (current : Memo) (hcurrent : current.WellFormed)
      (hsize : current.groups.size = memo.groups.size)
      (hmaster : current.master (memo.master expr.group) = current.master expr.group) :
      Post (Planning.resolve (memo.master expr.group) >>= fun group =>
          Pure.pure (⟨twin, group, false⟩ : Insertion)) current
        (fun outcome final => outcome = ⟨twin, final.master expr.group, false⟩ ∧
          SameContent current final) (fun _ _ => False) := by
    rw [← hsize] at hmasterKnown
    refine (Post.resolve hmasterKnown).andThen (fun _ _ hfail => hfail) ?_
    rintro _ final ⟨rfl, hfinal⟩
    refine Post.pure ⟨?_, hfinal⟩
    rw [hfinal.master hcurrent.linksEnd, hmaster]
  have hquiet : Post (Planning.resolve (memo.master expr.group) >>= fun group =>
        Pure.pure (⟨twin, group, false⟩ : Insertion)) looked
      (fun outcome final => outcome = ⟨twin, final.master expr.group, false⟩ ∧
        SameContent memo final) (fun _ _ => False) := by
    refine (hlast looked hwell hlooked.groups_size ?_).mono ?_ (fun _ _ hfail => hfail)
    · rw [hlooked.master h.linksEnd, hlooked.master h.linksEnd, h.linksEnd.master_master]
    · rintro outcome final ⟨houtcome, hfinal⟩
      exact ⟨houtcome, hlooked.trans hfinal⟩
  cases htargetGiven : target with
  | none => exact hquiet.mono (fun _ _ h => ⟨h.1, .inl ⟨by simp, h.2⟩⟩) (fun _ _ hfail => hfail)
  | some id =>
      obtain ⟨hid, hmasterId⟩ := htarget id htargetGiven
      dsimp only
      split
      · rename_i hne
        rw [← hlooked.groups_size] at hid hmasterKnown
        obtain ⟨joining, into, hunites, hsides⟩ := hwell.addDuplicate hid hmasterKnown
        refine Post.andThen (Post.addDuplicate hid hmasterKnown) (fun _ _ hfail => hfail) ?_
        rintro _ linked rfl
        have hunites' := hunites.after (hlooked.regroups h)
        rw [hlooked.master h.linksEnd, hlooked.master h.linksEnd, hmasterId,
          h.linksEnd.master_master] at hsides
        refine (hlast _ hunites.wellFormed ?_ ?_).mono ?_ (fun _ _ hfail => hfail)
        · rw [hunites'.groups_size]
        · rw [hunites'.masters, hunites'.masters, h.linksEnd.master_master]
        · rintro outcome final ⟨houtcome, hfinal⟩
          exact ⟨houtcome, .inr ⟨id, joining, into, rfl, hne, hsides,
            hunites'.trans (hfinal.regroups hunites.wellFormed)⟩⟩
      · rename_i heq
        rw [ne_eq, not_not] at heq
        exact hquiet.mono (fun _ _ h => ⟨h.1, .inl ⟨by simp [heq], h.2⟩⟩) (fun _ _ hfail => hfail)

/-- The target of an insertion is looked up. -/
theorem Post.resolveTarget (memo : Memo) (target : Option GroupId)
    (htarget : ∀ id ∈ target, id.index < memo.groups.size) :
    Post (target.mapM Planning.resolve) memo
      (fun master final => master = target.map memo.master ∧ SameContent memo final)
      (fun _ _ => False) := by
  cases target with
  | none => exact Post.pure ⟨rfl, .refl memo⟩
  | some id =>
      refine (Post.resolve (htarget id rfl)).andThen (fun _ _ hfail => hfail) ?_
      rintro _ final ⟨rfl, hfinal⟩
      exact Post.pure ⟨rfl, hfinal⟩

/-- An operator that is not physical gets a group of its own. -/
theorem Post.createGroup (hop : op.isPhysical = true → False) :
    Post (Planning.createGroup op children) memo
      (fun group final => ∃ properties, memo.newProperties? op children = some properties ∧
        group = ⟨memo.groups.size⟩ ∧ final = memo.pushGroup properties)
      (fun _ _ => False) := by
  unfold Planning.createGroup
  refine Post.bind (Post.get ?_)
  cases hproperties : memo.newProperties? op children with
  | some properties => exact Post.bind (Post.modify (Post.pure ⟨properties, rfl, rfl, rfl⟩))
  | none =>
      cases op with
      | physical op => exact absurd rfl hop
      | logical op => simp [Memo.newProperties?] at hproperties
      | scalar op => simp [Memo.newProperties?] at hproperties

/-- A possible insertion succeeds in one of four ways. -/
theorem Post.insert (origin : Option Origin) (h : memo.WellFormed)
    (hvalid : memo.Insertable op children target) :
    Post (Planning.insert op children target origin) memo (memo.Inserts op children target origin)
      (fun _ _ => False) := by
  have hchildren : ∀ id ∈ children, id.index < memo.groups.size := fun id hid =>
    hvalid.known id (by simp [hid])
  have htarget : ∀ id ∈ target, id.index < memo.groups.size := fun id hid =>
    hvalid.known id (List.mem_append_right _ (Option.mem_toList.mpr hid))
  unfold Planning.insert
  refine Post.checkInsertion.andThen (fun _ _ hfail => hfail.2 hvalid) ?_
  rintro _ checked ⟨hchecked, _⟩
  obtain rfl := hchecked.symm
  refine (Post.resolveAll h.linksEnd hchildren).andThen (fun _ _ hfail => hfail) ?_
  rintro _ first ⟨rfl, hfirst⟩
  have hwell := hfirst.wellFormed h
  refine (Post.resolveTarget first target ?_).andThen
    (fun _ _ hfail => hfail) ?_
  · rw [hfirst.groups_size]
    exact htarget
  rintro _ looked ⟨rfl, hsecond⟩
  have hlooked := hfirst.trans hsecond
  rw [funext (hfirst.master h.linksEnd)]
  refine Post.bind (Post.get ?_)
  rw [hlooked.findTwin?]
  cases htwin : memo.findTwin? op (children.map memo.master) with
  -- an alternative of the kind is filed, and its group may have to join the target
  | some twin =>
      obtain ⟨expr, hexpr, _⟩ := Memo.findTwin?_eq_some htwin
      obtain ⟨expr', hexpr', hcontent⟩ := hlooked.exists_expr hexpr
      have hgroup : expr'.group = expr.group := congrArg (·.group) hcontent
      refine (Post.reuse (hlooked.wellFormed h) hexpr' ?_).mono ?_ (fun _ _ hfail => hfail)
      · intro id hid
        obtain ⟨given, hgiven, rfl⟩ := Option.mem_map.mp hid
        rw [hlooked.groups_size, hlooked.master h.linksEnd, h.linksEnd.master_master]
        exact ⟨h.masterKnown given (htarget given hgiven), rfl⟩
      · rintro outcome final ⟨rfl, hcases⟩
        rw [hgroup, hlooked.master h.linksEnd] at hcases
        rw [hgroup]
        rcases hcases with ⟨hhome, hfinal⟩ | ⟨id, joining, into, hid, hne, hsides, hunites⟩
        · refine .found htwin hexpr (fun id hid => ?_) (hlooked.trans hfinal)
          rw [← hhome _ (Option.mem_map_of_mem _ hid)]
        · obtain ⟨given, hgiven, rfl⟩ := Option.map_eq_some_iff.mp hid
          exact .united htwin hexpr hgiven hne hsides (hunites.after (hlooked.regroups h))
  -- a new alternative goes to the target, or to a new group
  | none =>
      dsimp only
      cases target with
      | some id =>
          refine Post.bind (Post.pure (Post.bind (Post.get (Post.bind (Post.modify
            (Post.pure ?_))))))
          rw [hlooked.exprs_size]
          exact .added htwin rfl hlooked
      | none =>
          refine (Post.createGroup fun hphysical => ?_).andThen (fun _ _ hfail => hfail) ?_
          · simpa using hvalid.physical hphysical
          · rintro _ final ⟨properties, hproperties, rfl, rfl⟩
            rw [hlooked.newProperties?] at hproperties
            refine Post.bind (Post.get (Post.bind (Post.modify (Post.pure ?_))))
            rw [show (looked.pushGroup properties).exprs.size = memo.exprs.size from
              hlooked.exprs_size, hlooked.groups_size]
            exact .created htwin rfl hproperties hlooked

end Planning

end QueryPlanner
