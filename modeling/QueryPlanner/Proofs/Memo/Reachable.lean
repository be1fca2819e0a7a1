import QueryPlanner.Proofs.Memo.Insert
import QueryPlanner.Proofs.Memo.Quiet

/-!
# Reachable memos

A memo is filled by insertions, and groups are found to be duplicates and merged. In between
statistics are derived, progress is marked and groups are looked up, which leaves the content.
Every memo that comes about in this way is well formed, and nothing is planned in it. A relation of
memos that allows for the steps of an insertion holds across it (`Memo.Inserting`), and so what is
planned in a memo stays when it is filled further (`Memo.SamePlans`).
-/

namespace QueryPlanner

open Planning (exec)

/-- The memos that can come about. An operation that fails counts with the memo it leaves. -/
inductive Memo.Reachable : Memo → Prop
  | empty : Reachable {}
  | insert {memo : Memo} (before : Reachable memo) (op : Operator) (children : List GroupId)
      (target : Option GroupId) (origin : Option Origin) :
      Reachable (exec (Planning.insert op children target origin) memo).2
  | addDuplicate {memo : Memo} (before : Reachable memo) (left right : GroupId) :
      Reachable (exec (Planning.addDuplicate left right) memo).2
  | mergeInto {memo : Memo} (before : Reachable memo) (source target : GroupId) :
      Reachable (exec (Planning.mergeInto source target) memo).2
  | mergeDuplicates {memo : Memo} (before : Reachable memo) : Reachable memo.mergeDuplicates
  | look {memo memo' : Memo} (before : Reachable memo) (same : memo.SameContent memo') :
      Reachable memo'

namespace Planning

variable {memo : Memo}

/-- An insertion that is not possible leaves the memo. -/
theorem Post.insert_fails {op : Operator} {children : List GroupId} {target : Option GroupId}
    {origin : Option Origin} (hvalid : ¬ memo.Insertable op children target) :
    Post (Planning.insert op children target origin) memo (fun _ _ => False)
      (fun _ final => final = memo) :=
  Post.checkInsertion.andThen (fun _ _ hfail => hfail.1) fun _ _ hok => absurd hok.2 hvalid

/-- An insertion keeps a memo well formed, also when it is not possible. -/
theorem Post.insert_wellFormed (h : memo.WellFormed) (op : Operator) (children : List GroupId)
    (target : Option GroupId) (origin : Option Origin) :
    Post (Planning.insert op children target origin) memo (fun _ final => final.WellFormed)
      (fun _ final => final.WellFormed) := by
  by_cases hvalid : memo.Insertable op children target
  · exact (Post.insert _ h hvalid).mono (fun _ _ hinserts => hinserts.wellFormed h hvalid)
      (fun _ _ hfail => hfail.elim)
  · exact (Post.insert_fails hvalid).mono (fun _ _ hok => hok.elim) (fun _ _ hfinal => hfinal ▸ h)

/-- Recording duplicates keeps a memo well formed, also when a group is unknown. -/
theorem Post.addDuplicate_wellFormed (h : memo.WellFormed) (left right : GroupId) :
    Post (Planning.addDuplicate left right) memo (fun _ final => final.WellFormed)
      (fun _ final => final.WellFormed) := by
  refine Post.bind (Post.group (fun _ hleft => ?_) fun _ => h)
  refine Post.bind (Post.group (fun _ hright => Post.modify ?_) fun _ => h)
  obtain ⟨_, _, hunites, _⟩ := h.addDuplicate (Memo.exists_group?_eq_some.mp ⟨_, hleft⟩)
    (Memo.exists_group?_eq_some.mp ⟨_, hright⟩)
  exact hunites.wellFormed

/-- Merging groups keeps a memo well formed, also when a group is unknown. -/
theorem Post.mergeInto_wellFormed (h : memo.WellFormed) (source target : GroupId) :
    Post (Planning.mergeInto source target) memo (fun _ final => final.WellFormed)
      (fun _ final => final.WellFormed) := by
  refine Post.bind (Post.group (fun _ hsource => ?_) fun _ => h)
  refine Post.bind (Post.group (fun _ htarget => Post.modify ?_) fun _ => h)
  exact (h.mergeInto (Memo.exists_group?_eq_some.mp ⟨_, hsource⟩)
    (Memo.exists_group?_eq_some.mp ⟨_, htarget⟩)).wellFormed

end Planning

/-- Every memo that can come about is well formed. -/
theorem Memo.Reachable.wellFormed {memo : Memo} (h : memo.Reachable) : memo.WellFormed := by
  induction h with
  | empty => exact wellFormed_empty
  | insert _ op children target origin ih =>
      exact (Planning.Post.insert_wellFormed ih op children target origin).exec_snd
  | addDuplicate _ left right ih => exact (Planning.Post.addDuplicate_wellFormed ih left right).exec_snd
  | mergeInto _ source target ih => exact (Planning.Post.mergeInto_wellFormed ih source target).exec_snd
  | mergeDuplicates _ ih => exact ih.mergeDuplicates.wellFormed
  | look _ same ih => exact same.wellFormed ih

/-! ## What an insertion does at most -/

/-- A relation of memos that allows for resolving groups and for links between duplicate groups. -/
class Memo.Linking (R : Memo → Memo → Prop) : Prop extends Memo.Glancing R where
  linked : ∀ (memo : Memo) left right, R memo (memo.addDuplicate left right)

/-- A relation of memos that allows for what an insertion does: an alternative is found again, or it
is added, perhaps with a group of its own. -/
class Memo.Inserting (R : Memo → Memo → Prop) : Prop extends Memo.Linking R where
  pushed : ∀ (memo : Memo) properties, R memo (memo.pushGroup properties)
  added : ∀ (memo : Memo) op children group origin,
    R memo (memo.addAlternative op children group origin)

namespace Memo.Linking

open Planning

variable {R : Memo → Memo → Prop} [Memo.Linking R]

theorem keeps_addDuplicate {left right : GroupId} : Keeps R (Planning.addDuplicate left right) :=
  Keeps.bind keeps_group fun _ => Keeps.bind keeps_group fun _ => Keeps.modify fun _ => linked ..

theorem keeps_reuse {twin : ExprId} {target : Option GroupId} :
    Keeps R (Planning.reuse twin target) := by
  refine Keeps.bind keeps_expr fun _ => Keeps.bind keeps_resolve fun owner => ?_
  have hfinish : Keeps R (resolve owner >>= fun group =>
      Pure.pure (⟨twin, group, false⟩ : Insertion)) :=
    Keeps.bind keeps_resolve fun _ => Keeps.pure
  cases target with
  | none => exact hfinish
  | some id =>
      dsimp only
      split
      · exact Keeps.bind keeps_addDuplicate fun _ => hfinish
      · exact hfinish

theorem keeps_resolveTarget {target : Option GroupId} :
    Keeps R (target.mapM Planning.resolve) := by
  cases target with
  | none => exact Keeps.pure
  | some _ => exact Keeps.bind keeps_resolve fun _ => Keeps.pure

/-- An insertion that finds the alternative again stays within the relation. -/
theorem insert_found {memo : Memo} {op : Operator} {children : List GroupId}
    {target : Option GroupId} {origin : Option Origin} :
    Post (Planning.insert op children target origin) memo
      (fun outcome final => outcome.isNew = false → R memo final)
      (fun _ _ => True) := by
  unfold Planning.insert
  refine Post.checkInsertion.andThen (fun _ _ _ => trivial) ?_
  rintro _ checked ⟨hchecked, _⟩
  obtain rfl := hchecked.symm
  have hchildren : Keeps R (resolveAll children) := keeps_resolveAll
  refine (hchildren _).andThen (fun _ _ _ => trivial) fun children first hfirst => ?_
  have htarget : Keeps R (target.mapM Planning.resolve) := keeps_resolveTarget
  refine (htarget _).andThen (fun _ _ _ => trivial) fun target second hsecond => ?_
  have hlooked : R _ second := IsTrans.trans _ _ _ hfirst hsecond
  refine Post.bind (Post.get ?_)
  dsimp only
  split
  · exact (keeps_reuse _).mono (fun _ _ hreused _ => IsTrans.trans _ _ _ hlooked hreused)
      fun _ _ _ => trivial
  · cases target with
    | some group => exact Post.bind (Post.pure (Post.bind (Post.get (Post.bind
        (Post.modify (Post.pure (by simp)))))))
    | none =>
        unfold Planning.createGroup
        refine Post.bind (Post.bind (Post.get ?_))
        split
        · exact Post.throw trivial
        · exact Post.bind (Post.modify (Post.pure (Post.bind (Post.get (Post.bind
            (Post.modify (Post.pure (by simp))))))))

end Memo.Linking

/-! ## What merging groups does at most -/

/-- A relation of memos that allows for looking around and for moving alternatives: groups may list
other alternatives, link to other groups and lose statistics, and alternatives may get another group
and place. -/
class Memo.Moving (R : Memo → Memo → Prop) : Prop extends Memo.Looking R where
  regrouped : ∀ (memo : Memo) id (change : Group → Group),
    (∀ group, (change group).contexts = group.contexts ∧
      (change group).maxLevel = group.maxLevel) → R memo (memo.modifyGroup id change)
  rehomed : ∀ (memo : Memo) id (change : MemoExpr → MemoExpr),
    (∀ expr, (change expr).op = expr.op ∧ (change expr).level = expr.level ∧
      (change expr).costings = expr.costings ∧ (change expr).children = expr.children) →
    R memo (memo.modifyExpr id change)

namespace Memo.Moving

variable {R : Memo → Memo → Prop} [Memo.Moving R]

theorem foldl {α : Type} {items : List α} {change : Memo → α → Memo} (memo : Memo)
    (hchange : ∀ (current : Memo) (item : α), R current (change current item)) :
    R memo (items.foldl change memo) :=
  List.foldlRecOn items change (Std.Refl.refl memo) fun current hcurrent item _ =>
    IsTrans.trans _ _ _ hcurrent (hchange current item)

theorem setLink (memo : Memo) (id target : GroupId) : R memo (memo.setLink id target) :=
  regrouped _ _ _ fun _ => ⟨rfl, rfl⟩

theorem compressBoth (memo : Memo) (left right : GroupId) :
    R memo ((memo.compress left).compress right) :=
  Looking.looked _ _ ((sameContent_compress left).trans (sameContent_compress right))

theorem addDuplicate (memo : Memo) (left right : GroupId) :
    R memo (memo.addDuplicate left right) := by
  have hlooked : R memo ((memo.compress left).compress right) := compressBoth memo left right
  unfold Memo.addDuplicate
  dsimp only
  split
  · exact hlooked
  · split <;> exact IsTrans.trans _ _ _ hlooked (setLink ..)

theorem moveAlternatives (memo : Memo) (source target : GroupId) :
    R memo (memo.moveAlternatives source target) := by
  unfold Memo.moveAlternatives
  split
  · exact Std.Refl.refl memo
  · have hemptied : R memo (memo.modifyGroup source fun group =>
        { group with alternatives := [], duplicates := [], statistics := none }) :=
      regrouped _ _ _ fun _ => ⟨rfl, rfl⟩
    dsimp only
    split
    · exact hemptied
    · refine IsTrans.trans _ _ _ hemptied (IsTrans.trans _ _ _ (foldl _ fun _ _ => ?_)
        (IsTrans.trans _ _ _ (foldl _ fun _ _ => ?_) (regrouped _ _ _ fun _ => ⟨rfl, rfl⟩)))
      · exact rehomed _ _ _ fun _ => ⟨rfl, rfl, rfl, rfl⟩
      · exact rehomed _ _ _ fun _ => ⟨rfl, rfl, rfl, rfl⟩

theorem mergeInto (memo : Memo) (source target : GroupId) :
    R memo (memo.mergeInto source target) := by
  have hlooked : R memo ((memo.compress source).compress target) := compressBoth memo source target
  unfold Memo.mergeInto
  dsimp only
  refine IsTrans.trans _ _ _ ?_ (foldl _ fun _ _ => moveAlternatives ..)
  split
  · exact hlooked
  · exact IsTrans.trans _ _ _ hlooked (setLink ..)

theorem dropRepeated (memo : Memo) (id : GroupId) : R memo (memo.dropRepeated id) := by
  unfold Memo.dropRepeated
  split
  · exact Std.Refl.refl memo
  · rename_i group _
    split
    · exact Std.Refl.refl memo
    · have hsplit : R memo (memo.splitRepeated group.alternatives).1 :=
        Looking.looked _ _ (splitRepeated_spec memo group.alternatives).1
      dsimp only
      split
      · exact hsplit
      · refine IsTrans.trans _ _ _ hsplit (IsTrans.trans _ _ _ (foldl _ fun _ _ => ?_)
          (regrouped _ _ _ fun _ => ⟨rfl, rfl⟩))
        exact rehomed _ _ _ fun _ => ⟨rfl, rfl, rfl, rfl⟩

theorem mergeDuplicates (memo : Memo) : R memo memo.mergeDuplicates := by
  refine IsTrans.trans _ _ _ (foldl _ fun current id => ?_) (foldl _ fun _ _ => dropRepeated ..)
  unfold Memo.mergeToMaster
  split
  · exact Std.Refl.refl current
  · split
    · exact mergeInto ..
    · exact Std.Refl.refl current

theorem keeps_mergeInto {source target : GroupId} :
    Planning.Keeps R (Planning.mergeInto source target) :=
  Planning.Keeps.bind (.quiet Planning.keeps_group) fun _ =>
    Planning.Keeps.bind (.quiet Planning.keeps_group) fun _ =>
      Planning.Keeps.modify fun _ => mergeInto ..

end Memo.Moving

/-! ## Insertions -/

namespace Memo.Inserting

open Planning Memo.Linking

variable {R : Memo → Memo → Prop} [Memo.Inserting R]

theorem keeps_createGroup {op : Operator} {children : List GroupId} :
    Keeps R (Planning.createGroup op children) := by
  refine Keeps.bind Keeps.get fun memo => ?_
  split
  · exact Keeps.throw
  · rename_i properties _
    have hpush : Keeps R (modify (·.pushGroup properties)) := Keeps.modify fun _ => pushed ..
    exact Keeps.bind hpush fun _ => Keeps.pure

/-- However an insertion ends, it stays within the relation. -/
theorem keeps_insert {op : Operator} {children : List GroupId} {target : Option GroupId}
    {origin : Option Origin} : Keeps R (Planning.insert op children target origin) := by
  unfold Planning.insert
  have hsame {memo final : Memo} (hfinal : final = memo) : R memo final := by
    subst hfinal
    exact Std.Refl.refl _
  refine Keeps.bind (fun memo => Post.checkInsertion.mono (fun _ _ hok => hsame hok.1)
    fun _ _ hfail => hsame hfail.1) fun _ => ?_
  refine Keeps.bind keeps_resolveAll fun children => ?_
  refine Keeps.bind keeps_resolveTarget fun target => ?_
  refine Keeps.bind Keeps.get fun memo => ?_
  dsimp only
  split
  · exact keeps_reuse
  · have hfinish (group : GroupId) : Keeps R (do
        let id : ExprId := ⟨(← get).exprs.size⟩
        modify (·.addAlternative op children group origin)
        return ({ expr := id, group, isNew := true } : Insertion)) :=
      Keeps.bind Keeps.get fun _ => Keeps.bind (Keeps.modify fun _ => added ..) fun _ => Keeps.pure
    cases target with
    | some group => exact Keeps.bind Keeps.pure hfinish
    | none => exact Keeps.bind keeps_createGroup hfinish

end Memo.Inserting

/-! ## Filling plans nothing -/

/-- The alternative has the level of its operator, if that is physical. The level of a sequence
depends on its first child. -/
def MemoExpr.HasOwnLevel (expr : MemoExpr) : Prop :=
  ∀ op, expr.op = .physical op → op.isSequence = false → expr.level = op.level

namespace Memo

/-- The later memo holds the same contexts and costings, filed with the groups and alternatives that
had them. Alternatives keep their levels, and new ones have that of their operator. -/
structure SamePlans (memo memo' : Memo) : Prop where
  contexts : memo'.contexts = memo.contexts
  costings : memo'.costings = memo.costings
  filed : ∀ id group, memo'.group? id = some group → group.contexts = [] ∨
    ∃ before, memo.group? id = some before ∧ group.contexts = before.contexts
  slots : ∀ id expr, memo'.expr? id = some expr → expr.costings = [] ∨
    ∃ before, memo.expr? id = some before ∧ expr.costings = before.costings
  levels : ∀ id expr, memo'.expr? id = some expr → expr.HasOwnLevel ∨
    ∃ before, memo.expr? id = some before ∧ expr.op = before.op ∧ expr.level = before.level

variable {memo memo' memo'' : Memo}

namespace SamePlans

protected theorem refl (memo : Memo) : memo.SamePlans memo where
  contexts := rfl
  costings := rfl
  filed _ group hgroup := .inr ⟨group, hgroup, rfl⟩
  slots _ expr hexpr := .inr ⟨expr, hexpr, rfl⟩
  levels _ expr hexpr := .inr ⟨expr, hexpr, rfl, rfl⟩

protected theorem trans (h : memo.SamePlans memo') (h' : memo'.SamePlans memo'') :
    memo.SamePlans memo'' where
  contexts := h'.contexts.trans h.contexts
  costings := h'.costings.trans h.costings
  filed id group hgroup := by
    obtain hnone | ⟨middle, hmiddle, hsame⟩ := h'.filed id group hgroup
    · exact .inl hnone
    · rw [hsame]
      exact h.filed id middle hmiddle
  slots id expr hexpr := by
    obtain hnone | ⟨middle, hmiddle, hsame⟩ := h'.slots id expr hexpr
    · exact .inl hnone
    · rw [hsame]
      exact h.slots id middle hmiddle
  levels id expr hexpr := by
    obtain hown | ⟨middle, hmiddle, hop, hlevel⟩ := h'.levels id expr hexpr
    · exact .inl hown
    · unfold MemoExpr.HasOwnLevel
      rw [hop, hlevel]
      exact h.levels id middle hmiddle

instance : Std.Refl SamePlans := ⟨SamePlans.refl⟩

instance : IsTrans Memo SamePlans := ⟨fun _ _ _ => SamePlans.trans⟩

end SamePlans

theorem SameContent.samePlans (hsame : memo.SameContent memo') : memo.SamePlans memo' where
  contexts := hsame.contexts
  costings := hsame.costings
  filed id group hgroup := by
    obtain ⟨before, hbefore, hcontent⟩ := hsame.exists_group_before hgroup
    exact .inr ⟨before, hbefore, congrArg (·.contexts) hcontent⟩
  slots id expr hexpr := by
    obtain ⟨before, hbefore, hcontent⟩ := hsame.exists_expr_before hexpr
    exact .inr ⟨before, hbefore, congrArg (·.costings) hcontent⟩
  levels id expr hexpr := by
    obtain ⟨before, hbefore, hcontent⟩ := hsame.exists_expr_before hexpr
    exact .inr ⟨before, hbefore, congrArg (·.op) hcontent, congrArg (·.level) hcontent⟩

theorem samePlans_modifyGroup {id : GroupId} {change : Group → Group}
    (hchange : ∀ group, (change group).contexts = group.contexts) :
    memo.SamePlans (memo.modifyGroup id change) := by
  refine ⟨rfl, rfl, fun other group hgroup => .inr ?_, fun _ expr hexpr => .inr ⟨expr, hexpr, rfl⟩,
    fun _ expr hexpr => .inr ⟨expr, hexpr, rfl, rfl⟩⟩
  rw [group?_modifyGroup] at hgroup
  split at hgroup
  · obtain ⟨before, hbefore, rfl⟩ := Option.map_eq_some_iff.mp hgroup
    exact ⟨before, hbefore, hchange before⟩
  · exact ⟨group, hgroup, rfl⟩

theorem samePlans_modifyExpr {id : ExprId} {change : MemoExpr → MemoExpr}
    (hchange : ∀ expr, (change expr).costings = expr.costings)
    (hop : ∀ expr, (change expr).op = expr.op) (hlevel : ∀ expr, (change expr).level = expr.level) :
    memo.SamePlans (memo.modifyExpr id change) := by
  have hbefore (other : ExprId) (expr : MemoExpr)
      (hexpr : (memo.modifyExpr id change).expr? other = some expr) :
      ∃ before, memo.expr? other = some before ∧ expr.costings = before.costings ∧
        expr.op = before.op ∧ expr.level = before.level := by
    rw [expr?_modifyExpr] at hexpr
    split at hexpr
    · obtain ⟨before, hbefore, rfl⟩ := Option.map_eq_some_iff.mp hexpr
      exact ⟨before, hbefore, hchange before, hop before, hlevel before⟩
    · exact ⟨expr, hexpr, rfl, rfl, rfl⟩
  refine ⟨rfl, rfl, fun _ group hgroup => .inr ⟨group, hgroup, rfl⟩, fun other expr hexpr => .inr ?_,
    fun other expr hexpr => .inr ?_⟩
  · obtain ⟨before, hfound, hcostings, _⟩ := hbefore other expr hexpr
    exact ⟨before, hfound, hcostings⟩
  · obtain ⟨before, hfound, _, hsame⟩ := hbefore other expr hexpr
    exact ⟨before, hfound, hsame⟩

theorem samePlans_pushGroup {properties : GroupProperties} :
    memo.SamePlans (memo.pushGroup properties) := by
  refine ⟨rfl, rfl, fun id group hgroup => ?_, fun _ expr hexpr => .inr ⟨expr, hexpr, rfl⟩,
    fun _ expr hexpr => .inr ⟨expr, hexpr, rfl, rfl⟩⟩
  rw [group?_pushGroup] at hgroup
  split at hgroup
  · obtain rfl := Option.some.inj hgroup
    exact .inl rfl
  · exact .inr ⟨group, hgroup, rfl⟩

theorem samePlans_addAlternative {op : Operator} {children : List GroupId} {group : GroupId}
    {origin : Option Origin} : memo.SamePlans (memo.addAlternative op children group origin) := by
  refine ⟨rfl, rfl, fun id found hfound => ?_, fun id expr hexpr => ?_, fun id expr hexpr => ?_⟩
  · obtain ⟨before, hbefore, _, _, _, hcontexts, _⟩ := group?_addAlternative hfound
    exact .inr ⟨before, hbefore, hcontexts⟩
  · rw [expr?_addAlternative] at hexpr
    split at hexpr
    · obtain rfl := Option.some.inj hexpr
      exact .inl rfl
    · exact .inr ⟨expr, hexpr, rfl⟩
  · rw [expr?_addAlternative] at hexpr
    split at hexpr
    · obtain rfl := Option.some.inj hexpr
      refine .inl fun physical hop hsequence => ?_
      obtain rfl : op = .physical physical := hop
      simp [newLevel, hsequence]
    · exact .inr ⟨expr, hexpr, rfl, rfl⟩

end Memo

namespace Planning

open Memo (SamePlans)

instance : Memo.Moving SamePlans where
  looked _ _ := Memo.SameContent.samePlans
  regrouped _ _ _ h := Memo.samePlans_modifyGroup fun group => (h group).1
  rehomed _ _ _ h := Memo.samePlans_modifyExpr (fun expr => (h expr).2.2.1) (fun expr => (h expr).1)
    fun expr => (h expr).2.1

instance : Memo.Inserting SamePlans where
  linked := Memo.Moving.addDuplicate
  pushed _ _ := Memo.samePlans_pushGroup
  added _ _ _ _ _ := Memo.samePlans_addAlternative

/-- An insertion plans nothing. -/
theorem samePlans_insert {op : Operator} {children : List GroupId} {target : Option GroupId}
    {origin : Option Origin} : Keeps SamePlans (Planning.insert op children target origin) :=
  Memo.Inserting.keeps_insert

end Planning

/-- The memo holds no contexts and no costings. -/
structure Memo.Unplanned (memo : Memo) : Prop where
  contexts : memo.contexts = #[]
  costings : memo.costings = #[]
  filed : ∀ id group, memo.group? id = some group → group.contexts = []
  slots : ∀ id expr, memo.expr? id = some expr → expr.costings = []

theorem Memo.SamePlans.unplanned {memo memo' : Memo} (hsame : memo.SamePlans memo')
    (h : memo.Unplanned) : memo'.Unplanned where
  contexts := hsame.contexts.trans h.contexts
  costings := hsame.costings.trans h.costings
  filed id group hgroup := by
    obtain hnone | ⟨before, hbefore, hkept⟩ := hsame.filed id group hgroup
    · exact hnone
    · exact hkept.trans (h.filed id before hbefore)
  slots id expr hexpr := by
    obtain hnone | ⟨before, hbefore, hkept⟩ := hsame.slots id expr hexpr
    · exact hnone
    · exact hkept.trans (h.slots id before hbefore)

/-- The alternatives have the levels of their operators. -/
def Memo.HasOwnLevels (memo : Memo) : Prop :=
  ∀ id expr, memo.expr? id = some expr → expr.HasOwnLevel

theorem Memo.SamePlans.hasOwnLevels {memo memo' : Memo} (hsame : memo.SamePlans memo')
    (h : memo.HasOwnLevels) : memo'.HasOwnLevels := by
  intro id expr hexpr
  obtain hown | ⟨before, hbefore, hop, hlevel⟩ := hsame.levels id expr hexpr
  · exact hown
  · unfold MemoExpr.HasOwnLevel
    rw [hop, hlevel]
    exact h id before hbefore

/-- Filling a memo plans nothing. -/
theorem Memo.Reachable.samePlans {memo : Memo} (h : memo.Reachable) : SamePlans {} memo := by
  induction h with
  | empty => exact .refl _
  | @insert memo _ op children target origin ih =>
      exact ih.trans (Planning.samePlans_insert memo).exec_snd
  | @addDuplicate memo _ left right ih =>
      exact ih.trans (Memo.Linking.keeps_addDuplicate memo).exec_snd
  | @mergeInto memo _ source target ih =>
      exact ih.trans (Memo.Moving.keeps_mergeInto memo).exec_snd
  | mergeDuplicates _ ih => exact ih.trans (Memo.Moving.mergeDuplicates _)
  | look _ same ih => exact ih.trans same.samePlans

/-- In a memo that was only filled, alternatives have the levels of their operators. -/
theorem Memo.Reachable.hasOwnLevels {memo : Memo} (h : memo.Reachable) : memo.HasOwnLevels :=
  h.samePlans.hasOwnLevels fun id expr hexpr => by simp [expr?] at hexpr

/-- Nothing is planned in a memo that was only filled. -/
theorem Memo.Reachable.unplanned {memo : Memo} (h : memo.Reachable) : memo.Unplanned :=
  h.samePlans.unplanned ⟨rfl, rfl, fun id group h => by simp [group?] at h, fun id expr h => by
    simp [expr?] at h⟩

end QueryPlanner
