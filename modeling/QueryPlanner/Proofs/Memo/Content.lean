import QueryPlanner.Memo.Statistics
import QueryPlanner.Proofs.Memo.Links
import QueryPlanner.Proofs.Planning

/-!
# Changes that leave the content of the memo

Looking something up can change the memo: chains of links get shorter, derived statistics and lower
bounds are kept, progress is marked. `Memo.SameContent` relates two memos that differ in nothing
else. It is a preorder, so `Planning.Keeps SameContent` follows a computation step by step; what the
search has stored, `contexts` and `costings` included, is untouched, and every group keeps its
master.
-/

namespace QueryPlanner

/-- A group without what is derived from the rest of the memo. -/
def Group.content (group : Group) : Group :=
  { group with
    statistics := none
    phase := .unexplored
    gainedLogical := false
    duplicateOf := none
    lowerBounds := []
    contextStatistics := [] }

/-- An alternative without the notes on what was done with it. -/
def MemoExpr.content (expr : MemoExpr) : MemoExpr :=
  { expr with explored := false, implemented := false, appliedRules := [], bounds := [] }

namespace Memo

/-- Two memos differ in derived notes, the root and the length of chains of links only. -/
structure SameContent (memo memo' : Memo) : Prop where
  groups : ∀ id, (memo'.group? id).map Group.content = (memo.group? id).map Group.content
  exprs : ∀ id, (memo'.expr? id).map MemoExpr.content = (memo.expr? id).map MemoExpr.content
  contexts : memo'.contexts = memo.contexts
  costings : memo'.costings = memo.costings
  links : memo.LinksEnd → memo'.LinksEnd ∧ ∀ id, memo'.master id = memo.master id

namespace SameContent

variable {memo memo' memo'' : Memo}

protected theorem refl (memo : Memo) : SameContent memo memo :=
  ⟨fun _ => rfl, fun _ => rfl, rfl, rfl, fun h => ⟨h, fun _ => rfl⟩⟩

protected theorem trans (h : SameContent memo memo') (h' : SameContent memo' memo'') :
    SameContent memo memo'' where
  groups id := (h'.groups id).trans (h.groups id)
  exprs id := (h'.exprs id).trans (h.exprs id)
  contexts := h'.contexts.trans h.contexts
  costings := h'.costings.trans h.costings
  links hends := by
    obtain ⟨hends', hmaster⟩ := h.links hends
    obtain ⟨hends'', hmaster'⟩ := h'.links hends'
    exact ⟨hends'', fun id => (hmaster' id).trans (hmaster id)⟩

protected theorem symm (h : SameContent memo memo') (hends : memo.LinksEnd) :
    SameContent memo' memo where
  groups id := (h.groups id).symm
  exprs id := (h.exprs id).symm
  contexts := h.contexts.symm
  costings := h.costings.symm
  links _ := ⟨hends, fun id => ((h.links hends).2 id).symm⟩

instance : Std.Refl SameContent := ⟨SameContent.refl⟩

instance : IsTrans Memo SameContent := ⟨fun _ _ _ => SameContent.trans⟩

/-- A group is found again with the same content. -/
theorem exists_group (h : SameContent memo memo') {id : GroupId} {group : Group}
    (hgroup : memo.group? id = some group) :
    ∃ group', memo'.group? id = some group' ∧ group'.content = group.content := by
  have hmap := h.groups id
  rw [hgroup] at hmap
  exact Option.map_eq_some_iff.mp hmap

/-- A group that is found afterwards was there before. -/
theorem exists_group_before (h : SameContent memo memo') {id : GroupId} {group' : Group}
    (hgroup : memo'.group? id = some group') :
    ∃ group, memo.group? id = some group ∧ group'.content = group.content := by
  have hmap := h.groups id
  rw [hgroup] at hmap
  obtain ⟨group, hfound, hsame⟩ := Option.map_eq_some_iff.mp hmap.symm
  exact ⟨group, hfound, hsame.symm⟩

/-- An alternative is found again with the same content. -/
theorem exists_expr (h : SameContent memo memo') {id : ExprId} {expr : MemoExpr}
    (hexpr : memo.expr? id = some expr) :
    ∃ expr', memo'.expr? id = some expr' ∧ expr'.content = expr.content := by
  have hmap := h.exprs id
  rw [hexpr] at hmap
  exact Option.map_eq_some_iff.mp hmap

/-- An alternative that is found afterwards was there before. -/
theorem exists_expr_before (h : SameContent memo memo') {id : ExprId} {expr' : MemoExpr}
    (hexpr : memo'.expr? id = some expr') :
    ∃ expr, memo.expr? id = some expr ∧ expr'.content = expr.content := by
  have hmap := h.exprs id
  rw [hexpr] at hmap
  obtain ⟨expr, hfound, hsame⟩ := Option.map_eq_some_iff.mp hmap.symm
  exact ⟨expr, hfound, hsame.symm⟩

/-- What is read off the content of a group can be read off afterwards as well. -/
theorem map_group? {α : Type} (h : SameContent memo memo') (read : Group → α)
    (hread : ∀ group, read group.content = read group) (id : GroupId) :
    (memo'.group? id).map read = (memo.group? id).map read := by
  have hmap := congrArg (Option.map read) (h.groups id)
  simpa only [Option.map_map, Function.comp_def, hread] using hmap

/-- What is read off the content of an alternative can be read off afterwards as well. -/
theorem map_expr? {α : Type} (h : SameContent memo memo') {read : MemoExpr → α}
    (hread : ∀ expr, read expr.content = read expr) (id : ExprId) :
    (memo'.expr? id).map read = (memo.expr? id).map read := by
  have hmap := congrArg (Option.map read) (h.exprs id)
  simpa only [Option.map_map, Function.comp_def, hread] using hmap

theorem groups_size (h : SameContent memo memo') : memo'.groups.size = memo.groups.size :=
  groups_size_congr fun id => by simpa using congrArg Option.isSome (h.groups id)

theorem exprs_size (h : SameContent memo memo') : memo'.exprs.size = memo.exprs.size :=
  exprs_size_congr fun id => by simpa using congrArg Option.isSome (h.exprs id)

theorem alternativesOf (h : SameContent memo memo') (id : GroupId) :
    memo'.alternativesOf id = memo.alternativesOf id := by
  unfold Memo.alternativesOf
  rw [h.map_group? _ (fun _ => rfl)]

theorem op? (h : SameContent memo memo') (id : ExprId) : memo'.op? id = memo.op? id :=
  h.map_expr? (fun _ => rfl) id

theorem physical? (h : SameContent memo memo') (id : ExprId) :
    memo'.physical? id = memo.physical? id := by
  unfold Memo.physical?
  rw [h.op?]

theorem logical (h : SameContent memo memo') (id : GroupId) :
    memo'.logical id = memo.logical id := by
  unfold Memo.logical
  rw [h.map_group? Group.logical (fun _ => rfl)]

theorem context? (h : SameContent memo memo') (id : ContextId) :
    memo'.context? id = memo.context? id := by
  unfold Memo.context?
  rw [h.contexts]

theorem costing? (h : SameContent memo memo') (id : CostingId) :
    memo'.costing? id = memo.costing? id := by
  unfold Memo.costing?
  rw [h.costings]

theorem linksEnd (h : SameContent memo memo') (hends : memo.LinksEnd) : memo'.LinksEnd :=
  (h.links hends).1

theorem master (h : SameContent memo memo') (hends : memo.LinksEnd) (id : GroupId) :
    memo'.master id = memo.master id :=
  (h.links hends).2 id

end SameContent

variable {memo : Memo} {id : GroupId}

/-- A note on a group is not part of its content. -/
theorem sameContent_modifyGroup {change : Group → Group}
    (hcontent : ∀ group, (change group).content = group.content)
    (hlink : ∀ group, (change group).duplicateOf = group.duplicateOf) :
    SameContent memo (memo.modifyGroup id change) where
  groups other := by
    rw [group?_modifyGroup]
    split
    · simp [Function.comp_def, hcontent]
    · rfl
  exprs _ := rfl
  contexts := rfl
  costings := rfl
  links hends := by
    have hlinks (other : GroupId) : (memo.modifyGroup id change).link? other = memo.link? other := by
      unfold link?
      rw [group?_modifyGroup]
      split
      · cases memo.group? other <;> simp [hlink]
      · rfl
    exact ⟨hends.congr hlinks, master_congr _ hends hlinks⟩

/-- A note on an alternative is not part of its content. -/
theorem sameContent_modifyExpr {expr : ExprId} {change : MemoExpr → MemoExpr}
    (hcontent : ∀ expr, (change expr).content = expr.content) :
    SameContent memo (memo.modifyExpr expr change) where
  groups _ := rfl
  exprs other := by
    rw [expr?_modifyExpr]
    split
    · simp [Function.comp_def, hcontent]
    · rfl
  contexts := rfl
  costings := rfl
  links hends := ⟨hends.congr fun _ => rfl, master_congr _ hends fun _ => rfl⟩

/-- The root is not part of the content. -/
theorem sameContent_setRoot {root : Option GroupId} :
    SameContent memo { memo with root := root } where
  groups _ := rfl
  exprs _ := rfl
  contexts := rfl
  costings := rfl
  links hends := ⟨hends.congr fun _ => rfl, master_congr _ hends fun _ => rfl⟩

/-! ## Shortening chains -/

/-- All groups of a chain but the last are linked. -/
theorem link?_ne_none_of_mem {fuel : Nat} {below : GroupId}
    (h : below ∈ (id :: memo.chainUpTo fuel id).dropLast) : memo.link? below ≠ none := by
  induction fuel generalizing id with
  | zero => simp [chainUpTo] at h
  | succ fuel ih =>
      cases hlink : memo.link? id with
      | none => simp [chainUpTo, hlink] at h
      | some next =>
          simp only [chainUpTo, hlink, List.dropLast_cons_of_ne_nil (List.cons_ne_nil _ _),
            List.mem_cons] at h
          rcases h with rfl | h
          · simp [hlink]
          · exact ih h

/-- The content of a group does not say what it is linked to. -/
theorem group?_setLink_content (memo : Memo) (id target other : GroupId) :
    ((memo.setLink id target).group? other).map Group.content =
      (memo.group? other).map Group.content := by
  unfold setLink
  rw [group?_modifyGroup]
  split
  · rw [Option.map_map]
    rfl
  · rfl

/-- Linking groups that are linked anyway to their master leaves all masters. -/
theorem links_foldl_setLink {linked : List GroupId} {last : GroupId} (hends : memo.LinksEnd)
    (hlinked : ∀ below ∈ linked, memo.link? below ≠ none ∧ memo.master below = last) :
    (linked.foldl (fun found below => found.setLink below last) memo).LinksEnd ∧
      ∀ other, (linked.foldl (fun found below => found.setLink below last) memo).master other =
        memo.master other := by
  induction linked generalizing memo with
  | nil => exact ⟨hends, fun _ => rfl⟩
  | cons below rest ih =>
      obtain ⟨hlink, rfl⟩ := hlinked below (by simp)
      have hsteps (other : GroupId) := leads_setLink_master hends hlink other
      have hends' : (memo.setLink below (memo.master below)).LinksEnd := fun other =>
        (hsteps other).elim fun steps h => ⟨steps, _, h⟩
      have hmaster (other : GroupId) :
          (memo.setLink below (memo.master below)).master other = memo.master other :=
        (hsteps other).elim fun _ h => h.master_eq
      obtain ⟨hrest, hmasters⟩ := ih hends' fun other hother => by
        obtain ⟨hlink', hsame⟩ := hlinked other (by simp [hother])
        refine ⟨?_, (hmaster other).trans hsame⟩
        rw [link?_setLink]
        split
        · simp
        · exact hlink'
      exact ⟨hrest, fun other => (hmasters other).trans (hmaster other)⟩

/-- Shortening a chain leaves the content of the memo. -/
theorem sameContent_compress (id : GroupId) : SameContent memo (memo.compress id) := by
  have hcontent (linked : List GroupId) (last : GroupId) :
      let final := linked.foldl (fun found below => found.setLink below last) memo
      (∀ other, (final.group? other).map Group.content = (memo.group? other).map Group.content) ∧
        final.exprs = memo.exprs ∧ final.contexts = memo.contexts ∧
        final.costings = memo.costings := by
    induction linked generalizing memo with
    | nil => exact ⟨fun _ => rfl, rfl, rfl, rfl⟩
    | cons below rest ih =>
        obtain ⟨hgroups, hrest⟩ := @ih (memo.setLink below last)
        exact ⟨fun other => (hgroups other).trans (group?_setLink_content ..), hrest⟩
  obtain ⟨hgroups, hexprs, hcontexts, hcostings⟩ :=
    hcontent (id :: memo.chain id).dropLast (memo.master id)
  refine ⟨hgroups, fun other => ?_, hcontexts, hcostings, fun hends => ?_⟩
  · unfold expr? compress
    rw [hexprs]
  · refine links_foldl_setLink hends fun below hbelow => ⟨link?_ne_none_of_mem hbelow, ?_⟩
    rcases List.mem_cons.mp (List.dropLast_subset _ hbelow) with rfl | hbelow
    · rfl
    · exact hends.master_of_mem_chain hbelow

/-- A relation of memos that allows for resolving groups, which shortens the chains of links. -/
class Glancing (R : Memo → Memo → Prop) : Prop extends Std.Refl R, IsTrans Memo R where
  compressed : ∀ (memo : Memo) id, R memo (memo.compress id)

instance : Glancing SameContent where
  compressed _ id := sameContent_compress id

/-- A relation that allows for shortening one chain of links allows for shortening several. -/
theorem Glancing.compressedAll {R : Memo → Memo → Prop} [Glancing R] {ids : List GroupId} :
    R memo (memo.compressAll ids) := by
  induction ids generalizing memo with
  | nil => exact Std.Refl.refl memo
  | cons id rest ih => exact IsTrans.trans _ _ _ (Glancing.compressed memo id) ih

theorem sameContent_compressAll {ids : List GroupId} :
    SameContent memo (memo.compressAll ids) :=
  Glancing.compressedAll

end Memo

namespace Planning

open Memo (SameContent)

/-! ## Looking up masters -/

/-- Resolving a known group succeeds with its master and leaves the content of the memo. -/
theorem Post.resolve {memo : Memo} {id : GroupId} (hknown : id.index < memo.groups.size) :
    Post (resolve id) memo (fun master final => master = memo.master id ∧ SameContent memo final)
      (fun _ _ => False) := by
  refine Post.bind (Post.group (fun _ _ => ?_) (fun hnone => ?_))
  · exact Post.bind (Post.get (Post.bind (Post.set (Post.pure ⟨rfl, Memo.sameContent_compress _⟩))))
  · rw [Memo.group?_eq_none] at hnone
    omega

/-- Resolving a group answers its master and leaves the content, also when the group is unknown. -/
theorem Post.resolved {memo : Memo} {id : GroupId} :
    Post (Planning.resolve id) memo
      (fun master final => master = memo.master id ∧ SameContent memo final)
      (fun _ final => SameContent memo final) := by
  by_cases hknown : id.index < memo.groups.size
  · exact (Post.resolve hknown).mono (fun _ _ h => h) fun _ _ hfail => hfail.elim
  · refine Post.bind (Post.group (fun found hfound => ?_) fun _ => .refl memo)
    exact absurd (Memo.exists_group?_eq_some.mp ⟨found, hfound⟩) hknown

/-- Two lists that agree position by position in what is read off them. -/
theorem map_eq_of_forall₂ {α β γ : Type} {given : α → γ} (read : β → γ) {items : List α}
    {values : List β} (h : List.Forall₂ (fun item value => read value = given item) items values) :
    values.map read = items.map given := by
  induction h with
  | nil => rfl
  | cons hhead _ ih => rw [List.map_cons, List.map_cons, hhead, ih]

/-- Resolving several known groups. -/
theorem Post.resolveAll {memo : Memo} {ids : List GroupId} (hends : memo.LinksEnd)
    (hknown : ∀ id ∈ ids, id.index < memo.groups.size) :
    Post (resolveAll ids) memo
      (fun masters final => masters = ids.map memo.master ∧ SameContent memo final)
      (fun _ _ => False) := by
  refine (Post.mapM (SameContent memo) (fun id master => master = memo.master id) (.refl memo)
    (fun id hid current hcurrent => ?_)).mono (fun masters final h => ⟨?_, h.1⟩) (fun _ _ h => h)
  · have hknown' := hknown id hid
    rw [← hcurrent.groups_size] at hknown'
    refine (Post.resolve hknown').mono (fun master final h => ⟨hcurrent.trans h.2, ?_⟩)
      (fun _ _ h => h)
    rw [h.1, hcurrent.master hends]
  · simpa using map_eq_of_forall₂ (fun master => master) h.2

/-- A group is resolved, or it is unknown; only links change. -/
theorem keeps_resolve {R : Memo → Memo → Prop} [Memo.Glancing R] {id : GroupId} :
    Keeps R (resolve id) := by
  intro memo
  refine Post.bind (Post.group (fun _ _ => ?_) (fun _ => Std.Refl.refl memo))
  exact Post.bind (Post.get (Post.bind (Post.set (Post.pure (Memo.Glancing.compressed _ _)))))

/-- Resolving a group leaves the content of the memo. -/
theorem sameContent_resolve {id : GroupId} : Keeps SameContent (resolve id) := keeps_resolve

theorem keeps_resolveAll {R : Memo → Memo → Prop} [Memo.Glancing R] {ids : List GroupId} :
    Keeps R (resolveAll ids) :=
  Keeps.mapM fun _ _ => keeps_resolve

end Planning

end QueryPlanner
