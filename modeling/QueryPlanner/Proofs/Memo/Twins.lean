import QueryPlanner.Proofs.Equality
import QueryPlanner.Proofs.Memo.Deduplication
import QueryPlanner.Proofs.Memo.Merge

/-!
# Twins among alternatives

Two alternatives are twins when they apply equal operators to children with the same masters.
`Memo.Twins` is symmetric and transitive, and uniting groups parts no twins (`Memo.Coarsens`). So a
group can tell at any time why it has set an alternative aside: `Memo.Represented` holds of every
memo that can come about.
-/

namespace QueryPlanner

open Planning (exec Post Keeps)

namespace Memo

/-- One alternative repeats another. -/
def Twins (memo : Memo) (left right : ExprId) : Prop :=
  ∃ mine theirs, memo.expr? left = some mine ∧ memo.expr? right = some theirs ∧
    memo.isTwin mine theirs.op theirs.children = true

/-- Every alternative that is set aside repeats one in use of the same group. -/
def Represented (memo : Memo) : Prop :=
  ∀ id, ∀ aside ∈ memo.duplicatesOf id, ∃ live ∈ memo.alternativesOf id, memo.Twins live aside

variable {memo memo' : Memo}

/-! ## An equivalence -/

/-- What the search for a twin compares. -/
theorem isTwin_iff {expr : MemoExpr} {op : Operator} {children : List GroupId} :
    memo.isTwin expr op children = true ↔ expr.op.same op = true ∧
      if expr.op.orderSensitive then expr.children.map memo.master = children.map memo.master
      else (expr.children.map memo.master).Perm (children.map memo.master) := by
  have hlength (h : (expr.children.map memo.master).Perm (children.map memo.master)) :
      expr.children.length = children.length := by simpa using h.length_eq
  unfold isTwin
  by_cases hsensitive : expr.op.orderSensitive = true
  · simp only [hsensitive, if_true, Bool.and_eq_true, beq_iff_eq]
    exact ⟨fun h => ⟨h.1.2, h.2⟩, fun h => ⟨⟨hlength (.of_eq h.2), h.1⟩, h.2⟩⟩
  · simp only [hsensitive, Bool.false_eq_true, if_false, Bool.and_eq_true, beq_iff_eq,
      List.isPerm_iff]
    exact ⟨fun h => ⟨h.1.2, h.2⟩, fun h => ⟨⟨hlength h.2, h.1⟩, h.2⟩⟩

theorem Twins.symm {left right : ExprId} (h : memo.Twins left right) : memo.Twins right left := by
  obtain ⟨mine, theirs, hleft, hright, htwin⟩ := h
  obtain ⟨hop, hchildren⟩ := isTwin_iff.mp htwin
  refine ⟨theirs, mine, hright, hleft, isTwin_iff.mpr ⟨Operator.equates_same.symm hop, ?_⟩⟩
  rw [← Operator.orderSensitive_eq_of_same hop]
  split at hchildren
  · rename_i hsensitive
    rw [if_pos hsensitive]
    exact hchildren.symm
  · rename_i hsymmetric
    rw [if_neg hsymmetric]
    exact hchildren.symm

theorem Twins.trans {left middle right : ExprId} (h : memo.Twins left middle)
    (h' : memo.Twins middle right) : memo.Twins left right := by
  obtain ⟨mine, between, hleft, hmiddle, htwin⟩ := h
  obtain ⟨between', theirs, hmiddle', hright, htwin'⟩ := h'
  obtain rfl := Option.some.inj (hmiddle.symm.trans hmiddle')
  obtain ⟨hop, hchildren⟩ := isTwin_iff.mp htwin
  obtain ⟨hop', hchildren'⟩ := isTwin_iff.mp htwin'
  refine ⟨mine, theirs, hleft, hright, isTwin_iff.mpr ⟨Operator.equates_same.trans hop hop', ?_⟩⟩
  rw [← Operator.orderSensitive_eq_of_same hop] at hchildren'
  split at hchildren
  · rename_i hsensitive
    rw [if_pos hsensitive] at hchildren' ⊢
    exact hchildren.trans hchildren'
  · rename_i hsymmetric
    rw [if_neg hsymmetric] at hchildren' ⊢
    exact hchildren.trans hchildren'

/-! ## Twins stay twins -/

/-- Alternatives apply the same operators to the same children, and groups with the same master keep
a common one. -/
structure Coarsens (memo memo' : Memo) : Prop where
  exprs : ∀ id expr, memo.expr? id = some expr →
    ∃ expr', memo'.expr? id = some expr' ∧ expr'.op = expr.op ∧ expr'.children = expr.children
  masters : ∀ left right, memo.master left = memo.master right →
    memo'.master left = memo'.master right

/-- Uniting groups parts no twins. -/
theorem Twins.coarsens (hcoarsens : Coarsens memo memo') (hends : memo.LinksEnd)
    {left right : ExprId} (h : memo.Twins left right) : memo'.Twins left right := by
  have hchildren (ids : List GroupId) :
      ids.map memo'.master = (ids.map memo.master).map memo'.master := by
    rw [List.map_map]
    exact List.map_congr_left fun id _ => hcoarsens.masters _ _ (hends.master_master id).symm
  obtain ⟨mine, theirs, hleft, hright, htwin⟩ := h
  obtain ⟨mine', hleft', hmineOp, hmineChildren⟩ := hcoarsens.exprs left mine hleft
  obtain ⟨theirs', hright', htheirsOp, htheirsChildren⟩ := hcoarsens.exprs right theirs hright
  refine ⟨mine', theirs', hleft', hright', ?_⟩
  rw [isTwin_iff] at htwin ⊢
  rw [hmineOp, hmineChildren, htheirsOp, htheirsChildren, hchildren mine.children,
    hchildren theirs.children]
  refine ⟨htwin.1, ?_⟩
  split
  · rename_i hsensitive
    rw [if_pos hsensitive] at htwin
    rw [htwin.2]
  · rename_i hsymmetric
    rw [if_neg hsymmetric] at htwin
    exact htwin.2.map _

theorem SameQuery.coarsens (hsame : SameQuery memo memo') (hends : memo.LinksEnd) :
    Coarsens memo memo' where
  exprs id expr hexpr := by
    obtain ⟨expr', hexpr', houtline⟩ := hsame.exists_expr hexpr
    exact ⟨expr', hexpr', congrArg (·.op) houtline, congrArg (·.children) houtline⟩
  masters left right h := by rw [hsame.master hends, hsame.master hends, h]

theorem Unites.coarsens {joining into : GroupId} (h : Unites joining into memo memo') :
    Coarsens memo memo' where
  exprs id expr hexpr := by
    have hknown := (expr?_isSome id).mp (Option.isSome_of_eq_some hexpr)
    rw [← h.exprs_size, ← expr?_isSome] at hknown
    obtain ⟨expr', hexpr'⟩ := Option.isSome_iff_exists.mp hknown
    obtain ⟨before, hbefore, hop, hchildren, _⟩ := h.exprs id expr' hexpr'
    obtain rfl := Option.some.inj (hexpr.symm.trans hbefore)
    exact ⟨expr', hexpr', hop, hchildren⟩
  masters left right hsame := by rw [h.masters, h.masters, hsame]

theorem Regroups.coarsens (h : Regroups memo memo') : Coarsens memo memo' :=
  (h.unites ⟨0⟩).coarsens

theorem coarsens_addAlternative (hends : memo.LinksEnd) {op : Operator} {children : List GroupId}
    {group : GroupId} {origin : Option Origin} :
    Coarsens memo (memo.addAlternative op children group origin) where
  exprs _ expr hexpr := ⟨expr, expr?_addAlternative_of_some hexpr, rfl, rfl⟩
  masters left right h := by
    rw [master_congr _ hends link?_addAlternative, master_congr _ hends link?_addAlternative, h]

theorem coarsens_pushGroup (hends : memo.LinksEnd) {properties : GroupProperties} :
    Coarsens memo (memo.pushGroup properties) where
  exprs _ expr hexpr := ⟨expr, hexpr, rfl, rfl⟩
  masters left right h := by
    rw [master_congr _ hends fun _ => link?_pushGroup, master_congr _ hends fun _ => link?_pushGroup,
      h]

/-! ## Alternatives that are set aside -/

namespace Represented

/-- An alternative that is set aside may change its group together with those in use. -/
theorem coarsens (h : memo.Represented) (hends : memo.LinksEnd) (hcoarsens : Coarsens memo memo')
    (hlists : ∀ id, ∀ aside ∈ memo'.duplicatesOf id, ∃ source, aside ∈ memo.duplicatesOf source ∧
      memo.alternativesOf source ⊆ memo'.alternativesOf id) : memo'.Represented := by
  intro id aside haside
  obtain ⟨source, hsource, halternatives⟩ := hlists id aside haside
  obtain ⟨live, hlive, htwins⟩ := h source aside hsource
  exact ⟨live, halternatives hlive, htwins.coarsens hcoarsens hends⟩

/-- Alternatives stay where they are. -/
theorem sameHomes (h : memo.Represented) (hends : memo.LinksEnd) (hcoarsens : Coarsens memo memo')
    (hsame : SameHomes memo memo') : memo'.Represented :=
  h.coarsens hends hcoarsens fun id _ haside =>
    ⟨id, hsame.duplicates id ▸ haside, (hsame.alternatives id).symm ▸ List.Subset.refl _⟩

theorem sameQuery (h : memo.Represented) (hends : memo.LinksEnd) (hsame : SameQuery memo memo') :
    memo'.Represented :=
  h.sameHomes hends (hsame.coarsens hends) hsame.sameHomes

theorem addAlternative (h : memo.Represented) (hends : memo.LinksEnd) {op : Operator}
    {children : List GroupId} {group : GroupId} {origin : Option Origin}
    (hgroup : group.index < memo.groups.size) :
    (memo.addAlternative op children group origin).Represented := by
  refine h.coarsens hends (coarsens_addAlternative hends) fun id _ haside => ⟨id, ?_, ?_⟩
  · unfold duplicatesOf at haside ⊢
    cases hfound : (memo.addAlternative op children group origin).group? id with
    | none => simp [hfound] at haside
    | some found =>
        obtain ⟨before, hbefore, _, _, hsame, _⟩ := group?_addAlternative hfound
        rw [hfound, Option.map_some, hsame] at haside
        rwa [hbefore, Option.map_some]
  · exact (prefix_addAlternative hgroup).subset

theorem pushGroup (h : memo.Represented) (hends : memo.LinksEnd) {properties : GroupProperties} :
    (memo.pushGroup properties).Represented :=
  h.sameHomes hends (coarsens_pushGroup hends) sameHomes_pushGroup

/-- The alternatives of a group are moved together. -/
theorem mergeInto (h : memo.Represented) (hwell : memo.WellFormed) {source target : GroupId}
    (hsource : source.index < memo.groups.size) (htarget : target.index < memo.groups.size) :
    (memo.mergeInto source target).Represented := by
  have halternatives := listing_alternativesOf.mergeInto hwell hsource htarget
  have hduplicates := listing_duplicatesOf.mergeInto hwell hsource htarget
  refine h.coarsens hwell.linksEnd (hwell.mergeInto hsource htarget).coarsens
    fun id aside haside => ?_
  rw [hduplicates] at haside
  rw [halternatives]
  split at haside
  · rename_i hid
    rw [if_pos hid]
    rcases List.mem_append.mp haside with haside | haside
    · exact ⟨memo.master target, haside, List.subset_append_left _ _⟩
    · obtain ⟨moved, hmoved, haside⟩ := List.mem_flatMap.mp haside
      exact ⟨moved, haside, List.subset_append_of_subset_right _
        fun live hlive => List.mem_flatMap.mpr ⟨moved, hmoved, hlive⟩⟩
  · rename_i hid
    rw [if_neg hid]
    split at haside
    · simp at haside
    · rename_i hkept
      exact ⟨id, haside, by rw [if_neg hkept]; exact List.Subset.refl _⟩

theorem mergeToMaster (h : memo.Represented) (hwell : memo.WellFormed) (id : GroupId) :
    (memo.mergeToMaster id).Represented := by
  unfold Memo.mergeToMaster
  cases hgroup : memo.group? id with
  | none => exact h
  | some group =>
      dsimp only
      split
      · have hknown := exists_group?_eq_some.mp ⟨group, hgroup⟩
        exact h.mergeInto hwell hknown (hwell.masterKnown id hknown)
      · exact h

/-- An insertion sets no alternative aside. -/
theorem insert (h : memo.Represented) (hwell : memo.WellFormed) (op : Operator)
    (children : List GroupId) (target : Option GroupId) (origin : Option Origin) :
    Post (Planning.insert op children target origin) memo (fun _ final => final.Represented)
      (fun _ final => final.Represented) := by
  have hends := hwell.linksEnd
  by_cases hvalid : memo.Insertable op children target
  · refine ((Post.insert origin hwell hvalid).both
      (Linking.insert_found (R := SameHomes))).mono ?_ fun _ _ hfail => hfail.1.elim
    rintro outcome final ⟨hinserts, hfound⟩
    cases hinserts with
    | found _ _ _ same => exact h.sameQuery hends same.sameQuery
    | united _ _ _ _ _ unites => exact h.sameHomes hends unites.coarsens (hfound rfl)
    | @added middle id _ target_given same =>
        refine (h.sameQuery hends same.sameQuery).addAlternative (same.linksEnd hends) ?_
        rw [same.groups_size]
        exact hwell.masterKnown id (hvalid.known id (by simp [target_given]))
    | @created middle properties _ _ _ same =>
        have hpushed : (middle.pushGroup properties).Represented :=
          (h.sameQuery hends same.sameQuery).pushGroup (same.linksEnd hends)
        rw [← same.groups_size]
        refine hpushed.addAlternative ?_ (by simp [Memo.pushGroup])
        exact (same.linksEnd hends).congr fun _ => link?_pushGroup
  · exact (Post.insert_fails hvalid).mono (fun _ _ hok => hok.elim) fun _ _ hfinal => hfinal ▸ h

end Represented

end Memo

end QueryPlanner
