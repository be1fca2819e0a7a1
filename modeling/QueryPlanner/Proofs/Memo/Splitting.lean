import QueryPlanner.Proofs.Memo.Twins

/-!
# Telling the alternatives of a group apart

`Memo.splitRepeated` compares every alternative of a group with those kept so far. `Memo.Split` is
its invariant: what is kept is in order and told apart pair by pair (`Memo.Separate`), and the rest
repeats something that is kept. The children that were looked up on the way are linked directly to
their masters from then on, so telling the same alternatives apart again changes nothing
(`Memo.splitRepeated_eq_self`).
-/

namespace QueryPlanner

namespace Memo

variable {memo memo' : Memo}

/-! ## Comparing alternatives -/

/-- If two alternatives have equal operators, they are no twins, and it takes no further look-up to
tell. -/
def Separate (memo : Memo) (left right : ExprId) : Prop :=
  ∀ mine theirs, memo.expr? left = some mine → memo.expr? right = some theirs →
    mine.children.length = theirs.children.length → mine.op.same theirs.op = true →
      memo.isTwin mine theirs.op theirs.children = false ∧
        ∀ child ∈ mine.children ++ theirs.children, memo.Direct child

theorem Separate.not_twins {left right : ExprId} (h : memo.Separate left right) :
    ¬ memo.Twins left right := by
  rintro ⟨mine, theirs, hleft, hright, htwin⟩
  have hparts := htwin
  simp only [isTwin, Bool.and_eq_true, beq_iff_eq] at hparts
  have := (h mine theirs hleft hright hparts.1.1 hparts.1.2).1
  simp [htwin] at this

/-- Twins are told by operators, children and masters. -/
theorem isTwin_congr {expr expr' : MemoExpr} {op : Operator} {children : List GroupId}
    (hmasters : ∀ id, memo'.master id = memo.master id) (hop : expr'.op = expr.op)
    (hchildren : expr'.children = expr.children) :
    memo'.isTwin expr' op children = memo.isTwin expr op children := by
  unfold isTwin
  rw [hop, hchildren, funext hmasters]

/-- What was compared stays compared while alternatives are moved and chains get shorter. -/
theorem Separate.regroups {left right : ExprId} (h : memo.Separate left right)
    (hregroups : Regroups memo memo') (hdirect : ∀ id, memo.Direct id → memo'.Direct id) :
    memo'.Separate left right := by
  intro mine' theirs' hleft' hright' hlength hop
  obtain ⟨mine, hleft, hmineOp, hmineChildren, _⟩ := hregroups.exprs left mine' hleft'
  obtain ⟨theirs, hright, htheirsOp, htheirsChildren, _⟩ := hregroups.exprs right theirs' hright'
  rw [hmineChildren, htheirsChildren] at hlength ⊢
  rw [hmineOp, htheirsOp] at hop
  obtain ⟨htwin, hchildren⟩ := h mine theirs hleft hright hlength hop
  rw [isTwin_congr hregroups.masters hmineOp hmineChildren, htheirsOp]
  exact ⟨htwin, fun child hchild => hdirect child (hchildren child hchild)⟩

/-! ## Looking up what is close -/

/-- A change that does nothing to the group it is for does nothing. -/
theorem modifyGroup_eq_self {id : GroupId} {change : Group → Group}
    (h : ∀ group, memo.group? id = some group → change group = group) :
    memo.modifyGroup id change = memo := by
  have hgroups : memo.groups.modify id.index change = memo.groups := by
    refine Array.ext_getElem? fun index => ?_
    rw [Array.getElem?_modify]
    split
    · rename_i hindex
      subst hindex
      cases hgroup : memo.groups[id.index]? with
      | none => rfl
      | some group => exact congrArg some (h group hgroup)
    · rfl
  unfold modifyGroup
  rw [hgroups]

/-- Looking up the master of a group that is linked directly to it changes nothing. -/
theorem Direct.compress_eq_self {id : GroupId} (h : memo.Direct id) (hends : memo.LinksEnd) :
    memo.compress id = memo := by
  unfold Memo.compress
  rw [h.chain_eq hends]
  split
  · rfl
  · rename_i hne
    have hlink := h.resolve_left fun hnone => hne (hends.master_eq_self_iff.mpr hnone)
    refine modifyGroup_eq_self fun group hgroup => ?_
    have hdirect : group.duplicateOf = some (memo.master id) := by
      simpa [link?, hgroup] using hlink
    rw [← hdirect]

theorem compressAll_eq_self (hends : memo.LinksEnd) {ids : List GroupId}
    (h : ∀ id ∈ ids, memo.Direct id) : memo.compressAll ids = memo := by
  induction ids with
  | nil => rfl
  | cons id rest ih =>
      show (memo.compress id).compressAll rest = memo
      rw [(h id (by simp)).compress_eq_self hends]
      exact ih fun other hother => h other (by simp [hother])

theorem Direct.compressAll {id : GroupId} (h : memo.Direct id) (hends : memo.LinksEnd)
    (ids : List GroupId) : (memo.compressAll ids).Direct id := by
  induction ids generalizing memo with
  | nil => exact h
  | cons other rest ih =>
      exact ih (h.compress hends other) ((sameContent_compress other).linksEnd hends)

theorem direct_compressAll (hends : memo.LinksEnd) {id : GroupId} {ids : List GroupId}
    (h : id ∈ ids) : (memo.compressAll ids).Direct id := by
  induction ids generalizing memo with
  | nil => simp at h
  | cons other rest ih =>
      have hends' := (sameContent_compress other).linksEnd hends
      rcases List.mem_cons.mp h with rfl | h
      · exact (direct_compress hends id).compressAll hends' rest
      · exact ih hends' h

/-! ## Splitting the alternatives of a group -/

/-- Only alternatives with an equal operator are looked at. -/
theorem of_mem_twinCandidates {expr other : MemoExpr} {others : List MemoExpr}
    (h : other ∈ memo.twinCandidates expr others) : other ∈ others ∧
      other.children.length = expr.children.length ∧ other.op.same expr.op = true := by
  induction others with
  | nil => simp [twinCandidates] at h
  | cons first rest ih =>
      unfold twinCandidates at h
      split at h
      · rename_i htwin
        rw [List.mem_singleton.mp h]
        simp only [isTwin, Bool.and_eq_true, beq_iff_eq] at htwin
        exact ⟨by simp, htwin.1⟩
      · split at h
        · rename_i hop
          simp only [Bool.and_eq_true, beq_iff_eq] at hop
          rcases List.mem_cons.mp h with rfl | h
          · exact ⟨by simp, hop⟩
          · exact ⟨List.mem_cons_of_mem _ (ih h).1, (ih h).2⟩
        · exact ⟨List.mem_cons_of_mem _ (ih h).1, (ih h).2⟩

/-- Without a twin, all alternatives with an equal operator are looked at, and none is found. -/
theorem of_any_twinCandidates {expr : MemoExpr} {others : List MemoExpr}
    (h : ((memo.twinCandidates expr others).any
      fun other => memo.isTwin other expr.op expr.children) = false) :
    ∀ other ∈ others, other.children.length = expr.children.length →
      other.op.same expr.op = true → memo.isTwin other expr.op expr.children = false ∧
        other ∈ memo.twinCandidates expr others := by
  induction others with
  | nil => simp
  | cons first rest ih =>
      intro other hother hlength hop
      unfold twinCandidates at h ⊢
      by_cases htwin : memo.isTwin first expr.op expr.children = true
      · simp [htwin] at h
      · rw [if_neg htwin] at h ⊢
        have hrest : ((memo.twinCandidates expr rest).any
            fun other => memo.isTwin other expr.op expr.children) = false := by
          split at h
          · rw [List.any_cons, Bool.or_eq_false_iff] at h
            exact h.2
          · exact h
        rcases List.mem_cons.mp hother with rfl | hother
        · exact ⟨Bool.not_eq_true _ ▸ htwin, by simp [hlength, hop]⟩
        · obtain ⟨hfalse, hmem⟩ := ih hrest other hother hlength hop
          refine ⟨hfalse, ?_⟩
          split
          · exact List.mem_cons_of_mem _ hmem
          · exact hmem

/-- How far the alternatives of a group have been split: those kept are in order and told apart, and
the others repeat one of them. -/
structure Split (memo : Memo) (seen : List ExprId)
    (state : Memo × List ExprId × List ExprId) : Prop where
  same : SameContent memo state.1
  direct : ∀ id, memo.Direct id → state.1.Direct id
  kept : state.2.1.Sublist seen
  separate : state.2.1.Pairwise state.1.Separate
  dropped : ∀ aside ∈ state.2.2, ∃ live ∈ state.2.1, state.1.Twins live aside

/-- One more alternative is kept or dropped. -/
theorem Split.round (hwell : memo.WellFormed) {seen : List ExprId}
    {state : Memo × List ExprId × List ExprId} (h : Split memo seen state) (id : ExprId) :
    Split memo (seen ++ [id]) (splitRound state id) := by
  obtain ⟨current, kept, dropped⟩ := state
  obtain ⟨hsame, hdirect, hkept, hseparate, hdropped⟩ := h
  dsimp only at hsame hdirect hkept hseparate hdropped
  have hwell' := hsame.wellFormed hwell
  have hends := hwell'.linksEnd
  have hlonger : kept.Sublist (seen ++ [id]) := hkept.trans (List.sublist_append_left _ _)
  unfold splitRound
  dsimp only
  cases hexpr : current.expr? id with
  | none =>
      refine ⟨hsame, hdirect, hkept.append (.refl _), ?_, fun aside haside => ?_⟩
      · refine List.pairwise_append.mpr ⟨hseparate, by simp, fun left _ right hright => ?_⟩
        rintro mine theirs - htheirs
        rw [List.mem_singleton.mp hright, hexpr] at htheirs
        simp at htheirs
      · obtain ⟨live, hlive, htwins⟩ := hdropped aside haside
        exact ⟨live, List.mem_append_left _ hlive, htwins⟩
  | some expr =>
      dsimp only
      generalize hcandidates : current.twinCandidates expr (kept.filterMap current.expr?) =
        candidates
      set children := candidates.flatMap fun other => other.children ++ expr.children with hchildren
      have hlooked : SameContent current (current.compressAll children) := sameContent_compressAll
      have hregroups := hlooked.regroups hwell'
      have hdirect' (id : GroupId) (h : current.Direct id) :
          (current.compressAll children).Direct id := h.compressAll hends children
      have hcoarsens := hlooked.sameQuery.coarsens hends
      have hseparate' : kept.Pairwise (current.compressAll children).Separate :=
        hseparate.imp fun h => h.regroups hregroups hdirect'
      split
      · rename_i htwin
        refine ⟨hsame.trans hlooked, fun id h => hdirect' id (hdirect id h), hlonger, hseparate',
          fun aside haside => ?_⟩
        rcases List.mem_append.mp haside with haside | haside
        · obtain ⟨live, hlive, htwins⟩ := hdropped aside haside
          exact ⟨live, hlive, htwins.coarsens hcoarsens hends⟩
        · obtain ⟨other, hother, htwin⟩ := List.any_eq_true.mp htwin
          rw [← hcandidates] at hother
          obtain ⟨live, hlive, hliveExpr⟩ :=
            List.mem_filterMap.mp (of_mem_twinCandidates hother).1
          have htwins : current.Twins live id := ⟨other, expr, hliveExpr, hexpr, htwin⟩
          rw [List.mem_singleton.mp haside]
          exact ⟨live, hlive, htwins.coarsens hcoarsens hends⟩
      · rename_i hnone
        refine ⟨hsame.trans hlooked, fun id h => hdirect' id (hdirect id h),
          hkept.append (.refl _), ?_, fun aside haside => ?_⟩
        · refine List.pairwise_append.mpr ⟨hseparate', by simp, fun left hleft right hright => ?_⟩
          rw [List.mem_singleton.mp hright]
          -- the new alternative was compared with all that are kept
          intro mine' theirs' hmine' htheirs' hlength hop
          obtain ⟨mine, hmine, hmineOp, hmineChildren, _⟩ := hregroups.exprs _ _ hmine'
          obtain ⟨theirs, htheirs, htheirsOp, htheirsChildren, _⟩ := hregroups.exprs _ _ htheirs'
          obtain rfl := Option.some.inj (hexpr.symm.trans htheirs)
          rw [hmineChildren, htheirsChildren] at hlength ⊢
          rw [hmineOp, htheirsOp] at hop
          rw [isTwin_congr hregroups.masters hmineOp hmineChildren, htheirsOp]
          rw [Bool.not_eq_true, ← hcandidates] at hnone
          obtain ⟨htwin, hmem⟩ := of_any_twinCandidates hnone mine
            (List.mem_filterMap.mpr ⟨left, hleft, hmine⟩) hlength hop
          rw [hcandidates] at hmem
          exact ⟨htwin, fun child hchild => direct_compressAll hends
            (List.mem_flatMap.mpr ⟨mine, hmem, hchild⟩)⟩
        · obtain ⟨live, hlive, htwins⟩ := hdropped aside haside
          exact ⟨live, List.mem_append_left _ hlive, htwins.coarsens hcoarsens hends⟩

theorem split_splitRepeated (hwell : memo.WellFormed) (ids : List ExprId) :
    Split memo ids (memo.splitRepeated ids) := by
  suffices hall : ∀ (rest seen : List ExprId) (state : Memo × List ExprId × List ExprId),
      Split memo seen state → Split memo (seen ++ rest) (rest.foldl splitRound state) from
    hall ids [] (memo, [], []) ⟨.refl memo, fun _ h => h, .refl _, by simp, by simp⟩
  intro rest
  induction rest with
  | nil => exact fun seen state h => by rwa [List.append_nil]
  | cons id rest ih =>
      intro seen state h
      rw [show seen ++ id :: rest = seen ++ [id] ++ rest by simp]
      exact ih _ _ (h.round hwell id)

/-- Alternatives that are told apart are all kept, and nothing changes. -/
theorem splitRepeated_eq_self (hends : memo.LinksEnd) {ids : List ExprId}
    (h : ids.Pairwise memo.Separate) : memo.splitRepeated ids = (memo, ids, []) := by
  suffices hall : ∀ (rest kept : List ExprId), (kept ++ rest).Pairwise memo.Separate →
      rest.foldl splitRound (memo, kept, []) = (memo, kept ++ rest, []) from hall ids [] h
  intro rest
  induction rest with
  | nil => simp
  | cons id rest ih =>
      intro kept h
      have hround : splitRound (memo, kept, []) id = (memo, kept ++ [id], []) := by
        unfold splitRound
        dsimp only
        cases hexpr : memo.expr? id with
        | none => rfl
        | some expr =>
            have hkept {other : MemoExpr}
                (hother : other ∈ memo.twinCandidates expr (kept.filterMap memo.expr?)) :
                ∃ live ∈ kept, memo.expr? live = some other ∧ memo.Separate live id := by
              obtain ⟨live, hlive, hliveExpr⟩ :=
                List.mem_filterMap.mp (of_mem_twinCandidates hother).1
              exact ⟨live, hlive, hliveExpr,
                (List.pairwise_append.mp h).2.2 live hlive id (by simp)⟩
            have hnone : ((memo.twinCandidates expr (kept.filterMap memo.expr?)).any
                fun other => memo.isTwin other expr.op expr.children) = false := by
              rw [List.any_eq_false]
              intro other hother htwin
              obtain ⟨live, _, hliveExpr, hseparate⟩ := hkept hother
              exact hseparate.not_twins ⟨other, expr, hliveExpr, hexpr, htwin⟩
            dsimp only
            rw [hnone, compressAll_eq_self hends]
            · rfl
            · intro child hchild
              obtain ⟨other, hother, hchild⟩ := List.mem_flatMap.mp hchild
              obtain ⟨live, _, hliveExpr, hseparate⟩ := hkept hother
              obtain ⟨_, hlength, hop⟩ := of_mem_twinCandidates hother
              exact (hseparate other expr hliveExpr hexpr hlength hop).2 child hchild
      rw [List.foldl_cons, hround, ih _ (by simpa using h), List.append_assoc]
      rfl

end Memo

end QueryPlanner
