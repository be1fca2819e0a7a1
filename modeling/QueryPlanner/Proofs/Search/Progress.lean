import Mathlib.Algebra.BigOperators.Group.Finset.Basic
import QueryPlanner.Proofs.Memo.Homes
import QueryPlanner.Proofs.Memo.UnionFind
import QueryPlanner.Proofs.Search.Passes

/-!
# What an exploration keeps

An exploration moves no alternative: groups keep the alternatives they list and get others after
them, and alternatives keep their operators, children and owners (`Memo.Widens`). Masters go up at
most (`Memo.Accrues`). What is noted about the search grows as well, and every rule that is started
on an alternative is noted with it, once (`SearchState.Proceeds`).
-/

namespace QueryPlanner

open Memo (SameContent MastersRise)
open Planning (Keeps Post exec)

namespace Memo

variable {memo middle memo' : Memo} {id target : GroupId}

/-! ## More of everything -/

/-- The later memo has all groups and alternatives where they were, and perhaps more. -/
structure Widens (memo memo' : Memo) : Prop where
  groups_size : memo.groups.size ≤ memo'.groups.size
  exprs : ∀ id expr, memo.expr? id = some expr → ∃ expr', memo'.expr? id = some expr' ∧
    expr'.op = expr.op ∧ expr'.children = expr.children ∧ expr'.group = expr.group
  alternatives : ∀ id, memo.alternativesOf id <+: memo'.alternativesOf id
  logical : ∀ id : GroupId, id.index < memo.groups.size → memo'.logical id = memo.logical id

namespace Widens

protected theorem refl (memo : Memo) : memo.Widens memo where
  groups_size := le_rfl
  exprs _ expr hexpr := ⟨expr, hexpr, rfl, rfl, rfl⟩
  alternatives _ := List.prefix_refl _
  logical _ _ := rfl

protected theorem trans (h : memo.Widens middle) (h' : middle.Widens memo') :
    memo.Widens memo' where
  groups_size := h.groups_size.trans h'.groups_size
  exprs id expr hexpr := by
    obtain ⟨between, hbetween, hop, hchildren, hgroup⟩ := h.exprs id expr hexpr
    obtain ⟨expr', hexpr', hop', hchildren', hgroup'⟩ := h'.exprs id between hbetween
    exact ⟨expr', hexpr', hop'.trans hop, hchildren'.trans hchildren, hgroup'.trans hgroup⟩
  alternatives id := (h.alternatives id).trans (h'.alternatives id)
  logical id hid := (h'.logical id (hid.trans_le h.groups_size)).trans (h.logical id hid)

theorem of_sameContent (hsame : SameContent memo memo') : memo.Widens memo' where
  groups_size := hsame.groups_size.ge
  exprs id expr hexpr := by
    obtain ⟨expr', hexpr', hcontent⟩ := hsame.exists_expr hexpr
    exact ⟨expr', hexpr', congrArg (·.op) hcontent, congrArg (·.children) hcontent,
      congrArg (·.group) hcontent⟩
  alternatives id := by rw [hsame.alternativesOf]
  logical id _ := hsame.logical id

theorem setLink : memo.Widens (memo.setLink id target) where
  groups_size := groups_size_setLink.ge
  exprs _ expr hexpr := ⟨expr, hexpr, rfl, rfl, rfl⟩
  alternatives other := by rw [sameHomes_setLink.alternatives]
  logical other _ := by
    have hcontent := congrArg (Option.map Group.logical) (group?_setLink_content memo id target other)
    rw [Option.map_map, Option.map_map] at hcontent
    exact congrArg (Option.getD · {}) hcontent

/-- What is read off a known alternative stays. -/
theorem exprs_of (h : memo.Widens memo') {id : ExprId} {expr expr' : MemoExpr}
    (hexpr : memo.expr? id = some expr) (hexpr' : memo'.expr? id = some expr') :
    expr'.op = expr.op ∧ expr'.children = expr.children ∧ expr'.group = expr.group := by
  obtain ⟨found, hfound, hsame⟩ := h.exprs id expr hexpr
  obtain rfl := Option.some.inj (hexpr'.symm.trans hfound)
  exact hsame

theorem exprs_size (h : memo.Widens memo') : memo.exprs.size ≤ memo'.exprs.size := by
  by_contra hfewer
  have hknown : (memo.expr? ⟨memo'.exprs.size⟩).isSome :=
    (expr?_isSome _).mpr (Nat.lt_of_not_le hfewer)
  obtain ⟨expr, hexpr⟩ := Option.isSome_iff_exists.mp hknown
  obtain ⟨expr', hexpr', _⟩ := h.exprs _ expr hexpr
  exact Nat.lt_irrefl _ ((expr?_isSome _).mp (Option.isSome_of_eq_some hexpr'))

end Widens

instance : Std.Refl Widens := ⟨Widens.refl⟩

instance : IsTrans Memo Widens := ⟨fun _ _ _ => Widens.trans⟩

instance : Inserting Widens where
  compressed memo id := .of_sameContent (sameContent_compress id)
  linked memo left right := by
    have hlooked : Widens memo ((memo.compress left).compress right) :=
      .of_sameContent ((sameContent_compress left).trans (sameContent_compress right))
    refine hlooked.trans ?_
    unfold Memo.addDuplicate
    dsimp only
    split
    · exact .refl _
    · split <;> exact .setLink
  pushed memo properties :=
    { groups_size := by simp [pushGroup]
      exprs := fun _ expr hexpr => ⟨expr, hexpr, rfl, rfl, rfl⟩
      alternatives := fun id => by rw [sameHomes_pushGroup.alternatives]
      logical := fun id hid => by
        unfold Memo.logical
        rw [group?_pushGroup, if_neg]
        rintro rfl
        exact Nat.lt_irrefl _ hid }
  added memo op children group origin :=
    { groups_size := groups_size_addAlternative.ge
      exprs := fun _ expr hexpr => ⟨expr, expr?_addAlternative_of_some hexpr, rfl, rfl, rfl⟩
      alternatives := fun id => by
        unfold Memo.alternativesOf
        cases hfound : (memo.addAlternative op children group origin).group? id with
        | none =>
            rw [group?_eq_none, groups_size_addAlternative, ← group?_eq_none] at hfound
            rw [hfound]
        | some found =>
            obtain ⟨before, hbefore, _, _, _, _, halternatives⟩ := group?_addAlternative hfound
            rw [hbefore, Option.map_some, Option.map_some, halternatives]
            split
            · exact List.prefix_append _ _
            · exact List.prefix_refl _
      logical := fun id hid => by
        have hsize : (memo.addAlternative op children group origin).groups.size =
            memo.groups.size := groups_size_addAlternative
        obtain ⟨found, hfound⟩ := exists_group?_eq_some.mpr (hsize ▸ hid)
        obtain ⟨before, hbefore, hproperties, _⟩ := group?_addAlternative hfound
        rw [Memo.logical, hfound, Memo.logical, hbefore]
        exact congrArg GroupProperties.relationOrEmpty hproperties }

/-! ## Rules that were applied -/

/-- How many rules were applied to alternatives so far. -/
def marks (memo : Memo) : ℕ :=
  ∑ index ∈ Finset.range memo.exprs.size, (memo.applied ⟨index⟩).length

/-- The later memo has more in it, and no rule was applied in between. -/
structure Accrues (memo memo' : Memo) : Prop extends memo.Widens memo' where
  rises : MastersRise memo memo'
  attainable : memo.Attainable → memo'.Attainable
  applied : ∀ id, memo'.applied id = memo.applied id

theorem applied_eq_nil {id : ExprId} (hid : memo.exprs.size ≤ id.index) : memo.applied id = [] := by
  have hnone : memo.expr? id = none := by
    rw [← Option.not_isSome_iff_eq_none, expr?_isSome]
    omega
  rw [applied, hnone]
  rfl

namespace Accrues

protected theorem refl (memo : Memo) : memo.Accrues memo :=
  ⟨.refl memo, Std.Refl.refl memo, fun h => h, fun _ => rfl⟩

protected theorem trans (h : memo.Accrues middle) (h' : middle.Accrues memo') :
    memo.Accrues memo' :=
  ⟨h.toWidens.trans h'.toWidens, h.rises.trans h'.rises,
    fun hmemo => h'.attainable (h.attainable hmemo), fun id => (h'.applied id).trans (h.applied id)⟩

instance : Std.Refl Accrues := ⟨Accrues.refl⟩

instance : IsTrans Memo Accrues := ⟨fun _ _ _ => Accrues.trans⟩

theorem of_observes (h : memo.Observes memo') : memo.Accrues memo' :=
  ⟨.of_sameContent h.same, .of_sameContent h.same, fun hmemo => hmemo.look h.same, h.applied⟩

/-- New alternatives come without marks. -/
theorem marks_eq (h : memo.Accrues memo') : memo'.marks = memo.marks := by
  unfold marks
  rw [← Finset.sum_subset (Finset.range_mono h.exprs_size)]
  · exact Finset.sum_congr rfl fun index _ => by rw [h.applied]
  · intro index _ hnew
    rw [h.applied, applied_eq_nil (by simpa using hnew)]
    rfl

end Accrues

/-- No rule was applied in between. -/
def SameApplied (memo memo' : Memo) : Prop := ∀ id, memo'.applied id = memo.applied id

instance : Inserting SameApplied where
  refl _ _ := rfl
  trans _ _ _ h h' id := (h' id).trans (h id)
  compressed _ id := applied_of_exprs (exprs_compress id)
  linked memo left right := by
    have hlooked : SameApplied memo ((memo.compress left).compress right) :=
      applied_of_exprs ((exprs_compress _).trans (exprs_compress _))
    unfold Memo.addDuplicate
    dsimp only
    split
    · exact hlooked
    · split <;> exact fun id => (applied_of_exprs rfl id).trans (hlooked id)
  pushed _ _ := applied_of_exprs rfl
  added memo op children group origin id := by
    unfold applied
    rw [expr?_addAlternative]
    split
    · rename_i hid
      rw [hid, show memo.expr? ⟨memo.exprs.size⟩ = none by simp [expr?]]
      rfl
    · rfl

instance : Memo.Filling Accrues where
  observed _ _ := .of_observes
  inserted {op children target origin} _ := by
    have hwidens : Keeps Widens (Planning.insert op children target origin) :=
      Inserting.keeps_insert
    have hrises : Keeps MastersRise (Planning.insert op children target origin) :=
      Inserting.keeps_insert
    have happlied : Keeps SameApplied (Planning.insert op children target origin) :=
      Inserting.keeps_insert
    exact .of_exec fun memo => ⟨(hwidens memo).exec_snd, (hrises memo).exec_snd,
      fun h => h.insert op children target origin, (happlied memo).exec_snd⟩

end Memo

/-! ## The state of a search -/

namespace SearchState

variable {state middle state' : SearchState}

/-- The search has gone on. -/
structure Proceeds (state state' : SearchState) : Prop where
  widens : state.memo.Widens state'.memo
  rises : MastersRise state.memo state'.memo
  attainable : state.memo.Attainable → state'.memo.Attainable
  visited : state.visited <:+ state'.visited
  iterations : state.iterations ≤ state'.iterations
  applications : state.stageApplications ≤ state'.stageApplications
  applied : ∀ id, state.memo.applied id <:+ state'.memo.applied id
  /-- No rule is started a second time. -/
  once : (∀ id, (state.memo.applied id).Nodup) → ∀ id, (state'.memo.applied id).Nodup
  /-- Every rule that was started is noted. -/
  marks : state'.memo.marks + state.stageApplications = state.memo.marks + state'.stageApplications

namespace Proceeds

protected theorem refl (state : SearchState) : state.Proceeds state where
  widens := .refl _
  rises := Std.Refl.refl _
  attainable h := h
  visited := List.suffix_refl _
  iterations := le_rfl
  applications := le_rfl
  applied _ := List.suffix_refl _
  once h := h
  marks := rfl

protected theorem trans (h : state.Proceeds middle) (h' : middle.Proceeds state') :
    state.Proceeds state' where
  widens := h.widens.trans h'.widens
  rises := h.rises.trans h'.rises
  attainable hstate := h'.attainable (h.attainable hstate)
  visited := h.visited.trans h'.visited
  iterations := h.iterations.trans h'.iterations
  applications := h.applications.trans h'.applications
  applied id := (h.applied id).trans (h'.applied id)
  once hstate := h'.once (h.once hstate)
  marks := by
    have := h.marks
    have := h'.marks
    omega

instance : Std.Refl Proceeds := ⟨Proceeds.refl⟩

instance : IsTrans SearchState Proceeds := ⟨fun _ _ _ => Proceeds.trans⟩

theorem withMemo {memo memo' : Memo} (h : memo.Accrues memo') :
    (state.withMemo memo).Proceeds (state.withMemo memo') where
  widens := h.toWidens
  rises := h.rises
  attainable := h.attainable
  visited := List.suffix_refl _
  iterations := le_rfl
  applications := le_rfl
  applied id := by
    show memo.applied id <:+ memo'.applied id
    rw [h.applied]
  once hmemo id := by
    show (memo'.applied id).Nodup
    rw [h.applied]
    exact hmemo id
  marks := congrArg (· + state.stageApplications) h.marks_eq

end Proceeds

/-- What was applied to alternatives after one more rule was started. -/
theorem applied_started {id : ExprId} {rule : Rule} (hknown : (state.memo.expr? id).isSome)
    (other : ExprId) : (state.started id rule).memo.applied other =
      if other = id then rule.name :: state.memo.applied other else state.memo.applied other := by
  unfold started Memo.applied
  dsimp only
  rw [Memo.expr?_modifyExpr]
  by_cases hother : id = other
  · subst hother
    obtain ⟨expr, hexpr⟩ := Option.isSome_iff_exists.mp hknown
    rw [if_pos rfl, if_pos rfl, hexpr]
    rfl
  · rw [if_neg hother, if_neg (Ne.symm hother)]

theorem sameContent_started {id : ExprId} {rule : Rule} :
    SameContent state.memo (state.started id rule).memo :=
  Memo.sameContent_modifyExpr fun _ => rfl

/-- Starting a rule leaves a mark. -/
theorem marks_started {id : ExprId} {rule : Rule} (hknown : (state.memo.expr? id).isSome) :
    (state.started id rule).memo.marks = state.memo.marks + 1 := by
  have hsize : (state.started id rule).memo.exprs.size = state.memo.exprs.size :=
    sameContent_started.exprs_size
  have hid := (Memo.expr?_isSome id).mp hknown
  unfold Memo.marks
  rw [hsize, ← Finset.add_sum_erase _ _ (Finset.mem_range.mpr hid),
    ← Finset.add_sum_erase (Finset.range state.memo.exprs.size)
      (fun index => (state.memo.applied ⟨index⟩).length) (Finset.mem_range.mpr hid),
    applied_started hknown, if_pos rfl, List.length_cons]
  have hothers : ∑ index ∈ (Finset.range state.memo.exprs.size).erase id.index,
        ((state.started id rule).memo.applied ⟨index⟩).length =
      ∑ index ∈ (Finset.range state.memo.exprs.size).erase id.index,
        (state.memo.applied ⟨index⟩).length := by
    refine Finset.sum_congr rfl fun index hindex => ?_
    rw [applied_started hknown, if_neg]
    rintro rfl
    exact (Finset.mem_erase.mp hindex).1 rfl
  rw [hothers]
  omega

instance : Searching.Filling Proceeds where
  observed _ _ _ h := Proceeds.withMemo (.of_observes h)
  counted state := { Proceeds.refl state with iterations := Nat.le_succ _ }
  visited state id _ := { Proceeds.refl state with visited := List.suffix_cons _ _ }
  started state id rule hknown hnew :=
    { widens := .of_sameContent sameContent_started
      rises := .of_sameContent sameContent_started
      attainable := fun h => h.look sameContent_started
      visited := List.suffix_refl _
      iterations := le_rfl
      applications := Nat.le_succ _
      applied := fun other => by
        rw [applied_started hknown]
        split
        · exact List.suffix_cons _ _
        · exact List.suffix_refl _
      once := fun h other => by
        rw [applied_started hknown]
        split
        · rename_i hother
          exact List.nodup_cons.mpr ⟨hother ▸ hnew, h other⟩
        · exact h other
      marks := by
        rw [marks_started hknown]
        show _ = _ + (state.stageApplications + 1)
        omega }

end SearchState

/-- Inserting what rules answer goes on with the search. -/
instance (state : SearchState) : Memo.Filling (SearchState.Beside SearchState.Proceeds state) where
  refl _ := .refl _
  trans _ _ _ := .trans
  observed _ _ h := SearchState.Proceeds.withMemo (.of_observes h)
  inserted hop := (Memo.Filling.inserted hop).mono fun _ _ => SearchState.Proceeds.withMemo

namespace Planner

variable {planner : Planner} {rules : List Rule} {limits : StageLimits}

theorem fires_proceeds {rule : Rule} (hplain : rule.IsPlain) :
    planner.Fires SearchState.Proceeds rule :=
  fires_of_isPlain hplain fun _ => inferInstance

/-- An exploration moves no alternative, however it ends, and starts no rule twice. -/
theorem proceeds_exploreGroup (hplain : ∀ rule ∈ rules, rule.IsPlain) {fuel : Nat} {id : GroupId} :
    Keeps SearchState.Proceeds (planner.exploreGroup limits rules fuel id) :=
  keeps_exploreGroup fun rule hrule => fires_proceeds (hplain rule hrule)

end Planner

end QueryPlanner
