import QueryPlanner.Proofs.Memo.Reachable
import QueryPlanner.Proofs.Memo.Resetting

/-!
# Statistics that a reset leaves outdated

Alternatives are inserted, roots are set, statistics are derived and reset, in any order. A group is
marked when it gains a logical alternative, and the mark stays until a reset drops the statistics of
the group. So what a reset leaves is up to date, unless an earlier reset took the mark away without
coming to the group that held the statistics (`Memo.WellFormed.kept_by_reset`). This happens as soon
as two roots share a group: a reset from one root takes the marks that a reset from the other one
needs (`Memo.shared_kept_by_reset`).
-/

namespace QueryPlanner

open Memo (SameContent)
open Planning (Post Keeps exec)

/-! ## Marks -/

namespace Memo

variable {memo memo' memo'' : Memo} {id : GroupId}

/-- The logical alternatives in use of a group. -/
def logicalAlternatives (memo : Memo) (id : GroupId) : List ExprId :=
  (memo.alternativesOf id).filter fun alternative =>
    ((memo.op? alternative).map (·.isLogical)).getD false

/-- The group has logical alternatives in the later memo that it had not before. -/
def Gains (memo memo' : Memo) (id : GroupId) : Prop :=
  ∃ alternative ∈ memo'.logicalAlternatives id, alternative ∉ memo.logicalAlternatives id

theorem SameContent.not_gains (hsame : SameContent memo memo') : ¬ memo.Gains memo' id := by
  rintro ⟨alternative, hmem, hnew⟩
  refine hnew ?_
  unfold logicalAlternatives at *
  simpa only [hsame.alternativesOf, hsame.op?] using hmem

/-- The groups list alternatives that there are. -/
def ListsKnown (memo : Memo) : Prop :=
  ∀ id, ∀ alternative ∈ memo.alternativesOf id, alternative.index < memo.exprs.size

theorem WellFormed.listsKnown (h : memo.WellFormed) : memo.ListsKnown := by
  intro id alternative hmem
  obtain ⟨_, expr, hexpr, _⟩ := h.owned hmem
  exact (expr?_isSome _).mp (Option.isSome_of_eq_some hexpr)

/-- Marks stay, and a group that gains a logical alternative is marked. -/
structure Marks (memo memo' : Memo) : Prop where
  listsKnown : memo.ListsKnown → memo'.ListsKnown
  kept : ∀ id, memo.gained id = true → memo'.gained id = true
  marked : memo.ListsKnown → ∀ id, memo.Gains memo' id → memo'.gained id = true

/-- The group of a new alternative is marked when that is logical. -/
theorem gained_addAlternative {op : Operator} {children : List GroupId} {group : GroupId}
    {origin : Option Origin} : (memo.addAlternative op children group origin).gained id =
      (memo.gained id || (decide (group = id) && (memo.group? id).isSome && op.isLogical)) := by
  have hgroup : (memo.addAlternative op children group origin).group? id =
      if group = id then (memo.group? id).map _ else memo.group? id := group?_modifyGroup
  unfold gained
  rw [hgroup]
  split
  · rename_i hid
    cases memo.group? id <;> simp [hid]
  · rename_i hid
    simp [hid]

namespace Marks

protected theorem refl (memo : Memo) : memo.Marks memo where
  listsKnown := id
  kept _ := id
  marked := fun _ _ ⟨_, hmem, hnew⟩ => absurd hmem hnew

protected theorem trans (h : memo.Marks memo') (h' : memo'.Marks memo'') : memo.Marks memo'' where
  listsKnown := h'.listsKnown ∘ h.listsKnown
  kept id := h'.kept id ∘ h.kept id
  marked := by
    rintro hlists id ⟨alternative, hmem, hnew⟩
    by_cases hmiddle : alternative ∈ memo'.logicalAlternatives id
    · exact h'.kept id (h.marked hlists id ⟨alternative, hmiddle, hnew⟩)
    · exact h'.marked (h.listsKnown hlists) id ⟨alternative, hmem, hmiddle⟩

instance : Std.Refl Marks := ⟨Marks.refl⟩

instance : IsTrans Memo Marks := ⟨fun _ _ _ => Marks.trans⟩

/-- Nothing is gained when every group keeps its mark and its list. -/
theorem of_same (hgained : ∀ id, memo'.gained id = memo.gained id)
    (halternatives : ∀ id, memo'.alternativesOf id = memo.alternativesOf id)
    (hop : ∀ id, memo'.op? id = memo.op? id) (hsize : memo'.exprs.size = memo.exprs.size) :
    memo.Marks memo' where
  listsKnown hlists id := by
    rw [halternatives, hsize]
    exact hlists id
  kept id := (hgained id).trans
  marked := by
    rintro _ id ⟨alternative, hmem, hnew⟩
    refine absurd ?_ hnew
    unfold logicalAlternatives at *
    simpa only [halternatives, hop] using hmem

theorem setLink (memo : Memo) (joining into : GroupId) : memo.Marks (memo.setLink joining into) := by
  refine of_same (fun id => ?_) (fun id => ?_) (fun _ => rfl) rfl
  · refine congrArg Prod.snd (notes_modifyGroup (fun _ => ?_) (fun _ => ?_) id) <;> rfl
  · unfold alternativesOf Memo.setLink
    rw [group?_modifyGroup]
    split
    · rw [Option.map_map]
      rfl
    · rfl

theorem compress (memo : Memo) (id : GroupId) : memo.Marks (memo.compress id) :=
  List.foldlRecOn _ _ (Marks.refl memo) fun _ hfound _ _ => hfound.trans (.setLink ..)

theorem addDuplicate (memo : Memo) (left right : GroupId) :
    memo.Marks (memo.addDuplicate left right) := by
  have hlooked : memo.Marks ((memo.compress left).compress right) :=
    (Marks.compress ..).trans (.compress ..)
  unfold Memo.addDuplicate
  dsimp only
  split
  · exact hlooked
  · split <;> exact hlooked.trans (.setLink ..)

theorem pushGroup (memo : Memo) (properties : GroupProperties) :
    memo.Marks (memo.pushGroup properties) := by
  have hlast : memo.group? ⟨memo.groups.size⟩ = none := group?_eq_none.mpr le_rfl
  refine of_same (fun id => ?_) (fun id => ?_) (fun _ => rfl) rfl
  · unfold gained
    rw [group?_pushGroup]
    split
    · rename_i hid
      rw [hid, hlast]
      rfl
    · rfl
  · unfold alternativesOf
    rw [group?_pushGroup]
    split
    · rename_i hid
      rw [hid, hlast]
      rfl
    · rfl

theorem addAlternative (memo : Memo) (op : Operator) (children : List GroupId) (group : GroupId)
    (origin : Option Origin) : memo.Marks (memo.addAlternative op children group origin) := by
  set final := memo.addAlternative op children group origin with hfinal
  -- what a group lists afterwards is old, or it is the new alternative in the given group
  have hlisted (id : GroupId) (alternative : ExprId) (hmem : alternative ∈ final.alternativesOf id) :
      id.index < memo.groups.size ∧ (alternative ∈ memo.alternativesOf id ∨
        alternative = ⟨memo.exprs.size⟩ ∧ id = group) := by
    unfold alternativesOf at hmem ⊢
    cases hfound : final.group? id with
    | none => simp [hfound] at hmem
    | some found =>
        obtain ⟨before, hbefore, _, _, _, _, halternatives⟩ := group?_addAlternative hfound
        refine ⟨exists_group?_eq_some.mp ⟨before, hbefore⟩, ?_⟩
        rw [hfound, Option.map_some, Option.getD_some, halternatives] at hmem
        rw [hbefore, Option.map_some, Option.getD_some]
        split at hmem <;> simp_all
  refine ⟨fun hlists id alternative hmem => ?_, fun id hgained => ?_, ?_⟩
  · rw [hfinal, exprs_size_addAlternative]
    rcases (hlisted id alternative hmem).2 with hold | ⟨rfl, _⟩
    · exact Nat.lt_succ_of_lt (hlists id alternative hold)
    · exact Nat.lt_succ_self _
  · rw [gained_addAlternative, hgained]
    rfl
  · rintro hlists id ⟨alternative, hmem, hnew⟩
    obtain ⟨hmem, hlogical⟩ := List.mem_filter.mp hmem
    obtain ⟨hknown, hold | ⟨rfl, rfl⟩⟩ := hlisted id alternative hmem
    · refine absurd (List.mem_filter.mpr ⟨hold, ?_⟩) hnew
      have hne : alternative ≠ ⟨memo.exprs.size⟩ := by
        rintro rfl
        exact absurd (hlists id _ hold) (lt_irrefl _)
      rwa [op?, hfinal, expr?_addAlternative, if_neg hne] at hlogical
    · rw [op?, hfinal, expr?_addAlternative, if_pos rfl] at hlogical
      have hlogical : op.isLogical = true := hlogical
      rw [gained_addAlternative, (group?_isSome id).mpr hknown, hlogical]
      simp

end Marks

instance : Inserting Marks where
  compressed := Marks.compress
  linked := Marks.addDuplicate
  pushed := Marks.pushGroup
  added := Marks.addAlternative

/-! ## Calls -/

end Memo

/-- What happens to a memo between two plans. -/
inductive Upkeep where
  | insert (op : Operator) (children : List GroupId) (target : Option GroupId)
      (origin : Option Origin)
  | setRoot (root : GroupId)
  | derive (aborted : Bool) (id : GroupId) (required : ColumnSet)
  | reset

/-- Run a call, and forget its answer. -/
def Upkeep.run : Upkeep → Planning Unit
  | insert op children target origin => do
    let _ ← Planning.insert op children target origin
  | setRoot root => modify fun memo => { memo with root := some root }
  | derive aborted id required => do
    let _ ← Planning.deriveStatistics aborted id required
  | reset => Planning.resetStatistics

/-- The memo after several calls. A call that fails counts with the memo it leaves. -/
def Memo.after (memo : Memo) (calls : List Upkeep) : Memo :=
  calls.foldl (fun memo call => (exec call.run memo).2) memo

namespace Memo

variable {memo : Memo}

theorem after_append (memo : Memo) (calls later : List Upkeep) :
    memo.after (calls ++ later) = (memo.after calls).after later :=
  List.foldl_append

/-- Calls keep a memo well formed. -/
theorem WellFormed.after (h : memo.WellFormed) (calls : List Upkeep) : (memo.after calls).WellFormed := by
  refine List.foldlRecOn (motive := WellFormed) calls _ h fun current hcurrent call _ => ?_
  refine Post.exec_snd (P := WellFormed) ?_
  cases call with
  | insert op children target origin =>
      exact Post.bind ((Post.insert_wellFormed hcurrent op children target origin).mono
        (fun _ _ hfinal => Post.pure hfinal) fun _ _ hfinal => hfinal)
  | setRoot root => exact Post.modify (sameContent_setRoot.wellFormed hcurrent)
  | derive aborted id required =>
      exact Post.bind ((Planning.keeps_deriveStatistics current).mono
        (fun _ _ hsame => Post.pure (hsame.wellFormed hcurrent))
          fun _ _ hsame => hsame.wellFormed hcurrent)
  | reset =>
      exact (Planning.keeps_resetStatistics current).mono
        (fun _ _ hsame => hsame.wellFormed hcurrent) fun _ _ hsame => hsame.wellFormed hcurrent

/-- Deriving statistics changes no mark. -/
instance : Deriving fun memo memo' => ∀ id, memo'.gained id = memo.gained id where
  refl _ _ := rfl
  trans _ _ _ h h' id := (h' id).trans (h id)
  compressed memo changed id := congrArg Prod.snd (notes_compress memo changed id)
  noted memo changed found id := by
    unfold gained
    rw [group?_modifyGroup]
    split
    · rw [Option.map_map]
      rfl
    · rfl

end Memo

/-! ## One call -/

namespace Planning

variable {memo : Memo}

/-- A call that does not reset statistics leaves the marks, and a group that gains a logical
alternative is marked. -/
theorem marks_run {call : Upkeep} (hcall : call ≠ .reset) : Keeps Memo.Marks call.run := by
  intro memo
  cases call with
  | insert op children target origin =>
      exact (Keeps.bind Memo.Inserting.keeps_insert fun _ => Keeps.pure : Keeps Memo.Marks _) memo
  | setRoot root => exact Post.modify (.of_same (fun _ => rfl) (fun _ => rfl) (fun _ => rfl) rfl)
  | derive aborted id required =>
      have hderive : Post (deriveStatistics aborted id required) memo
          (fun _ final => memo.Marks final) (fun _ final => memo.Marks final) := by
        have hmarks : Keeps (fun memo memo' : Memo => ∀ id, memo'.gained id = memo.gained id)
            (deriveStatistics aborted id required) :=
          Keeps.bind Keeps.get fun _ => keeps_deriveUpTo
        refine ((keeps_deriveStatistics memo).both (hmarks memo)).mono ?_ ?_ <;>
          exact fun _ _ h => .of_same h.2 h.1.alternativesOf h.1.op? h.1.exprs_size
      exact Post.bind (hderive.mono (fun _ _ hfinal => Post.pure hfinal) fun _ _ hfinal => hfinal)
  | reset => exact absurd rfl hcall

end Planning

namespace Memo

variable {memo : Memo} {upper lower : GroupId}

/-- An unknown group reaches only itself, and has no mark. -/
theorem not_outdated_of_unknown {root id : GroupId} (hends : memo.LinksEnd)
    (hunknown : memo.group? root = none) (hreaches : memo.Reaches (memo.master root) id) :
    ¬ memo.Outdated id := by
  have hmaster : memo.master root = root := by
    rw [hends.master_eq_self_iff, link?, hunknown]
    rfl
  have hbelow (lower : GroupId) (hpath : memo.Reaches root lower) : lower = root := by
    rcases Relation.ReflTransGen.cases_head hpath with hsame | ⟨_, ⟨child, hchild, _⟩, _⟩
    · exact hsame.symm
    · simp [logicalChildren, alternativesOf, hunknown] at hchild
  rw [hmaster] at hreaches
  obtain rfl := hbelow id hreaches
  rintro ⟨lower, hpath, hgained⟩
  obtain rfl := hbelow lower hpath
  simp [gained, hunknown] at hgained

/-- The memo that a reset of statistics leaves. -/
theorem WellFormed.after_reset (h : memo.WellFormed) (hacyclic : memo.LogicallyAcyclic) :
    let final := (exec Planning.resetStatistics memo).2
    ∀ id, (memo.BelowRoot id ∧ memo.Outdated id → final.notes id = (none, false)) ∧
      (¬ (memo.BelowRoot id ∧ memo.Outdated id) → final.notes id = memo.notes id) := by
  refine Post.exec_snd (P := fun final : Memo => ∀ id,
    (memo.BelowRoot id ∧ memo.Outdated id → final.notes id = (none, false)) ∧
      (¬ (memo.BelowRoot id ∧ memo.Outdated id) → final.notes id = memo.notes id)) ?_
  refine (Post.resetStatistics h hacyclic).mono (fun _ _ hfinal => hfinal.2) ?_
  rintro _ final ⟨rfl, root, hroot, hunknown⟩ id
  refine ⟨?_, fun _ => rfl⟩
  rintro ⟨⟨other, hother, hreaches⟩, houtdated⟩
  obtain rfl := Option.some.inj (hroot.symm.trans hother)
  exact absurd houtdated (not_outdated_of_unknown h.linksEnd hunknown hreaches)

/-- A mark stays until a reset comes to the group, and a group above that holds statistics all the
time is not come to by this reset, or not through the group that held them, by induction on the
calls. -/
theorem WellFormed.marked_until_reset (h : memo.WellFormed) (later : List Upkeep)
    (hacyclic : ∀ passed, passed <+: later → (memo.after passed).LogicallyAcyclic)
    (hgained : memo.gained lower = true)
    (hheld : ∀ passed, passed <+: later → ((memo.after passed).statistics? upper).isSome) :
    (memo.after later).gained lower = true ∨ ∃ passed rest, later = passed ++ .reset :: rest ∧
      let found := memo.after passed
      found.BelowRoot lower ∧ ¬ (found.BelowRoot upper ∧ found.Reaches upper lower) := by
  induction later generalizing memo with
  | nil => exact .inl hgained
  | cons call rest ih =>
      have hnext := h.after [call]
      have hrest (hgained : (memo.after [call]).gained lower = true) :=
        ih hnext (fun passed hpassed => hacyclic (call :: passed) (List.prefix_cons_inj call |>.mpr hpassed))
          hgained (fun passed hpassed => hheld (call :: passed) (List.prefix_cons_inj call |>.mpr hpassed))
      have hstays (hgained : (memo.after [call]).gained lower = true) :
          (memo.after (call :: rest)).gained lower = true ∨
            ∃ passed later, call :: rest = passed ++ .reset :: later ∧
              let found := memo.after passed
              found.BelowRoot lower ∧ ¬ (found.BelowRoot upper ∧ found.Reaches upper lower) := by
        rcases hrest hgained with hmarked | ⟨passed, later, rfl, hmissed⟩
        · exact .inl hmarked
        · exact .inr ⟨call :: passed, later, rfl, hmissed⟩
      by_cases hcall : call = .reset
      · subst hcall
        have hstart := hacyclic [] List.nil_prefix
        have hreset := h.after_reset hstart
        -- a reset that gets to the group would drop the statistics above it, were they below the
        -- root
        by_cases hlower : memo.BelowRoot lower
        · refine .inr ⟨[], rest, rfl, hlower, fun hupper => ?_⟩
          have hdropped := (hreset upper).1 ⟨hupper.1, lower, hupper.2, hgained⟩
          have hsome := hheld [.reset] (List.prefix_append [_] rest)
          rw [show (memo.after [.reset]).statistics? upper = none from congrArg Prod.fst hdropped] at hsome
          exact absurd hsome (by simp)
        · refine hstays ?_
          have hkept := (hreset lower).2 fun hboth => hlower hboth.1
          exact (congrArg Prod.snd hkept).trans hgained
      · exact hstays (((Planning.marks_run hcall memo).exec_snd).kept lower hgained)

/-- Statistics that a reset leaves. Take any calls on a well-formed memo in which no group ever comes
below itself through logical alternatives, and a reset after them. Suppose that a group below the
root holds statistics since before a logical alternative was added to a group that it reaches, or to
itself. Then there was a reset in between that came to the group with the new alternative, but from
a root, or at a time, from which it did not do so through the group that held the statistics. Groups
that are not below the root keep their statistics, and the reset succeeds if its root is known. -/
theorem WellFormed.kept_by_reset (h : memo.WellFormed) (calls : List Upkeep)
    (hacyclic : ∀ passed, passed <+: calls → (memo.after passed).LogicallyAcyclic) :
    let before := memo.after calls
    let final := memo.after (calls ++ [.reset])
    (∀ upper lower earlier call later, calls = earlier ++ call :: later →
      before.BelowRoot upper → before.Reaches upper lower →
      (memo.after earlier).Gains (memo.after (earlier ++ [call])) lower →
      (∀ passed, passed <+: call :: later ++ [.reset] →
        ((memo.after (earlier ++ passed)).statistics? upper).isSome) →
      ∃ passed rest, later = passed ++ .reset :: rest ∧
        let found := memo.after (earlier ++ call :: passed)
        found.BelowRoot lower ∧ ¬ (found.BelowRoot upper ∧ found.Reaches upper lower)) ∧
    (∀ id, ¬ before.BelowRoot id → final.statistics? id = before.statistics? id) ∧
    ((∀ root ∈ before.root, root.index < before.groups.size) →
      Post Planning.resetStatistics before (fun _ _ => True) (fun _ _ => False)) := by
  intro before final
  have hbefore := hacyclic calls (List.prefix_refl calls)
  have hfinal : final = (exec Planning.resetStatistics before).2 := after_append memo calls [.reset]
  have hreset := (h.after calls).after_reset hbefore
  refine ⟨fun upper lower earlier call later hcalls hupper hreaches hgains hheld => ?_,
    fun id hid => ?_, fun hroot => ?_⟩
  · set middle := memo.after (earlier ++ [call]) with hmiddle
    have hlater (passed : List Upkeep) :
        middle.after passed = memo.after (earlier ++ call :: passed) := by
      rw [hmiddle, ← after_append, List.append_assoc, List.singleton_append]
    have hmarked : middle.gained lower = true := by
      rw [hmiddle, after_append] at hgains ⊢
      by_cases hcall : call = .reset
      · subst hcall
        have hsame := (Planning.keeps_resetStatistics (memo.after earlier)).exec_snd
        exact absurd hgains hsame.not_gains
      · exact ((Planning.marks_run hcall _).exec_snd).marked (h.after earlier).listsKnown lower hgains
    -- from the call on, the mark lasts until a reset passes by
    have hmissed : (middle.after later).gained lower = true ∨
        ∃ passed rest, later = passed ++ .reset :: rest ∧
          (middle.after passed).BelowRoot lower ∧
            ¬ ((middle.after passed).BelowRoot upper ∧ (middle.after passed).Reaches upper lower) :=
      (h.after (earlier ++ [call])).marked_until_reset later (fun passed hpassed => ?_) hmarked
        (fun passed hpassed => ?_)
    · rcases hmissed with hstill | ⟨passed, rest, hlist, hmissed⟩
      · -- the mark lasts until the last reset, which then drops the statistics
        have hlast : middle.after later = before := (hlater later).trans (by rw [← hcalls])
        rw [hlast] at hstill
        have hdropped := (hreset upper).1 ⟨hupper, lower, hreaches, hstill⟩
        have hsome := hheld (call :: later ++ [.reset]) (List.prefix_refl _)
        rw [← List.append_assoc, ← hcalls, ← show final = memo.after (calls ++ [.reset]) from rfl,
          hfinal, show (exec Planning.resetStatistics before).2.statistics? upper = none from congrArg Prod.fst hdropped] at hsome
        exact absurd hsome (by simp)
      · exact ⟨passed, rest, hlist, by rwa [← hlater]⟩
    · rw [hlater]
      refine hacyclic _ (hcalls ▸ ?_)
      exact (List.prefix_append_right_inj earlier).mpr (List.prefix_cons_inj call |>.mpr hpassed)
    · rw [hlater]
      refine hheld (call :: passed) (List.prefix_cons_inj call |>.mpr ?_)
      exact hpassed.trans (List.prefix_append later [.reset])
  · rw [hfinal]
    exact congrArg Prod.fst ((hreset id).2 fun hboth => hid hboth.1)
  · refine (Post.resetStatistics (h.after calls) hbefore).mono (fun _ _ _ => trivial) ?_
    rintro _ _ ⟨_, root, hsome, hunknown⟩
    exact absurd (hroot root hsome) (not_lt.mpr (group?_eq_none.mp hunknown))

/-- What was called up to some point is what was called up to one of finitely many. -/
theorem forall_prefix_iff {P : List Upkeep → Prop} {calls : List Upkeep} :
    (∀ passed, passed <+: calls → P passed) ↔ ∀ count < calls.length + 1, P (calls.take count) := by
  constructor
  · exact fun h count _ => h _ (List.take_prefix count calls)
  · intro h passed hpassed
    rw [List.prefix_iff_eq_take.mp hpassed]
    exact h _ (Nat.lt_succ_of_le hpassed.length_le)

end Memo

namespace Upkeep

/-- Access to one of two tables with the same column. -/
def access (id : Nat) : Operator :=
  .logical (.get { table := { id, name := "", rows := 1 }, columns := [⟨0⟩] })

/-- A condition on the column. -/
def condition (value : Int) : Operator :=
  .scalar (.predicate (.compare .equal (.column ⟨0⟩) (.literal (.integer value))))

/-- Two selections on one group, each of them the root once, with statistics. -/
def sharing : List Upkeep :=
  [.insert (access 0) [] none none, .insert (condition 1) [] none none,
    .insert (.logical .select) [⟨0⟩, ⟨1⟩] none none, .insert (condition 2) [] none none,
    .insert (.logical .select) [⟨0⟩, ⟨3⟩] none none, .setRoot ⟨2⟩, .reset, .setRoot ⟨4⟩, .reset,
    .derive false ⟨2⟩ (.ofList [⟨0⟩]), .derive false ⟨4⟩ (.ofList [⟨0⟩])]

/-- The shared group gains an access, and statistics are reset from the first selection. -/
def takingMark : List Upkeep := [.setRoot ⟨2⟩, .reset, .setRoot ⟨4⟩]

end Upkeep

namespace Memo

open Upkeep (sharing takingMark)

/-- A reset from the second selection leaves its statistics, although its input gained an
alternative since: the reset from the first selection took the mark of the input. -/
theorem shared_kept_by_reset :
    let gaining := Upkeep.insert (Upkeep.access 1) [] (some ⟨0⟩) none
    let calls := sharing ++ gaining :: takingMark
    (∀ passed, passed <+: calls → (({} : Memo).after passed).LogicallyAcyclic) ∧
    ((({} : Memo).after (calls ++ [.reset])).statistics? ⟨4⟩).isSome ∧
    ∃ passed rest, takingMark = passed ++ .reset :: rest ∧
      let found := ({} : Memo).after (sharing ++ gaining :: passed)
      found.BelowRoot ⟨0⟩ ∧ ¬ (found.BelowRoot ⟨4⟩ ∧ found.Reaches ⟨4⟩ ⟨0⟩) := by
  intro gaining calls
  have hacyclic : ∀ passed, passed <+: calls → (({} : Memo).after passed).LogicallyAcyclic := by
    refine fun passed hpassed => logicallyAcyclic_of_descending ?_
    revert passed hpassed
    rw [forall_prefix_iff]
    decide +kernel
  have hheld : ∀ passed, passed <+: gaining :: takingMark ++ [.reset] →
      ((({} : Memo).after (sharing ++ passed)).statistics? ⟨4⟩).isSome := by
    rw [forall_prefix_iff]
    decide +kernel
  have hgains : (({} : Memo).after sharing).Gains (({} : Memo).after (sharing ++ [gaining])) ⟨0⟩ :=
    ⟨⟨5⟩, by decide +kernel⟩
  have hroot : (({} : Memo).after calls).root = some ⟨4⟩ := by decide +kernel
  have hreads : (({} : Memo).after calls).ReadsLogically ⟨4⟩ ⟨0⟩ := ⟨⟨0⟩, by decide +kernel⟩
  refine ⟨hacyclic, hheld _ (List.prefix_refl _), ?_⟩
  refine (wellFormed_empty.kept_by_reset calls hacyclic).1 ⟨4⟩ ⟨0⟩ sharing gaining takingMark rfl
    ⟨⟨4⟩, hroot, ?_⟩ (.single hreads) hgains hheld
  rw [show (({} : Memo).after calls).master ⟨4⟩ = ⟨4⟩ by decide +kernel]

end Memo

end QueryPlanner
