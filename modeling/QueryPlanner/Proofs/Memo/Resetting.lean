import Mathlib.Logic.Relation
import QueryPlanner.Proofs.Optimizer.Lasting

/-!
# What a reset of statistics drops

A reset goes down from the root through logical alternatives and enters every group once. In a memo
without cycles it drops the statistics of the groups below the root that are outdated: they, or
groups below them, gained a logical alternative since they were reset last. All other groups keep
what they have (`Planning.Post.resetStatistics`).
-/

namespace QueryPlanner

open Memo (SameContent)
open Planning (Visited unvisited)

namespace Memo

variable {memo memo' current : Memo} {visited later : Visited} {id upper lower : GroupId}

/-- The children of the logical alternatives in use of a group. -/
def logicalChildren (memo : Memo) (id : GroupId) : List GroupId :=
  (memo.alternativesOf id).flatMap fun alternative =>
    match memo.expr? alternative with
    | some expr => if expr.op.isLogical then expr.children else []
    | none => []

/-- A logical alternative of the upper group reads the lower one. -/
def ReadsLogically (memo : Memo) (upper lower : GroupId) : Prop :=
  ∃ child ∈ memo.logicalChildren upper, memo.master child = lower

/-- The lower group is the upper one, or below it through logical alternatives. -/
abbrev Reaches (memo : Memo) : GroupId → GroupId → Prop :=
  Relation.ReflTransGen memo.ReadsLogically

/-- No group reads itself through logical alternatives, neither directly nor on the way. -/
def LogicallyAcyclic (memo : Memo) : Prop :=
  ∀ id, ¬ Relation.TransGen memo.ReadsLogically id id

/-- The statistics that a group holds. -/
def statistics? (memo : Memo) (id : GroupId) : Option Statistics :=
  (memo.group? id).bind (·.statistics)

/-- Whether a group is marked to have gained a logical alternative. -/
def gained (memo : Memo) (id : GroupId) : Bool :=
  ((memo.group? id).map (·.gainedLogical)).getD false

/-- The group, or one below it, is marked to have gained a logical alternative. -/
def Outdated (memo : Memo) (id : GroupId) : Prop :=
  ∃ lower, memo.Reaches id lower ∧ memo.gained lower = true

/-- The group is the root, or below it. -/
def BelowRoot (memo : Memo) (id : GroupId) : Prop :=
  ∃ root, memo.root = some root ∧ memo.Reaches (memo.master root) id

/-- What a reset changes of a group. -/
def notes (memo : Memo) (id : GroupId) : Option Statistics × Bool :=
  (memo.statistics? id, memo.gained id)

namespace SameContent

variable (hsame : SameContent memo memo')
include hsame

theorem logicalChildren (id : GroupId) : memo'.logicalChildren id = memo.logicalChildren id := by
  unfold Memo.logicalChildren
  rw [hsame.alternativesOf]
  refine congrArg (List.flatMap · (memo.alternativesOf id)) (funext fun alternative => ?_)
  cases hbefore : memo.expr? alternative with
  | none =>
      have hnone := hsame.exprs alternative
      rw [hbefore, Option.map_none, Option.map_eq_none_iff] at hnone
      rw [hnone]
  | some before =>
      obtain ⟨after, hafter, hcontent⟩ := hsame.exists_expr hbefore
      have hop : after.op = before.op := congrArg (·.op) hcontent
      have hchildren : after.children = before.children := congrArg (·.children) hcontent
      simp only [hafter, hop, hchildren]

end SameContent

/-! ## Changes of notes -/

theorem notes_congr (h : (memo'.group? id).map (fun group => (group.statistics, group.gainedLogical)) =
    (memo.group? id).map fun group => (group.statistics, group.gainedLogical)) :
    memo'.notes id = memo.notes id := by
  unfold notes statistics? gained
  cases hbefore : memo.group? id with
  | none =>
      rw [hbefore, Option.map_none, Option.map_eq_none_iff] at h
      rw [h]
  | some before =>
      rw [hbefore] at h
      obtain ⟨after, hafter, hreads⟩ := Option.map_eq_some_iff.mp h
      obtain ⟨hstatistics, hgained⟩ := Prod.mk.inj hreads
      simp [hafter, hstatistics, hgained]

/-- A change that leaves statistics and marks leaves the notes. -/
theorem notes_modifyGroup {changed : GroupId} {change : Group → Group}
    (hstatistics : ∀ group, (change group).statistics = group.statistics)
    (hgained : ∀ group, (change group).gainedLogical = group.gainedLogical) (id : GroupId) :
    (memo.modifyGroup changed change).notes id = memo.notes id := by
  refine notes_congr ?_
  rw [group?_modifyGroup]
  split
  · simp [Function.comp_def, hstatistics, hgained]
  · rfl

/-- Shortening chains of links leaves the notes. -/
theorem notes_compress (memo : Memo) (changed id : GroupId) :
    (memo.compress changed).notes id = memo.notes id := by
  unfold compress
  refine List.foldlRecOn (motive := fun found : Memo => found.notes id = memo.notes id) _ _ rfl
    fun found hfound below _ => ?_
  rw [← hfound]
  refine notes_modifyGroup (fun _ => ?_) (fun _ => ?_) id <;> rfl

theorem group?_forgetStatistics (id other : GroupId) :
    (memo.forgetStatistics id).group? other =
      if id = other then (memo.group? other).map fun group =>
        { group with
          statistics := none, gainedLogical := false, contextStatistics := [], lowerBounds := [] }
      else memo.group? other := by
  unfold forgetStatistics
  rw [← group?_modifyGroup]
  exact List.foldlRecOn (motive := fun found : Memo => found.group? other = _) _ _ rfl
    fun found hfound expr _ => hfound

/-- A group that is reset loses its statistics and its mark; the others keep theirs. -/
theorem notes_forgetStatistics (id other : GroupId) :
    (memo.forgetStatistics id).notes other = if id = other then (none, false) else memo.notes other := by
  split
  · rename_i hid
    unfold notes statistics? gained
    rw [group?_forgetStatistics, if_pos hid]
    cases memo.group? other <;> rfl
  · rename_i hid
    refine notes_congr ?_
    rw [group?_forgetStatistics, if_neg hid]

/-! ## The descent -/

theorem WellFormed.known_of_mem_logicalChildren (h : memo.WellFormed) {child : GroupId}
    (hchild : child ∈ memo.logicalChildren id) : child.index < memo.groups.size := by
  obtain ⟨alternative, _, hmem⟩ := List.mem_flatMap.mp hchild
  split at hmem
  · rename_i expr hexpr
    split at hmem
    · exact h.childKnown alternative expr hexpr child hmem
    · simp at hmem
  · simp at hmem

/-- Groups that only read groups with lower numbers do not come below themselves. -/
theorem logicallyAcyclic_of_descending (h : ∀ upper < memo.groups.size,
    ∀ child ∈ memo.logicalChildren ⟨upper⟩, (memo.master child).index < upper) :
    memo.LogicallyAcyclic := by
  have hstep (upper lower : GroupId) (hreads : memo.ReadsLogically upper lower) :
      lower.index < upper.index := by
    obtain ⟨child, hchild, rfl⟩ := hreads
    refine h upper.index (lt_of_not_ge fun hunknown => ?_) child hchild
    simp [logicalChildren, alternativesOf, group?_eq_none.mpr hunknown] at hchild
  intro id hcycle
  have hfalls (lower : GroupId) (hpath : Relation.TransGen memo.ReadsLogically id lower) :
      lower.index < id.index := by
    induction hpath with
    | single hreads => exact hstep _ _ hreads
    | tail _ hreads ih => exact (hstep _ _ hreads).trans ih
  exact Nat.lt_irrefl _ (hfalls id hcycle)

/-- Groups are outdated that are marked, or that read an outdated one. -/
theorem outdated_iff : memo.Outdated id ↔
    memo.gained id = true ∨ ∃ child ∈ memo.logicalChildren id, memo.Outdated (memo.master child) := by
  constructor
  · rintro ⟨lower, hreaches, hgained⟩
    rcases Relation.ReflTransGen.cases_head hreaches with rfl | ⟨_, ⟨child, hchild, rfl⟩, hrest⟩
    · exact .inl hgained
    · exact .inr ⟨child, hchild, lower, hrest, hgained⟩
  · rintro (hgained | ⟨child, hchild, lower, hreaches, hgained⟩)
    · exact ⟨id, .refl, hgained⟩
    · exact ⟨lower, .head ⟨child, hchild, rfl⟩ hreaches, hgained⟩

/-- The reset has decided about the group, and it is reset if it is outdated. -/
def Decided (memo : Memo) (visited : Visited) (id : GroupId) : Prop :=
  ∃ reset, visited.lookup id = some reset ∧ (reset = true ↔ memo.Outdated id)

/-- The reset of a memo so far: the groups it decided to reset have lost their notes. -/
structure Resets (memo : Memo) (visited : Visited) (current : Memo) : Prop where
  same : SameContent memo current
  notes : ∀ id, current.notes id =
    if visited.lookup id = some true then (none, false) else memo.notes id

theorem Resets.compress (h : memo.Resets visited current) (id : GroupId) :
    memo.Resets visited (current.compress id) where
  same := h.same.trans (sameContent_compress id)
  notes other := (notes_compress current id other).trans (h.notes other)

/-- The later list says the same about the groups of the earlier one. -/
def Extends (visited later : Visited) : Prop :=
  ∀ key reset, visited.lookup key = some reset → later.lookup key = some reset

theorem Decided.extends (h : memo.Decided visited id) (hextends : Extends visited later) :
    memo.Decided later id :=
  h.imp fun reset ⟨hlookup, hreset⟩ => ⟨hextends id reset hlookup, hreset⟩

theorem lookup_cons_of_ne {key : GroupId} {reset : Bool} (hne : key ≠ id) :
    ((id, reset) :: visited).lookup key = visited.lookup key := by
  rw [List.lookup_cons, beq_eq_false_iff_ne.mpr hne]

/-- A group entered for the first time comes to those visited before. -/
theorem extends_cons (hfirst : visited.lookup id = none) (reset : Bool) :
    Extends visited ((id, reset) :: visited) := by
  intro key found hkey
  rw [lookup_cons_of_ne, hkey]
  rintro rfl
  simp [hfirst] at hkey

/-- What a visit of a group adds to the reset so far: all groups below it are decided, and no others
are entered. -/
structure Visits (memo : Memo) (visited : Visited) (id : GroupId) (outcome : Visited × Bool)
    (final : Memo) : Prop where
  resets : memo.Resets outcome.1 final
  extend : Extends visited outcome.1
  entered : ∀ key, (outcome.1.lookup key).isSome → (visited.lookup key).isSome ∨ memo.Reaches id key
  decided : ∀ lower, memo.Reaches id lower → memo.Decided outcome.1 lower
  reset : outcome.2 = true ↔ memo.Outdated id

/-- The loop over children: those seen so far are visited, below a group that is not decided. -/
structure VisitsChildren (memo : Memo) (visited : Visited) (id : GroupId) (seen : List GroupId)
    (outcome : Visited × Bool) (current : Memo) : Prop where
  resets : memo.Resets outcome.1 current
  extend : Extends ((id, false) :: visited) outcome.1
  entered : ∀ key, (outcome.1.lookup key).isSome → key = id ∨ (visited.lookup key).isSome ∨
    ∃ child ∈ seen, memo.Reaches (memo.master child) key
  decided : ∀ child ∈ seen, ∀ lower, memo.Reaches (memo.master child) lower →
    memo.Decided outcome.1 lower
  reset : outcome.2 = true ↔ ∃ child ∈ seen, memo.Outdated (memo.master child)

namespace VisitsChildren

variable {seen : List GroupId} {child : GroupId} {outcome found : Visited × Bool}

/-- Before the first child. -/
theorem start (h : memo.Resets visited current) (hfirst : visited.lookup id = none) :
    memo.VisitsChildren visited id [] ((id, false) :: visited, false) current where
  resets := by
    refine ⟨h.same, fun other => (h.notes other).trans ?_⟩
    by_cases hid : other = id
    · simp [hid, hfirst]
    · rw [lookup_cons_of_ne hid]
  extend _ _ hkey := hkey
  entered key hkey := by
    by_cases hid : key = id
    · exact .inl hid
    · exact .inr (.inl (lookup_cons_of_ne hid ▸ hkey))
  decided _ hchild := by simp at hchild
  reset := by simp

/-- One more child. -/
theorem next (h : memo.VisitsChildren visited id seen outcome current)
    {final : Memo} (hvisits : memo.Visits outcome.1 (memo.master child) found final) :
    memo.VisitsChildren visited id (seen ++ [child]) (found.1, outcome.2 || found.2) final where
  resets := hvisits.resets
  extend key reset hkey := hvisits.extend key reset (h.extend key reset hkey)
  entered key hkey := by
    rcases hvisits.entered key hkey with hbefore | hreaches
    · rcases h.entered key hbefore with rfl | hvisited | ⟨other, hother, hreaches⟩
      · exact .inl rfl
      · exact .inr (.inl hvisited)
      · exact .inr (.inr ⟨other, by simp [hother], hreaches⟩)
    · exact .inr (.inr ⟨child, by simp, hreaches⟩)
  decided other hother lower hreaches := by
    rcases List.mem_append.mp hother with hother | hother
    · exact (h.decided other hother lower hreaches).extends hvisits.extend
    · obtain rfl := List.mem_singleton.mp hother
      exact hvisits.decided lower hreaches
  reset := by
    rw [Bool.or_eq_true, h.reset, hvisits.reset]
    simp [or_and_right, exists_or]

variable (hacyclic : memo.LogicallyAcyclic) (hfirst : visited.lookup id = none)
include hacyclic hfirst

/-- A group below a child that was entered before is decided, with all below it: it is not the
parent, which would be below itself. -/
theorem decided_below
    (hdecided : ∀ key, memo.Reaches id key → (visited.lookup key).isSome →
      ∀ lower, memo.Reaches key lower → memo.Decided visited lower)
    (h : memo.VisitsChildren visited id seen outcome current)
    (hchild : child ∈ memo.logicalChildren id) {key : GroupId}
    (hreaches : memo.Reaches (memo.master child) key) (hkey : (outcome.1.lookup key).isSome)
    (hlower : memo.Reaches key lower) : memo.Decided outcome.1 lower := by
  have hbelow : Relation.TransGen memo.ReadsLogically id key :=
    .head' ⟨child, hchild, rfl⟩ hreaches
  rcases h.entered key hkey with rfl | hvisited | ⟨other, hother, hpath⟩
  · exact absurd hbelow (hacyclic key)
  · have hbefore := hdecided key hbelow.to_reflTransGen hvisited lower hlower
    refine (hbefore.extends (extends_cons hfirst false)).extends h.extend
  · exact h.decided other hother lower (hpath.trans hlower)

/-- After all children the group itself is decided. -/
theorem finish (h : memo.VisitsChildren visited id (memo.logicalChildren id) outcome current)
    {final : Memo} {reset : Bool} (hreset : reset = true ↔ memo.Outdated id)
    (hsame : SameContent memo final)
    (hnotes : ∀ other, final.notes other =
      if id = other ∧ reset = true then (none, false) else current.notes other) :
    memo.Visits visited id ((id, reset) :: outcome.1, reset) final where
  resets := by
    refine ⟨hsame, fun other => ?_⟩
    rw [hnotes, h.resets.notes]
    by_cases hid : other = id
    · subst hid
      have hopen : outcome.1.lookup other = some false := h.extend other false List.lookup_cons_self
      cases reset <;> simp [hopen]
    · simp [lookup_cons_of_ne hid, Ne.symm hid]
  extend key found hkey := by
    have hne : key ≠ id := by
      rintro rfl
      simp [hfirst] at hkey
    rw [lookup_cons_of_ne hne]
    exact h.extend key found (extends_cons hfirst false key found hkey)
  entered key hkey := by
    by_cases hid : key = id
    · exact .inr (hid ▸ .refl)
    · rw [lookup_cons_of_ne hid] at hkey
      rcases h.entered key hkey with rfl | hvisited | ⟨child, hchild, hreaches⟩
      · exact absurd rfl hid
      · exact .inl hvisited
      · exact .inr (.head ⟨child, hchild, rfl⟩ hreaches)
  decided lower hreaches := by
    rcases Relation.ReflTransGen.cases_head hreaches with rfl | ⟨_, ⟨child, hchild, rfl⟩, hrest⟩
    · exact ⟨reset, List.lookup_cons_self, hreset⟩
    · obtain ⟨decision, hlookup, hdecision⟩ := h.decided child hchild lower hrest
      refine ⟨decision, ?_, hdecision⟩
      have hne : lower ≠ id := by
        rintro rfl
        exact hacyclic lower (.head' ⟨child, hchild, rfl⟩ hrest)
      rwa [lookup_cons_of_ne hne]
  reset := hreset

end VisitsChildren

end Memo

namespace Planning

variable {memo current : Memo} {visited : Visited} {id : GroupId} {fuel : Nat}

/-- A visit of a group, by induction on the levels left: every group entered leaves fewer that are
not visited. -/
theorem Post.resetUpTo (hwell : memo.WellFormed) (hacyclic : memo.LogicallyAcyclic)
    (hfuel : (unvisited memo.groups.size visited).card < fuel)
    (hknown : id.index < memo.groups.size) (hresets : memo.Resets visited current)
    (hdecided : ∀ key, memo.Reaches (memo.master id) key → (visited.lookup key).isSome →
      ∀ lower, memo.Reaches key lower → memo.Decided visited lower) :
    Post (resetUpTo fuel visited id) current (memo.Visits visited (memo.master id))
      (fun _ _ => False) := by
  induction fuel generalizing visited id current with
  | zero => omega
  | succ fuel ih =>
      have hends := hwell.linksEnd
      have hmasterKnown := hwell.masterKnown id hknown
      unfold Planning.resetUpTo
      refine Post.bind (Post.bind (Post.group (fun _ _ => ?_) fun hnone => ?_))
      swap
      · rw [Memo.group?_eq_none, hresets.same.groups_size] at hnone
        omega
      refine Post.bind (Post.get (Post.bind (Post.set (Post.pure ?_))))
      rw [hresets.same.master hends]
      have hlooked := hresets.compress id
      cases hfirst : visited.lookup (memo.master id) with
      -- a group that was visited before, and was decided then
      | some reset =>
          obtain ⟨decision, hlookup, hdecision⟩ :=
            hdecided _ .refl (by rw [hfirst]; rfl) _ .refl
          obtain rfl := Option.some.inj (hfirst.symm.trans hlookup)
          exact Post.pure
            { resets := hlooked
              extend := fun _ _ hkey => hkey
              entered := fun _ hkey => .inl hkey
              decided := hdecided _ .refl (by rw [hfirst]; rfl)
              reset := hdecision }
      | none =>
          refine Post.bind (Post.get ?_)
          dsimp only
          generalize hbelow : List.flatMap _ _ = below
          obtain rfl : memo.logicalChildren (memo.master id) = below :=
            (hlooked.same.logicalChildren _).symm.trans hbelow
          refine (Post.foldlM_seen (memo.VisitsChildren visited (memo.master id)) [] ?_
            fun seen found child hchild before hbefore => ?_).andThen (fun _ _ hfail => hfail) ?_
          · exact .start hlooked hfirst
          -- the group counts as visited by now, so there is fuel for its children
          · have hfewer := card_unvisited_lt hmasterKnown hfirst
              (Option.isSome_of_eq_some (hbefore.extend _ _ List.lookup_cons_self))
              fun key hkey => by
                obtain ⟨reset, hreset⟩ := Option.isSome_iff_exists.mp hkey
                exact Option.isSome_of_eq_some
                  (hbefore.extend _ _ (Memo.extends_cons hfirst false _ _ hreset))
            refine (ih (by omega) (hwell.known_of_mem_logicalChildren hchild) hbefore.resets
              fun key hreaches hkey lower => hbefore.decided_below hacyclic hfirst hdecided hchild
                hreaches hkey).andThen (fun _ _ hfail => hfail) fun _ _ hvisits => ?_
            exact Post.pure (hbefore.next hvisits)
          · rintro ⟨later, reset⟩ final hchildren
            rw [List.nil_append] at hchildren
            refine Post.bind (Post.group (fun group hgroup => ?_) fun hnone => ?_)
            swap
            · rw [Memo.group?_eq_none, hchildren.resets.same.groups_size] at hnone
              omega
            -- the group is not reset yet, so its mark is the one from the start
            have hmark : group.gainedLogical = memo.gained (memo.master id) := by
              have hopen := hchildren.extend _ _ List.lookup_cons_self
              have hnotes := congrArg Prod.snd (hchildren.resets.notes (memo.master id))
              rw [if_neg (by simp [hopen])] at hnotes
              simpa [Memo.notes, Memo.gained, hgroup] using hnotes
            have hreset : (group.gainedLogical || reset) = true ↔
                memo.Outdated (memo.master id) := by
              rw [Bool.or_eq_true, hmark, Memo.outdated_iff, hchildren.reset]
            dsimp only
            split
            · rename_i htrue
              refine Post.bind (Post.modify (Post.pure (hchildren.finish hacyclic hfirst hreset
                (hchildren.resets.same.trans Memo.sameContent_forgetStatistics) fun other => ?_)))
              rw [Memo.notes_forgetStatistics]
              simp [htrue]
            · rename_i hfalse
              exact Post.pure (hchildren.finish hacyclic hfirst hreset hchildren.resets.same
                fun other => by simp [hfalse])

/-- A reset drops the statistics and marks of the outdated groups below the root and no others. It
fails, without a trace, only if the root is unknown. -/
theorem Post.resetStatistics (hwell : memo.WellFormed) (hacyclic : memo.LogicallyAcyclic) :
    Post resetStatistics memo
      (fun _ final => SameContent memo final ∧ ∀ id,
        (memo.BelowRoot id ∧ memo.Outdated id → final.notes id = (none, false)) ∧
        (¬ (memo.BelowRoot id ∧ memo.Outdated id) → final.notes id = memo.notes id))
      (fun _ final => final = memo ∧ ∃ root, memo.root = some root ∧ memo.group? root = none) := by
  have hends := hwell.linksEnd
  unfold Planning.resetStatistics Planning.root
  refine Post.bind (Post.bind (Post.get ?_))
  cases hroot : memo.root with
  | none =>
      refine Post.pure (Post.pure ⟨.refl memo, fun id => ⟨?_, fun _ => rfl⟩⟩)
      rintro ⟨⟨root, hsome, _⟩, _⟩
      rw [hroot] at hsome
      exact absurd hsome (by simp)
  | some root =>
      refine Post.bind (Post.bind (Post.group (fun found hfound => ?_) fun hnone =>
        ⟨rfl, root, rfl, hnone⟩))
      have hknown := Memo.exists_group?_eq_some.mp ⟨found, hfound⟩
      refine Post.bind (Post.get (Post.bind (Post.set (Post.pure (Post.pure ?_)))))
      have hlooked : memo.Resets [] (memo.compress root) :=
        { same := Memo.sameContent_compress root
          notes := fun id => Memo.notes_compress memo root id }
      refine Post.bind (Post.get ?_)
      have hfuel : (unvisited memo.groups.size []).card < (memo.compress root).groups.size + 1 := by
        rw [hlooked.same.groups_size]
        exact Nat.lt_succ_of_le ((Finset.card_filter_le _ _).trans_eq (Finset.card_range _))
      refine (Post.resetUpTo hwell hacyclic hfuel (hwell.masterKnown root hknown) hlooked
        fun key _ hkey => by simp at hkey).andThen (fun _ _ hfail => hfail.elim) ?_
      rintro ⟨visited, reset⟩ final hvisits
      rw [hends.master_master] at hvisits
      refine Post.pure ⟨hvisits.resets.same, fun id => ?_⟩
      -- the groups that were reset are the outdated ones below the root
      have hbelow : visited.lookup id = some true ↔ memo.BelowRoot id ∧ memo.Outdated id := by
        constructor
        · intro hreset
          have hreaches : memo.Reaches (memo.master root) id :=
            (hvisits.entered id (Option.isSome_of_eq_some hreset)).resolve_left (by simp)
          obtain ⟨decision, hlookup, hdecision⟩ := hvisits.decided id hreaches
          obtain rfl := Option.some.inj (hreset.symm.trans hlookup)
          exact ⟨⟨root, hroot, hreaches⟩, hdecision.mp rfl⟩
        · rintro ⟨⟨other, hother, hreaches⟩, houtdated⟩
          obtain rfl := Option.some.inj (hroot.symm.trans hother)
          obtain ⟨decision, hlookup, hdecision⟩ := hvisits.decided id hreaches
          rw [hlookup, hdecision.mpr houtdated]
      rw [← hbelow, hvisits.resets.notes]
      exact ⟨fun hreset => if_pos hreset, fun hkept => if_neg hkept⟩

end Planning

end QueryPlanner
