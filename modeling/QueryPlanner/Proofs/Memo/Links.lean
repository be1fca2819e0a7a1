import Mathlib.Data.Finset.Card
import Mathlib.Data.Finset.Range
import QueryPlanner.Proofs.Memo.Access

/-!
# Links between duplicate groups

`Memo.Leads` follows the links from a group. Under `Memo.LinksEnd` every group leads to a group
without a link, which is its `Memo.master`: the number of groups bounds the length of a chain
because no group occurs twice on it. Shortening a chain keeps all masters (`master_compress`), and
linking one master to another moves exactly the class of the first to the second (`master_setLink`).
-/

namespace QueryPlanner.Memo

/-- Following the given number of links leads from one group to another, which has no link. -/
inductive Leads (memo : Memo) : Nat → GroupId → GroupId → Prop
  | here {id : GroupId} (unlinked : memo.link? id = none) : Leads memo 0 id id
  | step {steps : Nat} {id next last : GroupId} (linked : memo.link? id = some next)
      (rest : Leads memo steps next last) : Leads memo (steps + 1) id last

/-- From every group the links lead to a group without a link. -/
def LinksEnd (memo : Memo) : Prop := ∀ id, ∃ steps last, memo.Leads steps id last

variable {memo : Memo} {steps : Nat} {id last : GroupId}

/-- Only known groups have links. -/
theorem lt_of_link?_eq_some {next : GroupId} (h : memo.link? id = some next) :
    id.index < memo.groups.size := by
  rw [← group?_isSome]
  cases hgroup : memo.group? id with
  | none => simp [link?, hgroup] at h
  | some group => rfl

namespace Leads

/-- The end of a chain has no link. -/
theorem link?_last (h : memo.Leads steps id last) : memo.link? last = none := by
  induction h with
  | here unlinked => exact unlinked
  | step _ _ ih => exact ih

/-- There is one way to follow the links. -/
theorem unique {otherSteps : Nat} {otherLast : GroupId} (h : memo.Leads steps id last)
    (h' : memo.Leads otherSteps id otherLast) : steps = otherSteps ∧ last = otherLast := by
  induction h generalizing otherSteps with
  | here unlinked =>
      cases h' with
      | here => exact ⟨rfl, rfl⟩
      | step linked => simp [unlinked] at linked
  | step linked _ ih =>
      cases h' with
      | here unlinked => simp [unlinked] at linked
      | step linked' rest =>
          rw [linked] at linked'
          cases linked'
          obtain ⟨hsteps, hlast⟩ := ih rest
          exact ⟨by rw [hsteps], hlast⟩

/-- The groups passed on the way to the end are different ones, all of them known. They are
counted by how many links still lie ahead. -/
theorem exists_passed (h : memo.Leads steps id last) :
    ∃ passed : Finset Nat, passed.card = steps ∧ ∀ index ∈ passed, index < memo.groups.size ∧
      ∃ ahead, 0 < ahead ∧ ahead ≤ steps ∧ memo.Leads ahead ⟨index⟩ last := by
  induction h with
  | here _ => exact ⟨∅, rfl, by simp⟩
  | @step steps id next last linked rest ih =>
      obtain ⟨passed, hcard, hpassed⟩ := ih
      have hnew : id.index ∉ passed := by
        intro hmem
        obtain ⟨_, ahead, _, hle, hahead⟩ := hpassed _ hmem
        have := (hahead.unique (.step linked rest)).1
        omega
      refine ⟨insert id.index passed, by rw [Finset.card_insert_of_notMem hnew, hcard], ?_⟩
      intro index hindex
      rcases Finset.mem_insert.mp hindex with rfl | hindex
      · exact ⟨lt_of_link?_eq_some linked, steps + 1, by omega, le_rfl, .step linked rest⟩
      · obtain ⟨hlt, ahead, hpos, hle, hahead⟩ := hpassed _ hindex
        exact ⟨hlt, ahead, hpos, by omega, hahead⟩

/-- A chain is no longer than the number of groups. -/
theorem steps_le (h : memo.Leads steps id last) : steps ≤ memo.groups.size := by
  obtain ⟨passed, rfl, hpassed⟩ := h.exists_passed
  calc passed.card
      ≤ (Finset.range memo.groups.size).card :=
        Finset.card_le_card fun index hindex => Finset.mem_range.mpr (hpassed index hindex).1
    _ = memo.groups.size := Finset.card_range _

/-- With enough fuel the chain of a group ends where its links lead. -/
theorem getLastD_chainUpTo (h : memo.Leads steps id last) {fuel : Nat} (hfuel : steps ≤ fuel) :
    (memo.chainUpTo fuel id).getLastD id = last := by
  induction h generalizing fuel with
  | here unlinked => cases fuel <;> simp [chainUpTo, unlinked]
  | step linked rest ih =>
      obtain ⟨fuel, rfl⟩ : ∃ less, fuel = less + 1 := ⟨fuel - 1, by omega⟩
      simp only [chainUpTo, linked, List.getLastD_cons]
      exact ih (by omega)

/-- The chain of a group holds the groups that are passed after it. -/
theorem of_mem_chainUpTo (h : memo.Leads steps id last) {fuel : Nat} {passed : GroupId}
    (hmem : passed ∈ memo.chainUpTo fuel id) : ∃ ahead < steps, memo.Leads ahead passed last := by
  induction h generalizing fuel with
  | here unlinked => cases fuel <;> simp [chainUpTo, unlinked] at hmem
  | @step steps id next last linked rest ih =>
      cases fuel with
      | zero => simp [chainUpTo] at hmem
      | succ fuel =>
          simp only [chainUpTo, linked, List.mem_cons] at hmem
          rcases hmem with rfl | hmem
          · exact ⟨steps, by omega, rest⟩
          · obtain ⟨ahead, hlt, hahead⟩ := ih hmem
            exact ⟨ahead, by omega, hahead⟩

/-- The master of a group is where its links lead. -/
theorem master_eq (h : memo.Leads steps id last) : memo.master id = last :=
  h.getLastD_chainUpTo h.steps_le

/-- Where the links lead depends on the links only. -/
theorem congr {other : Memo} (hlinks : ∀ id, other.link? id = memo.link? id)
    (h : memo.Leads steps id last) : other.Leads steps id last := by
  induction h with
  | here unlinked => exact .here (by rw [hlinks, unlinked])
  | step linked _ ih => exact .step (by rw [hlinks, linked]) ih

end Leads

namespace LinksEnd

variable (hends : memo.LinksEnd)
include hends

/-- The links lead to the master. -/
theorem leads_master (id : GroupId) : ∃ steps, memo.Leads steps id (memo.master id) := by
  obtain ⟨steps, last, h⟩ := hends id
  exact ⟨steps, h.master_eq ▸ h⟩

theorem link?_master (id : GroupId) : memo.link? (memo.master id) = none := by
  obtain ⟨steps, h⟩ := hends.leads_master id
  exact h.link?_last

theorem master_of_link? {id next : GroupId} (h : memo.link? id = some next) :
    memo.master id = memo.master next := by
  obtain ⟨steps, hnext⟩ := hends.leads_master next
  exact (Leads.step h hnext).master_eq

/-- A group is its own master when it has no link. -/
theorem master_eq_self_iff {id : GroupId} : memo.master id = id ↔ memo.link? id = none := by
  constructor
  · intro h
    rw [← h]
    exact hends.link?_master id
  · intro h
    exact (Leads.here h).master_eq

@[simp] theorem master_master (id : GroupId) : memo.master (memo.master id) = memo.master id :=
  hends.master_eq_self_iff.mpr (hends.link?_master id)

/-- Every group on the chain of a group has the same master. -/
theorem master_of_mem_chain {id passed : GroupId} (h : passed ∈ memo.chain id) :
    memo.master passed = memo.master id := by
  obtain ⟨steps, hid⟩ := hends.leads_master id
  obtain ⟨ahead, _, hahead⟩ := hid.of_mem_chainUpTo h
  exact hahead.master_eq

end LinksEnd

/-- Masters depend on the links only. -/
theorem master_congr (other : Memo) (hends : memo.LinksEnd)
    (hlinks : ∀ id, other.link? id = memo.link? id) (id : GroupId) :
    other.master id = memo.master id := by
  obtain ⟨steps, h⟩ := hends.leads_master id
  exact (h.congr hlinks).master_eq

theorem LinksEnd.congr {other : Memo} (hends : memo.LinksEnd)
    (hlinks : ∀ id, other.link? id = memo.link? id) : other.LinksEnd := by
  intro id
  obtain ⟨steps, h⟩ := hends.leads_master id
  exact ⟨steps, _, h.congr hlinks⟩

/-! ## Changing links -/

theorem link?_setLink {target other : GroupId} :
    (memo.setLink id target).link? other =
      if other = id ∧ id.index < memo.groups.size then some target else memo.link? other := by
  unfold link? setLink
  rw [group?_modifyGroup]
  by_cases h : id = other
  · subst h
    cases hgroup : memo.group? id with
    | none => simp [group?_eq_none.mp hgroup]
    | some group => simp [exists_group?_eq_some.mp ⟨group, hgroup⟩]
  · simp [h, Ne.symm h]

@[simp] theorem groups_size_setLink {target : GroupId} :
    (memo.setLink id target).groups.size = memo.groups.size := by simp [setLink]

/-- Linking a linked group directly to its master leaves all groups where they lead. -/
theorem leads_setLink_master (hends : memo.LinksEnd) {below : GroupId}
    (hbelow : memo.link? below ≠ none) (other : GroupId) :
    ∃ steps, (memo.setLink below (memo.master below)).Leads steps other (memo.master other) := by
  obtain ⟨steps, h⟩ := hends.leads_master other
  obtain ⟨next, hnext⟩ := Option.ne_none_iff_exists'.mp hbelow
  have hknown := lt_of_link?_eq_some hnext
  have hmaster : (memo.setLink below (memo.master below)).link? (memo.master below) = none := by
    rw [link?_setLink, if_neg, hends.link?_master]
    rintro ⟨hsame, _⟩
    exact hbelow (hends.master_eq_self_iff.mp hsame)
  generalize hlast : memo.master other = last at h
  induction h with
  | @here id unlinked =>
      refine ⟨0, .here ?_⟩
      rw [link?_setLink, if_neg, unlinked]
      rintro ⟨rfl, _⟩
      exact hbelow unlinked
  | @step steps id next last linked rest ih =>
      by_cases hid : id = below
      · subst hid
        rw [← hlast]
        exact ⟨1, .step (by rw [link?_setLink, if_pos ⟨rfl, hknown⟩]) (.here hmaster)⟩
      · obtain ⟨ahead, hahead⟩ := ih (by rw [← hlast, hends.master_of_link? linked])
        exact ⟨ahead + 1, .step (by rw [link?_setLink, if_neg (by tauto), linked]) hahead⟩

/-- Linking one master to another: the groups of the first get the master of the second. -/
theorem leads_setLink (hends : memo.LinksEnd) {joining into : GroupId}
    (hjoining : memo.link? joining = none) (hinto : memo.link? into = none)
    (hne : joining ≠ into) (hknown : joining.index < memo.groups.size) {other : GroupId} :
    ∃ steps, (memo.setLink joining into).Leads steps other
      (if memo.master other = joining then into else memo.master other) := by
  obtain ⟨steps, h⟩ := hends.leads_master other
  generalize hlast : memo.master other = last at h
  have hend : (memo.setLink joining into).Leads 0 into into := by
    refine .here ?_
    rw [link?_setLink, if_neg (by tauto), hinto]
  induction h with
  | @here id unlinked =>
      by_cases hid : id = joining
      · rw [if_pos hid]
        exact ⟨1, .step (by rw [link?_setLink, if_pos ⟨hid, hknown⟩]) hend⟩
      · rw [if_neg hid]
        exact ⟨0, .here (by rw [link?_setLink, if_neg (by tauto), unlinked])⟩
  | @step steps id next last linked rest ih =>
      obtain ⟨ahead, hahead⟩ := ih (by rw [← hlast, hends.master_of_link? linked])
      have hid : id ≠ joining := by
        rintro rfl
        simp [hjoining] at linked
      exact ⟨ahead + 1, .step (by rw [link?_setLink, if_neg (by tauto), linked]) hahead⟩

theorem LinksEnd.setLink (hends : memo.LinksEnd) {joining into : GroupId}
    (hjoining : memo.link? joining = none) (hinto : memo.link? into = none)
    (hne : joining ≠ into) (hknown : joining.index < memo.groups.size) :
    (memo.setLink joining into).LinksEnd := fun _ =>
  (leads_setLink hends hjoining hinto hne hknown).elim fun steps h => ⟨steps, _, h⟩

theorem master_setLink (hends : memo.LinksEnd) {joining into : GroupId}
    (hjoining : memo.link? joining = none) (hinto : memo.link? into = none)
    (hne : joining ≠ into) (hknown : joining.index < memo.groups.size) (other : GroupId) :
    (memo.setLink joining into).master other =
      if memo.master other = joining then into else memo.master other :=
  (leads_setLink hends hjoining hinto hne hknown).elim fun _ h => h.master_eq

end QueryPlanner.Memo
