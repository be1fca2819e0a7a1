import QueryPlanner.Proofs.Memo.Reading
import QueryPlanner.Proofs.Rule.Binding
import QueryPlanner.Rule.Basic

/-!
# Sound rules

A rule is sound for a reading of operators if every result computes the value of the group that it
was bound for, whatever values model the memo. New expressions among the children of a result get
groups with the values that they compute, so inserting the result of a sound rule leaves every group
its value (`Planning.Post.insertResult`).
-/

namespace QueryPlanner

open Memo (Grows SameContent)

variable {α : Type} {reading : Reading α} {meaning meaning' : GroupId → α} {memo memo' : Memo}

mutual

/-- The value of a child of a new alternative. Groups must be there. -/
def RuleChild.value? (reading : Reading α) (memo : Memo) (meaning : GroupId → α) :
    RuleChild → Option α
  | .group id => (memo.group? id).map fun _ => meaning id
  | .new op children =>
    (RuleChild.values? reading memo meaning children).bind fun values => reading.apply op values

/-- The values of several children. -/
def RuleChild.values? (reading : Reading α) (memo : Memo) (meaning : GroupId → α) :
    List RuleChild → Option (List α)
  | [] => some []
  | child :: rest => do
    let value ← RuleChild.value? reading memo meaning child
    let values ← RuleChild.values? reading memo meaning rest
    return value :: values

end

/-- The value that a new alternative computes. -/
def RuleResult.value? (reading : Reading α) (memo : Memo) (meaning : GroupId → α)
    (result : RuleResult) : Option α :=
  (RuleChild.values? reading memo meaning result.children).bind fun values =>
    reading.apply result.op values

/-- Whatever a rule produces for a tree computes the value of the tree's group. The memo may have
grown since the tree was listed. -/
def Rule.Sound (reading : Reading α) (rule : Rule) : Prop :=
  ∀ (listed memo : Memo) (meaning : GroupId → α), listed.Models reading meaning →
    Grows reading listed meaning memo meaning → ∀ group bound, listed.Binds rule.pattern group bound →
    ∀ result ∈ rule.apply memo bound, result.value? reading memo meaning = some (meaning group)

/-! ## Values of children stay -/

mutual

theorem Memo.Grows.value? (hgrows : Grows reading memo meaning memo' meaning') :
    (child : RuleChild) → {value : α} → child.value? reading memo meaning = some value →
    child.value? reading memo' meaning' = some value
  | .group id, value, h => by
      rw [RuleChild.value?] at h ⊢
      obtain ⟨group, hgroup, rfl⟩ := Option.map_eq_some_iff.mp h
      have hknown := Memo.exists_group?_eq_some.mp ⟨group, hgroup⟩
      obtain ⟨group', hgroup'⟩ := Memo.exists_group?_eq_some.mpr
        (Nat.lt_of_lt_of_le hknown hgrows.groups_size)
      rw [hgroup', Option.map_some, hgrows.agrees id hknown]
  | .new op children, value, h => by
      rw [RuleChild.value?] at h ⊢
      obtain ⟨values, hvalues, hvalue⟩ := Option.bind_eq_some_iff.mp h
      rw [Memo.Grows.values? hgrows children hvalues]
      exact hvalue

theorem Memo.Grows.values? (hgrows : Grows reading memo meaning memo' meaning') :
    (children : List RuleChild) → {values : List α} →
    RuleChild.values? reading memo meaning children = some values →
    RuleChild.values? reading memo' meaning' children = some values
  | [], _, h => h
  | child :: rest, _, h => by
      rw [RuleChild.values?] at h ⊢
      obtain ⟨value, hvalue, h⟩ := Option.bind_eq_some_iff.mp h
      obtain ⟨values, hvalues, h⟩ := Option.bind_eq_some_iff.mp h
      obtain rfl := Option.some.inj h
      rw [Memo.Grows.value? hgrows child hvalue, Memo.Grows.values? hgrows rest hvalues]
      rfl

end

namespace Planning

mutual

/-- A child of a new alternative gets a group with its value. -/
theorem Post.childGroup (origin : Origin) : (child : RuleChild) → {memo : Memo} →
    {meaning : GroupId → α} → {value : α} → memo.Models reading meaning →
    child.value? reading memo meaning = some value →
    Post (Planning.childGroup origin child) memo
      (fun group final => ∃ meaning', Grows reading memo meaning final meaning' ∧
        group.index < final.groups.size ∧ meaning' group = value)
      (fun _ final => ∃ meaning', Grows reading memo meaning final meaning')
  | .group id, memo, meaning, value, h, hvalue => by
      rw [RuleChild.value?] at hvalue
      obtain ⟨group, hgroup, rfl⟩ := Option.map_eq_some_iff.mp hvalue
      have hknown := Memo.exists_group?_eq_some.mp ⟨group, hgroup⟩
      unfold Planning.childGroup
      refine (Post.resolve hknown).mono ?_ (fun _ _ hfail => hfail.elim)
      rintro _ final ⟨rfl, hsame⟩
      refine ⟨meaning, h.regroups (hsame.regroups h.wellFormed), ?_, h.linked id⟩
      rw [hsame.groups_size]
      exact h.wellFormed.masterKnown id hknown
  | .new op children, memo, meaning, value, h, hvalue => by
      rw [RuleChild.value?] at hvalue
      obtain ⟨values, hvalues, hcomputes⟩ := Option.bind_eq_some_iff.mp hvalue
      unfold Planning.childGroup
      refine (Post.childGroups origin children h hvalues).andThen (fun _ _ hfail => hfail) ?_
      rintro groups middle ⟨middleMeaning, hmiddle, _, rfl⟩
      refine (Post.insert_computes (some origin) hmiddle.models hcomputes (by simp)).andThen
        (fun _ _ hfail => ⟨_, hfail.1 ▸ hmiddle⟩) ?_
      rintro inserted final ⟨finalMeaning, hfinal, hknown, hvalue⟩
      exact Post.pure ⟨finalMeaning, hmiddle.trans hfinal, hknown, hvalue⟩

/-- The children of a new alternative get groups with their values. -/
theorem Post.childGroups (origin : Origin) : (children : List RuleChild) → {memo : Memo} →
    {meaning : GroupId → α} → {values : List α} → memo.Models reading meaning →
    RuleChild.values? reading memo meaning children = some values →
    Post (Planning.childGroups origin children) memo
      (fun groups final => ∃ meaning', Grows reading memo meaning final meaning' ∧
        (∀ group ∈ groups, group.index < final.groups.size) ∧ groups.map meaning' = values)
      (fun _ final => ∃ meaning', Grows reading memo meaning final meaning')
  | [], memo, meaning, values, h, hvalues => by
      obtain rfl := Option.some.inj hvalues
      exact Post.pure ⟨meaning, .refl h, by simp, rfl⟩
  | child :: rest, memo, meaning, values, h, hvalues => by
      rw [RuleChild.values?] at hvalues
      obtain ⟨value, hvalue, hvalues⟩ := Option.bind_eq_some_iff.mp hvalues
      obtain ⟨others, hothers, hvalues⟩ := Option.bind_eq_some_iff.mp hvalues
      obtain rfl := Option.some.inj hvalues
      unfold Planning.childGroups
      refine (Post.childGroup origin child h hvalue).andThen (fun _ _ hfail => hfail) ?_
      rintro group middle ⟨middleMeaning, hmiddle, hknown, rfl⟩
      refine (Post.childGroups origin rest hmiddle.models (hmiddle.values? rest hothers)).andThen
        (fun _ _ ⟨finalMeaning, hfinal⟩ => ⟨finalMeaning, hmiddle.trans hfinal⟩) ?_
      rintro groups final ⟨finalMeaning, hfinal, hknowns, rfl⟩
      refine Post.pure ⟨finalMeaning, hmiddle.trans hfinal, ?_, ?_⟩
      · exact List.forall_mem_cons.mpr ⟨Nat.lt_of_lt_of_le hknown hfinal.groups_size, hknowns⟩
      · rw [List.map_cons, hfinal.agrees group hknown]

end

/-- Inserting a result that computes the value of its group leaves every group its value. -/
theorem Post.insertResult {group : GroupId} {result : RuleResult} (origin : Origin)
    (h : memo.Models reading meaning) (hgroup : group.index < memo.groups.size)
    (hvalue : result.value? reading memo meaning = some (meaning group)) :
    Post (Planning.insertResult group origin result) memo
      (fun _ final => ∃ meaning', Grows reading memo meaning final meaning')
      (fun _ final => ∃ meaning', Grows reading memo meaning final meaning') := by
  obtain ⟨values, hvalues, hcomputes⟩ := Option.bind_eq_some_iff.mp hvalue
  unfold Planning.insertResult
  refine (Post.childGroups origin result.children h hvalues).andThen (fun _ _ hfail => hfail) ?_
  rintro groups middle ⟨middleMeaning, hmiddle, _, rfl⟩
  refine (Post.insert_computes (some origin) hmiddle.models hcomputes fun id hid => ?_).mono ?_ ?_
  · obtain rfl := Option.some.inj hid
    exact hmiddle.agrees group hgroup
  · rintro _ final ⟨finalMeaning, hfinal, _⟩
    exact ⟨finalMeaning, hmiddle.trans hfinal⟩
  · rintro _ final ⟨rfl, _⟩
    exact ⟨middleMeaning, hmiddle⟩

end Planning

end QueryPlanner
