import QueryPlanner.Proofs.Memo.Deduplication
import QueryPlanner.Proofs.Optimizer.Descent

/-!
# Values of groups

A `Reading` says what operators compute from the values of their children. Values for all groups
model a memo if every alternative computes the value of its group from those of its children, and
duplicates have the value of their master. `Memo.Grows` relates a memo to a later one whose new
groups have got values, while the old ones keep theirs: an insertion leads to such a memo if what is
inserted computes the value of its target.
-/

namespace QueryPlanner

open Memo (SameContent)

variable {α : Type}

/-- What operators compute, over some domain of values. -/
structure Reading (α : Type) where
  apply : Operator → List α → Option α
  /-- Whether a value is one for a group with the given properties. -/
  fits : GroupProperties → α → Prop
  apply_same : ∀ left right values, left.same right = true → apply left values = apply right values
  /-- Only where the order of the children matters does the order of their values. -/
  apply_perm : ∀ op left right, op.orderSensitive = false → left.Perm right →
    apply op left = apply op right
  fits_relation : ∀ op below values value, List.Forall₂ fits below values →
    apply (.logical op) values = some value → fits (.relation (op.properties below)) value
  fits_scalar : ∀ op below values value, List.Forall₂ fits below values →
    apply (.scalar op) values = some value → fits (.scalar (op.properties below)) value
  /-- An enforcer passes on what is below it. -/
  apply_enforcer : ∀ op value, op.isCatalogued = true → op.isEnforcer = true →
    apply (.physical op) [value] = some value

namespace Memo

variable {reading : Reading α} {meaning meaning' : GroupId → α} {memo memo' memo'' : Memo}

/-- Every group has a value that its alternatives compute and that its duplicates share. -/
structure Models (reading : Reading α) (meaning : GroupId → α) (memo : Memo) : Prop where
  wellFormed : memo.WellFormed
  linked : ∀ id, meaning (memo.master id) = meaning id
  fits : ∀ id group, memo.group? id = some group → reading.fits group.properties (meaning id)
  computed : ∀ id expr, memo.expr? id = some expr →
    reading.apply expr.op (expr.children.map meaning) = some (meaning expr.group)

/-- The later memo has all alternatives and more groups, and values for these. -/
structure Grows (reading : Reading α) (memo : Memo) (meaning : GroupId → α) (memo' : Memo)
    (meaning' : GroupId → α) : Prop where
  models : memo'.Models reading meaning'
  groups_size : memo.groups.size ≤ memo'.groups.size
  agrees : ∀ id : GroupId, id.index < memo.groups.size → meaning' id = meaning id
  exprs : ∀ id expr, memo.expr? id = some expr → ∃ expr', memo'.expr? id = some expr' ∧
    expr'.op = expr.op ∧ expr'.children = expr.children

/-- Whatever values the groups of a memo have, they have in the later memo. -/
def Continues (reading : Reading α) (memo memo' : Memo) : Prop :=
  ∀ meaning, memo.Models reading meaning → ∃ meaning', Grows reading memo meaning memo' meaning'

/-- The empty memo has nothing to give a value to. -/
theorem models_empty (reading : Reading α) (meaning : GroupId → α) :
    ({} : Memo).Models reading meaning where
  wellFormed := wellFormed_empty
  linked id := congrArg meaning
    (wellFormed_empty.linksEnd.master_eq_self_iff.mpr (by simp [link?, group?]))
  fits id group h := by simp [group?] at h
  computed id expr h := by simp [expr?] at h

namespace Models

variable (h : memo.Models reading meaning)
include h

/-- The masters of groups have the values of the groups. -/
theorem map_master (children : List GroupId) :
    (children.map memo.master).map meaning = children.map meaning := by
  rw [List.map_map]
  exact List.map_congr_left fun child _ => h.linked child

/-- The properties of several groups fit their values. -/
theorem forall₂_fits {children : List GroupId}
    (hknown : ∀ child ∈ children, child.index < memo.groups.size) :
    List.Forall₂ reading.fits
      (children.filterMap fun child => (memo.group? child).map (·.properties))
      (children.map meaning) := by
  induction children with
  | nil => exact .nil
  | cons child rest ih =>
      obtain ⟨group, hgroup⟩ := exists_group?_eq_some.mpr (hknown child (by simp))
      rw [List.filterMap_cons, hgroup]
      exact .cons (h.fits child group hgroup) (ih fun other hother => hknown other (by simp [hother]))

/-- Only the values of the groups that are there count. -/
theorem congr (hagrees : ∀ id : GroupId, id.index < memo.groups.size → meaning' id = meaning id) :
    memo.Models reading meaning' where
  wellFormed := h.wellFormed
  linked id := by
    by_cases hknown : id.index < memo.groups.size
    · rw [hagrees id hknown, hagrees _ (h.wellFormed.masterKnown id hknown), h.linked]
    · refine congrArg meaning' (h.wellFormed.linksEnd.master_eq_self_iff.mpr ?_)
      unfold link?
      rw [group?_eq_none.mpr (Nat.le_of_not_lt hknown)]
      rfl
  fits id group hgroup := by
    rw [hagrees id (exists_group?_eq_some.mp ⟨group, hgroup⟩)]
    exact h.fits id group hgroup
  computed id expr hexpr := by
    rw [hagrees _ (h.wellFormed.ownerKnown id expr hexpr), ← h.computed id expr hexpr]
    refine congrArg _ (List.map_congr_left fun child hchild => hagrees child ?_)
    exact h.wellFormed.childKnown id expr hexpr child hchild

/-- Two classes of groups with one value can be united. -/
theorem unites {joining into : GroupId} (hunites : Unites joining into memo memo')
    (hsame : meaning joining = meaning into) : Grows reading memo meaning memo' meaning where
  models :=
    { wellFormed := hunites.wellFormed
      linked := fun id => by
        rw [hunites.masters]
        split
        · rename_i hjoining
          rw [← hsame, ← hjoining, h.linked]
        · exact h.linked id
      fits := fun id group' hgroup' => by
        have hproperties := hunites.groups id
        rw [hgroup'] at hproperties
        obtain ⟨group, hgroup, hread⟩ := Option.map_eq_some_iff.mp hproperties.symm
        rw [show group'.properties = group.properties from hread.symm]
        exact h.fits id group hgroup
      computed := fun id expr' hexpr' => by
        obtain ⟨expr, hexpr, hop, hchildren, howner⟩ := hunites.exprs id expr' hexpr'
        have hmaster (other : GroupId) : meaning (memo'.master other) = meaning other := by
          rw [hunites.masters]
          split
          · rename_i hjoining
            rw [← hsame, ← hjoining, h.linked]
          · exact h.linked other
        rw [hop, hchildren, h.computed id expr hexpr, ← hmaster expr'.group, howner, hmaster] }
  groups_size := Nat.le_of_eq hunites.groups_size.symm
  agrees _ _ := rfl
  exprs id expr hexpr := by
    have hknown : id.index < memo'.exprs.size := by
      rw [hunites.exprs_size]
      exact (expr?_isSome id).mp (Option.isSome_of_eq_some hexpr)
    obtain ⟨expr', hexpr'⟩ := Option.isSome_iff_exists.mp ((expr?_isSome id).mpr hknown)
    obtain ⟨before, hbefore, hop, hchildren, _⟩ := hunites.exprs id expr' hexpr'
    obtain rfl := Option.some.inj (hexpr.symm.trans hbefore)
    exact ⟨expr', hexpr', hop, hchildren⟩

/-- Moving alternatives to groups with the same master changes no value. -/
theorem regroups (hregroups : Regroups memo memo') : Grows reading memo meaning memo' meaning :=
  h.unites (hregroups.unites ⟨0⟩) rfl

/-- A new alternative that computes the value of its group. -/
theorem addAlternative {op : Operator} {children : List GroupId} {group : GroupId}
    (origin : Option Origin) (hgroup : group.index < memo.groups.size)
    (hchildren : ∀ child ∈ children, child.index < memo.groups.size)
    (harity : ∀ count, op.arity = some count → children.length = count)
    (hcomputes : reading.apply op (children.map meaning) = some (meaning group)) :
    Grows reading memo meaning (memo.addAlternative op children group origin) meaning where
  models :=
    { wellFormed := h.wellFormed.addAlternative hgroup hchildren harity
      linked := fun id => by
        rw [master_congr _ h.wellFormed.linksEnd link?_addAlternative]
        exact h.linked id
      fits := fun id found hfound => by
        obtain ⟨before, hbefore, hproperties, _⟩ := group?_addAlternative hfound
        rw [hproperties]
        exact h.fits id before hbefore
      computed := fun id expr hexpr => by
        rw [expr?_addAlternative] at hexpr
        split at hexpr
        · obtain rfl := Option.some.inj hexpr
          exact hcomputes
        · exact h.computed id expr hexpr }
  groups_size := Nat.le_of_eq groups_size_addAlternative.symm
  agrees _ _ := rfl
  exprs _ expr hexpr := ⟨expr, expr?_addAlternative_of_some hexpr, rfl, rfl⟩

/-- A new group takes the value that its first alternative computes. -/
theorem addToNewGroup {op : Operator} {children : List GroupId}
    {properties : GroupProperties} {value : α} (origin : Option Origin)
    (hproperties : memo.newProperties? op children = some properties)
    (hchildren : ∀ child ∈ children, child.index < memo.groups.size)
    (harity : ∀ count, op.arity = some count → children.length = count)
    (hcomputes : reading.apply op (children.map meaning) = some value) :
    Grows reading memo meaning
      ((memo.pushGroup properties).addAlternative op children ⟨memo.groups.size⟩ origin)
      fun id => if id = ⟨memo.groups.size⟩ then value else meaning id := by
  set extended : GroupId → α := fun id => if id = ⟨memo.groups.size⟩ then value else meaning id
  have hnew : extended ⟨memo.groups.size⟩ = value := if_pos rfl
  -- no alternative was about the new group before, so it may mean anything
  have hold (id : GroupId) (hknown : id.index < memo.groups.size) : extended id = meaning id := by
    refine if_neg fun hid => ?_
    rw [hid] at hknown
    exact Nat.lt_irrefl _ hknown
  have hbelow : children.map extended = children.map meaning :=
    List.map_congr_left fun child hchild => hold child (hchildren child hchild)
  have hmodels := h.congr hold
  have hlinks (id : GroupId) : ((memo.pushGroup properties).addAlternative op children
      ⟨memo.groups.size⟩ origin).link? id = memo.link? id := by
    rw [link?_addAlternative, link?_pushGroup]
  have hfits : reading.fits properties value := by
    cases op with
    | logical op =>
        obtain rfl := Option.some.inj hproperties
        exact reading.fits_relation op _ _ value (h.forall₂_fits hchildren) hcomputes
    | scalar op =>
        obtain rfl := Option.some.inj hproperties
        exact reading.fits_scalar op _ _ value (h.forall₂_fits hchildren) hcomputes
    | physical op => simp [newProperties?] at hproperties
  refine ⟨⟨?_, fun id => ?_, fun id group hgroup => ?_, fun id expr hexpr => ?_⟩, ?_, hold,
    fun id expr hexpr => ?_⟩
  · exact h.wellFormed.addToNewGroup (not_physical_of_newProperties? hproperties) hchildren harity
  · rw [master_congr _ h.wellFormed.linksEnd hlinks]
    exact hmodels.linked id
  · obtain ⟨before, hbefore, hread, _⟩ := group?_addAlternative hgroup
    rw [hread]
    rw [group?_pushGroup] at hbefore
    split at hbefore
    · rename_i hid
      obtain rfl := Option.some.inj hbefore
      rw [hid, hnew]
      exact hfits
    · exact hmodels.fits id before hbefore
  · rw [expr?_addAlternative] at hexpr
    split at hexpr
    · obtain rfl := Option.some.inj hexpr
      rw [hbelow, hcomputes, hnew]
    · exact hmodels.computed id expr hexpr
  · rw [groups_size_addAlternative]
    simp [pushGroup]
  · have hexpr : (memo.pushGroup properties).expr? id = some expr := hexpr
    exact ⟨expr, expr?_addAlternative_of_some hexpr, rfl, rfl⟩

/-- What an alternative that is found again computes. -/
theorem apply_twin {op : Operator} {children : List GroupId} {twin : ExprId} {expr : MemoExpr}
    (htwin : memo.findTwin? op (children.map memo.master) = some twin)
    (hexpr : memo.expr? twin = some expr) :
    reading.apply op (children.map meaning) = some (meaning expr.group) := by
  obtain ⟨found, hfound, hop, hfiled⟩ := findTwin?_eq_some htwin
  obtain rfl := Option.some.inj (hexpr.symm.trans hfound)
  rw [← h.computed twin expr hexpr, ← reading.apply_same _ _ _ hop, ← h.map_master children]
  unfold filedChildren at hfiled
  rw [← Operator.orderSensitive_eq_of_same hop] at hfiled
  cases hsensitive : expr.op.orderSensitive with
  | true =>
      simp only [hsensitive, if_true] at hfiled
      rw [hfiled]
  | false =>
      simp only [hsensitive, Bool.false_eq_true, if_false] at hfiled
      exact reading.apply_perm _ _ _ hsensitive ((mergeSort_index_eq_iff.mp hfiled).symm.map meaning)

end Models

namespace Grows

protected theorem refl (h : memo.Models reading meaning) : Grows reading memo meaning memo meaning :=
  ⟨h, Nat.le_refl _, fun _ _ => rfl, fun _ expr hexpr => ⟨expr, hexpr, rfl, rfl⟩⟩

protected theorem trans {meaning'' : GroupId → α} (h : Grows reading memo meaning memo' meaning')
    (h' : Grows reading memo' meaning' memo'' meaning'') :
    Grows reading memo meaning memo'' meaning'' where
  models := h'.models
  groups_size := Nat.le_trans h.groups_size h'.groups_size
  agrees id hid := (h'.agrees id (Nat.lt_of_lt_of_le hid h.groups_size)).trans (h.agrees id hid)
  exprs id expr hexpr := by
    obtain ⟨middle, hmiddle, hop, hchildren⟩ := h.exprs id expr hexpr
    obtain ⟨final, hfinal, hop', hchildren'⟩ := h'.exprs id middle hmiddle
    exact ⟨final, hfinal, hop'.trans hop, hchildren'.trans hchildren⟩

/-- The memo from before holds for the values of the later one as well. -/
theorem models_before (hgrows : Grows reading memo meaning memo' meaning')
    (h : memo.Models reading meaning) : memo.Models reading meaning' :=
  h.congr hgrows.agrees

end Grows

instance : Std.Refl (Continues reading) := ⟨fun _ meaning h => ⟨meaning, .refl h⟩⟩

instance : IsTrans Memo (Continues reading) :=
  ⟨fun _ _ _ h h' meaning hmodels => by
    obtain ⟨middle, hmiddle⟩ := h meaning hmodels
    obtain ⟨final, hfinal⟩ := h' middle hmiddle.models
    exact ⟨final, hmiddle.trans hfinal⟩⟩

/-- What planning stores changes no value. -/
theorem SameQuery.continues (hsame : SameQuery memo memo') : Continues reading memo memo' :=
  fun meaning h => ⟨meaning, h.regroups (hsame.regroups h.wellFormed)⟩

theorem SameContent.continues (hsame : SameContent memo memo') : Continues reading memo memo' :=
  hsame.sameQuery.continues

/-- An insertion that computes a value leads to a group with this value. -/
theorem Inserts.grows {op : Operator} {children : List GroupId} {target : Option GroupId}
    {origin : Option Origin} {outcome : Insertion} {value : α}
    (hinserts : memo.Inserts op children target origin outcome memo')
    (h : memo.Models reading meaning) (hvalid : memo.Insertable op children target)
    (hcomputes : reading.apply op (children.map meaning) = some value)
    (htarget : ∀ id ∈ target, meaning id = value) :
    ∃ meaning', Grows reading memo meaning memo' meaning' ∧
      outcome.group.index < memo'.groups.size ∧ meaning' outcome.group = value := by
  have hmasters (middle : Memo) (hsame : SameContent memo middle) :
      ∀ child ∈ children.map memo.master, child.index < middle.groups.size := by
    intro master hmaster
    obtain ⟨child, hchild, rfl⟩ := List.mem_map.mp hmaster
    rw [hsame.groups_size]
    exact h.wellFormed.masterKnown child (hvalid.known child (by simp [hchild]))
  have harity : ∀ count, op.arity = some count → (children.map memo.master).length = count := by
    simpa using hvalid.arity
  cases hinserts with
  -- a twin computes the same from its children
  | @found twin expr _ htwin hexpr _ hsame =>
      have hgrows := h.regroups (hsame.regroups h.wellFormed)
      have hknown := h.wellFormed.ownerKnown twin expr hexpr
      rw [← hsame.groups_size] at hknown
      refine ⟨meaning, hgrows, hgrows.models.wellFormed.masterKnown _ hknown, ?_⟩
      rw [hgrows.models.linked]
      exact Option.some.inj ((h.apply_twin htwin hexpr).symm.trans hcomputes)
  | @united twin expr _ id joining into htwin hexpr hgiven _ hlinked hunites =>
      have howner : meaning expr.group = value :=
        Option.some.inj ((h.apply_twin htwin hexpr).symm.trans hcomputes)
      have hgrows := h.unites hunites (by
        rcases hlinked with ⟨rfl, rfl⟩ | ⟨rfl, rfl⟩ <;>
          rw [h.linked, h.linked, howner, htarget id hgiven])
      have hknown := h.wellFormed.ownerKnown twin expr hexpr
      rw [← hunites.groups_size] at hknown
      refine ⟨meaning, hgrows, hgrows.models.wellFormed.masterKnown _ hknown, ?_⟩
      rw [hgrows.models.linked, howner]
  | @added middle id _ hgiven hsame =>
      have hlooked := h.regroups (hsame.regroups h.wellFormed)
      have hknown := h.wellFormed.masterKnown id (hvalid.known id (by simp [hgiven]))
      rw [← hsame.groups_size] at hknown
      have hgrows := hlooked.trans (hlooked.models.addAlternative origin hknown (hmasters middle hsame)
        harity (by rw [h.map_master, hcomputes, h.linked, htarget id hgiven]))
      refine ⟨meaning, hgrows, ?_, (h.linked id).trans (htarget id hgiven)⟩
      rwa [groups_size_addAlternative]
  | @created middle properties _ _ hproperties hsame =>
      have hlooked := h.regroups (hsame.regroups h.wellFormed)
      rw [← hsame.newProperties?] at hproperties
      have hgrows := hlooked.trans (hlooked.models.addToNewGroup origin hproperties (hmasters middle hsame)
        harity (by rw [h.map_master, hcomputes]))
      rw [← hsame.groups_size]
      refine ⟨_, hgrows, ?_, if_pos rfl⟩
      rw [groups_size_addAlternative]
      simp [pushGroup]

end Memo

namespace Planning

variable {reading : Reading α} {meaning : GroupId → α} {memo : Memo}

/-- Inserting what computes the value of the target. An insertion that is not possible leaves the
memo. -/
theorem Post.insert_computes {op : Operator} {children : List GroupId} {target : Option GroupId}
    {value : α} (origin : Option Origin) (h : memo.Models reading meaning)
    (hcomputes : reading.apply op (children.map meaning) = some value)
    (htarget : ∀ id ∈ target, meaning id = value) :
    Post (Planning.insert op children target origin) memo
      (fun outcome final => ∃ meaning', Memo.Grows reading memo meaning final meaning' ∧
        outcome.group.index < final.groups.size ∧ meaning' outcome.group = value)
      (fun _ final => final = memo ∧ ¬ memo.Insertable op children target) := by
  by_cases hvalid : memo.Insertable op children target
  · exact (Post.insert origin h.wellFormed hvalid).mono
      (fun _ _ hinserts => hinserts.grows h hvalid hcomputes htarget) (fun _ _ hfail => hfail.elim)
  · exact (Post.insert_fails hvalid).mono (fun _ _ hok => hok.elim)
      (fun _ _ hfinal => ⟨hfinal, hvalid⟩)

end Planning

end QueryPlanner
