import QueryPlanner.Proofs.Optimizer.Frame
import QueryPlanner.Proofs.Search.Fills

/-!
# Where the properties of groups come from

The properties of a group are recorded when it is created and never change. `Memo.Derived` says that
they still are those that an alternative of the group derives over groups that are older: neither
links nor merges nor what is planned takes this alternative away, and properties of the older groups
stay as well. What an access derives depends on what is known of its table, although two accesses are
the same whatever is known; but no access is there twice (`Memo.Derived.accesses`).
-/

namespace QueryPlanner

open Memo (Regroups SameContent SameQuery Unites)
open Planning (Keeps Post exec)

namespace Memo

variable {memo memo' : Memo} {op : Operator} {children : List GroupId} {origin : Option Origin}

/-- The properties of every group are derived by one of its alternatives over older groups, and equal
table accesses are one alternative. -/
structure Derived (memo : Memo) : Prop where
  wellFormed : memo.WellFormed
  properties : ∀ id group, memo.group? id = some group → ∃ source expr,
    memo.expr? source = some expr ∧ memo.master expr.group = memo.master id ∧
      (∀ child ∈ expr.children, child.index < id.index) ∧
      memo.newProperties? expr.op expr.children = some group.properties
  accesses : ∀ id id' expr expr' access access', memo.expr? id = some expr →
    memo.expr? id' = some expr' → expr.op = .logical (.get access) →
    expr'.op = .logical (.get access') → access.same access' = true → id = id'

/-- What an operator derives depends on the properties of its children. -/
theorem newProperties?_congr (h : ∀ child ∈ children,
    (memo'.group? child).map (·.properties) = (memo.group? child).map (·.properties)) :
    memo'.newProperties? op children = memo.newProperties? op children := by
  unfold newProperties?
  rw [List.filterMap_congr h]

/-- A new alternative leaves the properties of groups. -/
theorem properties_addAlternative {group : GroupId} (id : GroupId) :
    ((memo.addAlternative op children group origin).group? id).map (·.properties) =
      (memo.group? id).map (·.properties) := by
  unfold addAlternative
  dsimp only
  rw [group?_modifyGroup]
  split
  · rw [Option.map_map]
    rfl
  · rfl

/-- The alternatives stay when classes are united. -/
theorem Unites.exists_expr {joining into : GroupId} (h : Unites joining into memo memo')
    {id : ExprId} {expr : MemoExpr} (hexpr : memo.expr? id = some expr) :
    ∃ expr', memo'.expr? id = some expr' ∧ expr'.op = expr.op ∧ expr'.children = expr.children ∧
      memo'.master expr'.group = memo'.master expr.group := by
  have hknown : id.index < memo'.exprs.size := by
    rw [h.exprs_size]
    exact (expr?_isSome id).mp (Option.isSome_of_eq_some hexpr)
  obtain ⟨expr', hexpr'⟩ := Option.isSome_iff_exists.mp ((expr?_isSome id).mpr hknown)
  obtain ⟨before, hbefore, hsame⟩ := h.exprs id expr' hexpr'
  obtain rfl := Option.some.inj (hexpr.symm.trans hbefore)
  exact ⟨expr', hexpr', hsame⟩

namespace Derived

/-- Uniting two classes of groups. -/
theorem unites {joining into : GroupId} (h : memo.Derived) (hunites : Unites joining into memo memo') :
    memo'.Derived where
  wellFormed := hunites.wellFormed
  properties id group' hgroup' := by
    have hkept := hunites.groups id
    rw [hgroup'] at hkept
    obtain ⟨group, hgroup, hproperties⟩ := Option.map_eq_some_iff.mp hkept.symm
    obtain ⟨source, expr, hexpr, howner, holder, hderived⟩ := h.properties id group hgroup
    obtain ⟨expr', hexpr', hop, hchildren, howner'⟩ := hunites.exists_expr hexpr
    refine ⟨source, expr', hexpr', ?_, by rwa [hchildren], ?_⟩
    · rw [howner', hunites.masters, hunites.masters, howner]
    · rw [hop, hchildren, newProperties?_congr fun child _ => hunites.groups child, hderived]
      exact congrArg some hproperties
  accesses id id' expr expr' access access' hexpr hexpr' hop hop' hsame := by
    obtain ⟨before, hbefore, hopBefore, _⟩ := hunites.exprs id expr hexpr
    obtain ⟨before', hbefore', hopBefore', _⟩ := hunites.exprs id' expr' hexpr'
    exact h.accesses id id' before before' access access' hbefore hbefore' (hopBefore ▸ hop)
      (hopBefore' ▸ hop') hsame

theorem regroups (h : memo.Derived) (hregroups : Regroups memo memo') : memo'.Derived :=
  h.unites (hregroups.unites ⟨0⟩)

/-- What planning stores is no matter. -/
theorem sameQuery (h : memo.Derived) (hsame : SameQuery memo memo') : memo'.Derived :=
  h.regroups (hsame.regroups h.wellFormed)

/-- An access that was not found is not there. -/
theorem not_same_of_findTwin? (h : memo.Derived) {access access' : TableAccess}
    (hnone : memo.findTwin? (.logical (.get access)) children = none) (hchildren : children = [])
    {id : ExprId} {expr : MemoExpr} (hexpr : memo.expr? id = some expr)
    (hop : expr.op = .logical (.get access')) : access'.same access = false := by
  have hleaf : expr.children = [] :=
    List.length_eq_zero_iff.mp (h.wellFormed.arity id expr hexpr 0 (by rw [hop]; rfl))
  cases hsame : access'.same access with
  | false => rfl
  | true =>
      refine absurd ?_ (findTwin?_eq_none hnone hexpr (by rw [hop]; exact hsame))
      rw [hleaf, hchildren, hop]
      rfl

/-- The accesses stay told apart when an operator is added that was not found. -/
theorem accesses_addAlternative (h : memo.Derived) {group : GroupId}
    (hnone : memo.findTwin? op children = none)
    (harity : ∀ count, op.arity = some count → children.length = count)
    (hexprs : memo'.exprs = memo.exprs) :
    ∀ id id' expr expr' access access',
      (memo'.addAlternative op children group origin).expr? id = some expr →
      (memo'.addAlternative op children group origin).expr? id' = some expr' →
      expr.op = .logical (.get access) → expr'.op = .logical (.get access') →
      access.same access' = true → id = id' := by
  have hbefore (id : ExprId) : memo'.expr? id = memo.expr? id := by
    unfold expr?
    rw [hexprs]
  have hnew {id : ExprId} {expr : MemoExpr} {access access' : TableAccess}
      (hexpr : memo.expr? id = some expr) (hold : expr.op = .logical (.get access'))
      (hadded : op = .logical (.get access)) : access'.same access = false := by
    subst hadded
    exact h.not_same_of_findTwin? hnone (List.length_eq_zero_iff.mp (harity 0 rfl)) hexpr hold
  intro id id' expr expr' access access' hexpr hexpr' hop hop' hsame
  rw [expr?_addAlternative, hbefore] at hexpr hexpr'
  split at hexpr
  · obtain rfl := Option.some.inj hexpr
    split at hexpr'
    · rename_i hid hid'
      exact hid.trans hid'.symm
    · have hcomm : access'.same access = true := by
        simp only [TableAccess.same, Bool.and_eq_true, beq_iff_eq] at hsame ⊢
        exact ⟨⟨hsame.1.1.symm, hsame.1.2.symm⟩, hsame.2.symm⟩
      exact absurd (hnew hexpr' hop' hop) (by simp [hcomm])
  · split at hexpr'
    · obtain rfl := Option.some.inj hexpr'
      exact absurd (hnew hexpr hop hop') (by simp [hsame])
    · exact h.accesses id id' expr expr' access access' hexpr hexpr' hop hop' hsame

/-- An alternative that was not found is added to a group. -/
theorem addAlternative (h : memo.Derived) {group : GroupId}
    (hnone : memo.findTwin? op children = none) (hgroup : group.index < memo.groups.size)
    (hchildren : ∀ child ∈ children, child.index < memo.groups.size)
    (harity : ∀ count, op.arity = some count → children.length = count) :
    (memo.addAlternative op children group origin).Derived where
  wellFormed := h.wellFormed.addAlternative hgroup hchildren harity
  properties id found hfound := by
    obtain ⟨before, hbefore, hproperties, _⟩ := group?_addAlternative hfound
    obtain ⟨source, expr, hexpr, howner, holder, hderived⟩ := h.properties id before hbefore
    have hmaster := master_congr _ h.wellFormed.linksEnd
      (@link?_addAlternative memo op children group origin)
    refine ⟨source, expr, expr?_addAlternative_of_some hexpr, ?_, holder, ?_⟩
    · rw [hmaster, hmaster, howner]
    · rw [hproperties, ← hderived]
      exact newProperties?_congr fun child _ => properties_addAlternative child
  accesses := h.accesses_addAlternative hnone harity rfl

/-- A group is created with an alternative that was not found. -/
theorem addToNewGroup (h : memo.Derived) {properties : GroupProperties}
    (hnone : memo.findTwin? op children = none)
    (hproperties : memo.newProperties? op children = some properties)
    (hchildren : ∀ child ∈ children, child.index < memo.groups.size)
    (harity : ∀ count, op.arity = some count → children.length = count) :
    ((memo.pushGroup properties).addAlternative op children ⟨memo.groups.size⟩ origin).Derived where
  wellFormed :=
    h.wellFormed.addToNewGroup (not_physical_of_newProperties? hproperties) hchildren harity
  properties id found hfound := by
    have hlinks (other : GroupId) : ((memo.pushGroup properties).addAlternative op children
        ⟨memo.groups.size⟩ origin).link? other = memo.link? other := by
      rw [link?_addAlternative, link?_pushGroup]
    have hmaster := master_congr _ h.wellFormed.linksEnd hlinks
    have hkept (child : GroupId) (hknown : child.index < memo.groups.size) :
        (((memo.pushGroup properties).addAlternative op children ⟨memo.groups.size⟩
          origin).group? child).map (·.properties) = (memo.group? child).map (·.properties) := by
      rw [properties_addAlternative, group?_pushGroup, if_neg]
      rintro rfl
      exact Nat.lt_irrefl _ hknown
    obtain ⟨before, hbefore, hread, _⟩ := group?_addAlternative hfound
    rw [group?_pushGroup] at hbefore
    split at hbefore
    · rename_i hid
      subst hid
      obtain rfl := Option.some.inj hbefore
      refine ⟨⟨memo.exprs.size⟩, _, (expr?_addAlternative ..).trans (if_pos rfl), rfl, hchildren, ?_⟩
      rw [hread, ← hproperties]
      exact newProperties?_congr fun child hchild => hkept child (hchildren child hchild)
    · obtain ⟨source, expr, hexpr, howner, holder, hderived⟩ := h.properties id before hbefore
      have hexpr' : (memo.pushGroup properties).expr? source = some expr := hexpr
      refine ⟨source, expr, expr?_addAlternative_of_some hexpr', ?_, holder, ?_⟩
      · rw [hmaster, hmaster, howner]
      · rw [hread, ← hderived]
        refine newProperties?_congr fun child hchild => hkept child ?_
        exact h.wellFormed.childKnown source expr hexpr child hchild
  accesses := h.accesses_addAlternative hnone harity rfl

/-- Whatever an insertion finds or adds. -/
theorem insert (h : memo.Derived) (op : Operator) (children : List GroupId)
    (target : Option GroupId) (origin : Option Origin) :
    Post (Planning.insert op children target origin) memo (fun _ final => final.Derived)
      (fun _ final => final.Derived) := by
  by_cases hvalid : memo.Insertable op children target
  · refine (Post.insert origin h.wellFormed hvalid).mono ?_ fun _ _ hfail => hfail.elim
    have hmasters (middle : Memo) (hsame : SameContent memo middle) :
        ∀ child ∈ children.map memo.master, child.index < middle.groups.size := by
      intro master hmaster
      obtain ⟨child, hchild, rfl⟩ := List.mem_map.mp hmaster
      rw [hsame.groups_size]
      exact h.wellFormed.masterKnown child (hvalid.known child (by simp [hchild]))
    have harity : ∀ count, op.arity = some count → (children.map memo.master).length = count := by
      simpa using hvalid.arity
    rintro outcome final hinserts
    cases hinserts with
    | found _ _ _ same => exact h.sameQuery same.sameQuery
    | united _ _ _ _ _ unites => exact h.unites unites
    | @added middle id no_twin target_given same =>
        rw [← same.findTwin?] at no_twin
        refine (h.sameQuery same.sameQuery).addAlternative no_twin ?_ (hmasters middle same) harity
        rw [same.groups_size]
        exact h.wellFormed.masterKnown id (hvalid.known id (by simp [target_given]))
    | @created middle properties no_twin _ properties_found same =>
        rw [← same.findTwin?] at no_twin
        rw [← same.newProperties?] at properties_found
        rw [← same.groups_size]
        exact (h.sameQuery same.sameQuery).addToNewGroup no_twin properties_found
          (hmasters middle same) harity
  · exact (Post.insert_fails hvalid).mono (fun _ _ hok => hok.elim) fun _ _ hfinal => hfinal ▸ h

theorem empty : ({} : Memo).Derived where
  wellFormed := wellFormed_empty
  properties id group hgroup := by simp [group?] at hgroup
  accesses id id' expr expr' access access' hexpr := by simp [expr?] at hexpr

end Derived

/-- Properties stay derived. -/
def KeepsDerived (memo memo' : Memo) : Prop := memo.Derived → memo'.Derived

/-- The optimizer stores and adds enforcers. -/
instance : Optimizer.Frame KeepsDerived where
  refl _ h := h
  trans _ _ _ h h' hderived := h' (h hderived)
  stored _ _ hstores h := h.sameQuery hstores.toSameQuery
  created _ _ _ _ h := h.sameQuery sameQuery_addContext
  enforced _ _ _ _ _ := Keeps.whenever fun _ h => h.insert _ _ _ _

theorem Fills.keepsDerived (h : Fills memo memo') : KeepsDerived memo memo' := by
  intro hderived
  induction h with
  | refl => exact hderived
  | insert _ op children target origin _ ih => exact (ih.insert op children target origin).exec_snd
  | mergeDuplicates _ ih => exact ih.regroups ih.wellFormed.mergeDuplicates
  | look _ same ih => exact ih.sameQuery same.sameQuery

end Memo

end QueryPlanner
