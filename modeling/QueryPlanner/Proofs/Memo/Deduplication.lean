import QueryPlanner.Proofs.Memo.Reachable

/-!
# When an insertion finds an alternative again

Alternatives are filed under the masters of their children at the time of insertion, and are compared
by the masters of now. A group that is merged into another leaves the alternatives above it filed
under a group that no look-up asks for any more. `Planning.insert_reuses_iff` is the exact condition:
an alternative is found again when a matching one has no child that was merged into another group
since. Otherwise it is created a second time.
-/

namespace QueryPlanner

open Planning (exec)

/-- Equal operators agree on whether the order of their children matters. -/
theorem Operator.orderSensitive_eq_of_same {left right : Operator} (h : left.same right = true) :
    left.orderSensitive = right.orderSensitive := by
  cases left with
  | physical _ | scalar _ => cases right <;> simp_all [same, orderSensitive]
  | logical left =>
      cases right with
      | physical _ | scalar _ => simp [same] at h
      | logical right =>
          cases left <;> cases right <;> first
            | rfl
            | simp [same, LogicalOperator.same] at h
          rename_i left right
          have hfields : left.same right = true := h
          simp only [CustomLogical.same, Bool.and_eq_true, beq_iff_eq] at hfields
          simp [orderSensitive, LogicalOperator.orderSensitive, hfields]

/-- Sorted by their numbers, groups are the same list when they are the same multiset. -/
theorem mergeSort_index_eq_iff {left right : List GroupId} :
    (left.mergeSort fun left right => decide (left.index ≤ right.index)) =
      (right.mergeSort fun left right => decide (left.index ≤ right.index)) ↔
    left.Perm right := by
  have hsorted (ids : List GroupId) :
      (ids.mergeSort fun left right => decide (left.index ≤ right.index)).Pairwise
        fun left right => left.index ≤ right.index := by
    have hbelow : List.Pairwise (fun left right : GroupId => decide (left.index ≤ right.index))
        (ids.mergeSort fun left right => decide (left.index ≤ right.index)) :=
      List.pairwise_mergeSort (by simp; omega) (by simp; omega) ids
    simpa using hbelow
  constructor
  · intro h
    exact (List.mergeSort_perm left _).symm.trans (h ▸ List.mergeSort_perm right _)
  · intro h
    refine List.Perm.eq_of_pairwise (fun first second _ _ hle hge => ?_) (hsorted left)
      (hsorted right) ?_
    · cases first
      cases second
      simp_all
      omega
    · exact ((List.mergeSort_perm left _).trans h).trans (List.mergeSort_perm right _).symm

namespace Memo

variable {memo : Memo} {op : Operator} {children : List GroupId}

/-- An alternative of a matching operator is filed under the given children exactly if it is a twin
whose children are still masters. -/
theorem filedChildren_eq_iff (hends : memo.LinksEnd) {expr : MemoExpr}
    (hop : expr.op.same op = true) :
    filedChildren expr.op expr.children = filedChildren op (children.map memo.master) ↔
      memo.isTwin expr op children = true ∧ ∀ child ∈ expr.children, memo.master child = child := by
  have hidem : (children.map memo.master).map memo.master = children.map memo.master := by
    rw [List.map_map]
    exact List.map_congr_left fun child _ => hends.master_master child
  have hfixed (h : ∀ child ∈ expr.children, memo.master child = child) :
      expr.children.map memo.master = expr.children := by
    conv_rhs => rw [← List.map_id expr.children]
    exact List.map_congr_left h
  unfold filedChildren isTwin
  rw [← Operator.orderSensitive_eq_of_same hop, hop]
  -- children are filed sorted unless their order matters
  cases hsensitive : expr.op.orderSensitive with
  | true =>
      simp only [if_true, Bool.and_true, Bool.and_eq_true, beq_iff_eq]
      constructor
      · intro h
        have hmasters : ∀ child ∈ expr.children, memo.master child = child := by
          intro child hchild
          rw [h] at hchild
          obtain ⟨given, _, rfl⟩ := List.mem_map.mp hchild
          exact hends.master_master given
        refine ⟨⟨?_, ?_⟩, hmasters⟩
        · rw [h, List.length_map]
        · rw [hfixed hmasters, h]
      · rintro ⟨⟨_, h⟩, hmasters⟩
        rw [← h, hfixed hmasters]
  | false =>
      simp only [Bool.false_eq_true, if_false, Bool.and_true, Bool.and_eq_true, beq_iff_eq,
        List.isPerm_iff, mergeSort_index_eq_iff]
      constructor
      · intro h
        have hmasters : ∀ child ∈ expr.children, memo.master child = child := by
          intro child hchild
          obtain ⟨given, _, rfl⟩ := List.mem_map.mp (h.subset hchild)
          exact hends.master_master given
        refine ⟨⟨?_, ?_⟩, hmasters⟩
        · rw [h.length_eq, List.length_map]
        · rw [hfixed hmasters]
          exact h
      · rintro ⟨⟨_, h⟩, hmasters⟩
        rwa [hfixed hmasters] at h

/-- The search for a twin succeeds exactly if some twin has only masters as children. -/
theorem exists_findTwin?_iff (hends : memo.LinksEnd) :
    (∃ twin, memo.findTwin? op (children.map memo.master) = some twin) ↔
      ∃ id expr, memo.expr? id = some expr ∧ memo.isTwin expr op children = true ∧
        ∀ child ∈ expr.children, memo.master child = child := by
  constructor
  · rintro ⟨twin, htwin⟩
    obtain ⟨expr, hexpr, hop, hfiled⟩ := findTwin?_eq_some htwin
    exact ⟨twin, expr, hexpr, (filedChildren_eq_iff hends hop).mp hfiled⟩
  · rintro ⟨id, expr, hexpr, htwin, hmasters⟩
    have hop : expr.op.same op = true := by
      unfold isTwin at htwin
      simp only [Bool.and_eq_true] at htwin
      exact htwin.1.2
    cases hfound : memo.findTwin? op (children.map memo.master) with
    | some twin => exact ⟨twin, rfl⟩
    | none =>
        exact absurd ((filedChildren_eq_iff hends hop).mpr ⟨htwin, hmasters⟩)
          (findTwin?_eq_none hfound hexpr hop)

end Memo

variable {memo : Memo} {op : Operator} {children : List GroupId} {target : Option GroupId}

/-- An insertion finds an alternative again exactly if there is a twin none of whose children was
merged into another group since it was created. Then it answers a twin and adds nothing, and the
target and the group of the twin have one master afterwards. Otherwise it creates one alternative,
even if there is a twin. -/
theorem Planning.insert_reuses_iff (origin : Option Origin) (h : memo.Reachable)
    (hvalid : memo.Insertable op children target) :
    ∃ outcome final, exec (insert op children target origin) memo = (.ok outcome, final) ∧
      (outcome.isNew = false ↔ ∃ id expr, memo.expr? id = some expr ∧
        memo.isTwin expr op children = true ∧ ∀ child ∈ expr.children, memo.master child = child) ∧
      (outcome.isNew = false → ∃ expr, memo.expr? outcome.expr = some expr ∧
        memo.isTwin expr op children = true ∧
        final.groups.size = memo.groups.size ∧ final.exprs.size = memo.exprs.size ∧
        outcome.group = final.master expr.group ∧
        ∀ id ∈ target, final.master id = final.master expr.group) ∧
      (outcome.isNew = true → outcome.expr = ⟨memo.exprs.size⟩ ∧
        final.exprs.size = memo.exprs.size + 1) := by
  have hwell := h.wellFormed
  have hends := hwell.linksEnd
  obtain ⟨outcome, final, hexec, hinserts⟩ | ⟨_, _, _, hfail⟩ :=
    (Post.insert origin hwell hvalid).exists_exec
  swap
  · exact hfail.elim
  refine ⟨outcome, final, hexec, ?_⟩
  rw [← Memo.exists_findTwin?_iff hends]
  cases hinserts with
  | @found twin expr final htwin hexpr hhome hsame =>
      refine ⟨⟨fun _ => ⟨twin, htwin⟩, fun _ => rfl⟩, fun _ => ⟨expr, hexpr, ?_⟩, by simp⟩
      obtain ⟨other, hother, hop, hfiled⟩ := Memo.findTwin?_eq_some htwin
      rw [hexpr] at hother
      obtain rfl := Option.some.inj hother
      refine ⟨((Memo.filedChildren_eq_iff hends hop).mp hfiled).1, hsame.groups_size,
        hsame.exprs_size, rfl, fun id hid => ?_⟩
      rw [hsame.master hends, hsame.master hends, hhome id hid]
  | @united twin expr final id joining into htwin hexpr htarget haway hlinked hunites =>
      refine ⟨⟨fun _ => ⟨twin, htwin⟩, fun _ => rfl⟩, fun _ => ⟨expr, hexpr, ?_⟩, by simp⟩
      obtain ⟨other, hother, hop, hfiled⟩ := Memo.findTwin?_eq_some htwin
      rw [hexpr] at hother
      obtain rfl := Option.some.inj hother
      refine ⟨((Memo.filedChildren_eq_iff hends hop).mp hfiled).1, hunites.groups_size,
        hunites.exprs_size, rfl, fun given hgiven => ?_⟩
      rw [htarget] at hgiven
      obtain rfl := Option.some.inj hgiven
      rw [hunites.masters, hunites.masters]
      rcases hlinked with ⟨rfl, rfl⟩ | ⟨rfl, rfl⟩
      · rw [if_pos rfl, if_neg (Ne.symm haway)]
      · rw [if_neg haway, if_pos rfl]
  | added htwin _ hsame =>
      refine ⟨⟨fun hnew => by simp at hnew, fun hfound => ?_⟩, fun hnew => by simp at hnew,
        fun _ => ⟨rfl, ?_⟩⟩
      · obtain ⟨twin, hfound⟩ := hfound
        simp [htwin] at hfound
      · rw [Memo.exprs_size_addAlternative, hsame.exprs_size]
  | @created _ properties htwin _ _ hsame =>
      refine ⟨⟨fun hnew => by simp at hnew, fun hfound => ?_⟩, fun hnew => by simp at hnew,
        fun _ => ⟨rfl, ?_⟩⟩
      · obtain ⟨twin, hfound⟩ := hfound
        simp [htwin] at hfound
      · rw [Memo.exprs_size_addAlternative]
        exact congrArg (· + 1) hsame.exprs_size

/-- A memo after one more insertion into a new group. -/
def Memo.withInserted (memo : Memo) (op : Operator) (children : List GroupId) : Memo :=
  (exec (Planning.insert op children none none) memo).2

/-- Two tables, an aggregate over the first one, and then the first table linked to the second. -/
def Memo.outdated : Memo :=
  let access (id : Nat) : TableAccess := { table := { id, name := "", rows := 0 }, columns := [] }
  let tables := (({} : Memo).withInserted (.logical (.get (access 0))) []).withInserted
    (.logical (.get (access 1))) []
  let above := tables.withInserted (.logical (.groupBy [] [])) [⟨0⟩]
  (exec (Planning.addDuplicate ⟨0⟩ ⟨1⟩) above).2

/-- The aggregate is created a second time: its twin is filed under the group that was linked. -/
theorem Planning.insert_outdated_twin :
    Memo.outdated.Reachable ∧ Memo.outdated.Insertable (.logical (.groupBy [] [])) [⟨0⟩] none ∧
    (∃ id expr, Memo.outdated.expr? id = some expr ∧
      Memo.outdated.isTwin expr (.logical (.groupBy [] [])) [⟨0⟩] = true) ∧
    ∃ outcome final, exec (insert (.logical (.groupBy [] [])) [⟨0⟩] none none) Memo.outdated =
      (.ok outcome, final) ∧ outcome.isNew = true ∧
        final.exprs.size = Memo.outdated.exprs.size + 1 := by
  have hreachable : Memo.outdated.Reachable :=
    ((((Memo.Reachable.empty.insert _ _ _ _).insert _ _ _ _).insert _ _ _ _).addDuplicate _ _)
  have hvalid : Memo.outdated.Insertable (.logical (.groupBy [] [])) [⟨0⟩] none := by
    refine ⟨fun id hid => ?_, fun count hcount => ?_, fun hphysical => ?_⟩
    · obtain rfl : id = ⟨0⟩ := by simpa using hid
      decide +kernel
    · simpa [Operator.arity, LogicalOperator.arity] using hcount
    · simp [Operator.isPhysical, Operator.physical?] at hphysical
  have htwin : (Memo.outdated.expr? ⟨2⟩).any (fun expr =>
      Memo.outdated.isTwin expr (.logical (.groupBy [] [])) [⟨0⟩]) = true := by decide +kernel
  obtain ⟨twin, hfound, hsameTwin⟩ := (Option.any_eq_true _ _).mp htwin
  -- the only twin has the linked group as its child
  have hnone : Memo.outdated.exprs.all (fun expr =>
      !(Memo.outdated.isTwin expr (.logical (.groupBy [] [])) [⟨0⟩] &&
        expr.children.all fun child => Memo.outdated.master child == child)) = true := by
    decide +kernel
  obtain ⟨outcome, final, hexec, hiff, _, hadds⟩ :=
    insert_reuses_iff none hreachable hvalid
  have hnew : outcome.isNew = true := by
    by_contra hreused
    obtain ⟨id, expr, hexpr, hsame, hmasters⟩ := hiff.mp (Bool.not_eq_true _ ▸ hreused)
    have hother := Array.all_eq_true'.mp hnone expr (Array.mem_of_getElem? hexpr)
    rw [hsame, Bool.true_and, Bool.not_eq_true', ← Bool.not_eq_true, List.all_eq_true] at hother
    exact hother fun child hchild => beq_iff_eq.mpr (hmasters child hchild)
  exact ⟨hreachable, hvalid, ⟨⟨2⟩, twin, hfound, hsameTwin⟩, outcome, final, hexec,
    hnew, (hadds hnew).2⟩

end QueryPlanner
