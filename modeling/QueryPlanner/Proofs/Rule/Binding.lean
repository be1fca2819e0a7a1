import QueryPlanner.Binding
import QueryPlanner.Proofs.Memo.WellFormed

/-!
# Trees that are bound to a pattern

`Memo.Binds` says what a tree bound to a pattern looks like: every node is an alternative that the
pattern admits, over the masters of its children. A cursor points at such a tree (`Memo.Points`),
and goes on to another one; so all trees that are listed are bound to the pattern.
-/

namespace QueryPlanner

namespace Memo

mutual

/-- A tree of a group that is bound to a pattern. -/
inductive Binds (memo : Memo) : Pattern → GroupId → BoundExpr → Prop
  | leaf {pattern : Pattern} {group : GroupId} (whole : pattern.isLeaf = true) :
      Binds memo pattern group (.leaf group)
  | node {pattern : Pattern} {id : ExprId} {expr : MemoExpr} {children : List BoundExpr}
      (found : memo.expr? id = some expr) (admitted : pattern.admits expr.op expr.arity = true)
      (below : BindsAll memo pattern 0 expr.children children) :
      Binds memo pattern (memo.master expr.group)
        (.node id (memo.master expr.group) expr.op children)

/-- Trees of several groups, the children of an alternative from a position on. -/
inductive BindsAll (memo : Memo) : Pattern → Nat → List GroupId → List BoundExpr → Prop
  | nil {pattern : Pattern} {position : Nat} : BindsAll memo pattern position [] []
  | cons {pattern below : Pattern} {position : Nat} {child : GroupId} {children : List GroupId}
      {bound : BoundExpr} {bounds : List BoundExpr} (asked : pattern.child? position = some below)
      (first : Binds memo below (memo.master child) bound)
      (rest : BindsAll memo pattern (position + 1) children bounds) :
      BindsAll memo pattern position (child :: children) (bound :: bounds)

end

mutual

/-- A cursor at trees of a group that are bound to a pattern. -/
inductive Points (memo : Memo) : Pattern → GroupId → Cursor → Prop
  | leaf {pattern : Pattern} {group : GroupId} (whole : pattern.isLeaf = true) :
      Points memo pattern group (.leaf group)
  | tree {pattern : Pattern} {id : ExprId} {expr : MemoExpr} {children : List Cursor}
      (found : memo.expr? id = some expr) (admitted : pattern.admits expr.op expr.arity = true)
      (below : PointsAll memo pattern 0 expr.children children) :
      Points memo pattern (memo.master expr.group)
        (.tree id (memo.master expr.group) expr.op children)
  | choice {pattern : Pattern} {group : GroupId} {all remaining : List ExprId} {present : Cursor}
      (owned : ∀ id ∈ all, ∀ expr, memo.expr? id = some expr → memo.master expr.group = group)
      (rest : remaining ⊆ all) (now : Points memo pattern group present) :
      Points memo pattern group (.choice pattern all remaining present)

/-- Cursors at trees of several groups, the children of an alternative from a position on. -/
inductive PointsAll (memo : Memo) : Pattern → Nat → List GroupId → List Cursor → Prop
  | nil {pattern : Pattern} {position : Nat} : PointsAll memo pattern position [] []
  | cons {pattern below : Pattern} {position : Nat} {child : GroupId} {children : List GroupId}
      {cursor : Cursor} {cursors : List Cursor} (asked : pattern.child? position = some below)
      (first : Points memo below (memo.master child) cursor)
      (rest : PointsAll memo pattern (position + 1) children cursors) :
      PointsAll memo pattern position (child :: children) (cursor :: cursors)

end

variable {memo : Memo} {pattern : Pattern} {group : GroupId}

/-- A tree that is bound for a group is one of the group. -/
theorem Binds.group_eq {bound : BoundExpr} (h : memo.Binds pattern group bound) :
    bound.group = group := by
  cases h <;> rfl

/-- The groups of bound trees are the masters of the children. -/
theorem BindsAll.map_group {position : Nat} {children : List GroupId} {bounds : List BoundExpr}
    (h : memo.BindsAll pattern position children bounds) :
    bounds.map BoundExpr.group = children.map memo.master := by
  induction bounds generalizing position children with
  | nil =>
      cases h
      rfl
  | cons bound bounds ih =>
      cases h with
      | cons asked first rest => rw [List.map_cons, List.map_cons, first.group_eq, ih rest]

mutual

/-- The tree that a cursor points at. -/
theorem binds_current : (cursor : Cursor) → {pattern : Pattern} → {group : GroupId} →
    memo.Points pattern group cursor → memo.Binds pattern group cursor.current
  | .leaf _, _, _, h => by
      cases h with
      | leaf whole => exact .leaf whole
  | .tree _ _ _ children, _, _, h => by
      cases h with
      | tree found admitted below => exact .node found admitted (bindsAll_currentAll children below)
  | .choice _ _ _ present, _, _, h => by
      cases h with
      | choice _ _ now => exact binds_current present now

theorem bindsAll_currentAll : (cursors : List Cursor) → {pattern : Pattern} → {position : Nat} →
    {children : List GroupId} → memo.PointsAll pattern position children cursors →
    memo.BindsAll pattern position children (Cursor.currentAll cursors)
  | [], _, _, _, h => by
      cases h
      exact .nil
  | cursor :: rest, _, _, _, h => by
      cases h with
      | cons asked first below =>
          exact .cons asked (binds_current cursor first) (bindsAll_currentAll rest below)

end

/-! ## The first tree -/

/-- The first of the remaining alternatives that can be bound. -/
theorem points_choose {bind : ExprId → Option Cursor} {all remaining : List ExprId}
    {cursor : Cursor}
    (hbind : ∀ id present, bind id = some present →
      ∃ expr, memo.expr? id = some expr ∧ memo.Points pattern (memo.master expr.group) present)
    (howned : ∀ id ∈ all, ∀ expr, memo.expr? id = some expr → memo.master expr.group = group)
    (hrest : remaining ⊆ all)
    (hchosen : Cursor.choose bind pattern all remaining = some cursor) :
    memo.Points pattern group cursor := by
  induction remaining with
  | nil => simp [Cursor.choose] at hchosen
  | cons id rest ih =>
      unfold Cursor.choose at hchosen
      split at hchosen
      · rename_i present hpresent
        obtain rfl := Option.some.inj hchosen
        obtain ⟨expr, hexpr, hpoints⟩ := hbind id present hpresent
        rw [howned id (hrest (by simp)) expr hexpr] at hpoints
        exact .choice howned (List.subset_of_cons_subset hrest) hpoints
      · exact ih (List.subset_of_cons_subset hrest) hchosen

/-- Cursors at all children, found one after the other. -/
theorem pointsAll_of_mapM {find : GroupId × Nat → Option Cursor} {children : List GroupId}
    {position : Nat} {cursors : List Cursor}
    (hfind : ∀ child ∈ children, ∀ position cursor, find (child, position) = some cursor →
      ∃ below, pattern.child? position = some below ∧
        memo.Points below (memo.master child) cursor)
    (hfound : (children.zipIdx position).mapM find = some cursors) :
    memo.PointsAll pattern position children cursors := by
  induction children generalizing position cursors with
  | nil =>
      obtain rfl := Option.some.inj hfound
      exact .nil
  | cons child rest ih =>
      rw [List.zipIdx_cons, List.mapM_cons] at hfound
      obtain ⟨cursor, hcursor, hfound⟩ := Option.bind_eq_some_iff.mp hfound
      obtain ⟨others, hothers, hfound⟩ := Option.bind_eq_some_iff.mp hfound
      obtain rfl := Option.some.inj hfound
      obtain ⟨below, hasked, hpoints⟩ := hfind child (by simp) position cursor hcursor
      exact .cons hasked hpoints
        (ih (fun other hother => hfind other (by simp [hother])) hothers)

/-- A master lists alternatives of its own. -/
theorem WellFormed.master_of_mem_alternativesOf (h : memo.WellFormed) {child : GroupId} {id : ExprId}
    {expr : MemoExpr} (hid : id ∈ memo.alternativesOf (memo.master child))
    (hexpr : memo.expr? id = some expr) : memo.master expr.group = memo.master child := by
  obtain ⟨_, expr', hexpr', howner⟩ := h.owned hid
  obtain rfl := Option.some.inj (hexpr.symm.trans hexpr')
  rw [howner, h.linksEnd.master_master]

/-- The first tree at an alternative, by induction on the levels looked at. -/
theorem WellFormed.points_firstTreeUpTo (h : memo.WellFormed) {fuel : Nat} {pattern : Pattern}
    {id : ExprId} {cursor : Cursor} (hfirst : memo.firstTreeUpTo fuel pattern id = some cursor) :
    ∃ expr, memo.expr? id = some expr ∧ memo.Points pattern (memo.master expr.group) cursor := by
  induction fuel generalizing pattern id cursor with
  | zero => simp [firstTreeUpTo] at hfirst
  | succ fuel ih =>
      unfold firstTreeUpTo at hfirst
      obtain ⟨expr, hexpr, hfirst⟩ := Option.bind_eq_some_iff.mp hfirst
      split at hfirst
      · rename_i hadmitted
        obtain ⟨children, hchildren, hfirst⟩ := Option.bind_eq_some_iff.mp hfirst
        obtain rfl := Option.some.inj hfirst
        refine ⟨expr, hexpr, .tree hexpr hadmitted (pointsAll_of_mapM ?_ hchildren)⟩
        intro child _ position cursor hfound
        obtain ⟨below, hasked, hfound⟩ := Option.bind_eq_some_iff.mp hfound
        refine ⟨below, hasked, ?_⟩
        dsimp only at hfound
        split at hfound
        · rename_i hwhole
          obtain rfl := Option.some.inj hfound
          exact .leaf hwhole
        · refine points_choose (fun _ _ hpresent => ih hpresent) (fun other hother found hother' => ?_)
            (List.Subset.refl _) hfound
          exact h.master_of_mem_alternativesOf hother hother'
      · simp at hfirst

/-- The first tree at one of several alternatives of a group. -/
theorem WellFormed.points_firstChoice (h : memo.WellFormed) {all : List ExprId} {cursor : Cursor}
    (howned : ∀ id ∈ all, ∀ expr, memo.expr? id = some expr → memo.master expr.group = group)
    (hchosen : memo.firstChoice pattern all = some cursor) : memo.Points pattern group cursor :=
  points_choose (fun _ _ hpresent => h.points_firstTreeUpTo hpresent) howned (List.Subset.refl _)
    hchosen

/-! ## Further trees -/

/-- Going back to the first alternative. -/
theorem WellFormed.points_restart (h : memo.WellFormed) {cursor : Cursor}
    (hpoints : memo.Points pattern group cursor) :
    memo.Points pattern group (memo.restart cursor) := by
  cases hpoints with
  | leaf whole => exact .leaf whole
  | tree found admitted below => exact .tree found admitted below
  | @choice _ _ all remaining present owned rest now =>
      show memo.Points pattern group ((memo.firstChoice pattern all).getD _)
      cases hchosen : memo.firstChoice pattern all with
      | none => exact .choice owned rest now
      | some chosen => exact h.points_firstChoice owned hchosen

theorem WellFormed.pointsAll_restart (h : memo.WellFormed) {position : Nat}
    {children : List GroupId} {cursors : List Cursor}
    (hpoints : memo.PointsAll pattern position children cursors) :
    memo.PointsAll pattern position children (cursors.map memo.restart) := by
  induction cursors generalizing position children with
  | nil => exact hpoints
  | cons cursor rest ih =>
      cases hpoints with
      | cons asked first below => exact .cons asked (h.points_restart first) (ih below)

mutual

/-- The next choice after a given one. -/
theorem WellFormed.points_advance (h : memo.WellFormed) : (cursor : Cursor) →
    {pattern : Pattern} → {group : GroupId} → {next : Cursor} →
    memo.Points pattern group cursor → memo.advance cursor = some next →
    memo.Points pattern group next
  | .leaf _, _, _, _, _, hnext => by simp [advance] at hnext
  | .tree _ _ _ children, _, _, _, hpoints, hnext => by
      cases hpoints with
      | tree found admitted below =>
          unfold advance at hnext
          obtain ⟨advanced, hadvanced, rfl⟩ := Option.map_eq_some_iff.mp hnext
          exact .tree found admitted (pointsAll_advanceLast h children below hadvanced)
  | .choice pattern all remaining present, _, _, _, hpoints, hnext => by
      cases hpoints with
      | choice owned rest now =>
          unfold advance at hnext
          split at hnext
          · rename_i advanced hadvanced
            obtain rfl := Option.some.inj hnext
            exact .choice owned rest (points_advance h present now hadvanced)
          · exact points_choose (fun _ _ hpresent => h.points_firstTreeUpTo hpresent) owned rest hnext

theorem WellFormed.pointsAll_advanceLast (h : memo.WellFormed) : (cursors : List Cursor) →
    {pattern : Pattern} → {position : Nat} → {children : List GroupId} → {next : List Cursor} →
    memo.PointsAll pattern position children cursors → memo.advanceLast cursors = some next →
    memo.PointsAll pattern position children next
  | [], _, _, _, _, _, hnext => by simp [advanceLast] at hnext
  | cursor :: rest, _, _, _, _, hpoints, hnext => by
      cases hpoints with
      | cons asked first below =>
          unfold advanceLast at hnext
          split at hnext
          · rename_i advanced hadvanced
            obtain rfl := Option.some.inj hnext
            exact .cons asked first (pointsAll_advanceLast h rest below hadvanced)
          · obtain ⟨advanced, hadvanced, rfl⟩ := Option.map_eq_some_iff.mp hnext
            exact .cons asked (points_advance h cursor first hadvanced) (h.pointsAll_restart below)

end

/-- All trees that are listed from a cursor on. -/
theorem WellFormed.binds_of_mem_treesFrom (h : memo.WellFormed) {limit : Nat}
    {cursor : Option Cursor} {bound : BoundExpr}
    (hcursor : ∀ now ∈ cursor, memo.Points pattern group now)
    (hbound : bound ∈ memo.treesFrom limit cursor) : memo.Binds pattern group bound := by
  induction limit generalizing cursor with
  | zero => simp [treesFrom] at hbound
  | succ limit ih =>
      cases cursor with
      | none => simp [treesFrom] at hbound
      | some now =>
          unfold treesFrom at hbound
          rcases List.mem_cons.mp hbound with rfl | hbound
          · exact binds_current now (hcursor now rfl)
          · exact ih (fun next hnext => h.points_advance now (hcursor now rfl) hnext) hbound

end Memo

namespace Planning

open Memo (SameContent)

variable {memo : Memo}

/-- The trees at an alternative are bound to the pattern. Listing them leaves the content. -/
theorem Post.bindExpr {pattern : Pattern} {id : ExprId} {limit : Option Nat} (h : memo.WellFormed) :
    Post (bindExpr pattern id limit) memo
      (fun trees final => SameContent memo final ∧ ∃ expr, memo.expr? id = some expr ∧
        ∀ bound ∈ trees, memo.Binds pattern (memo.master expr.group) bound)
      (fun _ final => final = memo) := by
  refine Post.bind (Post.expr (fun expr hexpr => ?_) fun _ => rfl)
  refine Post.bind (Post.get (Post.bind (Post.set (Post.pure
    ⟨Memo.sameContent_compressAll, expr, hexpr, fun bound hbound => ?_⟩))))
  refine h.binds_of_mem_treesFrom (fun now hnow => ?_) hbound
  refine h.points_firstChoice (fun other hother found hfound => ?_) hnow
  obtain rfl := List.mem_singleton.mp hother
  rw [Option.some.inj (hexpr.symm.trans hfound)]

end Planning

end QueryPlanner
