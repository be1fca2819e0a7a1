import Mathlib
import QueryPlanner.Proofs.Rule.Enumeration

/-!
# Cursors run through all trees

A cursor over the trees of an alternative is an odometer with one wheel per child.
`Memo.AheadTree` and `Memo.Ahead` say which trees are still ahead of a cursor. To advance drops the
first of them (`Memo.ahead_advance`), and the first cursor has all of them ahead
(`Memo.Bounded.described`).
-/

namespace QueryPlanner

open Planning (exec Post)

namespace Memo

mutual

/-- The trees that are ahead of the cursor of a child, the present one first, out of all trees of
the child. -/
inductive Ahead (memo : Memo) : Cursor → List BoundExpr → List BoundExpr → Prop
  | leaf {group : GroupId} : Ahead memo (.leaf group) [.leaf group] [.leaf group]
  | choice {pattern : Pattern} {all remaining : List ExprId} {present : Cursor}
      {trees now later : List BoundExpr} (opened : pattern.isLeaf = false) (inhabited : trees ≠ [])
      (bounded : ∀ id ∈ all, memo.Bounded pattern id) (rest : remaining ⊆ all)
      (among : memo.TreesAmong pattern all trees)
      (after : memo.TreesAmong pattern remaining later) (first : AheadTree memo present now) :
      Ahead memo (.choice pattern all remaining present) trees (now ++ later)

/-- The trees that are ahead of the cursor of an alternative. -/
inductive AheadTree (memo : Memo) : Cursor → List BoundExpr → Prop
  | tree {id : ExprId} {group : GroupId} {op : Operator} {cursors : List Cursor}
      {combinations ahead : List (List BoundExpr)} (below : AheadAll memo cursors combinations ahead) :
      AheadTree memo (.tree id group op cursors) (ahead.map (.node id group op))

/-- The combinations that are ahead of the cursors of several children, out of all of them. -/
inductive AheadAll (memo : Memo) :
    List Cursor → List (List BoundExpr) → List (List BoundExpr) → Prop
  | nil : AheadAll memo [] [[]] [[]]
  | cons {cursor : Cursor} {cursors : List Cursor} {trees later : List BoundExpr}
      {combinations ahead : List (List BoundExpr)}
      (first : Ahead memo cursor trees (cursor.current :: later))
      (rest : AheadAll memo cursors combinations ahead) :
      AheadAll memo (cursor :: cursors) (combine trees combinations)
        (ahead.map (cursor.current :: ·) ++ combine later combinations)

end

variable {memo : Memo} {pattern : Pattern} {id : ExprId}

mutual

/-- The first tree ahead is the one that the cursor stands for. -/
theorem Ahead.head : (cursor : Cursor) → {trees ahead : List BoundExpr} →
    memo.Ahead cursor trees ahead → ∃ later, ahead = cursor.current :: later
  | .leaf _, _, _, h => by
      cases h
      exact ⟨[], rfl⟩
  | .tree .., _, _, h => by cases h
  | .choice _ _ _ present, _, _, h => by
      cases h with
      | choice _ _ _ _ _ _ first =>
          obtain ⟨later, rfl⟩ := AheadTree.head present first
          exact ⟨_, List.cons_append⟩

theorem AheadTree.head : (cursor : Cursor) → {ahead : List BoundExpr} →
    memo.AheadTree cursor ahead → ∃ later, ahead = cursor.current :: later
  | .leaf _, _, h => by cases h
  | .tree _ _ _ cursors, _, h => by
      cases h with
      | tree below =>
          obtain ⟨later, rfl⟩ := AheadAll.head cursors below
          exact ⟨_, List.map_cons⟩
  | .choice .., _, h => by cases h

theorem AheadAll.head : (cursors : List Cursor) →
    {combinations ahead : List (List BoundExpr)} → memo.AheadAll cursors combinations ahead →
    ∃ later, ahead = Cursor.currentAll cursors :: later
  | [], _, _, h => by
      cases h
      exact ⟨[], rfl⟩
  | cursor :: rest, _, _, h => by
      cases h with
      | cons _ below =>
          obtain ⟨later, rfl⟩ := AheadAll.head rest below
          exact ⟨_, by rw [List.map_cons, List.cons_append]; rfl⟩

end

/-! ## The first tree -/

/-- Trees at an alternative have it on top. -/
theorem TreesAt.top {trees : List BoundExpr} (h : memo.TreesAt pattern id trees) :
    ∀ tree ∈ trees, ∃ group op children, tree = .node id group op children := by
  cases h with
  | refused _ => simp
  | admitted _ _ _ =>
      intro tree htree
      obtain ⟨children, _, rfl⟩ := List.mem_map.mp htree
      exact ⟨_, _, children, rfl⟩

theorem TreesAmong.top {ids : List ExprId} {trees : List BoundExpr}
    (h : memo.TreesAmong pattern ids trees) :
    ∀ tree ∈ trees, ∃ id ∈ ids, ∃ group op children, tree = .node id group op children := by
  induction ids generalizing trees with
  | nil =>
      cases h
      simp
  | cons first rest ih =>
      cases h with
      | cons hfirst hrest =>
          intro tree htree
          rcases List.mem_append.mp htree with htree | htree
          · exact ⟨first, by simp, hfirst.top tree htree⟩
          · obtain ⟨id, hid, htop⟩ := ih hrest tree htree
            exact ⟨id, by simp [hid], htop⟩

theorem TreesAmong.exists_subset {ids : List ExprId} {trees : List BoundExpr}
    (h : memo.TreesAmong pattern ids trees) (hid : id ∈ ids) :
    ∃ found, memo.TreesAt pattern id found ∧ found ⊆ trees := by
  induction ids generalizing trees with
  | nil => simp at hid
  | cons first rest ih =>
      cases h with
      | @cons _ _ _ found others hfirst hrest =>
          rcases List.mem_cons.mp hid with rfl | hid
          · exact ⟨found, hfirst, List.subset_append_left _ _⟩
          · obtain ⟨found, hfound, hsubset⟩ := ih hrest hid
            exact ⟨found, hfound, List.subset_append_of_subset_right _ hsubset⟩

/-- What is known about an alternative once its first tree was looked for. -/
structure Described (memo : Memo) (pattern : Pattern) (id : ExprId) (first : Option Cursor)
    (count : Nat) (trees : List BoundExpr) : Prop where
  listed : memo.TreesAt pattern id trees
  only : ∀ others, memo.TreesAt pattern id others → others = trees
  once : trees.Nodup
  first : first = none ∧ trees = [] ∨ ∃ cursor, first = some cursor ∧ memo.AheadTree cursor trees
  count : count = trees.length

/-- The trees at several alternatives. -/
theorem exists_treesAmong {first : ExprId → Option Cursor} {count : ExprId → Nat}
    {ids : List ExprId} (hnodup : ids.Nodup)
    (h : ∀ id ∈ ids, ∃ trees, memo.Described pattern id (first id) (count id) trees) :
    ∃ trees, memo.TreesAmong pattern ids trees ∧
      (∀ others, memo.TreesAmong pattern ids others → others = trees) ∧ trees.Nodup ∧
      (ids.map count).sum = trees.length := by
  induction ids with
  | nil =>
      refine ⟨[], .nil, fun others hothers => ?_, List.nodup_nil, rfl⟩
      cases hothers
      rfl
  | cons id rest ih =>
      rw [List.nodup_cons] at hnodup
      obtain ⟨trees, hid⟩ := h id (by simp)
      obtain ⟨others, hothers, honly, honce, hcount⟩ :=
        ih hnodup.2 fun other hother => h other (by simp [hother])
      refine ⟨trees ++ others, .cons hid.listed hothers, fun total htotal => ?_,
        List.nodup_append.mpr ⟨hid.once, honce, ?_⟩, ?_⟩
      · cases htotal with
        | cons hfirst hrest => rw [hid.only _ hfirst, honly _ hrest]
      · rintro tree htree other hother rfl
        obtain ⟨_, _, _, rfl⟩ := hid.listed.top tree htree
        obtain ⟨same, hsame, _, _, _, htop⟩ := hothers.top _ hother
        obtain rfl := (BoundExpr.node.inj htop).1
        exact hnodup.1 hsame
      · rw [List.map_cons, List.sum_cons, hid.count, hcount, List.length_append]

/-- The first of the remaining alternatives that has a tree is chosen. -/
theorem ahead_choose {bind : ExprId → Option Cursor} {count : ExprId → Nat}
    {all remaining : List ExprId} {trees later : List BoundExpr} (hopen : pattern.isLeaf = false)
    (hbounded : ∀ id ∈ all, memo.Bounded pattern id)
    (hbind : ∀ id ∈ all, ∃ trees, memo.Described pattern id (bind id) (count id) trees)
    (hrest : remaining ⊆ all) (hamong : memo.TreesAmong pattern all trees)
    (hlater : memo.TreesAmong pattern remaining later) :
    Cursor.choose bind pattern all remaining = none ∧ later = [] ∨
      ∃ cursor, Cursor.choose bind pattern all remaining = some cursor ∧
        memo.Ahead cursor trees later := by
  induction remaining generalizing later with
  | nil =>
      cases hlater
      exact .inl ⟨rfl, rfl⟩
  | cons id rest ih =>
      cases hlater with
      | @cons _ _ _ now later hfirst hlater =>
          have hrest' := List.subset_of_cons_subset hrest
          obtain ⟨found, hid⟩ := hbind id (hrest (by simp))
          obtain rfl := hid.only _ hfirst
          unfold Cursor.choose
          rcases hid.first with ⟨hnone, rfl⟩ | ⟨cursor, hcursor, hahead⟩
          · rw [hnone]
            exact ih hrest' hlater
          · have hinhabited : trees ≠ [] := by
              obtain ⟨found, hfound, hsubset⟩ := hamong.exists_subset (hrest List.mem_cons_self)
              rw [hid.only _ hfound] at hsubset
              obtain ⟨next, rfl⟩ := hahead.head
              rintro rfl
              simp at hsubset
            rw [hcursor]
            exact .inr ⟨_, rfl, .choice hopen hinhabited hbounded hrest' hamong hlater hahead⟩

theorem nodup_combine {trees : List BoundExpr} {lists : List (List BoundExpr)}
    (htrees : trees.Nodup) (hlists : lists.Nodup) : (combine trees lists).Nodup := by
  refine List.nodup_flatMap.mpr ⟨fun tree _ => hlists.map fun _ _ h => (List.cons.inj h).2, ?_⟩
  refine htrees.imp fun {left right} hne list hleft hright => hne ?_
  obtain ⟨_, _, rfl⟩ := List.mem_map.mp hleft
  obtain ⟨_, _, hsame⟩ := List.mem_map.mp hright
  exact (List.cons.inj hsame).1.symm

theorem length_combine (trees : List BoundExpr) (lists : List (List BoundExpr)) :
    (combine trees lists).length = trees.length * lists.length := by
  simp [combine, List.length_flatMap]

/-- What is known about a child once its first tree was looked for. -/
structure DescribedIn (memo : Memo) (pattern : Pattern) (group : GroupId) (first : Option Cursor)
    (count : Nat) (trees : List BoundExpr) : Prop where
  listed : memo.TreesIn pattern group trees
  only : ∀ others, memo.TreesIn pattern group others → others = trees
  once : trees.Nodup
  first : first = none ∧ trees = [] ∨ ∃ cursor, first = some cursor ∧ memo.Ahead cursor trees trees
  count : count = trees.length

/-- The combinations for the children of an alternative. -/
theorem exists_treesBelow {first : GroupId × Nat → Option Cursor} {count : GroupId × Nat → Nat}
    {children : List GroupId} {position : Nat}
    (h : ∀ index child, children[index]? = some child → ∃ below trees,
      pattern.child? (position + index) = some below ∧ memo.DescribedIn below (memo.master child)
        (first (child, position + index)) (count (child, position + index)) trees) :
    ∃ combinations, memo.TreesBelow pattern position children combinations ∧
      (∀ others, memo.TreesBelow pattern position children others → others = combinations) ∧
      combinations.Nodup ∧
      ((children.zipIdx position).mapM first = none ∧ combinations = [] ∨
        ∃ cursors, (children.zipIdx position).mapM first = some cursors ∧
          memo.AheadAll cursors combinations combinations) ∧
      ((children.zipIdx position).map count).prod = combinations.length := by
  induction children generalizing position with
  | nil =>
      refine ⟨[[]], .nil, fun others hothers => ?_, by simp, .inr ⟨[], rfl, .nil⟩, rfl⟩
      cases hothers
      rfl
  | cons child rest ih =>
      obtain ⟨below, trees, hasked, hchild⟩ := h 0 child rfl
      have hlater (index : Nat) (other : GroupId) (hother : rest[index]? = some other) :
          ∃ below trees, pattern.child? (position + 1 + index) = some below ∧
            memo.DescribedIn below (memo.master other) (first (other, position + 1 + index))
              (count (other, position + 1 + index)) trees := by
        rw [Nat.add_assoc, Nat.add_comm 1]
        exact h (index + 1) other hother
      obtain ⟨combinations, hrest, honly, honce, hfirst, hcount⟩ := ih hlater
      rw [Nat.add_zero] at hasked hchild
      -- the last child runs fastest: every tree of the first one is followed by all the rest
      refine ⟨combine trees combinations, .cons hasked hchild.listed hrest, fun others hothers => ?_,
        nodup_combine hchild.once honce, ?_, ?_⟩
      · cases hothers with
        | cons asked' first' rest' =>
            obtain rfl := Option.some.inj (hasked.symm.trans asked')
            rw [hchild.only _ first', honly _ rest']
      · rw [List.zipIdx_cons, List.mapM_cons]
        rcases hchild.first with ⟨hnone, rfl⟩ | ⟨cursor, hcursor, hahead⟩
        · exact .inl ⟨by rw [hnone]; rfl, rfl⟩
        · obtain ⟨later, rfl⟩ := hahead.head
          rcases hfirst with ⟨hnone, rfl⟩ | ⟨cursors, hcursors, haheadRest⟩
          · exact .inl ⟨by rw [hcursor, hnone]; rfl, by simp [combine]⟩
          · exact .inr ⟨cursor :: cursors, by rw [hcursor, hcursors]; rfl,
              .cons hahead haheadRest⟩
      · rw [List.zipIdx_cons, List.map_cons, List.prod_cons, hchild.count, hcount, length_combine]

/-- The first tree of a child, looking at most the given number of levels deep. -/
def firstIn (memo : Memo) (levels : Nat) (pattern : Pattern) (child : GroupId × Nat) :
    Option Cursor :=
  (pattern.child? child.2).bind fun below =>
    if below.isLeaf then some (.leaf (memo.master child.1))
    else Cursor.choose (memo.firstTreeUpTo levels below) below
      (memo.alternativesOf (memo.master child.1)) (memo.alternativesOf (memo.master child.1))

/-- The number of trees of a child, looking at most the given number of levels deep. -/
def countIn (memo : Memo) (levels : Nat) (pattern : Pattern) (child : GroupId × Nat) : Nat :=
  match pattern.child? child.2 with
  | none => 0
  | some below =>
    if below.isLeaf then 1
    else ((memo.alternativesOf (memo.master child.1)).map
      (memo.countTreesUpTo levels below)).foldl (· + ·) 0

theorem firstTreeUpTo_succ {levels : Nat} {expr : MemoExpr} (hexpr : memo.expr? id = some expr)
    (hadmits : pattern.admits expr.op expr.arity = true) :
    memo.firstTreeUpTo (levels + 1) pattern id =
      (expr.children.zipIdx.mapM (memo.firstIn levels pattern)).map
        (.tree id (memo.master expr.group) expr.op) := by
  unfold firstTreeUpTo
  rw [hexpr]
  show (if pattern.admits expr.op expr.arity = true then _ else none) = _
  rw [if_pos hadmits, Option.map_eq_bind]
  rfl

theorem countTreesUpTo_succ {levels : Nat} {expr : MemoExpr} (hexpr : memo.expr? id = some expr)
    (hfirst : memo.firstTreeUpTo (levels + 1) pattern id ≠ none) :
    memo.countTreesUpTo (levels + 1) pattern id =
      (expr.children.zipIdx.map (memo.countIn levels pattern)).prod := by
  obtain ⟨cursor, hcursor⟩ := Option.ne_none_iff_exists'.mp hfirst
  unfold countTreesUpTo
  rw [hexpr, hcursor, List.prod_eq_foldl]
  rfl

/-- The trees of an opened child. -/
theorem exists_describedIn {levels : Nat} {below : Pattern} {group : GroupId}
    (hhoused : memo.Housed) (hbounded : ∀ id ∈ memo.alternativesOf group, memo.Bounded below id)
    (hopen : below.isLeaf = false)
    (h : ∀ id ∈ memo.alternativesOf group, ∃ trees, memo.Described below id
      (memo.firstTreeUpTo levels below id) (memo.countTreesUpTo levels below id) trees) :
    ∃ trees, memo.DescribedIn below group
      (Cursor.choose (memo.firstTreeUpTo levels below) below (memo.alternativesOf group)
        (memo.alternativesOf group))
      (((memo.alternativesOf group).map (memo.countTreesUpTo levels below)).foldl (· + ·) 0)
      trees := by
  have hnodup : (memo.alternativesOf group).Nodup :=
    (hhoused.nodup group).sublist (List.sublist_append_left _ _)
  obtain ⟨trees, hamong, honly, honce, hcount⟩ := exists_treesAmong hnodup h
  refine ⟨trees, .expanded hopen hamong, fun others hothers => ?_, honce, ?_, ?_⟩
  · cases hothers with
    | leaf whole => simp [hopen] at whole
    | expanded _ among => exact honly _ among
  · exact ahead_choose hopen hbounded h (List.Subset.refl _) hamong hamong
  · rw [← hcount, List.sum_eq_foldl]

/-- A bounded alternative has a list of trees, and the search for the first one that looks deep
enough finds it, by induction on the levels. -/
theorem Bounded.described (hbounded : memo.Bounded pattern id) (hhoused : memo.Housed)
    {levels : Nat} (hwithin : memo.Within levels pattern id) (hopen : pattern.isLeaf = false) :
    ∃ trees, memo.Described pattern id (memo.firstTreeUpTo levels pattern id)
      (memo.countTreesUpTo levels pattern id) trees := by
  induction levels generalizing pattern id with
  | zero => exact hwithin.elim
  | succ levels ih =>
      -- a pattern that is refused has no first tree, and counts none
      have hnothing (hrefused : ∀ expr, memo.expr? id = some expr →
          pattern.admits expr.op expr.arity = false)
          (hfirst : memo.firstTreeUpTo (levels + 1) pattern id = none) :
          memo.Described pattern id (memo.firstTreeUpTo (levels + 1) pattern id)
            (memo.countTreesUpTo (levels + 1) pattern id) [] := by
        refine ⟨.refused hrefused, fun others hothers => ?_, List.nodup_nil, .inl ⟨hfirst, rfl⟩, ?_⟩
        · cases hothers with
          | refused => rfl
          | admitted found admitted => simp [hrefused _ found] at admitted
        · unfold countTreesUpTo
          rw [hfirst]
          cases memo.expr? id <;> rfl
      cases hexpr : memo.expr? id with
      | none => exact ⟨[], hnothing (by simp [hexpr]) (by simp [firstTreeUpTo, hexpr])⟩
      | some expr =>
          by_cases hadmits : pattern.admits expr.op expr.arity = true
          swap
          · refine ⟨[], hnothing (fun found hfound => ?_) (by simp [firstTreeUpTo, hexpr, hadmits])⟩
            obtain rfl := Option.some.inj (hexpr.symm.trans hfound)
            exact Bool.not_eq_true _ ▸ hadmits
          -- below each child stands the whole group, or the trees of its alternatives one level
          -- down
          have hchildren (index : Nat) (child : GroupId)
              (hchild : expr.children[index]? = some child) : ∃ below trees,
                pattern.child? (0 + index) = some below ∧
                  memo.DescribedIn below (memo.master child)
                    (memo.firstIn levels pattern (child, 0 + index))
                    (memo.countIn levels pattern (child, 0 + index)) trees := by
            rw [Nat.zero_add]
            obtain ⟨hindex, -⟩ := List.getElem?_eq_some_iff.mp hchild
            obtain ⟨below, hbelow⟩ := Pattern.exists_child? hopen hadmits hindex
            simp only [firstIn, countIn, hbelow, Option.bind_some]
            cases hwhole : below.isLeaf with
            | true =>
                refine ⟨below, [.leaf (memo.master child)], rfl, .leaf hwhole,
                  fun others hothers => ?_, by simp, .inr ⟨_, rfl, .leaf⟩, rfl⟩
                cases hothers with
                | leaf => rfl
                | expanded opened _ => simp [hwhole] at opened
            | false =>
                have hopens : memo.Opens pattern id below (memo.master child) :=
                  ⟨expr, hexpr, hadmits, child, index, hchild, hbelow, hwhole, rfl⟩
                have hbelowBounded (other : ExprId)
                    (hother : other ∈ memo.alternativesOf (memo.master child)) :=
                  hbounded.opened hopens hother
                obtain ⟨trees, htrees⟩ := exists_describedIn hhoused hbelowBounded hwhole
                  fun other hother => ih (hbelowBounded other hother)
                    (hwithin below _ hopens other hother) hwhole
                exact ⟨below, trees, rfl, htrees⟩
          obtain ⟨combinations, hbelow, honly, honce, hfirst, hcount⟩ := exists_treesBelow hchildren
          -- all combinations of these trees, each once, are the trees of the alternative
          have htree : memo.firstTreeUpTo (levels + 1) pattern id = _ :=
            firstTreeUpTo_succ hexpr hadmits
          refine ⟨_, .admitted hexpr hadmits hbelow, fun others hothers => ?_,
            honce.map fun _ _ hsame => (BoundExpr.node.inj hsame).2.2.2, ?_, ?_⟩
          · cases hothers with
            | refused refused => simp [refused expr hexpr] at hadmits
            | admitted found admitted below' =>
                obtain rfl := Option.some.inj (hexpr.symm.trans found)
                rw [honly _ below']
          · rw [htree]
            rcases hfirst with ⟨hnone, rfl⟩ | ⟨cursors, hcursors, hahead⟩
            · exact .inl ⟨by rw [hnone]; rfl, rfl⟩
            · exact .inr ⟨_, by rw [hcursors]; rfl, .tree hahead⟩
          · rw [List.length_map]
            rcases hfirst with ⟨hnone, rfl⟩ | ⟨cursors, hcursors, -⟩
            · rw [hnone, Option.map_none] at htree
              unfold countTreesUpTo
              rw [hexpr, htree]
              rfl
            · rw [← hcount, countTreesUpTo_succ hexpr (by rw [htree, hcursors]; simp)]

/-! ## The next tree -/

theorem Bounded.firstTree_described (h : memo.Bounded pattern id) (hhoused : memo.Housed)
    (hopen : pattern.isLeaf = false) : ∃ trees, memo.Described pattern id
      (memo.firstTree pattern id) (memo.countTreesUpTo (memo.treeDepth pattern) pattern id) trees :=
  h.described hhoused h.within hopen

/-- A child that starts again has all its trees ahead. -/
theorem Ahead.restart (hhoused : memo.Housed) {cursor : Cursor} {trees ahead : List BoundExpr}
    (h : memo.Ahead cursor trees ahead) : memo.Ahead (memo.restart cursor) trees trees := by
  cases h with
  | leaf => exact .leaf
  | @choice pattern all remaining present _ now later opened inhabited bounded rest among after
      first =>
      have hdescribed (id : ExprId) (hid : id ∈ all) :=
        (bounded id hid).firstTree_described hhoused opened
      have hchosen := ahead_choose opened bounded hdescribed (List.Subset.refl _) among among
      show memo.Ahead ((memo.firstChoice pattern all).getD _) trees trees
      unfold firstChoice
      rcases hchosen with ⟨-, hnone⟩ | ⟨cursor, hcursor, hahead⟩
      · exact absurd hnone inhabited
      · rw [hcursor]
        exact hahead

theorem AheadAll.restart (hhoused : memo.Housed) {cursors : List Cursor}
    {combinations ahead : List (List BoundExpr)} (h : memo.AheadAll cursors combinations ahead) :
    memo.AheadAll (cursors.map memo.restart) combinations combinations := by
  induction cursors generalizing combinations ahead with
  | nil =>
      cases h
      exact .nil
  | cons cursor rest ih =>
      cases h with
      | cons first below =>
          have hagain := first.restart hhoused
          obtain ⟨later, rfl⟩ := hagain.head
          exact .cons hagain (ih below)

mutual

/-- To advance drops the first tree ahead, and fails if there is no other one. -/
theorem ahead_advance (hhoused : memo.Housed) : (cursor : Cursor) →
    {trees ahead : List BoundExpr} → memo.Ahead cursor trees ahead →
    memo.advance cursor = none ∧ ahead.tail = [] ∨
      ∃ next, memo.advance cursor = some next ∧ memo.Ahead next trees ahead.tail
  | .leaf _, _, _, h => by
      cases h
      exact .inl ⟨rfl, rfl⟩
  | .tree .., _, _, h => by cases h
  | .choice pattern all remaining present, _, _, h => by
      cases h with
      | @choice _ _ _ _ _ now later opened inhabited bounded rest among after first =>
          obtain ⟨others, rfl⟩ := first.head
          rw [List.cons_append, List.tail_cons]
          unfold advance
          rcases aheadTree_advance hhoused present first with ⟨hnone, hlast⟩ | ⟨next, hnext, hahead⟩
          · rw [List.tail_cons] at hlast
            rw [hnone, hlast]
            exact ahead_choose opened bounded (fun id hid =>
              (bounded id hid).firstTree_described hhoused opened) rest among after
          · rw [hnext]
            exact .inr ⟨_, rfl, .choice opened inhabited bounded rest among after hahead⟩

theorem aheadTree_advance (hhoused : memo.Housed) : (cursor : Cursor) →
    {ahead : List BoundExpr} → memo.AheadTree cursor ahead →
    memo.advance cursor = none ∧ ahead.tail = [] ∨
      ∃ next, memo.advance cursor = some next ∧ memo.AheadTree next ahead.tail
  | .leaf _, _, h => by cases h
  | .tree _ _ _ cursors, _, h => by
      cases h with
      | @tree _ _ _ _ combinations ahead below =>
          unfold advance
          rw [← List.map_tail]
          rcases aheadAll_advance hhoused cursors below with ⟨hnone, hlast⟩ | ⟨next, hnext, hahead⟩
          · exact .inl ⟨by rw [hnone]; rfl, by rw [hlast]; rfl⟩
          · exact .inr ⟨_, by rw [hnext]; rfl, .tree hahead⟩
  | .choice .., _, h => by cases h

theorem aheadAll_advance (hhoused : memo.Housed) : (cursors : List Cursor) →
    {combinations ahead : List (List BoundExpr)} → memo.AheadAll cursors combinations ahead →
    memo.advanceLast cursors = none ∧ ahead.tail = [] ∨
      ∃ next, memo.advanceLast cursors = some next ∧ memo.AheadAll next combinations ahead.tail
  | [], _, _, h => by
      cases h
      exact .inl ⟨rfl, rfl⟩
  | cursor :: rest, _, _, h => by
      cases h with
      | @cons _ _ trees later combinations ahead first below =>
          obtain ⟨others, rfl⟩ := below.head
          rw [List.map_cons, List.cons_append, List.tail_cons]
          unfold advanceLast
          rcases aheadAll_advance hhoused rest below with ⟨hnone, hlast⟩ | ⟨next, hnext, hahead⟩
          · -- the children after this one have run through
            rw [List.tail_cons] at hlast
            rw [hnone, hlast, List.map_nil, List.nil_append]
            rcases ahead_advance hhoused cursor first with ⟨hstop, hend⟩ | ⟨next, hnext, hahead⟩
            · rw [List.tail_cons] at hend
              exact .inl ⟨by rw [hstop]; rfl, by rw [hend]; rfl⟩
            · rw [List.tail_cons] at hahead
              obtain ⟨further, rfl⟩ := hahead.head
              refine .inr ⟨_, by rw [hnext]; rfl, ?_⟩
              exact .cons hahead (below.restart hhoused)
          · rw [hnext]
            exact .inr ⟨_, rfl, .cons first hahead⟩

end

/-- The calls for one tree after the other answer what is ahead. -/
theorem treesFrom_eq_take (hhoused : memo.Housed) {cursor : Cursor} {trees ahead : List BoundExpr}
    (h : memo.Ahead cursor trees ahead) (limit : Nat) :
    memo.treesFrom limit (some cursor) = ahead.take limit := by
  induction limit generalizing cursor ahead with
  | zero => rfl
  | succ limit ih =>
      have hstep := ahead_advance hhoused cursor h
      obtain ⟨later, rfl⟩ := h.head
      unfold treesFrom
      rw [List.tail_cons] at hstep
      rw [List.take_succ_cons]
      rcases hstep with ⟨hnone, rfl⟩ | ⟨next, hnext, hahead⟩
      · rw [hnone, List.take_nil]
        cases limit <;> rfl
      · rw [hnext, ih hahead]

/-! ## Listing all trees -/

/-- The calls for the next tree at one of several alternatives run through all trees once. -/
structure Enumerates (memo : Memo) (pattern : Pattern) (all : List ExprId)
    (trees : List BoundExpr) : Prop where
  listed : memo.TreesAmong pattern all trees
  /-- The trees and their order are determined. -/
  only : ∀ others, memo.TreesAmong pattern all others → others = trees
  once : trees.Nodup
  /-- Any number of calls answers as many trees from the front, and nothing after the last one. -/
  calls : ∀ limit, memo.treesAmong pattern all limit = trees.take limit

theorem exists_enumerates (hhoused : memo.Housed) {all : List ExprId} (hnodup : all.Nodup)
    (hopen : pattern.isLeaf = false) (hbounded : ∀ id ∈ all, memo.Bounded pattern id) :
    ∃ trees, memo.Enumerates pattern all trees ∧ memo.countTrees pattern all = trees.length := by
  have hdescribed (id : ExprId) (hid : id ∈ all) :=
    (hbounded id hid).firstTree_described hhoused hopen
  obtain ⟨trees, hlisted, honly, honce, hcount⟩ := exists_treesAmong hnodup hdescribed
  refine ⟨trees, ⟨hlisted, honly, honce, fun limit => ?_⟩, ?_⟩
  · unfold treesAmong firstChoice
    rcases ahead_choose hopen hbounded hdescribed (List.Subset.refl _) hlisted hlisted with
      ⟨hnone, rfl⟩ | ⟨cursor, hcursor, hahead⟩
    · rw [hnone, List.take_nil]
      cases limit <;> rfl
    · rw [hcursor, treesFrom_eq_take hhoused hahead]
  · rw [← hcount, List.sum_eq_foldl]
    rfl

/-- What is listed with or without a limit. -/
theorem Enumerates.post_bindAmong {all : List ExprId} {trees : List BoundExpr}
    (h : memo.Enumerates pattern all trees) (hcount : memo.countTrees pattern all = trees.length)
    (limit : Option Nat) : Post (Planning.bindAmong pattern all limit) memo
      (fun answer _ => answer = limit.elim trees trees.take) fun _ _ => False := by
  refine Post.bind (Post.get (Post.bind (Post.set (Post.pure ?_))))
  rw [h.calls]
  cases limit with
  | some limit => rfl
  | none => rw [Option.getD_none, List.take_of_length_le (by omega)]; rfl

/-- A computation that cannot fail succeeds with the value that is known to be answered. -/
theorem fst_exec_eq {α : Type} {action : Planning α} {value : α}
    (h : Post action memo (fun answer _ => answer = value) fun _ _ => False) :
    (exec action memo).1 = .ok value := by
  obtain ⟨_, _, hexec, rfl⟩ | ⟨_, _, _, hfail⟩ := h.exists_exec
  · rw [hexec]
  · exact hfail.elim

/-- Binding a pattern to an alternative, or to those of a group, lists exactly the trees of the
recursive definition, each one once, and then nothing any more. -/
theorem Attainable.bind_enumerates (h : memo.Attainable) (hopen : pattern.isLeaf = false) :
    (∀ id, id.index < memo.exprs.size → memo.Bounded pattern id →
      ∃ trees, memo.Enumerates pattern [id] trees ∧
        ∀ limit, (exec (Planning.bindExpr pattern id limit) memo).1 =
          .ok (limit.elim trees trees.take)) ∧
    ∀ group, group.index < memo.groups.size →
      (∀ id ∈ memo.alternativesOf (memo.master group), memo.Bounded pattern id) →
      ∃ trees, memo.Enumerates pattern (memo.alternativesOf (memo.master group)) trees ∧
        ∀ limit, (exec (Planning.bindGroup pattern group limit) memo).1 =
          .ok (limit.elim trees trees.take) := by
  have hends := h.inOrder.1.linksEnd
  have hnodup (group : GroupId) : (memo.alternativesOf group).Nodup :=
    (h.housed.nodup group).sublist (List.sublist_append_left _ _)
  refine ⟨fun id hid hbounded => ?_, fun group hgroup hbounded => ?_⟩
  · obtain ⟨trees, htrees, hcount⟩ := exists_enumerates h.housed (List.nodup_singleton id) hopen
      (by simpa using hbounded)
    refine ⟨trees, htrees, fun limit => fst_exec_eq ?_⟩
    refine Post.bind (Post.expr (fun _ _ => htrees.post_bindAmong hcount limit) fun hnone => ?_)
    simp [← expr?_isSome, hnone] at hid
  · obtain ⟨trees, htrees, hcount⟩ := exists_enumerates h.housed (hnodup _) hopen hbounded
    refine ⟨trees, htrees, fun limit => fst_exec_eq ?_⟩
    refine (Post.resolve hgroup).andThen (fun _ _ hfail => hfail) ?_
    rintro _ looked ⟨rfl, hsame⟩
    -- the trees are listed in the memo in which the group has been looked up
    rw [← hsame.alternativesOf] at htrees hbounded
    obtain ⟨others, hothers, hcountOthers⟩ := exists_enumerates
      (h.housed.sameHomes hsame.sameQuery.sameHomes) (hsame.alternativesOf _ ▸ hnodup _) hopen
      fun id hid => (hbounded id hid).sameContent hsame hends
    obtain rfl := hothers.only _ (htrees.listed.congr hsame hends)
    refine Post.bind (Post.group (fun found hfound => ?_) fun hnone => ?_)
    · have hlisted : found.alternatives = looked.alternativesOf (memo.master group) := by
        simp [alternativesOf, hfound]
      rw [hlisted]
      exact hothers.post_bindAmong hcountOthers limit
    · have hknown := h.inOrder.1.masterKnown group hgroup
      rw [group?_eq_none, hsame.groups_size] at hnone
      omega

/-- Two tables that were merged give two trees below an aggregate. -/
theorem folded_bind_enumerates :
    ∃ trees, folded.Enumerates (.node (.kind "GbAgg") [.tree]) [⟨2⟩] trees ∧ trees.length = 2 ∧
      ∀ limit, (exec (Planning.bindGroup (.node (.kind "GbAgg") [.tree]) ⟨3⟩ limit) folded).1 =
        .ok (limit.elim trees trees.take) := by
  have hlower : ∀ id expr, folded.expr? id = some expr → ∀ child ∈ expr.children,
      (folded.master child).index < expr.group.index := by
    have hall : folded.exprs.all (fun expr => expr.children.all fun child =>
        decide ((folded.master child).index < expr.group.index)) = true := by decide +kernel
    intro id expr hexpr child hchild
    have hexpr := Array.all_eq_true'.mp hall expr (Array.mem_of_getElem? hexpr)
    exact of_decide_eq_true (List.all_eq_true.mp hexpr child hchild)
  have hmaster : folded.alternativesOf (folded.master ⟨3⟩) = [⟨2⟩] := by decide +kernel
  have hbounded := attainable_folded.inOrder.1.toConsistent.bounded hlower
  have hopen : (Pattern.node (.kind "GbAgg") [.tree]).isLeaf = false := rfl
  obtain ⟨trees, htrees, hbound⟩ := (attainable_folded.bind_enumerates hopen).2 ⟨3⟩
    (by decide +kernel) fun id _ => hbounded _ id
  rw [hmaster] at htrees
  refine ⟨trees, htrees, ?_, hbound⟩
  have hcalls := congrArg List.length (htrees.calls 3)
  rw [show (folded.treesAmong (.node (.kind "GbAgg") [.tree]) [⟨2⟩] 3).length = 2 by decide +kernel,
    List.length_take] at hcalls
  omega

end Memo

end QueryPlanner
