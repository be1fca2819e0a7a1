import QueryPlanner.Proofs.Meaning.Operators
import QueryPlanner.Proofs.Rule.Binding
import QueryPlanner.Rule.Implementation

/-!
# What the patterns of the rules bind

The rules look at three shapes of trees: an operator over whole groups, a join over two groups and
the tree of its predicate, and one of these as a child of another. For each shape the lemmas here
say which alternatives a bound tree was read off, and over which groups.
-/

namespace QueryPlanner.Memo

variable {memo : Memo} {group : GroupId} {bound : BoundExpr}

/-- The alternative on top of a tree that is bound to an operator over children. -/
theorem Binds.of_node {test : OperatorTest} {patterns : List Pattern}
    (h : memo.Binds (.node test patterns) group bound) : ∃ id expr trees,
    memo.expr? id = some expr ∧ test.accepts expr.op = true ∧ group = memo.master expr.group ∧
      bound = .node id group expr.op trees ∧
      memo.BindsAll (.node test patterns) 0 expr.children trees := by
  cases h with
  | leaf whole => simp [Pattern.isLeaf] at whole
  | node found admitted below =>
      exact ⟨_, _, _, found, (Bool.and_eq_true_iff.mp admitted).1, rfl, rfl, below⟩

/-- The alternative on top of a tree that is bound to a whole subtree. -/
theorem Binds.of_tree (h : memo.Binds .tree group bound) : ∃ id expr trees,
    memo.expr? id = some expr ∧ expr.op.isPhysical = false ∧ group = memo.master expr.group ∧
      bound = .node id group expr.op trees := by
  cases h with
  | leaf whole => simp [Pattern.isLeaf] at whole
  | node found admitted below =>
      exact ⟨_, _, _, found, by simpa [Pattern.admits] using admitted, rfl, rfl⟩

/-- Every child is bound to the pattern that is asked for at its position. -/
theorem BindsAll.exists_binds {pattern : Pattern} {position : Nat} {children : List GroupId}
    {trees : List BoundExpr} (h : memo.BindsAll pattern position children trees) {index : Nat}
    {child : GroupId} (hchild : children[index]? = some child) :
    ∃ tree below, trees[index]? = some tree ∧ pattern.child? (position + index) = some below ∧
      memo.Binds below (memo.master child) tree := by
  induction trees generalizing position children index with
  | nil =>
      cases h
      simp at hchild
  | cons tree trees ih =>
      cases h with
      | cons asked first rest =>
          cases index with
          | zero =>
              obtain rfl := Option.some.inj hchild
              exact ⟨tree, _, rfl, asked, first⟩
          | succ index =>
              obtain ⟨found, below, hfound, hasked, hbinds⟩ := ih rest hchild
              rw [Nat.add_assoc, Nat.add_comm 1] at hasked
              exact ⟨found, below, hfound, hasked, hbinds⟩

/-- An operator of a kind over whole groups. -/
theorem Binds.of_overLeaves {kind : String} {count : Nat}
    (h : memo.Binds (.overLeaves kind count) group bound) : ∃ id expr,
    memo.expr? id = some expr ∧ expr.op.kind = kind ∧ group = memo.master expr.group ∧
      bound.op? = some expr.op ∧ bound.childGroups = expr.children.map memo.master := by
  obtain ⟨id, expr, trees, hexpr, hkind, hgroup, rfl, hbelow⟩ := h.of_node
  exact ⟨id, expr, hexpr, by simpa [OperatorTest.accepts] using hkind, hgroup, rfl,
    hbelow.map_group⟩

/-- A predicate that is read off a bound tree. -/
def ReadsPredicate (memo : Memo) (child : GroupId) (predicate : Scalar) : Prop :=
  ∃ id expr, memo.expr? id = some expr ∧ expr.op.isPhysical = false ∧
    memo.master expr.group = memo.master child ∧ predicate = expr.op.predicate?.getD .always

/-- The predicate of a tree whose child at a position is bound as a whole subtree. -/
theorem BindsAll.readsPredicate {test : OperatorTest} {patterns : List Pattern} {top : ExprId}
    {op : Operator} {children : List GroupId} {trees : List BoundExpr}
    (h : memo.BindsAll (.node test patterns) 0 children trees) {index : Nat} {child : GroupId}
    (htree : patterns[index]? = some .tree) (hchild : children[index]? = some child) :
    memo.ReadsPredicate child ((BoundExpr.node top group op trees).predicate index) := by
  obtain ⟨tree, below, hfound, hasked, hbinds⟩ := h.exists_binds hchild
  rw [Nat.zero_add, Pattern.child?, htree] at hasked
  obtain rfl := Option.some.inj hasked
  obtain ⟨id, expr, _, hexpr, hphysical, hgroup, rfl⟩ := hbinds.of_tree
  refine ⟨id, expr, hexpr, hphysical, hgroup.symm, ?_⟩
  have hread : (BoundExpr.node top group op trees).child? index = trees[index]? := rfl
  rw [BoundExpr.predicate, hread, hfound]
  rfl

/-- A join over two groups and the tree of its predicate. -/
structure BindsJoin (memo : Memo) (group : GroupId) (bound : BoundExpr) (outer inner predicate : GroupId) :
    Prop where
  alternative : ∃ id expr, memo.expr? id = some expr ∧ expr.op = .logical .innerJoin ∧
    expr.children = [outer, inner, predicate] ∧ group = memo.master expr.group
  childGroups : bound.childGroups = [memo.master outer, memo.master inner, memo.master predicate]
  reads : memo.ReadsPredicate predicate (bound.predicate 2)

/-- The children of a join. -/
theorem WellFormed.children_of_join (h : memo.WellFormed) {id : ExprId} {expr : MemoExpr}
    (hexpr : memo.expr? id = some expr) (hop : expr.op = .logical .innerJoin) :
    ∃ outer inner predicate, expr.children = [outer, inner, predicate] :=
  List.length_eq_three.mp (h.arity id expr hexpr 3 (by rw [hop]; rfl))

/-- The children of a selection. -/
theorem WellFormed.children_of_select (h : memo.WellFormed) {id : ExprId} {expr : MemoExpr}
    (hexpr : memo.expr? id = some expr) (hop : expr.op = .logical .select) :
    ∃ relation predicate, expr.children = [relation, predicate] :=
  List.length_eq_two.mp (h.arity id expr hexpr 2 (by rw [hop]; rfl))

theorem WellFormed.bindsJoin (hformed : memo.WellFormed)
    (h : memo.Binds Rule.joinPattern group bound) :
    ∃ outer inner predicate, memo.BindsJoin group bound outer inner predicate := by
  obtain ⟨id, expr, trees, hexpr, hkind, hgroup, rfl, hbelow⟩ := h.of_node
  have hop := Operator.eq_innerJoin (by simpa [OperatorTest.accepts] using hkind)
  obtain ⟨outer, inner, predicate, hchildren⟩ := hformed.children_of_join hexpr hop
  rw [hchildren] at hbelow
  exact ⟨outer, inner, predicate, ⟨id, expr, hexpr, hop, hchildren, hgroup⟩, hbelow.map_group,
    hbelow.readsPredicate rfl rfl⟩

/-- A tree whose first child is bound as a join and that ends with the tree of a predicate. -/
structure BindsAboveJoin (memo : Memo) (group : GroupId) (bound : BoundExpr) (op : LogicalOperator)
    (lower : GroupId) (others : List GroupId) (predicate : GroupId) : Prop where
  alternative : ∃ id expr, memo.expr? id = some expr ∧ expr.op = .logical op ∧
    expr.children = lower :: (others ++ [predicate]) ∧ group = memo.master expr.group
  children : ∃ tree trees, bound.children = tree :: trees ∧
    trees.map BoundExpr.group = (others ++ [predicate]).map memo.master ∧
    ∃ outer inner condition, memo.BindsJoin (memo.master lower) tree outer inner condition
  reads : memo.ReadsPredicate predicate (bound.predicate (others.length + 1))

/-- A join of a join. -/
theorem WellFormed.bindsAboveJoin_of_join (hformed : memo.WellFormed)
    (h : memo.Binds Rule.joinAssociativity.pattern group bound) :
    ∃ lower last predicate,
      memo.BindsAboveJoin group bound .innerJoin lower [last] predicate := by
  obtain ⟨id, expr, trees, hexpr, hkind, hgroup, rfl, hbelow⟩ := Binds.of_node h
  have hop := Operator.eq_innerJoin (by simpa [OperatorTest.accepts] using hkind)
  obtain ⟨lower, last, predicate, hchildren⟩ := hformed.children_of_join hexpr hop
  rw [hchildren] at hbelow
  refine ⟨lower, last, predicate, ⟨id, expr, hexpr, hop, hchildren, hgroup⟩, ?_,
    hbelow.readsPredicate rfl rfl⟩
  cases hbelow with
  | cons asked first rest =>
      obtain rfl := Option.some.inj asked
      exact ⟨_, _, rfl, rest.map_group, hformed.bindsJoin first⟩

/-- A selection above a join. -/
theorem WellFormed.bindsAboveJoin_of_select (hformed : memo.WellFormed)
    (h : memo.Binds Rule.predicatePushdown.pattern group bound) :
    ∃ lower predicate, memo.BindsAboveJoin group bound .select lower [] predicate := by
  obtain ⟨id, expr, trees, hexpr, hkind, hgroup, rfl, hbelow⟩ := Binds.of_node h
  have hop := Operator.eq_select (by simpa [OperatorTest.accepts] using hkind)
  obtain ⟨lower, predicate, hchildren⟩ := hformed.children_of_select hexpr hop
  rw [hchildren] at hbelow
  refine ⟨lower, predicate, ⟨id, expr, hexpr, hop, hchildren, hgroup⟩, ?_,
    hbelow.readsPredicate rfl rfl⟩
  cases hbelow with
  | cons asked first rest =>
      obtain rfl := Option.some.inj asked
      exact ⟨_, _, rfl, rest.map_group, hformed.bindsJoin first⟩

end QueryPlanner.Memo
