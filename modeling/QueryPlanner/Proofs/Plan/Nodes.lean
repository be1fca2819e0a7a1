import QueryPlanner.Plan
import QueryPlanner.Proofs.Planning

/-!
# The nodes of a plan

The relational nodes of a plan come first and the scalars below them: a node that delivers nothing
has only such nodes below (`PlanNode.Layered`). So does every extracted plan, from whatever memo
(`Planning.Post.extractPlan_layered`). Scalars are extracted as trees of operators that are not
physical, so the physical nodes of a plan are its relations (`Planning.Post.extractPlan_physical`).
-/

namespace QueryPlanner

namespace PlanNode

theorem mem_nodesAmong {node : PlanNode} {plans : List PlanNode} :
    node ∈ nodesAmong plans ↔ ∃ plan ∈ plans, node ∈ plan.nodes := by
  induction plans with
  | nil => simp [nodesAmong]
  | cons plan rest ih =>
      unfold nodesAmong
      rw [List.mem_append, ih, List.exists_mem_cons_iff]

/-- A node of a plan is the one on top or below one of the children. -/
theorem mem_nodes {node plan : PlanNode} :
    node ∈ plan.nodes ↔ node = plan ∨ ∃ child ∈ plan.children, node ∈ child.nodes := by
  have hnodes : plan.nodes = plan :: nodesAmong plan.children := by
    cases plan
    rw [nodes]
  rw [hnodes, List.mem_cons, mem_nodesAmong]

/-- What is below a node of a plan is below the plan, by recursion on the plan. -/
theorem mem_nodes_trans {middle node : PlanNode} (hnode : node ∈ middle.nodes) :
    ∀ plan : PlanNode, middle ∈ plan.nodes → node ∈ plan.nodes
  | ⟨op, group, expr, cost, delivered, statistics, children⟩, hmiddle => by
      rcases mem_nodes.mp hmiddle with rfl | ⟨child, hchild, hbelow⟩
      · exact hnode
      · exact mem_nodes.mpr (.inr ⟨child, hchild, mem_nodes_trans hnode child hbelow⟩)

/-- A plan that delivers nothing, and nothing below it does. -/
inductive IsScalar : PlanNode → Prop
  | node {plan : PlanNode} (delivered : plan.delivered = none)
      (children : ∀ child ∈ plan.children, IsScalar child) : IsScalar plan

/-- Below a node that delivers nothing are only scalars. -/
inductive Layered : PlanNode → Prop
  | scalar {plan : PlanNode} (h : plan.IsScalar) : Layered plan
  | relation {plan : PlanNode} (delivers : plan.delivered.isSome)
      (children : ∀ child ∈ plan.children, Layered child) : Layered plan

/-- All nodes of a scalar are scalars. -/
theorem IsScalar.of_mem_nodes {plan node : PlanNode} (h : plan.IsScalar)
    (hnode : node ∈ plan.nodes) : node.IsScalar := by
  induction h with
  | @node plan delivered children ih =>
      rcases mem_nodes.mp hnode with rfl | ⟨child, hchild, hbelow⟩
      · exact ⟨delivered, children⟩
      · exact ih child hchild hbelow

theorem Layered.isScalar {plan : PlanNode} (h : plan.Layered) (hdelivered : plan.delivered = none) :
    plan.IsScalar := by
  cases h with
  | scalar h => exact h
  | relation delivers => simp [hdelivered] at delivers

theorem Layered.child {plan child : PlanNode} (h : plan.Layered) (hchild : child ∈ plan.children) :
    child.Layered := by
  cases h with
  | scalar h =>
      cases h with
      | node _ children => exact .scalar (children child hchild)
  | relation _ children => exact children child hchild

theorem Layered.of_mem_nodes {plan node : PlanNode} (h : plan.Layered) (hnode : node ∈ plan.nodes) :
    node.Layered := by
  induction h with
  | scalar h => exact .scalar (h.of_mem_nodes hnode)
  | relation delivers children ih =>
      rcases mem_nodes.mp hnode with rfl | ⟨child, hchild, hbelow⟩
      · exact .relation delivers children
      · exact ih child hchild hbelow

end PlanNode

/-! ## Trees of operators that are not physical -/

/-- A bound tree without physical operators and without groups that were not expanded. -/
inductive BoundExpr.IsPlain : BoundExpr → Prop
  | node {expr : ExprId} {group : GroupId} {op : Operator} {children : List BoundExpr}
      (plain : op.isPhysical = false) (below : ∀ child ∈ children, IsPlain child) :
      IsPlain (.node expr group op children)

theorem Cursor.currentAll_eq_map (cursors : List Cursor) : currentAll cursors = cursors.map current := by
  induction cursors with
  | nil => rfl
  | cons cursor rest ih => rw [currentAll, ih, List.map_cons]

namespace Memo

variable {memo : Memo}

/-- What holds of whatever is found for an element holds of all that is found. -/
theorem of_mem_mapM {α β : Type} {find : α → Option β} {items : List α} {values : List β}
    (h : items.mapM find = some values) {P : β → Prop}
    (hfind : ∀ item value, find item = some value → P value) : ∀ value ∈ values, P value := by
  induction items generalizing values with
  | nil =>
      obtain rfl := Option.some.inj h
      simp
  | cons item rest ih =>
      rw [List.mapM_cons] at h
      obtain ⟨value, hvalue, h⟩ := Option.bind_eq_some_iff.mp h
      obtain ⟨others, hothers, h⟩ := Option.bind_eq_some_iff.mp h
      obtain rfl := Option.some.inj h
      simpa using ⟨hfind item value hvalue, ih hothers⟩

theorem of_choose {bind : ExprId → Option Cursor} {pattern : Pattern} {all remaining : List ExprId}
    {cursor : Cursor} (h : Cursor.choose bind pattern all remaining = some cursor) {P : BoundExpr → Prop}
    (hbind : ∀ id present, bind id = some present → P present.current) : P cursor.current := by
  induction remaining with
  | nil => simp [Cursor.choose] at h
  | cons id rest ih =>
      unfold Cursor.choose at h
      split at h
      · rename_i present hpresent
        obtain rfl := Option.some.inj h
        exact hbind id present hpresent
      · exact ih h

/-- A whole subtree has no physical operators, by induction on the levels looked at. -/
theorem isPlain_of_firstTreeUpTo {fuel : Nat} {id : ExprId} {cursor : Cursor}
    (h : memo.firstTreeUpTo fuel .tree id = some cursor) : cursor.current.IsPlain := by
  induction fuel generalizing id cursor with
  | zero => simp [firstTreeUpTo] at h
  | succ fuel ih =>
      unfold firstTreeUpTo at h
      obtain ⟨expr, _, h⟩ := Option.bind_eq_some_iff.mp h
      split at h
      · rename_i hadmitted
        obtain ⟨cursors, hcursors, h⟩ := Option.bind_eq_some_iff.mp h
        obtain rfl := Option.some.inj h
        refine .node (by simpa [Pattern.admits] using hadmitted) ?_
        rw [Cursor.currentAll_eq_map]
        simp only [List.mem_map, forall_exists_index, and_imp, forall_apply_eq_imp_iff₂]
        refine of_mem_mapM hcursors fun item found hfound => ?_
        exact of_choose hfound fun _ _ hpresent => ih hpresent
      · simp at h

/-- The first tree of a pattern of whole subtrees. -/
theorem isPlain_of_mem_treesAmong {all : List ExprId} {bound : BoundExpr}
    (h : bound ∈ memo.treesAmong .tree all 1) : bound.IsPlain := by
  unfold treesAmong at h
  cases hfirst : memo.firstChoice .tree all with
  | none => simp [hfirst, treesFrom] at h
  | some cursor =>
      rw [hfirst] at h
      obtain rfl := List.mem_singleton.mp h
      exact of_choose hfirst fun _ _ hpresent => isPlain_of_firstTreeUpTo hpresent

end Memo

namespace Planning

variable {memo : Memo}

mutual

/-- The plan of a bound tree is a scalar, by recursion on the tree. -/
theorem Post.scalarPlan_isScalar {memo : Memo} : ∀ bound : BoundExpr,
    Post (scalarPlan bound) memo (fun plan _ => plan.IsScalar) (fun _ _ => True)
  | .leaf _ => by
      unfold Planning.scalarPlan
      exact Post.throw trivial
  | .node _ _ _ children => by
      unfold Planning.scalarPlan
      exact (Post.scalarPlans_isScalar children).andThen (fun _ _ hfail => hfail) fun _ _ hplans =>
        Post.pure ⟨rfl, hplans⟩

theorem Post.scalarPlans_isScalar {memo : Memo} : ∀ bounds : List BoundExpr,
    Post (scalarPlans bounds) memo (fun plans _ => ∀ plan ∈ plans, plan.IsScalar) (fun _ _ => True)
  | [] => by
      unfold Planning.scalarPlans
      exact Post.pure (by simp)
  | bound :: rest => by
      unfold Planning.scalarPlans
      refine (Post.scalarPlan_isScalar bound).andThen (fun _ _ hfail => hfail) fun _ _ hplan => ?_
      refine (Post.scalarPlans_isScalar rest).andThen (fun _ _ hfail => hfail) fun _ _ hplans => ?_
      exact Post.pure (by simpa using ⟨hplan, hplans⟩)

end

theorem Post.extractScalar_isScalar (id : GroupId) :
    Post (extractScalar id) memo (fun plan _ => plan.IsScalar) (fun _ _ => True) := by
  unfold extractScalar
  refine Post.bind (Post.of_exec (fun found _ _ => ?_) (fun _ _ _ => trivial))
  cases found with
  | nil => exact Post.throw trivial
  | cons bound _ => exact Post.scalarPlan_isScalar bound

/-- What holds of scalars, and of a node over plans of which it holds, holds of the plans that are
extracted for the children. -/
theorem Post.extractChildren_of {P : PlanNode → Prop}
    (hscalar : ∀ id memo, Post (extractScalar id) memo (fun plan _ => P plan) (fun _ _ => True))
    {extract : ContextId → Planning PlanNode} {context : Context} {costing : Costing}
    {children : List (GroupId × Nat)} {view : ExprView}
    (hextract : ∀ id memo, Post (extract id) memo (fun plan _ => P plan) (fun _ _ => True)) :
    Post (extractChildren extract context costing children view) memo
      (fun found _ => ∀ plan ∈ found.1, P plan) (fun _ _ => True) := by
  induction children generalizing memo view with
  | nil => exact Post.pure (by simp)
  | cons child rest ih =>
      unfold extractChildren
      refine Post.bind (Post.of_exec (fun master _ _ => ?_) (fun _ _ _ => trivial))
      split
      · refine (hscalar master _).andThen (fun _ _ hfail => hfail) fun _ _ hplan => ?_
        exact ih.andThen (fun _ _ hfail => hfail) fun _ _ hplans =>
          Post.pure (by simpa using ⟨hplan, hplans⟩)
      · split
        · exact Post.throw trivial
        · refine (hextract _ _).andThen (fun _ _ hfail => hfail) fun _ _ hplan => ?_
          exact ih.andThen (fun _ _ hfail => hfail) fun _ _ hplans =>
            Post.pure (by simpa using ⟨hplan, hplans⟩)

section Extracted

variable {P : PlanNode → Prop}
  (hscalar : ∀ id memo, Post (extractScalar id) memo (fun plan _ => P plan) (fun _ _ => True))
  (hnode : ∀ plan : PlanNode, plan.delivered.isSome → (∀ child ∈ plan.children, P child) → P plan)

include hscalar hnode

/-- It holds of the plan of a context, by induction on the levels that are left. -/
theorem Post.extractUpTo_of {fuel : Nat} {id : ContextId} :
    Post (extractUpTo fuel id) memo (fun plan _ => P plan) (fun _ _ => True) := by
  induction fuel generalizing id memo with
  | zero => exact Post.throw trivial
  | succ fuel ih =>
      unfold extractUpTo
      refine Post.bind (Post.context (fun context _ => ?_) (fun _ => trivial))
      split
      · refine Post.bind (Post.costing (fun costing _ => ?_) (fun _ => trivial))
        refine Post.bind (Post.expr (fun expr _ => ?_) (fun _ => trivial))
        split
        · refine Post.bind (Post.of_exec (fun view _ _ => ?_) (fun _ _ _ => trivial))
          refine (Post.extractChildren_of hscalar fun _ _ => ih).andThen (fun _ _ hfail => hfail)
            fun found _ hchildren => ?_
          dsimp only
          split
          · exact Post.pure (hnode _ rfl hchildren)
          · exact Post.throw trivial
        · exact Post.throw trivial
      · exact Post.throw trivial

theorem Post.extractPlan_of {root : GroupId} {required : PlanRequirement} {stages : Nat} :
    Post (extractPlan root required stages) memo (fun plan _ => P plan) (fun _ _ => True) := by
  unfold extractPlan
  refine Post.bind (Post.of_exec (fun _ _ _ => ?_) (fun _ _ _ => trivial))
  refine Post.bind (Post.of_exec (fun found _ _ => ?_) (fun _ _ _ => trivial))
  cases found with
  | none => exact Post.throw trivial
  | some id => exact Post.bind (Post.get (Post.extractUpTo_of hscalar hnode))

end Extracted

/-- Every extracted plan has its scalars below its relations. -/
theorem Post.extractPlan_layered {root : GroupId} {required : PlanRequirement} {stages : Nat} :
    Post (extractPlan root required stages) memo (fun plan _ => plan.Layered)
      (fun _ _ => True) :=
  Post.extractPlan_of
    (fun id _ => (Post.extractScalar_isScalar id).mono (fun _ _ => .scalar) fun _ _ hfail => hfail)
    fun _ => .relation

/-! ## The operators of scalars -/

/-- What the plans of bound trees have in common holds of all of them. -/
theorem Post.scalarPlans_of {P : PlanNode → Prop} {bounds : List BoundExpr}
    (h : ∀ bound ∈ bounds, ∀ memo,
      Post (scalarPlan bound) memo (fun plan _ => P plan) (fun _ _ => True)) :
    Post (scalarPlans bounds) memo (fun plans _ => ∀ plan ∈ plans, P plan) (fun _ _ => True) := by
  induction bounds generalizing memo with
  | nil =>
      unfold Planning.scalarPlans
      exact Post.pure (by simp)
  | cons bound rest ih =>
      unfold Planning.scalarPlans
      refine (h bound (by simp) memo).andThen (fun _ _ hfail => hfail) fun _ _ hplan => ?_
      refine (ih fun other hother => h other (by simp [hother])).andThen (fun _ _ hfail => hfail)
        fun _ _ hplans => ?_
      exact Post.pure (by simpa using ⟨hplan, hplans⟩)

/-- The plan of a tree of operators that are not physical has no physical node, by induction on the
tree. -/
theorem Post.scalarPlan_plain {bound : BoundExpr} (h : bound.IsPlain) (memo : Memo) :
    Post (scalarPlan bound) memo (fun plan _ => ∀ node ∈ plan.nodes, node.op.isPhysical = false)
      (fun _ _ => True) := by
  induction h generalizing memo with
  | node plain _ ih =>
      unfold Planning.scalarPlan
      refine (Post.scalarPlans_of ih).andThen (fun _ _ hfail => hfail) fun plans _ hplans =>
        Post.pure fun node hnode => ?_
      rcases PlanNode.mem_nodes.mp hnode with rfl | ⟨child, hchild, hbelow⟩
      · exact plain
      · exact hplans child hchild node hbelow

/-- The plan of a scalar has no physical node. -/
theorem Post.extractScalar_plain (id : GroupId) :
    Post (extractScalar id) memo
      (fun plan _ => ∀ node ∈ plan.nodes, node.op.isPhysical = false) (fun _ _ => True) := by
  unfold extractScalar bindGroup
  refine Post.bind (Post.bind (Post.of_exec (fun found _ _ => ?_) (fun _ _ _ => trivial)))
  refine Post.bind (Post.of_exec (fun group _ _ => ?_) (fun _ _ _ => trivial))
  refine Post.bind (Post.get (Post.bind (Post.set (Post.pure ?_))))
  split
  · rename_i bound rest htrees
    exact Post.scalarPlan_plain (Memo.isPlain_of_mem_treesAmong (htrees ▸ List.mem_cons_self)) _
  · exact Post.throw trivial

/-- The physical nodes of an extracted plan are relations. -/
theorem Post.extractPlan_physical {root : GroupId} {required : PlanRequirement} {stages : Nat} :
    Post (extractPlan root required stages) memo
      (fun plan _ => ∀ node ∈ plan.nodes, node.op.isPhysical = true → node.delivered.isSome)
      (fun _ _ => True) := by
  refine Post.extractPlan_of (fun id _ => (Post.extractScalar_plain id).mono
    (fun plan _ hplain node hnode hphysical => ?_) fun _ _ hfail => hfail) fun plan hrelation hbelow => ?_
  · simp [hplain node hnode] at hphysical
  · intro node hnode
    rcases PlanNode.mem_nodes.mp hnode with rfl | ⟨child, hchild, hdeeper⟩
    · exact fun _ => hrelation
    · exact hbelow child hchild node hdeeper

end Planning

end QueryPlanner
