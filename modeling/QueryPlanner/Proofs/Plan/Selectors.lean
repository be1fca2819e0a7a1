import QueryPlanner.Proofs.Plan.Replication
import QueryPlanner.Proofs.Property.Partition

/-!
# Selectors below motions

A selector sends partition ids to its scan, and these do not cross a motion. A motion is only costed
over a plan in which no scan waits for its selector. That this is enough for whole plans needs that
a waiting scan is seen from above: a plan with a scan that no selector resolves delivers this scan as
waiting (`PlanNode.Coherent.waits`). Two inputs of a join that both knew the scan could hide it, the
one with a selector answering for the other one, so it may not be below both (`Memo.SeparatesScans`).

In every extracted plan there is then a selector on every path from a motion down to a scan of a
partitioned table (`Memo.Reachable.extractPlan_selects`).
-/

namespace QueryPlanner

open Planning (exec extractPlan)

/-! ## The scans below a group -/

namespace Memo

/-- A scan with the number is among the physical alternatives of a group or of the groups below. -/
inductive Scans (memo : Memo) (scan : ScanId) : GroupId → Prop
  | here {group : GroupId} {id : ExprId} {expr : MemoExpr} {op : PhysicalOperator}
      (listed : id ∈ memo.alternativesOf group) (found : memo.expr? id = some expr)
      (physical : expr.op = .physical op) (scans : op.partitionScan? = some scan) : Scans memo scan group
  | deeper {group child : GroupId} {id : ExprId} {expr : MemoExpr}
      (listed : id ∈ memo.alternativesOf group) (found : memo.expr? id = some expr)
      (physical : expr.op.isPhysical = true) (reads : child ∈ expr.children)
      (scans : Scans memo scan (memo.master child)) : Scans memo scan group

/-- Scans with the same number are not below two children of one physical alternative. The operators
of the catalogue that read two relations are the joins. -/
def SeparatesScans (memo : Memo) : Prop :=
  ∀ group, memo.master group = group → ∀ id ∈ memo.alternativesOf group,
    ∀ expr, memo.expr? id = some expr → expr.op.isPhysical = true →
      expr.children.Pairwise fun left right =>
        ∀ scan, ¬ (memo.Scans scan (memo.master left) ∧ memo.Scans scan (memo.master right))

variable {initial memo : Memo} {held : List ContextId}

/-- An alternative in use was one before, or it enforces something. -/
theorem Evolves.listed_before (h : Evolves held initial memo) (hwell : initial.WellFormed)
    {group : GroupId} {id : ExprId} {expr : MemoExpr} (hlisted : id ∈ memo.alternativesOf group)
    (hexpr : memo.expr? id = some expr) :
    (id ∈ initial.alternativesOf group ∧ ∃ before, initial.expr? id = some before ∧
      before.op = expr.op ∧ before.children = expr.children) ∨ expr.op.isEnforcer = true := by
  rcases h.added group id hlisted with hbefore | ⟨found, hfound, henforces⟩
  · obtain ⟨_, before, hfound, _⟩ := hwell.owned hbefore
    obtain ⟨after, hafter, hop, hchildren, _⟩ := h.expr id before hfound
    obtain rfl := Option.some.inj (hexpr.symm.trans hafter)
    exact .inl ⟨hbefore, before, hfound, hop.symm, hchildren.symm⟩
  · obtain rfl := Option.some.inj (hexpr.symm.trans hfound)
    exact .inr henforces

end Memo

/-! ## What is known of scans in a plan -/

/-- What the plan delivers says something of the scan. -/
def PlanNode.Knows (scan : ScanId) (plan : PlanNode) : Prop :=
  ∃ delivered, plan.delivered = some delivered ∧ (delivered.partition.scans.get? scan).isSome

/-- A scan is on top or below, and none of the nodes down to it is a selector for it. -/
inductive PlanNode.Exposes (scan : ScanId) : PlanNode → Prop
  | here {plan : PlanNode} {op : PhysicalOperator} (physical : plan.op = .physical op)
      (scans : op.partitionScan? = some scan) : Exposes scan plan
  | deeper {plan child : PlanNode}
      (other : ∀ relation keys, plan.op ≠ .physical (.partitionSelector scan relation keys))
      (reads : child ∈ plan.children) (exposes : Exposes scan child) : Exposes scan plan

/-- A motion does not leave a way when a scan waits below it. -/
theorem Optimizer.hasConsumer_of_leavesWay {move : Motion} {required : PlanRequirement}
    {delivered : PlanProperties} (h : leavesWay (.motion move) required delivered = true) :
    delivered.partition.scans.hasConsumer = false := by
  unfold leavesWay at h
  simp only [PhysicalOperator.enforcerKind?, Bool.true_and, Bool.and_eq_true, Bool.not_eq_true'] at h
  exact h.1.2

/-- The deliveries that a view shows are those of the plans over which it is. -/
theorem ExprView.childPlans_overPlansFrom {view : ExprView} {plans : List PlanNode}
    (hlength : plans.length = view.arity) (hbare : ∀ child, view.childPlan? child = none) :
    (view.overPlansFrom 0 plans).childPlans = plans.filterMap (·.delivered) := by
  have hshown (view : ExprView) :
      view.childPlans = (List.range view.arity).filterMap view.childPlan? := by
    have hall := filterMap_range view.children view.arity
    rw [arity, List.take_length] at hall
    unfold childPlans childPlan?
    rw [← List.filterMap_filterMap, arity, hall]
  have hplans : plans.filterMap (·.delivered) =
      (List.range view.arity).filterMap fun child => plans[child]?.bind (·.delivered) := by
    rw [← List.filterMap_filterMap, filterMap_range, ← hlength, List.take_length]
  rw [hshown, hplans, arity_overPlansFrom]
  refine List.filterMap_congr fun child hchild => ?_
  rw [childPlan?_overPlansFrom (List.mem_range.mp hchild), if_neg (Nat.not_lt_zero _), hbare,
    Option.or_none, Nat.sub_zero]

namespace PlanNode

variable {planners : List Planner} {below : GroupId → GroupId → Prop} {initial memo : Memo}
  {scan : ScanId}

theorem Exposes.exists_physical {plan : PlanNode} (h : plan.Exposes scan) :
    ∃ node ∈ plan.nodes, node.op.isPhysical = true := by
  induction h with
  | here physical _ => exact ⟨_, mem_nodes.mpr (.inl rfl), by rw [physical]; rfl⟩
  | deeper _ reads _ ih =>
      obtain ⟨node, hnode, hphysical⟩ := ih
      exact ⟨node, mem_nodes.mpr (.inr ⟨_, reads, hnode⟩), hphysical⟩

/-- A path down to a scan without selectors exposes the scan, by induction on the path. -/
theorem exposes_of_isChain {top scanned : PlanNode} {between : List PlanNode} {op : PhysicalOperator}
    (hpath : List.IsChain (fun upper lower => lower ∈ upper.children)
      (top :: (between ++ [scanned])))
    (hop : scanned.op = .physical op) (hscan : op.partitionScan? = some scan)
    (hother : ∀ node ∈ top :: between, ∀ relation keys,
      node.op ≠ .physical (.partitionSelector scan relation keys)) : top.Exposes scan := by
  induction between generalizing top with
  | nil =>
      obtain ⟨hchild, _⟩ := List.isChain_cons_cons.mp hpath
      exact .deeper (hother top (by simp)) hchild (.here hop hscan)
  | cons next rest ih =>
      obtain ⟨hchild, hrest⟩ := List.isChain_cons_cons.mp hpath
      exact .deeper (hother top (by simp)) hchild
        (ih hrest fun node hnode => hother node (List.mem_cons_of_mem _ hnode))

/-! ## Plans and the groups they are for -/

/-- Plans that know a scan are for children with the scan below them, if the plans of the recorded
contexts are for such groups. -/
theorem scans_of_fits (hevolves : Memo.Evolves [] initial memo) {goal : GroupId × PlanRequirement}
    {children : List GroupId} {contexts : List (Option ContextId)} {plans : List PlanNode}
    (hplanned : List.Forall₂ (memo.Planned below goal) children contexts)
    (hfits : List.Forall₂ (Fits planners memo) contexts plans)
    (hscans : ∀ (position : Nat) (child : ContextId) (plan : PlanNode),
      contexts[position]? = some (some child) → plans[position]? = some plan → plan.Knows scan →
        ∀ context, memo.context? child = some context → initial.Scans scan context.group) :
    List.Forall₂ (fun child plan => plan.Knows scan → initial.Scans scan (initial.master child))
      children plans := by
  refine List.forall₂_iff_get.mpr ⟨hplanned.length_eq.trans hfits.length_eq,
    fun position hlt hlt' hknows => ?_⟩
  have hat := hplanned.length_eq ▸ hlt
  have hchild := (List.forall₂_iff_get.mp hplanned).2 position hlt hat
  have hplan := (List.forall₂_iff_get.mp hfits).2 position hat hlt'
  cases hentry : contexts.get ⟨position, hat⟩ with
  | none =>
      rw [hentry] at hplan
      obtain ⟨_, hdelivered, _⟩ := hknows
      exact absurd ((show _ = none from hplan).symm.trans hdelivered) (by simp)
  | some id =>
      rw [hentry] at hchild
      obtain ⟨_, context, _, hchosen, hgroup, _⟩ := hchild
      rw [← hevolves.master, ← hgroup]
      exact hscans position id _ (List.getElem?_eq_some_iff.mpr ⟨hat, hentry⟩)
        (List.getElem?_eq_getElem hlt') hknows context hchosen.found

/-- What a node delivers, over the deliveries of its children. -/
theorem childPlans_bareView {id : ExprId} {expr : MemoExpr} {plans : List PlanNode}
    (hlength : plans.length = expr.children.length) :
    ((memo.bareView id expr).overPlansFrom 0 plans).childPlans = plans.filterMap (·.delivered) := by
  refine ExprView.childPlans_overPlansFrom ?_ fun child => ?_
  · rw [hlength, ExprView.arity, Memo.bareView, List.length_map]
  · unfold ExprView.childPlan? Memo.bareView
    rw [List.getElem?_map]
    cases expr.children[child]? <;> rfl

/-- A scan that a coherent plan knows is below the group that the plan is for, by induction on the
plan. -/
theorem Coherent.scans (hevolves : Memo.Evolves [] initial memo) (hwell : initial.WellFormed)
    (hsettled : memo.Settled planners below) {id : ContextId} {plan : PlanNode}
    (h : plan.Coherent planners memo id) (hknows : plan.Knows scan) {context : Context}
    (hcontext : memo.context? id = some context) : initial.Scans scan context.group := by
  induction h generalizing context with
  | @node id found best costing expr op delivered children context_found best_held costing_found
      expr_found physical lengths relations scalars derived _ _ _ ih =>
      obtain rfl := Option.some.inj (context_found.symm.trans hcontext)
      obtain ⟨rfl, haccounted⟩ := hsettled.accounted_best context_found best_held costing_found
      obtain ⟨context', expr', op', hjustifies⟩ := haccounted.justified
      obtain rfl := Option.some.inj (hjustifies.context_found.symm.trans context_found)
      obtain rfl := Option.some.inj (hjustifies.expr_found.symm.trans expr_found)
      obtain ⟨context'', hcontext'', hlisted⟩ := haccounted.listed
      obtain rfl := Option.some.inj (hcontext''.symm.trans context_found)
      have hcatalogued := hsettled.catalogued _ _ _ expr_found physical
      have hbefore := hevolves.listed_before hwell hlisted expr_found
      have hfits := Memo.fits_of_positions lengths relations scalars
      have hbelow := scans_of_fits hevolves hjustifies.planned hfits
        fun position child plan hentry hplan hknown _ => ih position child plan hentry hplan hknown
      obtain ⟨_, hdelivered, hknown⟩ := hknows
      obtain rfl := Option.some.inj hdelivered
      rw [derived] at hknown
      rcases PhysicalOperator.knows_deliveredPartition hcatalogued hknown with
        hscan | ⟨found, hfound, hseen⟩
      · rcases hbefore with ⟨hlisted, before, hexpr, hop, _⟩ | henforces
        · exact .here hlisted hexpr (hop.trans physical) hscan
        · rw [physical] at henforces
          exact absurd henforces (by simp [Operator.isEnforcer,
            PhysicalOperator.isEnforcer_of_scan hscan])
      · rw [childPlans_bareView
          (hfits.length_eq.symm.trans hjustifies.planned.length_eq.symm)] at hfound
        obtain ⟨plan, hplan, hdelivered⟩ := List.mem_filterMap.mp hfound
        obtain ⟨position, hposition, rfl⟩ := List.getElem_of_mem hplan
        have hat := hbelow.length_eq.symm ▸ hposition
        have hscans := (List.forall₂_iff_get.mp hbelow).2 position hat hposition
          ⟨found, hdelivered, hseen⟩
        rcases hbefore with ⟨hlisted, before, hexpr, hop, hchildren⟩ | henforces
        · refine .deeper hlisted hexpr (by rw [hop, physical]; rfl) ?_ hscans
          rw [hchildren]
          exact List.getElem_mem hat
        · -- an enforcer reads its own group
          have hown := hsettled.enforcing _ _ expr_found henforces
          have hmaster : memo.master expr'.children[position] ∈ expr'.children.map memo.master :=
            List.mem_map_of_mem (List.getElem_mem hat)
          rw [hown, List.mem_singleton, hjustifies.home] at hmaster
          rwa [← hmaster, hevolves.master]

/-- Of the children of a node at most one knows a scan. -/
theorem pairwise_knows (hevolves : Memo.Evolves [] initial memo) (hwell : initial.WellFormed)
    (hseparates : initial.SeparatesScans) (hsettled : memo.Settled planners below)
    {costing : Costing} {expr : MemoExpr} {plans : List PlanNode}
    (haccounted : memo.Accounted planners below costing)
    (hexpr : memo.expr? costing.expr = some expr) (hop : expr.op.isPhysical = true)
    (hfits : List.Forall₂ (Fits planners memo) costing.childContexts plans) :
    plans.Pairwise fun left right => ¬ (left.Knows scan ∧ right.Knows scan) := by
  obtain ⟨context, expr', op, hjustifies⟩ := haccounted.justified
  obtain rfl := Option.some.inj (hjustifies.expr_found.symm.trans hexpr)
  obtain ⟨context', hcontext, hlisted⟩ := haccounted.listed
  have hhome : initial.master context'.group = context'.group :=
    (hevolves.master _).symm.trans (hsettled.contextHome _ _ hcontext)
  have hbelow : List.Forall₂
      (fun child plan => plan.Knows scan → initial.Scans scan (initial.master child))
      expr'.children plans :=
    scans_of_fits hevolves hjustifies.planned hfits
      fun position child plan hentry hplan hknown context hcontext =>
        (show plan.Coherent planners memo child from
          Memo.fits_of_getElem? hfits hentry hplan).scans hevolves hwell hsettled hknown hcontext
  have hapart : expr'.children.Pairwise fun left right =>
      ¬ (initial.Scans scan (initial.master left) ∧ initial.Scans scan (initial.master right)) := by
    rcases hevolves.listed_before hwell hlisted hexpr with
      ⟨hlisted, before, hbefore, hsame, hchildren⟩ | henforces
    · rw [← hchildren]
      exact (hseparates _ hhome _ hlisted before hbefore (by rwa [hsame])).imp fun h => h scan
    · -- an enforcer has one child
      obtain ⟨only, hchildren, _⟩ := List.map_eq_singleton_iff.mp
        (hsettled.enforcing _ _ hexpr henforces)
      rw [hchildren]
      exact List.pairwise_singleton _ _
  rw [List.pairwise_iff_getElem] at hapart ⊢
  intro left right hleft hright hlt ⟨hknowsLeft, hknowsRight⟩
  have hlength := hbelow.length_eq
  exact hapart left right (hlength ▸ hleft) (hlength ▸ hright) hlt
    ⟨(List.forall₂_iff_get.mp hbelow).2 left (hlength ▸ hleft) hleft hknowsLeft,
      (List.forall₂_iff_get.mp hbelow).2 right (hlength ▸ hright) hright hknowsRight⟩

/-- The deliveries of the other plans, when at most one knows a scan and one does. -/
theorem exists_alone_of_pairwise {plans : List PlanNode} {plan : PlanNode}
    {delivered : PlanProperties}
    (hpairwise : plans.Pairwise fun left right => ¬ (left.Knows scan ∧ right.Knows scan))
    (hplan : plan ∈ plans) (hdelivered : plan.delivered = some delivered)
    (hknown : (delivered.partition.scans.get? scan).isSome) :
    ∃ before after, plans.filterMap (·.delivered) = before ++ delivered :: after ∧
      ∀ other ∈ before ++ after, other.partition.scans.get? scan = none := by
  obtain ⟨before, after, rfl⟩ := List.append_of_mem hplan
  obtain ⟨_, hafter, hbefore⟩ := List.pairwise_append.mp hpairwise
  have hknows : plan.Knows scan := ⟨delivered, hdelivered, hknown⟩
  refine ⟨before.filterMap (·.delivered), after.filterMap (·.delivered), ?_, fun other hother => ?_⟩
  · rw [List.filterMap_append, List.filterMap_cons_some hdelivered]
  · rw [← List.filterMap_append] at hother
    obtain ⟨node, hnode, hshown⟩ := List.mem_filterMap.mp hother
    refine Option.not_isSome_iff_eq_none.mp fun hsome => ?_
    have hother : node.Knows scan := ⟨other, hshown, hsome⟩
    rcases List.mem_append.mp hnode with hnode | hnode
    · exact hbefore node hnode plan (by simp) ⟨hother, hknows⟩
    · exact (List.pairwise_cons.mp hafter).1 node hnode ⟨hknows, hother⟩

/-- An exposed scan is delivered as waiting, by induction on the plan: of the children only the one
with the scan knows it, so the operator passes on what is known there. -/
theorem Coherent.waits (hevolves : Memo.Evolves [] initial memo) (hwell : initial.WellFormed)
    (hseparates : initial.SeparatesScans) (hsettled : memo.Settled planners below)
    {id : ContextId} {plan : PlanNode} (h : plan.Coherent planners memo id) (hlayered : plan.Layered)
    (hphysical : ∀ node ∈ plan.nodes, node.op.isPhysical = true → node.delivered.isSome)
    (hexposes : plan.Exposes scan) : ∃ delivered entry, plan.delivered = some delivered ∧
      delivered.partition.scans.get? scan = some entry ∧ entry.isConsumer = true := by
  induction h with
  | @node id found best costing expr op delivered children context_found best_held costing_found
      expr_found physical lengths relations scalars derived _ _ _ ih =>
      cases hexposes with
      | here hop hscan =>
          obtain rfl := Operator.physical.inj hop
          obtain ⟨entry, hentry, hconsumer⟩ := PhysicalOperator.exists_consumer_of_scan hscan
          exact ⟨delivered, entry, rfl, derived ▸ hentry, hconsumer⟩
      | @deeper _ child hother hchild hexposed =>
          obtain ⟨position, hposition, rfl⟩ := List.getElem_of_mem hchild
          have hbelow := hlayered.child hchild
          have hnodes : ∀ node ∈ children[position].nodes, node.op.isPhysical = true →
              node.delivered.isSome := fun node hnode =>
            hphysical node (mem_nodes.mpr (.inr ⟨_, hchild, hnode⟩))
          have hat := lengths.symm ▸ hposition
          cases hrecorded : costing.childContexts.get ⟨position, hat⟩ with
          | none =>
              -- there are no scans among scalars
              have hscalar := hbelow.isScalar (scalars position _
                (List.getElem?_eq_some_iff.mpr ⟨hat, hrecorded⟩) (List.getElem?_eq_getElem hposition))
              obtain ⟨node, hnode, hop⟩ := hexposed.exists_physical
              cases hscalar.of_mem_nodes hnode with
              | node hnothing _ => simpa [hnothing] using hnodes node hnode hop
          | some own =>
              obtain ⟨below, entry, hdelivered, hentry, hconsumer⟩ := ih position own _
                (List.getElem?_eq_some_iff.mpr ⟨hat, hrecorded⟩) (List.getElem?_eq_getElem hposition)
                hbelow hnodes hexposed
              obtain ⟨rfl, haccounted⟩ :=
                hsettled.accounted_best context_found best_held costing_found
              obtain ⟨_, expr', _, hjustifies⟩ := haccounted.justified
              obtain rfl := Option.some.inj (hjustifies.expr_found.symm.trans expr_found)
              have hfits := Memo.fits_of_positions lengths relations scalars
              obtain ⟨before, after, hdeliveries, halone⟩ := exists_alone_of_pairwise
                (pairwise_knows hevolves hwell hseparates hsettled haccounted expr_found
                  (by rw [physical]; rfl) hfits) hchild hdelivered (by rw [hentry]; rfl)
              have hshown : ((memo.bareView costing.expr expr').overPlansFrom 0 children).childPlans =
                  before ++ below :: after :=
                (childPlans_bareView
                  (hfits.length_eq.symm.trans hjustifies.planned.length_eq.symm)).trans hdeliveries
              have hpassed := PhysicalOperator.get?_deliveredPartition
                (hsettled.catalogued _ _ _ expr_found physical) (fun count hcount => ?_)
                (fun relation keys hop => hother relation keys (congrArg _ hop)) hshown halone
              · exact ⟨delivered, entry, rfl, by rw [derived]; exact hpassed.trans hentry, hconsumer⟩
              · rw [ExprView.arity_overPlansFrom]
                have harity := hsettled.wellFormed.arity _ _ expr_found count (by rwa [physical])
                simpa [ExprView.arity, Memo.bareView] using harity

/-- What a motion of a coherent plan delivers has no waiting scan, so none is exposed below it. -/
theorem Coherent.not_exposes_of_motion (hevolves : Memo.Evolves [] initial memo)
    (hwell : initial.WellFormed) (hseparates : initial.SeparatesScans)
    (hsettled : memo.Settled planners below) {id : ContextId} {plan : PlanNode}
    (h : plan.Coherent planners memo id) (hlayered : plan.Layered)
    (hphysical : ∀ node ∈ plan.nodes, node.op.isPhysical = true → node.delivered.isSome)
    {move : Motion} (hmotion : plan.op = .physical (.motion move)) : ¬ plan.Exposes scan := by
  intro hexposes
  obtain ⟨_, entry, hdelivered, hentry, hconsumer⟩ :=
    h.waits hevolves hwell hseparates hsettled hlayered hphysical hexposes
  cases h with
  | @node _ found best costing expr op delivered children context_found best_held costing_found
      expr_found physical _ _ _ _ recorded _ _ =>
      obtain rfl := Operator.physical.inj hmotion
      obtain rfl := Option.some.inj hdelivered
      obtain ⟨rfl, haccounted⟩ :=
        hsettled.accounted_best context_found best_held costing_found
      obtain ⟨_, expr', _, hjustifies⟩ := haccounted.justified
      obtain rfl := Option.some.inj (hjustifies.expr_found.symm.trans expr_found)
      obtain rfl := Operator.physical.inj (hjustifies.physical.symm.trans physical)
      obtain ⟨_, expr'', _, _, hexpr, hop, hleaves⟩ := haccounted.leavesWay
      obtain rfl := Option.some.inj (hexpr.symm.trans expr_found)
      obtain rfl := Operator.physical.inj (hop.symm.trans physical)
      rw [← Option.some.inj (recorded.symm.trans hjustifies.delivered)] at hleaves
      have hresolved := Optimizer.hasConsumer_of_leavesWay hleaves
      exact absurd (PartitionMap.hasConsumer_of_get? hentry hconsumer) (by simp [hresolved])

/-- On every path of the plan from a motion down to a scan of a partitioned table there is a selector
for the scan, strictly between them. -/
def SelectsBelowMotions (plan : PlanNode) : Prop :=
  ∀ motion ∈ plan.nodes, ∀ move, motion.op = .physical (.motion move) →
    ∀ between scanned op scan,
      List.IsChain (fun upper lower => lower ∈ upper.children) (motion :: (between ++ [scanned])) →
      scanned.op = .physical op → op.partitionScan? = some scan →
        ∃ selector ∈ between, ∃ relation keys,
          selector.op = .physical (.partitionSelector scan relation keys)

end PlanNode

/-! ## After any calls -/

/-- Take any calls of the optimizer on a memo in which nothing is planned yet, over operators of the
catalogue, with enforcers above their own groups, no group above itself and no scan below two inputs
of a join. In whatever plan is extracted afterwards there is a selector on every path from a motion
down to a scan of a partitioned table. -/
theorem Memo.Reachable.extractPlan_selects {memo : Memo} (hreachable : memo.Reachable)
    (hcatalogued : ∀ id expr op, memo.expr? id = some expr → expr.op = .physical op →
      op.isCatalogued = true)
    (henforcing : ∀ id expr, memo.expr? id = some expr → expr.op.isEnforcer = true →
      expr.children.map memo.master = [memo.master expr.group])
    (hacyclic : ∀ id, ¬ Relation.TransGen memo.Reads id id) (hseparates : memo.SeparatesScans)
    (calls : List OptimizeCall) (root : GroupId) (required : PlanRequirement) (stages : Nat)
    (plan : PlanNode)
    (hplan : (exec (extractPlan root required stages) (memo.optimizeAll calls)).1 = .ok plan) :
    plan.SelectsBelowMotions := by
  obtain ⟨horder, hadvances⟩ :=
    hreachable.advances_optimizeAll hcatalogued henforcing hacyclic calls
  have hextracted := ((Planning.Post.extractedPlan hadvances.settled root required stages).both
    Planning.Post.extractPlan_layered).both Planning.Post.extractPlan_physical
  obtain ⟨found, _, hexec, ⟨⟨id, _, hcoherent⟩, hlayered⟩, hphysical⟩ | ⟨_, _, hexec, _⟩ :=
    hextracted.exists_exec
  · rw [hexec] at hplan
    obtain rfl := Except.ok.inj hplan
    intro motion hmotion move hmove between scanned op scan hpath hop hscan
    by_contra hnone
    push Not at hnone
    have hexposes : motion.Exposes scan := by
      refine PlanNode.exposes_of_isChain hpath hop hscan fun node hnode relation keys => ?_
      rcases List.mem_cons.mp hnode with rfl | hnode
      · rw [hmove]
        simp
      · exact hnone node hnode relation keys
    rcases hcoherent.of_mem_nodes hlayered motion hmotion with hscalar | ⟨own, hown⟩
    · cases hscalar with
      | node hnothing _ =>
          simpa [hnothing] using hphysical motion hmotion (by rw [hmove]; rfl)
    · exact hown.not_exposes_of_motion hadvances.evolves hreachable.wellFormed hseparates
        hadvances.settled (hlayered.of_mem_nodes hmotion)
        (fun node hnode => hphysical node (PlanNode.mem_nodes_trans hnode _ hmotion)) hmove hexposes
  · rw [hexec] at hplan
    exact absurd hplan (by simp)

/-- Scans are apart where no alternative reads two groups. -/
theorem Memo.separatesScans_of_small {memo : Memo}
    (h : (memo.exprs.all fun expr => decide (expr.children.length ≤ 1)) = true) :
    memo.SeparatesScans := by
  intro _ _ _ _ expr hexpr _
  have hlength := of_decide_eq_true (Array.all_eq_true'.mp h expr (Array.mem_of_getElem? hexpr))
  match hchildren : expr.children with
  | [] => exact .nil
  | [_] => exact List.pairwise_singleton _ _
  | _ :: _ :: _ => simp [hchildren] at hlength

/-- A table in partitions, spread at random, with a scan. -/
def Memo.partitioned : Memo :=
  let access : TableAccess :=
    { table := { id := 0, name := "", rows := 0, partitionKeys := [⟨0⟩] }
      columns := [⟨0⟩]
      scan := some 7 }
  let filled := (exec (Planning.insert (.logical (.get access)) [] none none) {}).2
  (exec (Planning.insert (.physical (.tableScan access)) [] (some ⟨0⟩) none) filled).2

/-- A call that asks for the rows of the table on one host, with the partitions selected. -/
def OptimizeCall.gathered : OptimizeCall :=
  let waiting : PartitionEntry :=
    { role := .consumer, expected := some 0, relation := 0, keys := [⟨0⟩] }
  { planner := { model := .unit, config := { pruning := false }, fuel := 64 }
    stage := 0
    group := ⟨0⟩
    required :=
      { columns := .ofList [⟨0⟩]
        distribution := ⟨.singleton, .satisfy⟩
        partition := ⟨{ scans := PartitionMap.empty.insert 7 waiting }, .satisfy⟩ } }

theorem Memo.exists_plan_gathered :
    ∃ plan, (exec (extractPlan ⟨0⟩ OptimizeCall.gathered.required 1)
        (partitioned.optimizeAll [.gathered])).1 = .ok plan ∧
      (plan.kinds == ["Gather", "PartitionSelector", "TableScan"]) = true :=
  Planning.exists_ok_of_any (by decide +kernel)

/-- The rows are gathered above the selector. -/
theorem Memo.partitioned_selects :
    ∃ plan, (exec (extractPlan ⟨0⟩ OptimizeCall.gathered.required 1)
        (partitioned.optimizeAll [.gathered])).1 = .ok plan ∧
      plan.kinds = ["Gather", "PartitionSelector", "TableScan"] ∧ plan.SelectsBelowMotions := by
  have hstacked : partitioned.isStacked = true := by decide +kernel
  have hreachable : partitioned.Reachable := (Reachable.empty.insert _ _ _ _).insert _ _ _ _
  obtain ⟨plan, hplan, hkinds⟩ := exists_plan_gathered
  exact ⟨plan, hplan, beq_iff_eq.mp hkinds,
    hreachable.extractPlan_selects (isCatalogued_of_isStacked hstacked)
      (enforces_of_isStacked hstacked) (acyclic_of_isStacked hstacked hreachable.wellFormed)
      (separatesScans_of_small (by decide +kernel)) [.gathered] _ _ _ plan hplan⟩

end QueryPlanner
