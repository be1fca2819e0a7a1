import QueryPlanner.Proofs.Plan.CoLocation

/-!
# Replication is not made up

A result is on every host when it is replicated or universal. Apart from broadcasts an operator
cannot bring rows to every host, so it may only say that its result is there when its inputs are.
In every extracted plan this is so but for one case: a nested-loop join over a universal outer and a
singleton inner side says that its result is universal, though the rows of the inner side are on one
host (`Memo.Reachable.extractPlan_replicates`). A hash join over the same inputs answers the
distribution of its inner side.
-/

namespace QueryPlanner

open Planning (exec extractPlan)

/-- Whether the result is on every host. -/
def Distribution.isEverywhere : Distribution → Bool
  | .replicated | .universal => true
  | _ => false

/-- The number of relations an operator reads. They are its first children, predicates follow. -/
def PhysicalOperator.inputCount : PhysicalOperator → Nat
  | .tableScan _ | .indexScan _ _ => 0
  | .hashJoin _ _ | .nestedLoopJoin => 2
  | _ => 1

/-- What the plan of an input delivers. -/
def PlanNode.inputDelivery (node : PlanNode) (position : Nat) : Option PlanProperties :=
  (node.children[position]?).bind (·.delivered)

/-! ## Views over the plans of the children -/

namespace ExprView

variable {view : ExprView} {plans : List PlanNode} {position child : Nat}

theorem childPlan?_withChildPlan {plan : Option PlanProperties} {statistics : Option Statistics} :
    (view.withChildPlan position plan statistics).childPlan? child =
      if position = child ∧ child < view.arity then plan else view.childPlan? child := by
  unfold childPlan? withChildPlan arity
  rw [List.getElem?_modify]
  by_cases hchild : child < view.children.length
  · by_cases hposition : position = child <;> simp [hposition, hchild]
  · simp [hchild]

theorem arity_withChildPlan {plan : Option PlanProperties} {statistics : Option Statistics} :
    (view.withChildPlan position plan statistics).arity = view.arity := by
  simp [arity, withChildPlan]

theorem isScalarChild_overPlansFrom :
    (view.overPlansFrom position plans).isScalarChild child = view.isScalarChild child := by
  induction plans generalizing view position with
  | nil => rfl
  | cons plan rest ih =>
      rw [overPlansFrom_cons, ih]
      cases plan.delivered with
      | none => rfl
      | some _ => exact isScalarChild_withChildPlan

theorem arity_overPlansFrom : (view.overPlansFrom position plans).arity = view.arity := by
  induction plans generalizing view position with
  | nil => rfl
  | cons plan rest ih =>
      rw [overPlansFrom_cons, ih]
      cases plan.delivered with
      | none => rfl
      | some _ => exact arity_withChildPlan

/-- What the plans show of a child is what the plan at its position delivers. -/
theorem childPlan?_overPlansFrom (hchild : child < view.arity) :
    (view.overPlansFrom position plans).childPlan? child =
      if child < position then view.childPlan? child
      else ((plans[child - position]?).bind (·.delivered)).or (view.childPlan? child) := by
  induction plans generalizing view position with
  | nil => simp [overPlansFrom_nil]
  | cons plan rest ih =>
      have hrest (shown : ExprView) (harity : shown.arity = view.arity)
          (hshown : shown.childPlan? child =
            if position = child then plan.delivered.or (view.childPlan? child)
            else view.childPlan? child) :
          (shown.overPlansFrom (position + 1) rest).childPlan? child =
            if child < position then view.childPlan? child
            else (((plan :: rest)[child - position]?).bind (·.delivered)).or
              (view.childPlan? child) := by
        rw [ih (harity ▸ hchild), hshown]
        rcases Nat.lt_trichotomy child position with hlt | rfl | hgt
        · rw [if_pos (by omega), if_neg (by omega), if_pos hlt]
        · rw [if_pos (by omega), if_pos rfl, if_neg (Nat.lt_irrefl _), Nat.sub_self]
          rfl
        · obtain ⟨more, rfl⟩ := Nat.exists_eq_add_of_lt hgt
          rw [if_neg (by omega), if_neg (by omega), if_neg (by omega),
            show position + more + 1 - position = more + 1 by omega,
            show position + more + 1 - (position + 1) = more by omega, List.getElem?_cons_succ]
      rw [overPlansFrom_cons]
      cases hdelivered : plan.delivered with
      | none => exact hrest view rfl (by simp [hdelivered])
      | some delivered =>
          refine hrest _ arity_withChildPlan ?_
          rw [childPlan?_withChildPlan]
          by_cases hposition : position = child <;> simp [hposition, hchild, hdelivered]

/-- The first relational child is the one with only scalars before it. -/
theorem firstRelationalPlan?_eq (hchild : child < view.arity)
    (hrelation : view.isScalarChild child = false)
    (hscalars : ∀ earlier < child, view.isScalarChild earlier = true) :
    view.firstRelationalPlan? = view.childPlan? child := by
  unfold arity at hchild
  have hscalar (position : Nat) (hposition : position < view.children.length) :
      view.isScalarChild position = view.children[position].isScalar := by
    unfold isScalarChild
    rw [List.getElem?_eq_getElem hposition]
    rfl
  have hfound : view.children.find? (fun child => !child.isScalar) =
      some view.children[child] := by
    rw [List.find?_eq_some_iff_getElem]
    refine ⟨?_, child, hchild, rfl, fun earlier hearlier => ?_⟩
    · rw [← hscalar child hchild, hrelation]
      rfl
    · rw [← hscalar earlier (hearlier.trans hchild), hscalars earlier hearlier]
      rfl
  unfold firstRelationalPlan? childPlan?
  rw [hfound, List.getElem?_eq_getElem hchild]

end ExprView

/-! ## The nodes of extracted plans -/

namespace PlanNode

variable {memo : Memo} {planners : List Planner}

/-- What a relational node delivers is derived from what its children deliver. -/
def IsDerived (memo : Memo) (node : PlanNode) : Prop :=
  ∀ op delivered, node.op = .physical op → node.delivered = some delivered →
    ∃ expr, memo.expr? node.expr = some expr ∧
      delivered = op.delivered ((memo.bareView node.expr expr).overPlansFrom 0 node.children)

/-- The children of a relational node that are relations deliver something, and it meets the
distribution that a request of the node asks for. -/
def IsServed (memo : Memo) (node : PlanNode) : Prop :=
  ∀ op, node.op = .physical op → node.delivered.isSome →
    ∃ expr required request, memo.expr? node.expr = some expr ∧ expr.op = .physical op ∧
      node.children.length = expr.children.length ∧
      (∀ position child, expr.children[position]? = some child →
        (memo.properties (memo.master child)).isScalar = (node.inputDelivery position).isNone) ∧
      ∀ position found, node.inputDelivery position = some found →
        (op.childRequirement (memo.bareView node.expr expr) required position
          (deliveredBefore op node.children position) request).distribution.isSatisfiedBy
            found.distribution = true

/-- Every node of a coherent plan is derived. -/
theorem Coherent.isDerived {id : ContextId} {plan : PlanNode} (h : plan.Coherent planners memo id)
    (hlayered : plan.Layered) : ∀ node ∈ plan.nodes, node.IsDerived memo := by
  intro node hnode op delivered hop hdelivered
  rcases h.of_mem_nodes hlayered node hnode with hscalar | ⟨own, hcoherent⟩
  · cases hscalar with
    | node hnothing _ => exact absurd (hnothing.symm.trans hdelivered) (by simp)
  · cases hcoherent with
    | node _ _ _ expr_found _ _ _ _ derived =>
        obtain rfl := Operator.physical.inj hop
        obtain rfl := Option.some.inj hdelivered
        exact ⟨_, expr_found, derived⟩

/-- A plan that obeys is a relation. -/
theorem Obeys.delivered_isSome {required : PlanRequirement} {plan : PlanNode}
    (h : plan.Obeys memo required) : plan.delivered.isSome = true := by
  cases h with
  | node => rfl

/-- Every node of a plan that obeys is served, by induction on the plan. -/
theorem Obeys.isServed {required : PlanRequirement} {plan : PlanNode}
    (h : plan.Obeys memo required) : ∀ node ∈ plan.nodes, node.IsServed memo := by
  induction h with
  | @node id context best costing expr op delivered children _ _ _ expr_found physical _ lengths _
      requests scalars ih =>
      have hchild (position : Nat) (plan : PlanNode) (hplan : children[position]? = some plan) :
          plan.IsScalar ∨ ∃ child, expr.children[position]? = some child ∧
            (memo.properties (memo.master child)).isScalar = false := by
        have hlt := (List.getElem?_eq_some_iff.mp hplan).1
        cases hscalar : (memo.properties (memo.master expr.children[position])).isScalar with
        | true => exact .inl (scalars position _ plan (List.getElem?_eq_getElem _) hplan hscalar)
        | false => exact .inr ⟨_, List.getElem?_eq_getElem _, hscalar⟩
      intro node hnode
      rcases mem_nodes.mp hnode with rfl | ⟨plan, hplan, hbelow⟩
      · intro op' hop _
        obtain rfl := Operator.physical.inj hop
        refine ⟨expr, context.required, costing.request, expr_found, physical, lengths,
          fun position child hat => ?_, fun position found hfound => ?_⟩
        · obtain ⟨plan, hplan⟩ : ∃ plan, children[position]? = some plan := by
            have hlt := (List.getElem?_eq_some_iff.mp hat).1
            exact ⟨_, List.getElem?_eq_getElem (lengths ▸ hlt)⟩
          unfold inputDelivery
          rw [hplan, Option.bind_some]
          cases hscalar : (memo.properties (memo.master child)).isScalar with
          | true =>
              cases scalars position child plan hat hplan hscalar with
              | node delivered _ => rw [delivered]; rfl
          | false =>
              have hsome := (requests position child plan hat hplan hscalar).delivered_isSome
              rw [Option.isNone_eq_false_iff.mpr hsome]
        · obtain ⟨plan, hplan, hfound⟩ := Option.bind_eq_some_iff.mp hfound
          rcases hchild position plan hplan with hscalar | ⟨child, hat, hrelation⟩
          · cases hscalar with
            | node delivered _ => exact absurd (delivered.symm.trans hfound) (by simp)
          · exact PlanRequirement.distribution_isSatisfiedBy
              ((requests position child plan hat hplan hrelation).isSatisfiedBy hfound)
      · obtain ⟨position, hposition⟩ := List.getElem?_of_mem hplan
        rcases hchild position plan hposition with hscalar | ⟨child, hat, hrelation⟩
        · intro _ _ hdelivered
          cases hscalar.of_mem_nodes hbelow with
          | node delivered _ => simp [delivered] at hdelivered
        · exact ih position child plan hat hposition hrelation node hbelow

/-- A node that says that its result is everywhere has inputs that are everywhere, except for a
broadcast, and for a nested-loop join over a universal outer and a singleton inner side. -/
def Replicates (node : PlanNode) : Prop :=
  ∀ op delivered, node.op = .physical op → op ≠ .motion .broadcast →
    node.delivered = some delivered → delivered.distribution.isEverywhere = true →
    (∀ position < op.inputCount, ∀ found, node.inputDelivery position = some found →
      found.distribution.isEverywhere = true) ∨
    op = .nestedLoopJoin ∧ (node.inputDelivery 0).map (·.distribution) = some .universal ∧
      (node.inputDelivery 1).map (·.distribution) = some .singleton

/-- What a nested-loop join asks of its inputs leaves one way for it to be wrong. -/
theorem nestedLoopJoin_everywhere {view : ExprView} {required : PlanRequirement} {request : Nat}
    {before : List PlanProperties} {outer inner : PlanProperties}
    (houter : (PhysicalOperator.nestedLoopJoin.childRequirement view required 0 [] request
      ).distribution.isSatisfiedBy outer.distribution = true)
    (hinner : (PhysicalOperator.nestedLoopJoin.childRequirement view required 1 before request
      ).distribution.isSatisfiedBy inner.distribution = true)
    (heverywhere : outer.distribution.isEverywhere = true) :
    inner.distribution.isEverywhere = true ∨
      outer.distribution = .universal ∧ inner.distribution = .singleton := by
  have hdigit : (PhysicalOperator.nestedLoopJoin.requestDigits request).distribution < 2 :=
    Nat.mod_lt _ (Nat.le_max_right _ _)
  have hasked (child : Nat) (siblings : List PlanProperties) :
      (PhysicalOperator.nestedLoopJoin.childRequirement view required child siblings
        request).distribution =
      ⟨PhysicalOperator.nestedLoopJoin.childDistribution required.distribution.spec child siblings
        request, .satisfy⟩ := rfl
  rw [hasked] at houter hinner
  unfold PhysicalOperator.childDistribution at houter hinner
  generalize (PhysicalOperator.nestedLoopJoin.requestDigits request).distribution = digit
    at hdigit houter hinner
  obtain rfl | rfl : digit = 0 ∨ digit = 1 := by omega
  · rcases Distribution.eq_of_satisfies_replicated hinner with h | h <;> exact .inl (by rw [h]; rfl)
  · rcases Distribution.eq_of_satisfies_singleton houter with h | h
    · rw [h] at heverywhere
      exact absurd heverywhere (by decide)
    · rcases Distribution.eq_of_satisfies_singleton hinner with h' | h'
      · exact .inr ⟨h, h'⟩
      · exact .inl (by rw [h']; rfl)

/-- A hash join says that its result is everywhere only if both inputs are. -/
theorem exists_inputs_of_hashJoin {view : ExprView} {outerKeys innerKeys : List Column}
    (h : ((PhysicalOperator.hashJoin outerKeys innerKeys).deliveredDistribution
      view).isEverywhere = true) :
    ∃ outer inner, view.childPlan? 0 = some outer ∧ view.childPlan? 1 = some inner ∧
      outer.distribution.isEverywhere = true ∧ inner.distribution.isEverywhere = true := by
  unfold PhysicalOperator.deliveredDistribution at h
  dsimp only at h
  cases houter : view.childPlan? 0 with
  | none => simp [houter, Distribution.isEverywhere] at h
  | some outer =>
      rw [houter] at h
      have hinner (houterThere : outer.distribution.isEverywhere = true)
          (hinner : (((view.childPlan? 1).map PlanProperties.distribution).getD
            Distribution.singleton).isEverywhere = true) :
          ∃ outer' inner, some outer = some outer' ∧ view.childPlan? 1 = some inner ∧
            outer'.distribution.isEverywhere = true ∧ inner.distribution.isEverywhere = true := by
        cases hfound : view.childPlan? 1 with
        | none => simp [hfound, Distribution.isEverywhere] at hinner
        | some inner => exact ⟨outer, inner, rfl, rfl, houterThere, by simpa [hfound] using hinner⟩
      cases hdistribution : outer.distribution with
      | replicated | universal =>
          simp only [hdistribution] at h
          exact hinner (by rw [hdistribution]; rfl) h
      | _ => simp [hdistribution, Distribution.isEverywhere] at h

/-- A node that is derived and served replicates, by cases on its operator. -/
theorem replicates_of_derived_of_served {node : PlanNode} (hderived : node.IsDerived memo)
    (hserved : node.IsServed memo)
    (hcatalogued : ∀ id expr op, memo.expr? id = some expr → expr.op = .physical op →
      op.isCatalogued = true) : node.Replicates := by
  intro op delivered hop hbroadcast hdelivered heverywhere
  obtain ⟨expr, hexpr, hderived⟩ := hderived op delivered hop hdelivered
  obtain ⟨expr', required, request, hexpr', hphysical, hlength, hscalars, hrequests⟩ :=
    hserved op hop (by simp [hdelivered])
  obtain rfl := Option.some.inj (hexpr.symm.trans hexpr')
  set view := (memo.bareView node.expr expr).overPlansFrom 0 node.children with hview
  -- what the view shows of a child is what is known of the plan there
  have hseen (position : Nat) (hposition : position < expr.children.length) :
      view.childPlan? position = node.inputDelivery position ∧
        view.isScalarChild position = (node.inputDelivery position).isNone := by
    have hbare : (memo.bareView node.expr expr).children[position]? =
        some (memo.bareChild expr.children[position]) := by
      unfold Memo.bareView
      rw [List.getElem?_map, List.getElem?_eq_getElem hposition]
      rfl
    have hnone : (memo.bareView node.expr expr).childPlan? position = none := by
      unfold ExprView.childPlan?
      rw [hbare]
      rfl
    constructor
    · rw [hview, ExprView.childPlan?_overPlansFrom (by simpa [ExprView.arity, Memo.bareView]),
        if_neg (Nat.not_lt_zero _), Nat.sub_zero, hnone, Option.or_none]
      rfl
    · rw [hview, ExprView.isScalarChild_overPlansFrom,
        ← hscalars position _ (List.getElem?_eq_getElem hposition)]
      unfold ExprView.isScalarChild
      rw [hbare]
      rfl
  have hknown (position : Nat) (found : PlanProperties)
      (hfound : node.inputDelivery position = some found) : position < expr.children.length := by
    obtain ⟨plan, hplan, _⟩ := Option.bind_eq_some_iff.mp hfound
    exact hlength ▸ (List.getElem?_eq_some_iff.mp hplan).1
  have hpassed (position : Nat) (found : PlanProperties)
      (hfound : node.inputDelivery position = some found)
      (hbefore : ∀ earlier < position, node.inputDelivery earlier = none) :
      PhysicalOperator.passedDistribution view = found.distribution := by
    have hposition := hknown position found hfound
    have hfirst : view.firstRelationalPlan? = view.childPlan? position := by
      refine ExprView.firstRelationalPlan?_eq ?_ ?_ fun earlier hearlier => ?_
      · rw [hview, ExprView.arity_overPlansFrom]
        simpa [ExprView.arity, Memo.bareView]
      · rw [(hseen position hposition).2, hfound]
        rfl
      · rw [(hseen earlier (hearlier.trans hposition)).2, hbefore earlier hearlier]
        rfl
    unfold PhysicalOperator.passedDistribution
    rw [hfirst, (hseen position hposition).1, hfound]
    rfl
  subst hderived
  have hunary (hpasses : op.deliveredDistribution view = PhysicalOperator.passedDistribution view)
      (hone : op.inputCount = 1) : ∀ position < op.inputCount, ∀ found,
        node.inputDelivery position = some found → found.distribution.isEverywhere = true := by
    intro position hposition found hfound
    obtain rfl : position = 0 := by omega
    rw [← hpassed 0 found hfound (by simp), ← hpasses]
    exact heverywhere
  cases op with
  | tableScan | indexScan => exact .inl fun position hposition => absurd hposition (Nat.not_lt_zero _)
  | filter => exact .inl (hunary rfl rfl)
  | hashAggregate | streamAggregate => exact .inl (hunary rfl rfl)
  | sort | spool | partitionSelector => exact .inl (hunary rfl rfl)
  | motion move =>
      -- only a broadcast moves rows to every host
      have htarget : move.target.isEverywhere = true := heverywhere
      cases move with
      | broadcast => exact absurd rfl hbroadcast
      | _ =>
          simp [Motion.target, Distribution.hashedOn, Distribution.isEverywhere] at htarget
  | hashJoin outerKeys innerKeys =>
      have hdelivers : ((PhysicalOperator.hashJoin outerKeys innerKeys).deliveredDistribution
        view).isEverywhere = true := heverywhere
      obtain ⟨outer, inner, houter, hinner, houterThere, hinnerThere⟩ :=
        exists_inputs_of_hashJoin hdelivers
      refine .inl fun position hposition found hfound => ?_
      have hshown := (hseen position (hknown position found hfound)).1.trans hfound
      obtain rfl | rfl : position = 0 ∨ position = 1 := by
        have : position < 2 := hposition
        omega
      · rwa [Option.some.inj (hshown.symm.trans houter)]
      · rwa [Option.some.inj (hshown.symm.trans hinner)]
  | nestedLoopJoin =>
      have hdelivers : (PhysicalOperator.passedDistribution view).isEverywhere = true := heverywhere
      cases houter : node.inputDelivery 0 with
      | none =>
          refine .inl fun position hposition found hfound => ?_
          rwa [← hpassed position found hfound fun earlier hearlier => ?_]
          have : position < 2 := hposition
          rwa [show earlier = 0 by omega]
      | some outer =>
          rw [hpassed 0 outer houter (by simp)] at hdelivers
          cases hinner : node.inputDelivery 1 with
          | none =>
              refine .inl fun position hposition found hfound => ?_
              obtain rfl | rfl : position = 0 ∨ position = 1 := by
                have : position < 2 := hposition
                omega
              · rwa [Option.some.inj (hfound.symm.trans houter)]
              · rw [hinner] at hfound
                exact absurd hfound (by simp)
          | some inner =>
              have hasked := hrequests 0 outer houter
              rw [deliveredBefore_eq rfl (hlength ▸ hknown 0 outer houter)] at hasked
              rcases nestedLoopJoin_everywhere hasked (hrequests 1 inner hinner) hdelivers with
                hinnerThere | ⟨huniversal, hsingleton⟩
              · refine .inl fun position hposition found hfound => ?_
                obtain rfl | rfl : position = 0 ∨ position = 1 := by
                  have : position < 2 := hposition
                  omega
                · rwa [Option.some.inj (hfound.symm.trans houter)]
                · rwa [Option.some.inj (hfound.symm.trans hinner)]
              · exact .inr ⟨rfl, by rw [Option.map_some, huniversal],
                  by rw [Option.map_some, hsingleton]⟩
  | custom data =>
      have hcustom := hcatalogued _ _ _ hexpr hphysical
      simp [PhysicalOperator.isCatalogued] at hcustom

end PlanNode

/-! ## After any calls -/

/-- Take any calls of the optimizer on a memo in which nothing is planned yet, over operators of the
catalogue, with enforcers above their own groups and no group above itself. In whatever plan is
extracted afterwards, a node that is no broadcast and says that its result is everywhere has inputs
that are everywhere, unless it is a nested-loop join over a universal outer and a singleton inner
side. -/
theorem Memo.Reachable.extractPlan_replicates {memo : Memo} (hreachable : memo.Reachable)
    (hcatalogued : ∀ id expr op, memo.expr? id = some expr → expr.op = .physical op →
      op.isCatalogued = true)
    (henforcing : ∀ id expr, memo.expr? id = some expr → expr.op.isEnforcer = true →
      expr.children.map memo.master = [memo.master expr.group])
    (hacyclic : ∀ id, ¬ Relation.TransGen memo.Reads id id)
    (calls : List OptimizeCall) (root : GroupId) (required : PlanRequirement) (stages : Nat)
    (plan : PlanNode)
    (hplan : (exec (extractPlan root required stages) (memo.optimizeAll calls)).1 = .ok plan) :
    ∀ node ∈ plan.nodes, node.Replicates := by
  obtain ⟨horder, hsettled⟩ :=
    hreachable.settled_optimizeAll hcatalogued henforcing hacyclic calls
  have hextracted := ((Planning.Post.extractedPlan_obeys hsettled root required stages).both
    (Planning.Post.extractedPlan hsettled root required stages)).both
      Planning.Post.extractPlan_layered
  obtain ⟨found, _, hexec, ⟨⟨_, hobeys⟩, _, _, hcoherent⟩, hlayered⟩ | ⟨_, _, hexec, _⟩ :=
    hextracted.exists_exec
  · rw [hexec] at hplan
    obtain rfl := Except.ok.inj hplan
    exact fun node hnode => PlanNode.replicates_of_derived_of_served
      (hcoherent.isDerived hlayered node hnode) (hobeys.isServed node hnode) hsettled.catalogued
  · rw [hexec] at hplan
    exact absurd hplan (by simp)

/-- A universal and a singleton table with scans, and their nested-loop join. -/
def Memo.looped : Memo :=
  let access (column : Nat) (distribution : Distribution) : TableAccess :=
    { table := { id := column, name := "", rows := 0, distribution }, columns := [⟨column⟩] }
  let outer := access 0 .universal
  let inner := access 1 .singleton
  let equal := Scalar.compare .equal (.column ⟨0⟩) (.column ⟨1⟩)
  [(Operator.logical (.get outer), [], none), (.logical (.get inner), [], none),
    (.scalar (.predicate equal), [], none), (.logical .innerJoin, [⟨0⟩, ⟨1⟩, ⟨2⟩], none),
    (.physical (.tableScan outer), [], some ⟨0⟩), (.physical (.tableScan inner), [], some ⟨1⟩),
    (.physical .nestedLoopJoin, [⟨0⟩, ⟨1⟩, ⟨2⟩], some ⟨3⟩)].foldl
      (fun memo (op, children, target) => (exec (Planning.insert op children target none) memo).2) {}

theorem Memo.reachable_looped : looped.Reachable := by
  unfold looped
  simp only [List.foldl_cons, List.foldl_nil]
  repeat refine Reachable.insert ?_ _ _ _ _
  exact .empty

/-- A call that asks for the join. -/
def OptimizeCall.looped : OptimizeCall where
  planner := { model := .unit, config := { pruning := false }, fuel := 64 }
  stage := 0
  group := ⟨3⟩
  required := { columns := .ofList [⟨0⟩] }

theorem Memo.exists_plan_looped :
    ∃ plan, (exec (extractPlan ⟨3⟩ OptimizeCall.looped.required 1)
        (looped.optimizeAll [.looped])).1 = .ok plan ∧
      (plan.op.kind == "NLJoin" && plan.delivered.map (·.distribution) == some .universal &&
        (plan.inputDelivery 1).map (·.distribution) == some .singleton) = true :=
  Planning.exists_ok_of_any (by decide +kernel)

/-- The join says that its result is universal, and its inner side is on one host. -/
theorem Memo.looped_replicates :
    ∃ plan, (exec (extractPlan ⟨3⟩ OptimizeCall.looped.required 1)
        (looped.optimizeAll [.looped])).1 = .ok plan ∧
      plan.op.kind = "NLJoin" ∧
      plan.delivered.map (·.distribution) = some .universal ∧
      (plan.inputDelivery 1).map (·.distribution) = some .singleton ∧
      ∀ node ∈ plan.nodes, node.Replicates := by
  have hstacked : looped.isStacked = true := by decide +kernel
  obtain ⟨plan, hplan, hfound⟩ := exists_plan_looped
  simp only [Bool.and_eq_true, beq_iff_eq] at hfound
  exact ⟨plan, hplan, hfound.1.1, hfound.1.2, hfound.2,
    reachable_looped.extractPlan_replicates (isCatalogued_of_isStacked hstacked)
      (enforces_of_isStacked hstacked)
      (acyclic_of_isStacked hstacked reachable_looped.wellFormed) [.looped] _ _ _ plan hplan⟩

end QueryPlanner
