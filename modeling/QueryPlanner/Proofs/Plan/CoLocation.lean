import QueryPlanner.Proofs.Plan.Requests

/-!
# Hash joins are co-located

A hash join on several hosts is right only if rows with equal keys meet on one host.
`Distribution.CoLocated` says when they do: one side is everywhere, both are on one host, or both are
hashed on key columns that belong together, position by position. In every extracted plan this holds
of every hash join (`Memo.Reachable.extractPlan_coLocated`).
-/

namespace QueryPlanner

open Planning (exec extractPlan)

/-- The rows of two inputs that agree on pairs of key columns are on one host. -/
inductive Distribution.CoLocated (keys : List (Column × Column)) :
    Distribution → Distribution → Prop
  | everywhere {outer inner : Distribution} (copied : inner = .replicated ∨ inner = .universal) :
      CoLocated keys outer inner
  | oneHost {outer inner : Distribution} (outer_host : outer = .singleton ∨ outer = .universal)
      (inner_host : inner = .singleton ∨ inner = .universal) : CoLocated keys outer inner
  | hashed {outerColumns innerColumns : List Column} {nulls nulls' : Bool}
      (nonempty : outerColumns ≠ [])
      (aligned : List.Forall₂ (fun outer inner => (outer, inner) ∈ keys) outerColumns innerColumns) :
      CoLocated keys (.hashed outerColumns nulls) (.hashed innerColumns nulls')

namespace Distribution

variable {delivered : Distribution} {columns : List Column}

/-! ## What meets the requirements of a hash join -/

theorem eq_of_satisfies_singleton (h : delivered.satisfies .singleton .satisfy = true) :
    delivered = .singleton ∨ delivered = .universal := by
  cases delivered <;> simp [satisfies] at h ⊢

theorem eq_of_satisfies_replicated (h : delivered.satisfies .replicated .satisfy = true) :
    delivered = .replicated ∨ delivered = .universal := by
  cases delivered <;> simp [satisfies] at h ⊢

/-- A hashing requirement is met by hashing on some of the columns. -/
theorem exists_hashed_of_satisfies (h : delivered.satisfies (.hashedOn columns) .satisfy = true) :
    ∃ found nulls, delivered = .hashed found nulls ∧ found ≠ [] ∧ ∀ column ∈ found, column ∈ columns := by
  cases delivered with
  | hashed found nulls =>
      simp only [satisfies, hashedOn, hashingSuffices, Bool.and_eq_true, Bool.not_eq_true',
        Bool.or_eq_false_iff, List.isEmpty_eq_false_iff, List.all_eq_true, decide_eq_true_eq] at h
      exact ⟨found, nulls, rfl, h.1.1, h.2⟩
  | _ => simp [satisfies, hashedOn] at h

theorem exists_hashed_of_satisfies_exact
    (h : delivered.satisfies (.hashedOn columns) .exact = true) :
    ∃ nulls, delivered = .hashed columns nulls := by
  cases delivered with
  | hashed found nulls =>
      simp only [satisfies, hashedOn, Bool.and_eq_true, beq_iff_eq] at h
      exact ⟨nulls, by rw [h.1]⟩
  | _ => simp [satisfies, hashedOn] at h

end Distribution

/-! ## Partners of hash columns -/

/-- Outer key columns have partners in the list of pairs. The first pair decides when a column occurs
in several. -/
theorem PhysicalOperator.aligned_partnerKeys {keys : List (Column × Column)} {columns : List Column}
    {nulls : Bool} {outer : PlanProperties} (hdelivered : outer.distribution = .hashed columns nulls)
    (hkeys : ∀ column ∈ columns, column ∈ keys.map Prod.fst) :
    List.Forall₂ (fun outer inner => (outer, inner) ∈ keys) columns
      (partnerKeys (keys.map Prod.fst) (keys.map Prod.snd) (some outer)) := by
  have hpartner (column : Column) (hcolumn : column ∈ keys.map Prod.fst) :
      ∃ partner, (((keys.map Prod.fst).idxOf? column).bind fun position =>
        (keys.map Prod.snd)[position]?) = some partner ∧ (column, partner) ∈ keys := by
    obtain ⟨position, hposition⟩ := Option.isSome_iff_exists.mp (List.isSome_idxOf?.mpr hcolumn)
    obtain ⟨hlt, hfound, _⟩ := List.idxOf?_eq_some_iff.mp hposition
    rw [List.length_map] at hlt
    rw [List.getElem_map] at hfound
    refine ⟨keys[position].2, ?_, ?_⟩
    · rw [hposition, Option.bind_some, List.getElem?_map, List.getElem?_eq_getElem hlt]
      rfl
    · rw [← hfound]
      exact List.getElem_mem hlt
  have hpartners : ∃ partners, (columns.mapM fun column =>
      ((keys.map Prod.fst).idxOf? column).bind fun position => (keys.map Prod.snd)[position]?) =
        some partners ∧
      List.Forall₂ (fun outer inner => (outer, inner) ∈ keys) columns partners := by
    clear hdelivered
    induction columns with
    | nil => exact ⟨[], rfl, .nil⟩
    | cons column rest ih =>
        obtain ⟨partner, hfound, hpair⟩ := hpartner column (hkeys column (by simp))
        obtain ⟨partners, hrest, haligned⟩ := ih fun other hother => hkeys other (by simp [hother])
        refine ⟨partner :: partners, ?_, .cons hpair haligned⟩
        rw [List.mapM_cons, hfound, hrest]
        rfl
  obtain ⟨partners, hpartners, haligned⟩ := hpartners
  unfold partnerKeys
  rw [Option.bind_some, hdelivered]
  dsimp only [Distribution.hashColumns?]
  rw [hpartners]
  exact haligned

/-- Inputs that meet what a request of a hash join asks of them are co-located: the first request
hashes, the second one copies the inner side, the third one brings both to one host. -/
theorem PhysicalOperator.coLocated {keys : List (Column × Column)} {view : ExprView}
    {required : PlanRequirement} {request : Nat} {outer inner : PlanProperties}
    (houter : ((hashJoin (keys.map Prod.fst) (keys.map Prod.snd)).childRequirement view required 0
      [] request).distribution.isSatisfiedBy outer.distribution = true)
    (hinner : ((hashJoin (keys.map Prod.fst) (keys.map Prod.snd)).childRequirement view required 1
      [outer] request).distribution.isSatisfiedBy inner.distribution = true) :
    Distribution.CoLocated keys outer.distribution inner.distribution := by
  have hdigit : ((hashJoin (keys.map Prod.fst) (keys.map Prod.snd)).requestDigits
      request).distribution < 3 :=
    Nat.mod_lt _ (Nat.le_max_right _ _)
  have hasked (child : Nat) (siblings : List PlanProperties) :
      ((hashJoin (keys.map Prod.fst) (keys.map Prod.snd)).childRequirement view required child
        siblings request).distribution =
      ⟨(hashJoin (keys.map Prod.fst) (keys.map Prod.snd)).childDistribution
          required.distribution.spec child siblings request,
        (hashJoin (keys.map Prod.fst) (keys.map Prod.snd)).distributionMatching child request⟩ := rfl
  rw [hasked] at houter hinner
  unfold childDistribution distributionMatching at houter hinner
  generalize ((hashJoin (keys.map Prod.fst) (keys.map Prod.snd)).requestDigits
    request).distribution = digit at hdigit houter hinner
  obtain rfl | rfl | rfl : digit = 0 ∨ digit = 1 ∨ digit = 2 := by omega
  · obtain ⟨columns, nulls, hhashed, hnonempty, hkeys⟩ :=
      Distribution.exists_hashed_of_satisfies houter
    obtain ⟨nulls', hhashed'⟩ := Distribution.exists_hashed_of_satisfies_exact hinner
    have haligned := aligned_partnerKeys hhashed hkeys
    rw [hhashed, hhashed']
    exact .hashed hnonempty haligned
  · exact .everywhere (Distribution.eq_of_satisfies_replicated hinner)
  · exact .oneHost (Distribution.eq_of_satisfies_singleton houter)
      (Distribution.eq_of_satisfies_singleton hinner)

/-! ## Joins in plans -/

/-- A hash join of a plan is over co-located inputs. -/
def PlanNode.JoinsCoLocated (node : PlanNode) : Prop :=
  ∀ keys, node.op = .physical (.hashJoin (keys.map Prod.fst) (keys.map Prod.snd)) →
    ∀ outer inner, (node.children[0]?).bind (·.delivered) = some outer →
      (node.children[1]?).bind (·.delivered) = some inner →
      Distribution.CoLocated keys outer.distribution inner.distribution

/-- Below a scalar nothing is delivered that a join could be over. -/
theorem PlanNode.IsScalar.joinsCoLocated {plan : PlanNode} (h : plan.IsScalar) :
    plan.JoinsCoLocated := by
  intro keys _ outer _ houter _
  obtain ⟨child, hchild, hdelivered⟩ := Option.bind_eq_some_iff.mp houter
  cases h with
  | node _ children =>
      cases children child (List.mem_of_getElem? hchild) with
      | node delivered _ => exact absurd (delivered.symm.trans hdelivered) (by simp)

/-- What a plan that obeys delivers meets the requirement. -/
theorem PlanNode.Obeys.isSatisfiedBy {memo : Memo} {required : PlanRequirement} {plan : PlanNode}
    (h : plan.Obeys memo required) {delivered : PlanProperties}
    (hdelivered : plan.delivered = some delivered) :
    required.isSatisfiedBy (memo.logical plan.group) delivered = true := by
  cases h with
  | node _ _ _ _ _ satisfied =>
      obtain rfl := Option.some.inj hdelivered
      exact satisfied

/-- A requirement that is met is met in the distribution. -/
theorem PlanRequirement.distribution_isSatisfiedBy {required : PlanRequirement}
    {logical : RelationProperties} {delivered : PlanProperties}
    (h : required.isSatisfiedBy logical delivered = true) :
    required.distribution.isSatisfiedBy delivered.distribution = true := by
  unfold isSatisfiedBy at h
  simp only [Bool.and_eq_true] at h
  exact h.1.1.1.2

/-- Every hash join of a plan that obeys is over co-located inputs, by induction on the plan. -/
theorem PlanNode.Obeys.joinsCoLocated {memo : Memo} {required : PlanRequirement} {plan : PlanNode}
    (h : plan.Obeys memo required) : ∀ node ∈ plan.nodes, node.JoinsCoLocated := by
  induction h with
  | @node id context best costing expr op delivered children context_found best_held costing_found
      expr_found physical satisfied lengths homes requests scalars ih =>
      -- a child is a relation that obeys or a scalar
      have hchild (position : Nat) (plan : PlanNode) (hplan : children[position]? = some plan) :
          plan.IsScalar ∨ ∃ child, expr.children[position]? = some child ∧
            (memo.properties (memo.master child)).isScalar = false := by
        have hlt := (List.getElem?_eq_some_iff.mp hplan).1
        cases hscalar : (memo.properties (memo.master expr.children[position])).isScalar with
        | true => exact .inl (scalars position _ plan (List.getElem?_eq_getElem _) hplan hscalar)
        | false => exact .inr ⟨_, List.getElem?_eq_getElem _, hscalar⟩
      intro node hnode
      rcases PlanNode.mem_nodes.mp hnode with rfl | ⟨plan, hplan, hbelow⟩
      · intro keys hop outer inner houter hinner
        obtain rfl := Operator.physical.inj hop
        have hdelivered (position : Nat) (found : PlanProperties)
            (hfound : (children[position]?).bind (·.delivered) = some found) :
            ((PhysicalOperator.hashJoin (keys.map Prod.fst) (keys.map Prod.snd)).childRequirement
              (memo.bareView costing.expr expr) context.required position
              (deliveredBefore (.hashJoin (keys.map Prod.fst) (keys.map Prod.snd)) children position)
              costing.request).distribution.isSatisfiedBy found.distribution = true := by
          obtain ⟨plan, hplan, hfound⟩ := Option.bind_eq_some_iff.mp hfound
          rcases hchild position plan hplan with hscalar | ⟨child, hchild, hrelation⟩
          · cases hscalar with
            | node delivered _ => exact absurd (delivered.symm.trans hfound) (by simp)
          · exact PlanRequirement.distribution_isSatisfiedBy
              ((requests position child plan hchild hplan hrelation).isSatisfiedBy hfound)
        have houter' := hdelivered 0 outer houter
        have hinner' := hdelivered 1 inner hinner
        obtain ⟨first, hfirst, hfirstDelivered⟩ := Option.bind_eq_some_iff.mp houter
        obtain ⟨second, hsecond, _⟩ := Option.bind_eq_some_iff.mp hinner
        rw [deliveredBefore_eq rfl (List.getElem?_eq_some_iff.mp hfirst).1] at houter'
        rw [deliveredBefore_eq rfl (List.getElem?_eq_some_iff.mp hsecond).1, List.take_add_one,
          hfirst, List.take_zero] at hinner'
        simp only [List.take_zero, List.filterMap_nil] at houter'
        simp only [Option.toList_some, List.nil_append, List.filterMap_cons, hfirstDelivered,
          List.filterMap_nil] at hinner'
        exact PhysicalOperator.coLocated houter' hinner'
      · obtain ⟨position, hposition⟩ := List.getElem?_of_mem hplan
        rcases hchild position plan hposition with hscalar | ⟨child, hchild, hrelation⟩
        · exact (hscalar.of_mem_nodes hbelow).joinsCoLocated
        · exact ih position child plan hchild hposition hrelation node hbelow

/-! ## After any calls -/

/-- Take any calls of the optimizer on a memo in which nothing is planned yet, over operators of the
catalogue, with enforcers above their own groups and no group above itself. In whatever plan is
extracted afterwards, the inputs of every hash join are co-located. -/
theorem Memo.Reachable.extractPlan_coLocated {memo : Memo} (hreachable : memo.Reachable)
    (hcatalogued : ∀ id expr op, memo.expr? id = some expr → expr.op = .physical op →
      op.isCatalogued = true)
    (henforcing : ∀ id expr, memo.expr? id = some expr → expr.op.isEnforcer = true →
      expr.children.map memo.master = [memo.master expr.group])
    (hacyclic : ∀ id, ¬ Relation.TransGen memo.Reads id id)
    (calls : List OptimizeCall) (root : GroupId) (required : PlanRequirement) (stages : Nat)
    (plan : PlanNode)
    (hplan : (exec (extractPlan root required stages) (memo.optimizeAll calls)).1 = .ok plan) :
    ∀ node ∈ plan.nodes, node.JoinsCoLocated := by
  obtain ⟨horder, hsettled⟩ :=
    hreachable.settled_optimizeAll hcatalogued henforcing hacyclic calls
  obtain ⟨found, _, hexec, _, hobeys⟩ | ⟨_, _, hexec, _⟩ :=
    (Planning.Post.extractedPlan_obeys hsettled root required stages).exists_exec
  · rw [hexec] at hplan
    obtain rfl := Except.ok.inj hplan
    exact hobeys.joinsCoLocated
  · rw [hexec] at hplan
    exact absurd hplan (by simp)

/-- The inputs of the join of two tables are co-located on its only pair of key columns. -/
theorem Memo.joined_coLocated :
    ∃ plan node outer inner, (exec (extractPlan ⟨3⟩ OptimizeCall.joined.required 1)
        (joined.optimizeAll [.joined])).1 = .ok plan ∧ node ∈ plan.nodes ∧
      node.op = .physical (.hashJoin [⟨0⟩] [⟨1⟩]) ∧
      (node.children[0]?).bind (·.delivered) = some outer ∧
      (node.children[1]?).bind (·.delivered) = some inner ∧
      Distribution.CoLocated [(⟨0⟩, ⟨1⟩)] outer.distribution inner.distribution := by
  have hstacked : joined.isStacked = true := by decide +kernel
  obtain ⟨plan, hplan, hfound⟩ := exists_plan_joined
  obtain ⟨node, hnode, hjoins⟩ := List.any_eq_true.mp hfound
  have hcoLocated := reachable_joined.extractPlan_coLocated (isCatalogued_of_isStacked hstacked)
    (enforces_of_isStacked hstacked) (acyclic_of_isStacked hstacked reachable_joined.wellFormed)
    [.joined] _ _ _ plan hplan node hnode [(⟨0⟩, ⟨1⟩)]
  unfold PlanNode.joinsOn at hjoins
  split at hjoins
  · rename_i outerKey innerKey first second rest hop hchildren
    simp only [Bool.and_eq_true, beq_iff_eq, Option.isSome_iff_exists] at hjoins
    obtain ⟨⟨⟨rfl, rfl⟩, outer, houter⟩, inner, hinner⟩ := hjoins
    have houter' : (node.children[0]?).bind (·.delivered) = some outer := by
      rw [hchildren]
      exact houter
    have hinner' : (node.children[1]?).bind (·.delivered) = some inner := by
      rw [hchildren]
      exact hinner
    exact ⟨plan, node, outer, inner, hplan, hnode, hop, houter', hinner',
      hcoLocated hop outer inner houter' hinner'⟩
  · exact absurd hjoins (by simp)

end QueryPlanner
