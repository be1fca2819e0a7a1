import QueryPlanner.Proofs.Equality
import QueryPlanner.Proofs.Meaning.Predicate
import QueryPlanner.Proofs.Rule.Trees
import QueryPlanner.Proofs.Search.Results

/-!
# What the transformations answer

The transformations answer inner joins. The children of these are known groups, new predicates whose
conjuncts stand in predicates of the memo, and new joins and selections over such children
(`RuleResult.Built`). They look at the output columns of known groups and at nothing else in the
memo, so they answer the same for a tree after the memo has grown (`Rule.IsStable`).
-/

namespace QueryPlanner

/-- A predicate of the memo has the conjunct. -/
def Memo.Voices (memo : Memo) (conjunct : Scalar) : Prop :=
  ∃ id expr predicate, memo.expr? id = some expr ∧ expr.op = .scalar (.predicate predicate) ∧
    conjunct ∈ predicate.conjuncts

/-- The conjuncts stand in predicates of the memo. -/
def Memo.VoicesAll (memo : Memo) (conjuncts : List Scalar) : Prop :=
  ∀ conjunct ∈ conjuncts, conjunct.IsConjunct ∧ memo.Voices conjunct

/-- A child of what a transformation answers. -/
inductive RuleChild.Built (memo : Memo) : RuleChild → Prop
  | group {id : GroupId} (known : id.index < memo.groups.size) : Built memo (.group id)
  | predicate {conjuncts : List Scalar} (voiced : memo.VoicesAll conjuncts) :
      Built memo (.predicate (.conjunction conjuncts))
  | join {left right condition : RuleChild} (outer : Built memo left) (inner : Built memo right)
      (test : Built memo condition) :
      Built memo (.new (.logical .innerJoin) [left, right, condition])
  | select {input : RuleChild} {conjuncts : List Scalar} (below : Built memo input)
      (inhabited : conjuncts ≠ []) (voiced : memo.VoicesAll conjuncts) :
      Built memo (.new (.logical .select) [input, .predicate (.conjunction conjuncts)])

/-- What a transformation answers is a join over children that it builds. -/
inductive RuleResult.Built (memo : Memo) : RuleResult → Prop
  | join {left right condition : RuleChild} (outer : left.Built memo) (inner : right.Built memo)
      (test : condition.Built memo) :
      Built memo ⟨.logical .innerJoin, [left, right, condition]⟩

/-- The rule answers the same when the memo has grown since the tree was listed, and what it answers
is built from the memo. -/
def Rule.IsStable (rule : Rule) : Prop :=
  ∀ (listed later : Memo) owner bound, listed.WellFormed → listed.Binds rule.pattern owner bound →
    listed.Widens later → rule.apply later bound = rule.apply listed bound ∧
      ∀ result ∈ rule.apply listed bound, result.Built listed

variable {memo listed later : Memo}

/-! ## What is built can be inserted -/

theorem RuleChild.fits_predicate (condition : Scalar) :
    (RuleChild.predicate condition).Fits memo := by
  rw [RuleChild.predicate, Fits, AllFit]
  refine ⟨rfl, condition.same_self, fun count hcount => ?_, trivial⟩
  obtain rfl := Option.some.inj hcount
  rfl

/-- What is built can be inserted, by induction on how it is built. -/
theorem RuleChild.Built.fits {child : RuleChild} (h : child.Built memo) : child.Fits memo := by
  induction h with
  | group known =>
      rw [Fits]
      exact known
  | predicate _ => exact fits_predicate _
  | join _ _ _ houter hinner htest =>
      rw [Fits]
      refine ⟨rfl, rfl, fun count hcount => ?_, houter, hinner, htest, trivial⟩
      obtain rfl := Option.some.inj hcount
      rfl
  | select _ _ _ hbelow =>
      rw [Fits]
      refine ⟨rfl, rfl, fun count hcount => ?_, hbelow, fits_predicate _, trivial⟩
      obtain rfl := Option.some.inj hcount
      rfl

theorem RuleResult.Built.fits {result : RuleResult} (h : result.Built memo) : result.Fits memo := by
  cases h with
  | join outer inner test =>
      refine ⟨rfl, rfl, fun count hcount => ?_, outer.fits, inner.fits, test.fits, trivial⟩
      obtain rfl := Option.some.inj hcount
      rfl

/-! ## What the rules read -/

/-- The conjuncts of a predicate that is read off a tree stand in the memo. -/
theorem Memo.ReadsPredicate.voicesAll {child : GroupId} {predicate : Scalar}
    (h : memo.ReadsPredicate child predicate) : memo.VoicesAll predicate.conjuncts := by
  obtain ⟨id, expr, hexpr, _, _, rfl⟩ := h
  intro conjunct hconjunct
  refine ⟨Scalar.isConjunct_of_mem_conjuncts _ hconjunct, ?_⟩
  cases hop : expr.op with
  | scalar op =>
      rw [hop] at hconjunct
      cases op with
      | predicate predicate => exact ⟨id, expr, predicate, hexpr, hop, hconjunct⟩
      | custom _ => simp [Operator.predicate?, ScalarOperator.predicate?, Scalar.always,
          Scalar.conjuncts] at hconjunct
  | logical _ | physical _ =>
      simp [hop, Operator.predicate?, Scalar.always, Scalar.conjuncts] at hconjunct

theorem Memo.VoicesAll.of_subset {conjuncts others : List Scalar} (h : memo.VoicesAll conjuncts)
    (hsubset : others ⊆ conjuncts) : memo.VoicesAll others := fun conjunct hconjunct =>
  h conjunct (hsubset hconjunct)

theorem Memo.VoicesAll.append {conjuncts others : List Scalar} (h : memo.VoicesAll conjuncts)
    (hothers : memo.VoicesAll others) : memo.VoicesAll (conjuncts ++ others) :=
  List.forall_mem_append.mpr ⟨h, hothers⟩

/-- The masters of the children of an alternative are known. -/
theorem Memo.WellFormed.masterChildKnown (hwell : memo.WellFormed) {id : ExprId} {expr : MemoExpr}
    (hexpr : memo.expr? id = some expr) : ∀ child ∈ expr.children,
      (memo.master child).index < memo.groups.size := fun child hchild =>
  hwell.masterKnown _ (hwell.childKnown id expr hexpr child hchild)

namespace Rule

theorem partition_subset {α : Type} (test : α → Bool) (items : List α) :
    (items.partition test).1 ⊆ items ∧ (items.partition test).2 ⊆ items := by
  rw [List.partition_eq_filter_filter]
  exact ⟨List.filter_subset_self _, List.filter_subset_self _⟩

theorem isStable_joinCommutativity : joinCommutativity.IsStable := by
  intro listed later owner bound hwell hbinds _
  refine ⟨rfl, fun result hresult => ?_⟩
  obtain ⟨id, expr, hexpr, hkind, _, _, hchildGroups⟩ := Memo.Binds.of_overLeaves hbinds
  obtain ⟨outer, inner, predicate, hchildren⟩ :=
    hwell.children_of_join hexpr (Operator.eq_innerJoin hkind)
  have hknown := hwell.masterChildKnown hexpr
  rw [hchildren] at hchildGroups hknown
  unfold joinCommutativity at hresult
  dsimp only at hresult
  rw [hchildGroups] at hresult
  obtain rfl := List.mem_singleton.mp hresult
  exact .join (.group (hknown inner (by simp))) (.group (hknown outer (by simp)))
    (.group (hknown predicate (by simp)))

/-- One orientation of associativity. -/
theorem built_reassociate {stay moved last : GroupId} {upper lower : Scalar} {result : RuleResult}
    (hstay : stay.index < memo.groups.size) (hmoved : moved.index < memo.groups.size)
    (hlast : last.index < memo.groups.size) (hupper : memo.VoicesAll upper.conjuncts)
    (hlower : memo.VoicesAll lower.conjuncts)
    (hresult : reassociate? memo upper lower stay moved last = some result) :
    result.Built memo := by
  unfold reassociate? at hresult
  have hsubset := partition_subset (connects (memo.logical moved).output (memo.logical last).output)
    upper.conjuncts
  generalize upper.conjuncts.partition _ = split at hresult hsubset
  obtain ⟨connecting, others⟩ := split
  dsimp only at hresult hsubset
  split at hresult
  · simp at hresult
  · obtain rfl := Option.some.inj hresult
    exact .join (.group hstay) (.join (.group hmoved) (.group hlast)
      (.predicate (hupper.of_subset hsubset.1))) (.predicate (hlower.append
        (hupper.of_subset hsubset.2)))

theorem isStable_joinAssociativity : joinAssociativity.IsStable := by
  intro listed later owner bound hwell hbinds hwidens
  obtain ⟨lower, last, predicate, habove⟩ := hwell.bindsAboveJoin_of_join hbinds
  obtain ⟨id, expr, hexpr, hop, hchildren, _⟩ := habove.alternative
  obtain ⟨tree, trees, htrees, hothers, outer, inner, condition, hbelow⟩ := habove.children
  obtain ⟨belowId, belowExpr, hbelowExpr, _, hbelowChildren, _⟩ := hbelow.alternative
  obtain ⟨lastTree, rest, rfl, hlastTree⟩ : ∃ lastTree rest, trees = lastTree :: rest ∧
      lastTree.group = listed.master last := by
    cases trees with
    | nil => simp at hothers
    | cons lastTree rest => exact ⟨lastTree, rest, rfl, (List.cons.inj hothers).1⟩
  have houter := hwell.masterChildKnown hbelowExpr outer (by simp [hbelowChildren])
  have hinner := hwell.masterChildKnown hbelowExpr inner (by simp [hbelowChildren])
  have hlast := hwell.masterChildKnown hexpr last (by simp [hchildren])
  have hsame (stay moved : GroupId) (upper lower : Scalar)
      (hmoved : moved.index < listed.groups.size) :
      reassociate? later upper lower stay moved (listed.master last) =
        reassociate? listed upper lower stay moved (listed.master last) := by
    unfold reassociate?
    rw [hwidens.logical _ hmoved, hwidens.logical _ hlast]
  unfold joinAssociativity
  dsimp only
  rw [htrees]
  dsimp only
  rw [hbelow.childGroups]
  dsimp only
  rw [hlastTree, hsame _ _ _ _ hinner, hsame _ _ _ _ houter]
  refine ⟨rfl, fun result hresult => ?_⟩
  have hupperConjuncts := habove.reads.voicesAll
  have hlowerConjuncts := hbelow.reads.voicesAll
  rcases List.mem_append.mp hresult with hresult | hresult
  · exact built_reassociate houter hinner hlast hupperConjuncts hlowerConjuncts
      (Option.mem_toList.mp hresult)
  · exact built_reassociate hinner houter hlast hupperConjuncts hlowerConjuncts
      (Option.mem_toList.mp hresult)

/-- A group with or without a new selection above it. -/
theorem built_selected {id : GroupId} {conjuncts : List Scalar}
    (hknown : id.index < memo.groups.size) (hvoiced : memo.VoicesAll conjuncts) :
    (selected id conjuncts).Built memo := by
  unfold selected
  split
  · exact .group hknown
  · rename_i hinhabited
    exact .select (.group hknown) (by simpa using hinhabited) hvoiced

theorem isStable_predicatePushdown : predicatePushdown.IsStable := by
  intro listed later owner bound hwell hbinds hwidens
  obtain ⟨lower, predicate, habove⟩ := hwell.bindsAboveJoin_of_select hbinds
  obtain ⟨id, expr, hexpr, hop, hchildren, _⟩ := habove.alternative
  obtain ⟨tree, trees, htrees, _, outer, inner, condition, hbelow⟩ := habove.children
  obtain ⟨belowId, belowExpr, hbelowExpr, _, hbelowChildren, _⟩ := hbelow.alternative
  have houter := hwell.masterChildKnown hbelowExpr outer (by simp [hbelowChildren])
  have hinner := hwell.masterChildKnown hbelowExpr inner (by simp [hbelowChildren])
  unfold predicatePushdown
  dsimp only
  rw [htrees]
  dsimp only
  rw [hbelow.childGroups]
  dsimp only
  rw [hwidens.logical _ houter, hwidens.logical _ hinner]
  refine ⟨rfl, fun result hresult => ?_⟩
  have hupperConjuncts := habove.reads.voicesAll
  have hlowerConjuncts := hbelow.reads.voicesAll
  obtain rfl := List.mem_singleton.mp hresult
  unfold splitConjuncts
  have hsubset := partition_subset (fun conjunct : Scalar => conjunct.columns.subset
    (listed.logical (listed.master outer)).output) (bound.predicate 1).conjuncts
  generalize (bound.predicate 1).conjuncts.partition _ = split at hsubset ⊢
  obtain ⟨outerParts, others⟩ := split
  dsimp only at hsubset ⊢
  have hsubset' := partition_subset (fun conjunct : Scalar => conjunct.columns.subset
    (listed.logical (listed.master inner)).output) others
  exact .join (built_selected houter (hupperConjuncts.of_subset hsubset.1))
    (built_selected hinner (hupperConjuncts.of_subset (List.Subset.trans hsubset'.1 hsubset.2)))
    (.predicate (hlowerConjuncts.append
      (hupperConjuncts.of_subset (List.Subset.trans hsubset'.2 hsubset.2))))

end Rule

/-- The transformations among the standard rules. -/
theorem standardRules_isStable : ∀ rule ∈ standardRules, rule.kind = .transformation →
    rule.IsStable := by
  intro rule hrule hkind
  simp only [standardRules, List.mem_cons, List.not_mem_nil, or_false] at hrule
  rcases hrule with rfl | rfl | rfl | rfl | rfl | rfl | rfl | rfl | rfl | rfl
  · exact Rule.isStable_joinCommutativity
  · exact Rule.isStable_joinAssociativity
  · exact Rule.isStable_predicatePushdown
  all_goals exact absurd hkind (by decide)

end QueryPlanner
