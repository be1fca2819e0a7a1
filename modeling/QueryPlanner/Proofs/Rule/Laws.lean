import QueryPlanner.Proofs.Rule.Soundness
import QueryPlanner.Proofs.Rule.Trees

/-!
# Laws under which the rules are sound

The rules rest on a few laws of the algebra: joins commute and associate, a selection moves into a
join and below it, and every physical operator computes what its logical counterpart computes.
`Reading.AdmitsRules` collects these laws for a reading of operators, and
`Reading.AdmitsRules.sound` shows that all standard rules are sound for a reading that has them.
-/

namespace QueryPlanner

variable {α : Type} {reading : Reading α}

namespace Reading

/-- The value of a join. -/
def join (reading : Reading α) (outer inner condition : α) : Option α :=
  reading.apply (.logical .innerJoin) [outer, inner, condition]

/-- The value of a selection. -/
def select (reading : Reading α) (relation condition : α) : Option α :=
  reading.apply (.logical .select) [relation, condition]

/-- The value of a predicate. -/
def condition (reading : Reading α) (predicate : Scalar) : Option α :=
  reading.apply (.scalar (.predicate predicate)) []

/-- The value is one that joins or selections take as their condition. -/
def IsCondition (reading : Reading α) (value : α) : Prop :=
  (∃ outer inner joined, reading.join outer inner value = some joined) ∨
    ∃ relation kept, reading.select relation value = some kept

/-- A join by the conjunction of predicates. -/
def joinBy (reading : Reading α) (outer inner : α) (conjuncts : List Scalar) : Option α :=
  (reading.condition (.conjunction conjuncts)).bind (reading.join outer inner)

/-- The value of a relation below a selection by the conjunction of predicates. Without predicates
nothing is selected. -/
def selectBy (reading : Reading α) (relation : α) (conjuncts : List Scalar) : Option α :=
  if conjuncts.isEmpty then some relation
  else (reading.condition (.conjunction conjuncts)).bind (reading.select relation)

/-- The laws that the rules rest on. What a rule looks at are the columns of groups, as far as they
fit the values of the groups. -/
structure AdmitsRules (reading : Reading α) : Prop where
  /-- Only predicates serve as conditions. -/
  predicates : ∀ {op values value}, op.isPhysical = false → reading.apply op values = some value →
    reading.IsCondition value → ∃ predicate, op = .scalar (.predicate predicate)
  joinComm : ∀ {outer inner condition joined}, reading.join outer inner condition = some joined →
    reading.join inner outer condition = some joined
  /-- The conjuncts of an upper join that connect the last relation with one below move down. -/
  joinAssoc : ∀ {stay moved last lowerValue upperValue lowerJoin joined} {lower upper : Scalar}
    {movedProperties lastProperties : GroupProperties},
    reading.fits movedProperties moved → reading.fits lastProperties last →
    reading.condition lower = some lowerValue → reading.condition upper = some upperValue →
    reading.join stay moved lowerValue = some lowerJoin →
    reading.join lowerJoin last upperValue = some joined →
    let connecting := Rule.connects movedProperties.relationOrEmpty.output
      lastProperties.relationOrEmpty.output
    let split := upper.conjuncts.partition connecting
    (reading.joinBy moved last split.1).bind (fun below =>
      reading.joinBy stay below (lower.conjuncts ++ split.2)) = some joined
  /-- A selection above a join is split over the sides and the join. -/
  selectJoin : ∀ {outer inner lowerValue upperValue lowerJoin kept} {lower upper : Scalar}
    {outerProperties innerProperties : GroupProperties},
    reading.fits outerProperties outer → reading.fits innerProperties inner →
    reading.condition lower = some lowerValue → reading.condition upper = some upperValue →
    reading.join outer inner lowerValue = some lowerJoin →
    reading.select lowerJoin upperValue = some kept →
    let split := Rule.splitConjuncts upper outerProperties.relationOrEmpty.output
      innerProperties.relationOrEmpty.output
    (reading.selectBy outer split.outer).bind (fun left =>
      (reading.selectBy inner split.inner).bind fun right =>
        reading.joinBy left right (lower.conjuncts ++ split.join)) = some kept
  /-- Table accesses are scanned, with or without an index. -/
  scans : ∀ {access values value}, reading.apply (.logical (.get access)) values = some value →
    reading.apply (.physical (.tableScan access)) values = some value ∧
      ∀ index, reading.apply (.physical (.indexScan access index)) values = some value
  filters : ∀ {values value}, reading.apply (.logical .select) values = some value →
    reading.apply (.physical .filter) values = some value
  nestedLoops : ∀ {values value}, reading.apply (.logical .innerJoin) values = some value →
    reading.apply (.physical .nestedLoopJoin) values = some value
  /-- The keys of a hash join are equated by the predicate. -/
  hashJoins : ∀ {outer inner condition value} {predicate : Scalar}
    {outerProperties innerProperties : GroupProperties},
    reading.fits outerProperties outer → reading.fits innerProperties inner →
    reading.condition predicate = some condition →
    reading.join outer inner condition = some value →
    let keys := predicate.joinKeys outerProperties.relationOrEmpty.output
      innerProperties.relationOrEmpty.output
    reading.apply (.physical (.hashJoin (keys.map Prod.fst) (keys.map Prod.snd)))
      [outer, inner, condition] = some value
  aggregates : ∀ {grouping aggregates values value},
    reading.apply (.logical (.groupBy grouping aggregates)) values = some value →
    reading.apply (.physical (.hashAggregate grouping aggregates)) values = some value ∧
      reading.apply (.physical (.streamAggregate grouping aggregates)) values = some value

end Reading

open Memo (Grows)

variable {meaning : GroupId → α} {listed memo : Memo} {group : GroupId} {bound : BoundExpr}

/-! ## Values of results -/

theorem RuleChild.value?_group {id : GroupId} (h : id.index < memo.groups.size) :
    (RuleChild.group id).value? reading memo meaning = some (meaning id) := by
  obtain ⟨found, hfound⟩ := Memo.exists_group?_eq_some.mpr h
  rw [RuleChild.value?, hfound, Option.map_some]

theorem RuleChild.values?_groups {ids : List GroupId}
    (h : ∀ id ∈ ids, id.index < memo.groups.size) :
    RuleChild.values? reading memo meaning (ids.map .group) = some (ids.map meaning) := by
  induction ids with
  | nil => rfl
  | cons id rest ih =>
      rw [List.map_cons, RuleChild.values?, RuleChild.value?_group (h id (by simp)),
        ih fun other hother => h other (by simp [hother])]
      rfl

/-- An alternative over groups computes what its operator makes of their values. -/
theorem RuleResult.value?_over {op : Operator} {ids : List GroupId}
    (h : ∀ id ∈ ids, id.index < memo.groups.size) :
    (RuleResult.over op ids).value? reading memo meaning =
      reading.apply op (ids.map meaning) := by
  rw [RuleResult.over, RuleResult.value?, RuleChild.values?_groups h, Option.bind_some]

theorem RuleChild.value?_predicate {predicate : Scalar} :
    (RuleChild.predicate predicate).value? reading memo meaning = reading.condition predicate := by
  rw [RuleChild.predicate, RuleChild.value?, RuleChild.values?, Option.bind_some]
  rfl

/-- The children of a join that is a result. -/
theorem RuleChild.values?_join {left right : RuleChild} {conjuncts : List Scalar} :
    (RuleChild.values? reading memo meaning
        [left, right, .predicate (.conjunction conjuncts)]).bind
        (reading.apply (.logical .innerJoin)) =
      (left.value? reading memo meaning).bind fun outer =>
        (right.value? reading memo meaning).bind fun inner => reading.joinBy outer inner conjuncts := by
  simp only [RuleChild.values?, RuleChild.value?_predicate, Reading.joinBy, Reading.join]
  cases left.value? reading memo meaning with
  | none => rfl
  | some outer =>
      cases right.value? reading memo meaning with
      | none => rfl
      | some inner => cases reading.condition (.conjunction conjuncts) <;> rfl

/-- A group below a selection. -/
theorem RuleChild.value?_selected {id : GroupId} {conjuncts : List Scalar}
    (h : id.index < memo.groups.size) :
    (Rule.selected id conjuncts).value? reading memo meaning =
      reading.selectBy (meaning id) conjuncts := by
  unfold Rule.selected Reading.selectBy
  split
  · exact RuleChild.value?_group h
  · rw [RuleChild.value?]
    simp only [RuleChild.values?, RuleChild.value?_predicate, RuleChild.value?_group h,
      Reading.select]
    cases reading.condition (.conjunction conjuncts) <;> rfl

/-! ## Values of bound trees -/

namespace Memo.Models

variable (hlaws : reading.AdmitsRules) (h : memo.Models reading meaning)
include h

theorem apply_of_expr {id : ExprId} {expr : MemoExpr} (hexpr : memo.expr? id = some expr)
    {group : GroupId} (hgroup : group = memo.master expr.group) :
    reading.apply expr.op (expr.children.map meaning) = some (meaning group) := by
  rw [h.computed id expr hexpr, hgroup, h.linked]

/-- The properties of a group that is there fit its value. -/
theorem exists_fits {id : GroupId} (hknown : id.index < memo.groups.size) :
    ∃ properties, reading.fits properties (meaning id) ∧
      memo.logical id = properties.relationOrEmpty := by
  obtain ⟨found, hfound⟩ := exists_group?_eq_some.mpr hknown
  exact ⟨found.properties, h.fits id found hfound, by rw [Memo.logical, hfound]; rfl⟩

include hlaws

/-- A predicate that is read off a tree has the value of its group. -/
theorem condition_of_reads {child : GroupId} {predicate : Scalar}
    (hreads : memo.ReadsPredicate child predicate) (hcondition : reading.IsCondition (meaning child)) :
    reading.condition predicate = some (meaning child) := by
  obtain ⟨id, expr, hexpr, hphysical, hmaster, rfl⟩ := hreads
  have hvalue : meaning expr.group = meaning child := by
    rw [← h.linked expr.group, hmaster, h.linked]
  have hcomputed := h.computed id expr hexpr
  rw [hvalue] at hcomputed
  obtain ⟨predicate, hop⟩ := hlaws.predicates hphysical hcomputed hcondition
  have hnone : expr.children = [] :=
    List.length_eq_zero_iff.mp (h.wellFormed.arity id expr hexpr 0 (by rw [hop]; rfl))
  rw [hop, hnone] at hcomputed
  rw [hop]
  exact hcomputed

/-- What is known of the values of a bound join. -/
theorem join_of_binds {outer inner predicate : GroupId}
    (hbinds : memo.BindsJoin group bound outer inner predicate) :
    reading.join (meaning outer) (meaning inner) (meaning predicate) = some (meaning group) ∧
      reading.condition (bound.predicate 2) = some (meaning predicate) := by
  obtain ⟨id, expr, hexpr, hop, hchildren, hgroup⟩ := hbinds.alternative
  have hjoin := h.apply_of_expr hexpr hgroup
  rw [hop, hchildren] at hjoin
  exact ⟨hjoin, h.condition_of_reads hlaws hbinds.reads (.inl ⟨_, _, _, hjoin⟩)⟩

end Memo.Models

/-! ## The rules -/

namespace Rule

variable (hlisted : listed.Models reading meaning)
  (hgrows : Grows reading listed meaning memo meaning)
include hlisted hgrows

/-- The masters of children that were listed are known later on. -/
theorem known_master {id : ExprId} {expr : MemoExpr} (hexpr : listed.expr? id = some expr)
    (child : GroupId) (hchild : child ∈ expr.children) :
    (listed.master child).index < memo.groups.size :=
  Nat.lt_of_lt_of_le (hlisted.wellFormed.masterKnown child
    (hlisted.wellFormed.childKnown id expr hexpr child hchild)) hgrows.groups_size

/-- An alternative over the masters of children that were listed computes what its operator makes of
the values of the children. -/
theorem value?_masters (op : Operator) {id : ExprId} {expr : MemoExpr}
    (hexpr : listed.expr? id = some expr) :
    (RuleResult.over op (expr.children.map listed.master)).value? reading memo meaning =
      reading.apply op (expr.children.map meaning) := by
  rw [RuleResult.value?_over fun master hmaster => ?_, hlisted.map_master]
  obtain ⟨child, hchild, rfl⟩ := List.mem_map.mp hmaster
  exact known_master hlisted hgrows hexpr child hchild

omit hlisted hgrows

/-- A rule is sound that replaces the operator by one that computes the same. -/
theorem sound_implementing {name kind : String} {arity : Nat}
    {implement : LogicalOperator → List PhysicalOperator}
    (himplement : ∀ op, (Operator.logical op).kind = kind → ∀ physical ∈ implement op,
      ∀ values value, reading.apply (.logical op) values = some value →
        reading.apply (.physical physical) values = some value) :
    (implementing name kind arity implement).Sound reading := by
  intro listed memo meaning hlisted hgrows group bound hbinds result hresult
  obtain ⟨id, expr, hexpr, hkind, hgroup, hop, hchildren⟩ := hbinds.of_overLeaves
  have hresult : result ∈ (((bound.op?.bind (·.logical?)).map implement).getD []).map fun op =>
    RuleResult.over (.physical op) bound.childGroups := hresult
  obtain ⟨physical, hphysical, rfl⟩ := List.mem_map.mp hresult
  rw [hchildren, value?_masters hlisted hgrows _ hexpr]
  rw [hop, Option.bind_some] at hphysical
  have hcomputed := hlisted.apply_of_expr hexpr hgroup
  cases hlogical : expr.op with
  | logical op =>
      rw [hlogical] at hkind hphysical hcomputed
      exact himplement op hkind physical hphysical _ _ hcomputed
  | physical _ | scalar _ => simp [hlogical, Operator.logical?] at hphysical

variable (hlaws : reading.AdmitsRules)
include hlaws

theorem sound_tableScan : tableScan.Sound reading := by
  refine sound_implementing fun op _ physical hphysical values value hvalue => ?_
  cases op with
  | get access =>
      obtain rfl := List.mem_singleton.mp hphysical
      exact (hlaws.scans hvalue).1
  | _ => simp at hphysical

theorem sound_indexScan : indexScan.Sound reading := by
  refine sound_implementing fun op _ physical hphysical values value hvalue => ?_
  cases op with
  | get access =>
      obtain ⟨index, _, rfl⟩ := List.mem_map.mp hphysical
      exact (hlaws.scans hvalue).2 index
  | _ => simp at hphysical

theorem sound_filter : filter.Sound reading := by
  refine sound_implementing fun op hkind physical hphysical values value hvalue => ?_
  obtain rfl := List.mem_singleton.mp hphysical
  rw [Operator.eq_select hkind] at hvalue
  exact hlaws.filters hvalue

theorem sound_hashAggregate : hashAggregate.Sound reading := by
  refine sound_implementing fun op _ physical hphysical values value hvalue => ?_
  cases op with
  | groupBy grouping aggregates =>
      obtain rfl := List.mem_singleton.mp hphysical
      exact (hlaws.aggregates hvalue).1
  | _ => simp at hphysical

theorem sound_streamAggregate : streamAggregate.Sound reading := by
  refine sound_implementing fun op _ physical hphysical values value hvalue => ?_
  cases op with
  | groupBy grouping aggregates =>
      obtain rfl := List.mem_singleton.mp hphysical
      exact (hlaws.aggregates hvalue).2
  | _ => simp at hphysical

theorem sound_nestedLoopJoin : nestedLoopJoin.Sound reading := by
  intro listed memo meaning hlisted hgrows group bound hbinds result hresult
  obtain ⟨outer, inner, predicate, hjoin⟩ := hlisted.wellFormed.bindsJoin hbinds
  obtain ⟨id, expr, hexpr, hop, hchildren, hgroup⟩ := hjoin.alternative
  obtain rfl := List.mem_singleton.mp hresult
  have hvalue := value?_masters hlisted hgrows (.physical .nestedLoopJoin) hexpr
  rw [hchildren] at hvalue
  rw [hjoin.childGroups]
  exact hvalue.trans (hlaws.nestedLoops (hlisted.join_of_binds hlaws hjoin).1)

theorem sound_hashJoin : hashJoin.Sound reading := by
  intro listed memo meaning hlisted hgrows group bound hbinds result hresult
  obtain ⟨outer, inner, predicate, hjoin⟩ := hlisted.wellFormed.bindsJoin hbinds
  obtain ⟨id, expr, hexpr, hop, hchildren, hgroup⟩ := hjoin.alternative
  obtain ⟨hvalue, hcondition⟩ := hlisted.join_of_binds hlaws hjoin
  obtain ⟨outerProperties, houter, houterRead⟩ := hgrows.models.exists_fits
    (known_master hlisted hgrows hexpr outer (by simp [hchildren]))
  obtain ⟨innerProperties, hinner, hinnerRead⟩ := hgrows.models.exists_fits
    (known_master hlisted hgrows hexpr inner (by simp [hchildren]))
  rw [hlisted.linked] at houter hinner
  have hcomputes := hlaws.hashJoins houter hinner hcondition hvalue
  unfold hashJoin at hresult
  dsimp only at hresult
  rw [hjoin.childGroups] at hresult
  dsimp only at hresult
  rw [houterRead, hinnerRead] at hresult
  split at hresult
  · simp at hresult
  · obtain rfl := List.mem_singleton.mp hresult
    have hover := value?_masters hlisted hgrows (.physical (.hashJoin
      (((bound.predicate 2).joinKeys outerProperties.relationOrEmpty.output
        innerProperties.relationOrEmpty.output).map Prod.fst)
      (((bound.predicate 2).joinKeys outerProperties.relationOrEmpty.output
        innerProperties.relationOrEmpty.output).map Prod.snd))) hexpr
    rw [hchildren] at hover
    exact hover.trans hcomputes

theorem sound_joinCommutativity : joinCommutativity.Sound reading := by
  intro listed memo meaning hlisted hgrows group bound hbinds result hresult
  obtain ⟨id, expr, hexpr, hkind, hgroup, _, hchildGroups⟩ := Memo.Binds.of_overLeaves hbinds
  have hop := Operator.eq_innerJoin hkind
  obtain ⟨outer, inner, predicate, hchildren⟩ := hlisted.wellFormed.children_of_join hexpr hop
  have hcomputed := hlisted.apply_of_expr hexpr hgroup
  unfold joinCommutativity at hresult
  dsimp only at hresult
  rw [hchildGroups, hchildren] at hresult
  obtain rfl := List.mem_singleton.mp hresult
  rw [RuleResult.value?_over fun master hmaster => ?_]
  · rw [hop, hchildren] at hcomputed
    simp only [List.map_cons, List.map_nil, hlisted.linked]
    exact hlaws.joinComm hcomputed
  · have hmem : master ∈ expr.children.map listed.master := by
      rw [hchildren]
      simp only [List.map_cons, List.map_nil, List.mem_cons] at hmaster ⊢
      tauto
    obtain ⟨child, hchild, rfl⟩ := List.mem_map.mp hmem
    exact known_master hlisted hgrows hexpr child hchild

/-- One orientation of associativity: the values of the relations are given by known groups. -/
theorem value?_reassociate {stay moved last : GroupId} {upper lower : Scalar}
    {lowerValue upperValue lowerJoin joined : α} {result : RuleResult}
    (hmodels : memo.Models reading meaning) (hstay : stay.index < memo.groups.size)
    (hmoved : moved.index < memo.groups.size) (hlast : last.index < memo.groups.size)
    (hlower : reading.condition lower = some lowerValue)
    (hupper : reading.condition upper = some upperValue)
    (hbelow : reading.join (meaning stay) (meaning moved) lowerValue = some lowerJoin)
    (habove : reading.join lowerJoin (meaning last) upperValue = some joined)
    (hresult : reassociate? memo upper lower stay moved last = some result) :
    result.value? reading memo meaning = some joined := by
  obtain ⟨movedProperties, hmovedFits, hmovedRead⟩ := hmodels.exists_fits hmoved
  obtain ⟨lastProperties, hlastFits, hlastRead⟩ := hmodels.exists_fits hlast
  have hlaw := hlaws.joinAssoc hmovedFits hlastFits hlower hupper hbelow habove
  unfold reassociate? at hresult
  rw [hmovedRead, hlastRead] at hresult
  dsimp only at hlaw
  generalize upper.conjuncts.partition _ = split at hlaw hresult
  obtain ⟨connecting, others⟩ := split
  dsimp only at hlaw hresult
  split at hresult
  · simp at hresult
  · obtain rfl := Option.some.inj hresult
    rw [RuleResult.value?, RuleChild.values?_join, RuleChild.value?_group hstay, Option.bind_some,
      RuleChild.value?, RuleChild.values?_join, RuleChild.value?_group hmoved,
      RuleChild.value?_group hlast]
    exact hlaw

theorem sound_joinAssociativity : joinAssociativity.Sound reading := by
  intro listed memo meaning hlisted hgrows group bound hbinds result hresult
  obtain ⟨lower, last, predicate, habove⟩ := hlisted.wellFormed.bindsAboveJoin_of_join hbinds
  obtain ⟨id, expr, hexpr, hop, hchildren, hgroup⟩ := habove.alternative
  obtain ⟨tree, trees, htrees, hothers, outer, inner, condition, hbelow⟩ := habove.children
  obtain ⟨belowId, belowExpr, hbelowExpr, _, hbelowChildren, _⟩ := hbelow.alternative
  -- the values of both joins
  have hupper : reading.join (meaning lower) (meaning last) (meaning predicate) =
      some (meaning group) := by
    have hcomputed := hlisted.apply_of_expr hexpr hgroup
    rwa [hop, hchildren] at hcomputed
  have hupperCondition := hlisted.condition_of_reads hlaws habove.reads (.inl ⟨_, _, _, hupper⟩)
  obtain ⟨hlower, hlowerCondition⟩ := hlisted.join_of_binds hlaws hbelow
  rw [hlisted.linked] at hlower
  obtain ⟨lastTree, rest, rfl, hlastTree⟩ : ∃ lastTree rest, trees = lastTree :: rest ∧
      lastTree.group = listed.master last := by
    cases trees with
    | nil => simp at hothers
    | cons lastTree rest => exact ⟨lastTree, rest, rfl, (List.cons.inj hothers).1⟩
  -- the rule sees the masters of the groups
  have houterKnown := known_master hlisted hgrows hbelowExpr outer
    (by simp [hbelowChildren])
  have hinnerKnown := known_master hlisted hgrows hbelowExpr inner
    (by simp [hbelowChildren])
  have hlastKnown := known_master hlisted hgrows hexpr last (by simp [hchildren])
  unfold joinAssociativity at hresult
  dsimp only at hresult
  rw [htrees] at hresult
  dsimp only at hresult
  rw [hbelow.childGroups] at hresult
  dsimp only at hresult
  rw [hlastTree] at hresult
  rw [← hlisted.linked outer, ← hlisted.linked inner] at hlower
  rw [← hlisted.linked last] at hupper
  rcases List.mem_append.mp hresult with hresult | hresult
  · exact value?_reassociate hlaws hgrows.models houterKnown hinnerKnown hlastKnown
      hlowerCondition hupperCondition hlower hupper (Option.mem_toList.mp hresult)
  · exact value?_reassociate hlaws hgrows.models hinnerKnown houterKnown hlastKnown
      hlowerCondition hupperCondition (hlaws.joinComm hlower) hupper (Option.mem_toList.mp hresult)

theorem sound_predicatePushdown : predicatePushdown.Sound reading := by
  intro listed memo meaning hlisted hgrows group bound hbinds result hresult
  obtain ⟨lower, predicate, habove⟩ := hlisted.wellFormed.bindsAboveJoin_of_select hbinds
  obtain ⟨id, expr, hexpr, hop, hchildren, hgroup⟩ := habove.alternative
  obtain ⟨tree, trees, htrees, _, outer, inner, condition, hbelow⟩ := habove.children
  obtain ⟨belowId, belowExpr, hbelowExpr, _, hbelowChildren, _⟩ := hbelow.alternative
  -- the values of the selection and of the join
  have hupper : reading.select (meaning lower) (meaning predicate) = some (meaning group) := by
    have hcomputed := hlisted.apply_of_expr hexpr hgroup
    rwa [hop, hchildren] at hcomputed
  have hupperCondition := hlisted.condition_of_reads hlaws habove.reads (.inr ⟨_, _, hupper⟩)
  obtain ⟨hlower, hlowerCondition⟩ := hlisted.join_of_binds hlaws hbelow
  rw [hlisted.linked, ← hlisted.linked outer, ← hlisted.linked inner] at hlower
  -- the rule sees the masters of the groups
  have houterKnown := known_master hlisted hgrows hbelowExpr outer
    (by simp [hbelowChildren])
  have hinnerKnown := known_master hlisted hgrows hbelowExpr inner
    (by simp [hbelowChildren])
  obtain ⟨outerProperties, houter, houterRead⟩ := hgrows.models.exists_fits houterKnown
  obtain ⟨innerProperties, hinner, hinnerRead⟩ := hgrows.models.exists_fits hinnerKnown
  unfold predicatePushdown at hresult
  dsimp only at hresult
  rw [htrees] at hresult
  dsimp only at hresult
  rw [hbelow.childGroups] at hresult
  dsimp only at hresult
  rw [houterRead, hinnerRead] at hresult
  obtain rfl := List.mem_singleton.mp hresult
  rw [RuleResult.value?, RuleChild.values?_join, RuleChild.value?_selected houterKnown,
    RuleChild.value?_selected hinnerKnown]
  exact hlaws.selectJoin houter hinner hlowerCondition hupperCondition hlower hupper

end Rule

/-- All standard rules are sound for a reading that has the laws. -/
theorem Reading.AdmitsRules.sound (hlaws : reading.AdmitsRules) :
    ∀ rule ∈ standardRules, rule.Sound reading := by
  intro rule hrule
  simp only [standardRules, List.mem_cons, List.not_mem_nil, or_false] at hrule
  rcases hrule with rfl | rfl | rfl | rfl | rfl | rfl | rfl | rfl | rfl | rfl
  · exact Rule.sound_joinCommutativity hlaws
  · exact Rule.sound_joinAssociativity hlaws
  · exact Rule.sound_predicatePushdown hlaws
  · exact Rule.sound_tableScan hlaws
  · exact Rule.sound_indexScan hlaws
  · exact Rule.sound_filter hlaws
  · exact Rule.sound_hashJoin hlaws
  · exact Rule.sound_nestedLoopJoin hlaws
  · exact Rule.sound_hashAggregate hlaws
  · exact Rule.sound_streamAggregate hlaws

end QueryPlanner
