import QueryPlanner.Proofs.Estimation
import QueryPlanner.Proofs.Memo.Founders
import QueryPlanner.Proofs.Memo.Resetting

/-!
# What the statistics of groups are parts of

If every column were asked for, the statistics of a group would be determined by those of the groups
below: `Memo.Estimates` says so of a table of statistics for all groups, and a memo without cycles has
such a table (`Memo.LogicallyAcyclic.exists_estimates`). Under the assumptions that
`Memo.Estimable` collects the table has every column of every group
(`Memo.Estimates.complete`).
-/

namespace QueryPlanner

open Memo (SameContent)

namespace Memo

variable {memo memo' : Memo} {id : GroupId} {op : LogicalOperator} {children : List GroupId}
  {known known' : GroupId → Statistics}

/-- A logical alternative in use of the group, over the masters of its children. -/
def HasLogical (memo : Memo) (id : GroupId) (op : LogicalOperator) (children : List GroupId) : Prop :=
  ∃ alternative ∈ memo.alternativesOf id, ∃ expr, memo.expr? alternative = some expr ∧
    expr.op = .logical op ∧ expr.children.map memo.master = children

/-- All logical alternatives of the group derive the properties that are recorded with it. -/
def Agrees (memo : Memo) (id : GroupId) : Prop :=
  ∀ op children, memo.HasLogical id op children →
    memo.properties id = .relation (op.properties (children.map memo.properties))

/-- Statistics can be estimated: the logical operators are those of the relational algebra and tell
their columns apart, all logical alternatives of a group derive the same properties, and no group
comes below itself. -/
structure Estimable (memo : Memo) : Prop where
  acyclic : memo.LogicallyAcyclic
  agrees : ∀ id, memo.master id = id → memo.Agrees id
  distinguishes : ∀ id op children, memo.master id = id → memo.HasLogical id op children →
    op.Distinguishes (children.map memo.properties)

/-- The logical operator that the statistics of a group are derived from, and its children. -/
def source? (memo : Memo) (id : GroupId) : Option (LogicalOperator × List GroupId) := do
  let group ← memo.group? id
  let source ← StatisticsSource.best? (memo.statisticsSources group)
  let expr ← memo.expr? source.expr
  let op ← expr.op.logical?
  return (op, expr.children.map memo.master)

/-- The operator of the first alternative of a scalar group. -/
def scalarOf? (memo : Memo) (id : GroupId) : Option Operator :=
  if (memo.properties id).isScalar then (memo.alternativesOf id).head?.bind memo.op? else none

/-- What an estimate over children starts from when the statistics of all groups are known. -/
def statisticsInput (memo : Memo) (known : GroupId → Statistics) (required : ColumnSet)
    (children : List GroupId) : StatisticsInput where
  required
  children := children.map fun child =>
    if (memo.properties child).isScalar then none else some (known child)
  properties := children.map memo.properties
  scalars := children.map memo.scalarOf?

/-- The estimate for all columns of a group. Scalars have no statistics. -/
def estimate (memo : Memo) (known : GroupId → Statistics) (id : GroupId) : Statistics :=
  match memo.properties id with
  | .scalar _ => .empty
  | .relation logical =>
    match memo.source? id with
    | none => .empty
    | some (op, children) =>
      (op.statistics (memo.statisticsInput known logical.output children)).toOption.getD .empty

/-- The statistics of all groups are estimated from each other. -/
def Estimates (memo : Memo) (known : GroupId → Statistics) : Prop :=
  ∀ id, known id = memo.estimate known id

/-! ## Sources of statistics -/

theorem logical_of_mem_statisticsSources {group : Group} {source : StatisticsSource}
    (h : source ∈ memo.statisticsSources group) : source.expr ∈ group.alternatives ∧
      ∃ expr op, memo.expr? source.expr = some expr ∧ expr.op = .logical op := by
  obtain ⟨alternative, halternative, hfound⟩ := List.mem_filterMap.mp h
  unfold statisticsSource? at hfound
  obtain ⟨expr, hexpr, hfound⟩ := Option.bind_eq_some_iff.mp hfound
  obtain ⟨op, hop, hfound⟩ := Option.bind_eq_some_iff.mp hfound
  split at hfound
  · exact absurd hfound (by simp)
  · obtain rfl := Option.some.inj hfound
    refine ⟨halternative, expr, op, hexpr, ?_⟩
    cases hkind : expr.op with
    | logical _ => rw [hkind] at hop; exact congrArg Operator.logical (Option.some.inj hop)
    | physical _ | scalar _ => rw [hkind] at hop; exact absurd hop (by simp [Operator.logical?])

theorem hasLogical_of_source? (h : memo.source? id = some (op, children)) :
    memo.HasLogical id op children := by
  unfold source? at h
  obtain ⟨group, hgroup, h⟩ := Option.bind_eq_some_iff.mp h
  obtain ⟨source, hsource, h⟩ := Option.bind_eq_some_iff.mp h
  obtain ⟨expr, hexpr, h⟩ := Option.bind_eq_some_iff.mp h
  obtain ⟨_, hop, h⟩ := Option.bind_eq_some_iff.mp h
  obtain ⟨rfl, rfl⟩ := Prod.mk.inj (Option.some.inj h)
  obtain ⟨hlisted, found, op, hfound, hkind⟩ :=
    logical_of_mem_statisticsSources (Planning.StatisticsSource.mem_of_best? hsource)
  obtain rfl := Option.some.inj (hexpr.symm.trans hfound)
  rw [hkind] at hop
  obtain rfl := Option.some.inj hop
  refine ⟨source.expr, ?_, expr, hexpr, hkind, rfl⟩
  unfold alternativesOf
  rwa [hgroup]

theorem HasLogical.reads (h : memo.HasLogical id op children) {child : GroupId}
    (hchild : child ∈ children) : memo.ReadsLogically id child := by
  obtain ⟨alternative, hlisted, expr, hexpr, hop, rfl⟩ := h
  obtain ⟨below, hbelow, rfl⟩ := List.mem_map.mp hchild
  refine ⟨below, List.mem_flatMap.mpr ⟨alternative, hlisted, ?_⟩, rfl⟩
  simp only [hexpr, hop, Operator.isLogical, Operator.logical?, Option.isSome_some, if_true]
  exact hbelow

theorem HasLogical.child (h : memo.HasLogical id op children) (hwell : memo.WellFormed)
    {child : GroupId} (hchild : child ∈ children) :
    memo.master child = child ∧ child.index < memo.groups.size := by
  obtain ⟨alternative, _, expr, hexpr, _, rfl⟩ := h
  obtain ⟨below, hbelow, rfl⟩ := List.mem_map.mp hchild
  exact ⟨hwell.linksEnd.master_master _,
    hwell.masterKnown below (hwell.childKnown alternative expr hexpr below hbelow)⟩

/-- Estimates depend on the statistics of the groups that are read. -/
theorem estimate_congr (h : ∀ child, memo.ReadsLogically id child → known child = known' child) :
    memo.estimate known id = memo.estimate known' id := by
  unfold estimate
  cases memo.properties id with
  | scalar _ => rfl
  | relation logical =>
      dsimp only
      cases hsource : memo.source? id with
      | none => rfl
      | some source =>
          obtain ⟨op, children⟩ := source
          have hchildren : memo.statisticsInput known logical.output children =
              memo.statisticsInput known' logical.output children := by
            unfold statisticsInput
            rw [List.map_congr_left fun child hchild => by
              rw [h child ((hasLogical_of_source? hsource).reads hchild)]]
          dsimp only
          rw [hchildren]

/-- Groups have a rank that falls to the groups they read. -/
theorem LogicallyAcyclic.exists_rank (h : memo.LogicallyAcyclic) (hwell : memo.WellFormed) :
    ∃ rank : GroupId → Nat, (∀ id, rank id ≤ memo.groups.size) ∧
      ∀ id child, memo.ReadsLogically id child → rank child < rank id := by
  have : IsStrictOrder GroupId (Relation.TransGen memo.ReadsLogically) := { irrefl := h }
  obtain ⟨rank, hbound, hfalls⟩ :=
    QueryPlanner.exists_rank (Relation.TransGen memo.ReadsLogically) GroupId.mk memo.groups.size
  refine ⟨rank, hbound, fun id child hreads => ?_⟩
  obtain ⟨below, hbelow, rfl⟩ := hreads
  exact hfalls id _ (hwell.masterKnown below (hwell.known_of_mem_logicalChildren hbelow))
    (.single ⟨below, hbelow, rfl⟩)

/-- The statistics of all groups can be estimated from below. -/
theorem LogicallyAcyclic.exists_estimates (h : memo.LogicallyAcyclic) (hwell : memo.WellFormed) :
    ∃ known, memo.Estimates known := by
  obtain ⟨rank, _, hfalls⟩ := h.exists_rank hwell
  refine ⟨(measure rank).wf.fix fun id known => memo.estimate (fun child =>
    if hlower : rank child < rank id then known child hlower else .empty) id, fun id => ?_⟩
  rw [WellFounded.fix_eq]
  refine estimate_congr fun child hreads => ?_
  rw [dif_pos (hfalls id child hreads)]

/-! ## Known statistics -/

/-- The columns of the relation of a group. -/
def outputOf (memo : Memo) (id : GroupId) : ColumnSet := (memo.logical id).output

theorem outputOf_eq : memo.outputOf id = (memo.properties id).relationOrEmpty.output := by
  unfold outputOf logical properties
  cases memo.group? id <;> rfl

/-- Statistics of the children of an operator, as far as they were asked for. -/
structure SamplesChildren (memo : Memo) (known : GroupId → Statistics) (op : LogicalOperator)
    (required : ColumnSet) (children : List GroupId) (parts : List (Option Statistics)) : Prop where
  length : parts.length = children.length
  scalar : ∀ (position : Nat) (child : GroupId), children[position]? = some child →
    (memo.properties child).isScalar = true → parts[position]? = some none
  relation : ∀ (position : Nat) (child : GroupId), children[position]? = some child →
    (memo.properties child).isScalar = false → ∃ part, parts[position]? = some (some part) ∧
      part.Samples (known child)
        (op.childStatisticsColumns required position (children.map memo.properties))
        (memo.outputOf child)

/-- The first alternative of a scalar group mentions the columns recorded with the group. -/
theorem Founded.used_of_scalarOf? (h : memo.Founded) (hmaster : memo.master id = id)
    (hknown : id.index < memo.groups.size) {scalar : Operator} {condition : Scalar}
    (hscalar : memo.scalarOf? id = some scalar) (hcondition : scalar.predicate? = some condition) :
    ∃ recorded : ScalarProperties, memo.properties id = .scalar recorded ∧
      recorded.used = condition.columns := by
  obtain ⟨group, hgroup⟩ := exists_group?_eq_some.mpr hknown
  obtain ⟨first, founder, hfirst, hop, hfounds⟩ := h id group hgroup hmaster
  have hproperties : memo.properties id = group.properties := by
    unfold properties
    rw [hgroup]
    rfl
  have halternatives : memo.alternativesOf id = group.alternatives := by
    unfold alternativesOf
    rw [hgroup]
    rfl
  unfold scalarOf? at hscalar
  split at hscalar
  · rw [halternatives, hfirst, Option.bind_some, hop] at hscalar
    obtain rfl := Option.some.inj hscalar
    cases founder with
    | logical _ | physical _ => exact absurd hcondition (by simp [Operator.predicate?])
    | scalar founder =>
        cases founder with
        | custom _ =>
            exact absurd hcondition (by simp [Operator.predicate?, ScalarOperator.predicate?])
        | predicate found =>
            obtain rfl := Option.some.inj hcondition
            rw [hproperties]
            cases hkind : group.properties with
            | relation _ => rw [hkind] at hfounds; exact hfounds.elim
            | scalar recorded =>
                rw [hkind] at hfounds
                exact ⟨recorded, rfl, by rw [hfounds _ rfl]; rfl⟩
  · exact absurd hscalar (by simp)

/-- Over children whose statistics were asked for, an operator estimates what it would estimate if
everything was known. -/
theorem Founded.samplesInput (h : memo.Founded)
    (hchildren : ∀ child ∈ children, memo.master child = child ∧ child.index < memo.groups.size)
    {required : ColumnSet} (output : ColumnSet) {parts : List (Option Statistics)}
    (hparts : memo.SamplesChildren known op required children parts) :
    op.SamplesInput
      { required, children := parts, properties := children.map memo.properties
        scalars := children.map memo.scalarOf? }
      (memo.statisticsInput known output children) where
  properties := rfl
  scalars := rfl
  children position := by
    unfold StatisticsInput.childStatistics LogicalOperator.relationAt statisticsInput
    dsimp only
    rw [List.getElem?_map, List.getElem?_map]
    cases hposition : children[position]? with
    | none =>
        rw [List.getElem?_eq_none (by rw [hparts.length]; exact List.getElem?_eq_none_iff.mp hposition)]
        exact .empty
    | some child =>
        -- scalars have no statistics on either side
        cases hscalar : (memo.properties child).isScalar with
        | true =>
            rw [hparts.scalar position child hposition hscalar]
            cases hproperties : memo.properties child with
            | relation _ => simp [hproperties, GroupProperties.isScalar] at hscalar
            | scalar _ => simpa [hproperties, hscalar, GroupProperties.relation?] using .empty
        | false =>
            obtain ⟨part, hpart, hsamples⟩ := hparts.relation position child hposition hscalar
            rw [hpart]
            simpa [hscalar, outputOf_eq, GroupProperties.relationOrEmpty] using hsamples
  predicates position scalar condition hscalar hcondition := by
    rw [List.getElem?_map] at hscalar
    obtain ⟨child, hchild, hscalar⟩ := Option.map_eq_some_iff.mp hscalar
    obtain ⟨hmaster, hknown⟩ := hchildren child (List.mem_of_getElem? hchild)
    obtain ⟨recorded, hrecorded, hused⟩ := h.used_of_scalarOf? hmaster hknown hscalar hcondition
    exact ⟨recorded, by rw [List.getElem?_map, hchild, Option.map_some, hrecorded], hused⟩

/-- A relational master has a source of statistics. -/
theorem Founded.exists_source (h : memo.Founded) (hestimable : memo.Estimable) {group : Group}
    {logical : RelationProperties} (hgroup : memo.group? id = some group)
    (hproperties : group.properties = .relation logical) (hmaster : memo.master id = id) :
    ∃ source, StatisticsSource.best? (memo.statisticsSources group) = some source := by
  obtain ⟨first, op, hfirst, hop, hfounds⟩ := h id group hgroup hmaster
  obtain ⟨expr, hexpr, rfl⟩ := Option.map_eq_some_iff.mp hop
  have hlisted : first ∈ group.alternatives := List.mem_of_mem_head? hfirst
  cases hkind : expr.op with
  | logical op =>
      have hlogical : memo.HasLogical id op (expr.children.map memo.master) := by
        refine ⟨first, ?_, expr, hexpr, hkind, rfl⟩
        unfold alternativesOf
        rwa [hgroup]
      have hpromise : op.promise = .high := by
        cases op with
        | custom op => exact (hestimable.distinguishes id _ _ hmaster hlogical).elim
        | _ => rfl
      have hsource (limited : Bool) : (memo.statisticsSource? limited first).isSome := by
        unfold statisticsSource?
        simp [hexpr, hkind, Operator.logical?, hpromise]
      obtain ⟨source, hsource⟩ := Option.isSome_iff_exists.mp (hsource _)
      exact Option.isSome_iff_exists.mp (Planning.StatisticsSource.best?_isSome
        (List.ne_nil_of_mem (List.mem_filterMap.mpr ⟨first, hlisted, hsource⟩)))
  | physical _ | scalar _ =>
      rw [hkind, hproperties] at hfounds
      exact hfounds.elim

/-- The preferred source of statistics is the operator that the group is estimated from. -/
theorem source?_of_best {group : Group} {source : StatisticsSource} {expr : MemoExpr}
    (hgroup : memo.group? id = some group)
    (hsource : StatisticsSource.best? (memo.statisticsSources group) = some source)
    (hexpr : memo.expr? source.expr = some expr) :
    ∃ op, expr.op = .logical op ∧ memo.source? id = some (op, expr.children.map memo.master) := by
  obtain ⟨_, found, op, hfound, hop⟩ :=
    logical_of_mem_statisticsSources (Planning.StatisticsSource.mem_of_best? hsource)
  obtain rfl := Option.some.inj (hexpr.symm.trans hfound)
  refine ⟨op, hop, ?_⟩
  unfold source?
  simp [hgroup, hsource, hexpr, hop, Operator.logical?]

/-- A group is estimated by its source, from the children that are asked for the right columns, and
the estimate for some columns is a part of the one for all. -/
theorem Estimates.samples (h : memo.Estimates known) (hfounded : memo.Founded)
    (hwell : memo.WellFormed) (hestimable : memo.Estimable) (hmaster : memo.master id = id)
    (hsource : memo.source? id = some (op, children)) {required : ColumnSet}
    {parts : List (Option Statistics)}
    (hparts : memo.SamplesChildren known op required children parts) :
    ∃ found, op.statistics
        { required, children := parts, properties := children.map memo.properties
          scalars := children.map memo.scalarOf? } = .ok found ∧
      found.Samples (known id) required (memo.outputOf id) := by
  have hlogical := hasLogical_of_source? hsource
  have hproperties := hestimable.agrees id hmaster op children hlogical
  have houtput : memo.outputOf id = (op.properties (children.map memo.properties)).output := by
    rw [outputOf_eq, hproperties]
    rfl
  have hinput := hfounded.samplesInput (fun child hchild => hlogical.child hwell hchild)
    (memo.outputOf id) hparts
  obtain ⟨found, whole, hfound, hwhole, hsamples⟩ := LogicalOperator.samples_statistics hinput
    (hestimable.distinguishes id op children hmaster hlogical) houtput
  have hknown : known id = whole := by
    rw [h id]
    unfold estimate
    rw [hproperties, hsource]
    dsimp only
    rw [← houtput, hwhole]
    rfl
  rw [← houtput, ← hknown] at hsamples
  exact ⟨found, hfound, hsamples⟩

/-- When everything is known of the groups below, every column of a group is known. -/
theorem Estimates.complete (h : memo.Estimates known) (hfounded : memo.Founded)
    (hwell : memo.WellFormed) (hestimable : memo.Estimable) (hmaster : memo.master id = id)
    (hid : id.index < memo.groups.size) :
    (known id).Samples (known id) (memo.outputOf id) (memo.outputOf id) := by
  obtain ⟨rank, _, hfalls⟩ := hestimable.acyclic.exists_rank hwell
  induction hlevel : rank id using Nat.strong_induction_on generalizing id with
  | _ level ih =>
      subst hlevel
      obtain ⟨group, hgroup⟩ := exists_group?_eq_some.mpr hid
      have hrecorded : memo.properties id = group.properties := by
        unfold properties
        rw [hgroup]
        rfl
      cases hproperties : group.properties with
      | scalar recorded =>
          have hempty : known id = .empty := by
            rw [h id]
            unfold estimate
            rw [hrecorded, hproperties]
          have houtput : memo.outputOf id = .empty := by
            rw [outputOf_eq, hrecorded, hproperties]
            rfl
          rw [hempty, houtput]
          exact .empty
      | relation logical =>
          obtain ⟨best, hbest⟩ := hfounded.exists_source hestimable hgroup hproperties hmaster
          obtain ⟨_, expr, _, hexpr, _⟩ :=
            logical_of_mem_statisticsSources (Planning.StatisticsSource.mem_of_best? hbest)
          obtain ⟨op, _, hsource⟩ := source?_of_best hgroup hbest hexpr
          have hlogical := hasLogical_of_source? hsource
          generalize expr.children.map memo.master = children at *
          -- the children are estimated in full, by induction on the rank
          have hparts : memo.SamplesChildren known op (memo.outputOf id) children
              (children.map fun child =>
                if (memo.properties child).isScalar then none else some (known child)) := by
            refine ⟨List.length_map _, fun position child hchild hscalar => ?_,
              fun position child hchild hscalar => ⟨known child, ?_, ?_⟩⟩
            · rw [List.getElem?_map, hchild, Option.map_some, if_pos hscalar]
            · rw [List.getElem?_map, hchild, Option.map_some, if_neg (by simp [hscalar])]
            · have hmem := List.mem_of_getElem? hchild
              obtain ⟨hchildMaster, hchildKnown⟩ := hlogical.child hwell hmem
              exact (ih _ (hfalls id child (hlogical.reads hmem)) hchildMaster hchildKnown rfl).mono
                fun column _ houtput => houtput
          obtain ⟨found, hfound, hsamples⟩ :=
            h.samples hfounded hwell hestimable hmaster hsource hparts
          -- the estimate of the group is the one over them
          have hwhole : known id = found := by
            have hestimate := h id
            unfold estimate at hestimate
            rw [hrecorded, hproperties, hsource] at hestimate
            have houtput : memo.outputOf id = logical.output := by
              rw [outputOf_eq, hrecorded, hproperties]
              rfl
            rw [houtput] at hfound
            rw [hestimate]
            show (op.statistics (memo.statisticsInput known logical.output children)).toOption.getD
              .empty = found
            rw [show op.statistics (memo.statisticsInput known logical.output children) = .ok found
              from hfound]
            rfl
          rwa [← hwhole] at hsamples

end Memo

end QueryPlanner
