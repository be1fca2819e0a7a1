import QueryPlanner.Proofs.Nearness
import QueryPlanner.Proofs.Plan.Pricing

/-!
# What bounds of groups come to

A bound of a group is infinite, or it is what the model charges for one of the alternatives that
enforce nothing, over bounds of the groups below (`Memo.Bids`). Such bids are costs of the model
(`Memo.Bids.isExact`), and planning gives no new ones (`Memo.Bids.of_evolves`). A group is bounded by
the lowest of them as long as they can be told apart (`Memo.Discerns`).
-/

namespace QueryPlanner

open Memo (Evolves)

/-- The columns that an operator asks of a child are columns of the child. -/
theorem PhysicalOperator.childColumns_subset {op : PhysicalOperator} {view : ExprView}
    {columns : ColumnSet} {position : Nat}
    (harity : ∀ count, op.arity = some count → view.children.length = count)
    (hposition : position < view.children.length) :
    (op.childColumns view columns position).subset (view.childLogical position).output = true := by
  have husual : (view.usualChildColumns columns position).subset
      (view.childLogical position).output = true :=
    KeyedSet.subset_iff.mpr fun column hcolumn => (KeyedSet.mem_inter.mp hcolumn).2
  have haggregate (grouping aggregates : List Column) (hone : op.arity = some 1) :
      (aggregateChildColumns view grouping aggregates columns).subset
        (view.childLogical position).output = true := by
    obtain rfl : position = 0 := by
      have := harity 1 hone
      omega
    exact KeyedSet.subset_iff.mpr fun column hcolumn => (KeyedSet.mem_inter.mp hcolumn).2
  cases op with
  | hashAggregate grouping aggregates => exact haggregate grouping aggregates rfl
  | streamAggregate grouping aggregates => exact haggregate grouping aggregates rfl
  | _ => exact husual

namespace Memo

variable {model : CostModel} {segments : Nat} {below : GroupId → GroupId → Prop}
  {start memo : Memo} {exact : Cost → Prop} {held : List ContextId} {group : GroupId}
  {columns : ColumnSet} {expr : MemoExpr} {op : PhysicalOperator} {id : ExprId}

/-- The group has the columns. -/
abbrev HasColumns (memo : Memo) (group : GroupId) (columns : ColumnSet) : Prop :=
  columns.subset (memo.outputOf group) = true

/-- The group holds a relation that has the columns. -/
def InScope (memo : Memo) (group : GroupId) (columns : ColumnSet) : Prop :=
  memo.Relational group ∧ memo.HasColumns group columns

/-- The columns that a physical alternative asks of its children. -/
abbrev asks (memo : Memo) (id : ExprId) (expr : MemoExpr) (op : PhysicalOperator)
    (columns : ColumnSet) (position : Nat) : ColumnSet :=
  op.childColumns (memo.bareView id expr) columns position

theorem physical?_eq_some (hexpr : memo.expr? id = some expr) (hop : expr.op = .physical op) :
    memo.physical? id = some op := by
  rw [physical?, op?, hexpr, Option.map_some, Option.bind_some, hop]
  rfl

/-- The alternative counts for the bound of the group: it is physical and enforces nothing. -/
def Considers (memo : Memo) (group : GroupId) (id : ExprId) : Prop :=
  id ∈ memo.alternativesOf group ∧ ∃ op, memo.physical? id = some op ∧ op.isEnforcer = false

/-- The summary of a node in a bound, with the rows on one host. -/
def floorInputs (statistics : Option Statistics) (segments : Nat) (columns : ColumnSet)
    (children : List ChildCosting) : CostingInputs :=
  let size := ChildCosting.ofStatistics statistics columns segments .zero
  { rows := size.rows, width := size.width, rebinds := size.rebinds, children, segments }

/-- What a bound charges for an alternative with the statistics of its group over its children, without
its fixed charge if it has any. -/
def chargeOver (memo : Memo) (model : CostModel) (segments : Nat) (id : ExprId) (expr : MemoExpr)
    (statistics : Option Statistics) (columns : ColumnSet) (children : List ChildCosting) : Cost :=
  let cost := model.cost (memo.bareView id expr) (floorInputs statistics segments columns children)
  if children.isEmpty then cost else cost.saturatingSub model.fixedNodeCost

/-- The input of a bound for a child, when its group comes to a bid. A scalar has none. -/
def bidInput? (memo : Memo) (segments : Nat) (asked : Nat → ColumnSet)
    (entry : (GroupId × Nat) × Cost) : Option ChildCosting :=
  let child := memo.master entry.1.1
  if (memo.properties child).isScalar then none
  else some (.ofStatistics (memo.statistics? child) (asked entry.1.2) segments entry.2)

/-- What the bound of a group may come to, for some columns: nothing feasible, or what is charged for
one of the alternatives it considers, over some bids of the children. -/
inductive Bids (memo : Memo) (model : CostModel) (segments : Nat) :
    GroupId → ColumnSet → Cost → Prop
  | infinite {group : GroupId} {columns : ColumnSet} : Bids memo model segments group columns .infinite
  | alternative {group : GroupId} {columns : ColumnSet} {id : ExprId} {expr : MemoExpr}
      {op : PhysicalOperator} {bids : List Cost} (considered : memo.Considers group id)
      (expr_found : memo.expr? id = some expr) (physical : expr.op = .physical op)
      (length_eq : bids.length = expr.children.length)
      (children : ∀ entry ∈ expr.children.zipIdx.zip bids,
        (memo.properties (memo.master entry.1.1)).isScalar = false →
          Bids memo model segments (memo.master entry.1.1) (memo.asks id expr op columns entry.1.2)
            entry.2) :
      Bids memo model segments group columns (memo.chargeOver model segments id expr
        (memo.statistics? (memo.master expr.group)) columns
          ((expr.children.zipIdx.zip bids).filterMap
            (memo.bidInput? segments (memo.asks id expr op columns))))

/-- The bids of a group of relations are equal, or they can be told apart. -/
def Discerns (memo : Memo) (model : CostModel) (segments : Nat) : Prop :=
  ∀ group columns, memo.InScope group columns → ∀ left right,
    memo.Bids model segments group columns left → memo.Bids model segments group columns right →
      left.Apart right

/-- A relation among the children has the columns that it is asked for. -/
theorem WellFormed.inScope_child (h : memo.WellFormed) (columns : ColumnSet)
    (hexpr : memo.expr? id = some expr)
    (hop : expr.op = .physical op) {child : GroupId} {position : Nat}
    (hchild : expr.children[position]? = some child)
    (hrelation : (memo.properties (memo.master child)).isScalar = false) :
    memo.InScope (memo.master child) (memo.asks id expr op columns position) := by
  have hknown := h.childKnown id expr hexpr child (List.mem_of_getElem? hchild)
  refine ⟨relational_of_properties h hknown hrelation, ?_⟩
  have houtput : ((memo.bareView id expr).childLogical position).output =
      memo.outputOf (memo.master child) := by
    unfold ExprView.childLogical bareView
    rw [List.getElem?_map, hchild, outputOf_eq]
    rfl
  have hlength : (memo.bareView id expr).children.length = expr.children.length :=
    List.length_map ..
  have hsubset : (memo.asks id expr op columns position).subset
      ((memo.bareView id expr).childLogical position).output = true := by
    refine PhysicalOperator.childColumns_subset (fun count hcount => ?_) ?_
    · exact hlength.trans (h.arity id expr hexpr count (by rw [hop]; exact hcount))
    · rw [hlength]
      exact (List.getElem?_eq_some_iff.mp hchild).1
  rwa [houtput] at hsubset

theorem cost_ofStatistics {statistics : Option Statistics} {bound : Cost} :
    (ChildCosting.ofStatistics statistics columns segments bound).cost = bound := by
  cases statistics <;> rfl

/-- Bids are exact. -/
theorem Bids.isExact {bound : Cost} (hbid : memo.Bids model segments group columns bound)
    (htame : memo.Tame below) (h : memo.Appraised) (hmodel : model.Regular exact)
    (hscope : memo.InScope group columns) : exact bound := by
  induction hbid with
  | infinite => exact hmodel.infinite
  | @alternative group columns id expr op bids considered expr_found physical _ _ ih =>
      have howner : expr.group = group := by
        obtain ⟨_, found, hfound, howner⟩ := htame.wellFormed.owned considered.1
        exact Option.some.inj (expr_found.symm.trans hfound) ▸ howner
      have hcatalogued : (memo.bareView id expr).IsCatalogued := fun op hop =>
        htame.catalogued id expr op expr_found hop
      have hinputs : ∀ input ∈ (expr.children.zipIdx.zip bids).filterMap
          (memo.bidInput? segments (memo.asks id expr op columns)), input.Exact exact := by
        intro input hinput
        obtain ⟨entry, hentry, hfound⟩ := List.mem_filterMap.mp hinput
        unfold bidInput? at hfound
        dsimp only at hfound
        split at hfound
        · exact absurd hfound.symm (Option.some_ne_none _)
        · rename_i hrelation
          rw [Bool.not_eq_true] at hrelation
          obtain rfl := Option.some.inj hfound
          have hchild := List.mem_zipIdx_iff_getElem?.mp (List.of_mem_zip hentry).1
          have hbelow := htame.wellFormed.inScope_child columns expr_found physical hchild
            hrelation
          exact ⟨(h.measured_ofStatistics (.refl memo) hbelow.1.1 hbelow.2 segments none entry.2).1,
            cost_ofStatistics ▸ ih entry hentry hrelation hbelow⟩
      have hcost := hmodel.closed _ (floorInputs (memo.statistics? (memo.master expr.group)) segments
        columns _) hcatalogued ⟨(h.measured_ofStatistics (.refl memo)
          (htame.wellFormed.linksEnd.master_master _)
            (by rw [howner, hscope.1.1]; exact hscope.2) segments none .zero).1, hinputs⟩
      unfold chargeOver
      dsimp only
      split
      · exact hcost
      · exact hmodel.reduced _ hcost

/-- Where the costs of a model are equal or can be told apart, so can bids. -/
theorem Discerns.of_apart (htame : memo.Tame below) (h : memo.Appraised)
    (hmodel : model.Regular exact)
    (hapart : ∀ left right, exact left → exact right → left.Apart right) :
    memo.Discerns model segments := fun _ _ hscope left right hleft hright =>
  hapart left right (hleft.isExact htame h hmodel hscope) (hright.isExact htame h hmodel hscope)

/-! ## Bids after planning -/

/-- A group considers what it lists of physical operators that enforce nothing. -/
theorem mem_filter_iff_considers {found : Group} (hfound : memo.group? group = some found) :
    (id ∈ found.alternatives.filter fun id => ((memo.physical? id).map (!·.isEnforcer)).getD false) ↔
      memo.Considers group id := by
  have hlisted : id ∈ found.alternatives ↔ id ∈ memo.alternativesOf group := by
    rw [alternativesOf, hfound]
    rfl
  rw [List.mem_filter, hlisted, Considers]
  cases memo.physical? id <;> simp

/-- Planning adds enforcers only, which are not considered. -/
theorem Evolves.considers_iff (h : Evolves held start memo) (hstart : start.WellFormed) :
    memo.Considers group id ↔ start.Considers group id := by
  have hphysical (hlisted : id ∈ start.alternativesOf group) :
      memo.physical? id = start.physical? id := by
    obtain ⟨_, before, hbefore, _⟩ := hstart.owned hlisted
    obtain ⟨found, hfound, hop, _⟩ := h.expr id before hbefore
    rw [physical?, physical?, op?, op?, hbefore, hfound, Option.map_some, Option.map_some, hop]
  constructor
  · rintro ⟨hlisted, op, hop, hplain⟩
    obtain hbefore | ⟨found, hfound, henforcer⟩ := h.added group id hlisted
    · exact ⟨hbefore, op, (hphysical hbefore).symm.trans hop, hplain⟩
    · obtain ⟨_, hfound', hphysical⟩ := Planning.exists_expr_of_physical? hop
      obtain rfl := Option.some.inj (hfound.symm.trans hfound')
      rw [hphysical] at henforcer
      exact absurd (hplain.symm.trans henforcer) (by simp)
  · rintro ⟨hlisted, op, hop, hplain⟩
    exact ⟨(h.alternatives group).subset hlisted, op, (hphysical hlisted).trans hop, hplain⟩

/-- Planning gives no bids where relations keep their statistics: it adds enforcers only. -/
theorem Bids.of_evolves {bound : Cost} (hbid : memo.Bids model segments group columns bound)
    (hevolves : Evolves held start memo) (hstart : start.WellFormed) (hwell : memo.WellFormed)
    (hstatistics : ∀ id, memo.Relational id → memo.statistics? id = start.statistics? id)
    (hscope : memo.InScope group columns) : start.Bids model segments group columns bound := by
  induction hbid with
  | infinite => exact .infinite
  | @alternative group columns id expr op bids considered expr_found physical length_eq _ ih =>
      have hconsidered := (hevolves.considers_iff hstart).mp considered
      obtain ⟨_, before, hbefore_found, howner⟩ := hstart.owned hconsidered.1
      obtain ⟨found, hfound, hop, hchildren, hgroup⟩ := hevolves.expr id before hbefore_found
      obtain rfl := Option.some.inj (expr_found.symm.trans hfound)
      have hphysical : before.op = .physical op := hop.symm.trans physical
      have hview := hevolves.bareView_eq hbefore_found expr_found
      have hcharge (children : List ChildCosting) :
          memo.chargeOver model segments id expr (memo.statistics? (memo.master expr.group)) columns
              children =
            start.chargeOver model segments id before
              (start.statistics? (start.master before.group)) columns children := by
        have hmaster : start.master before.group = group := by
          rw [howner, ← hevolves.master, hscope.1.1]
        unfold chargeOver
        rw [hview, hevolves.master, hgroup, hmaster, hstatistics group hscope.1]
      have hchild (entry : (GroupId × Nat) × Cost) (hentry : entry ∈ expr.children.zipIdx.zip bids)
          (hrelation : (memo.properties (memo.master entry.1.1)).isScalar = false) :
          memo.InScope (memo.master entry.1.1) (memo.asks id expr op columns entry.1.2) :=
        hwell.inScope_child columns expr_found physical
          (List.mem_zipIdx_iff_getElem?.mp (List.of_mem_zip hentry).1) hrelation
      have hinputs : (expr.children.zipIdx.zip bids).filterMap
          (memo.bidInput? segments (memo.asks id expr op columns)) =
            (before.children.zipIdx.zip bids).filterMap
              (start.bidInput? segments (start.asks id before op columns)) := by
        rw [← hchildren]
        refine List.filterMap_congr fun entry hentry => ?_
        unfold bidInput? asks
        dsimp only
        rw [hview, ← hevolves.master, ← hevolves.properties]
        split
        · rfl
        · rename_i hrelation
          rw [hstatistics _ (hchild entry hentry (by simpa using hrelation)).1]
      rw [hcharge, hinputs]
      refine .alternative hconsidered hbefore_found hphysical (hchildren ▸ length_eq)
        fun entry hentry hrelation => ?_
      rw [← hchildren] at hentry
      rw [← hevolves.master, ← hevolves.properties] at hrelation
      have hbelow := ih entry hentry hrelation (hchild entry hentry hrelation)
      rwa [asks, hview, hevolves.master] at hbelow

theorem Evolves.relational_iff (h : Evolves held start memo) :
    memo.Relational group ↔ start.Relational group := by
  rw [Memo.relational_iff, Memo.relational_iff, h.master, h.groups_size, h.properties]

/-- So bids that could be told apart can be told apart. -/
theorem Discerns.of_evolves (h : start.Discerns model segments)
    (hevolves : Evolves held start memo) (hstart : start.WellFormed) (hwell : memo.WellFormed)
    (hstatistics : ∀ id, memo.Relational id → memo.statistics? id = start.statistics? id) :
    memo.Discerns model segments := by
  intro group columns hscope left right hleft hright
  have hscope' : start.InScope group columns := by
    refine ⟨hevolves.relational_iff.mp hscope.1, ?_⟩
    rw [HasColumns, outputOf_eq, ← hevolves.properties, ← outputOf_eq]
    exact hscope.2
  exact h group columns hscope' left right
    (hleft.of_evolves hevolves hstart hwell hstatistics hscope)
    (hright.of_evolves hevolves hstart hwell hstatistics hscope)

end Memo

end QueryPlanner
