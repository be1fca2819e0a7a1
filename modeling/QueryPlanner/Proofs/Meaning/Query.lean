import QueryPlanner.Proofs.Meaning.Reading
import QueryPlanner.Proofs.Search.Values

/-!
# Searches keep the meaning of queries

A query is a tree of the relational algebra, inserted into the memo from the leaves up. Whatever a
search does afterwards, and however it ends, there is one assignment of bags of rows to groups for
which the groups of the inserted queries have the bags of the queries, duplicates share their bag,
and every alternative computes the bag of its group (`Interpretation.exists_bags_search`). The
inputs of every join must have different columns, and predicates inside one input must not read
what only the other one delivers: associativity moves such predicates to where they find the column
(`Interpretation.no_bags_of_escaping_predicate`).
-/

namespace QueryPlanner

/-- A query in the relational algebra. -/
inductive Query where
  | get (access : TableAccess)
  | select (input : Query) (predicate : Scalar)
  | join (outer inner : Query) (predicate : Scalar)
  | groupBy (grouping aggregates : List Column) (input : Query)

namespace Query

/-- The columns that a query delivers. -/
def columns : Query → Finset Column
  | get access => access.columns.toFinset
  | select input _ => input.columns
  | join outer inner _ => outer.columns ∪ inner.columns
  | groupBy grouping aggregates _ => (grouping ++ aggregates).toFinset

/-- Whether a query is a join, possibly with selections above it. -/
def joins : Query → Bool
  | select input _ => input.joins
  | join _ _ _ => true
  | get _ | groupBy _ _ _ => false

/-- The columns that predicates of the joins of a query, and of selections above these, read beyond
what the inputs deliver. -/
def outside : Query → Finset Column
  | select input predicate =>
    input.outside ∪ if input.joins then predicate.columnList.toFinset \ input.columns else ∅
  | join outer inner predicate =>
    outer.outside ∪ inner.outside ∪
      (predicate.columnList.toFinset \ (outer.columns ∪ inner.columns))
  | get _ | groupBy _ _ _ => ∅

/-- The inputs of every join have different columns. -/
def Separate : Query → Prop
  | get _ => True
  | select input _ | groupBy _ _ input => input.Separate
  | join outer inner _ => outer.Separate ∧ inner.Separate ∧ Disjoint outer.columns inner.columns

/-- Neither input of a join reads columns that only the other one delivers. -/
def Confined : Query → Prop
  | get _ => True
  | select input _ | groupBy _ _ input => input.Confined
  | join outer inner _ => outer.Confined ∧ inner.Confined ∧
      Disjoint outer.outside inner.columns ∧ Disjoint inner.outside outer.columns

/-- Insert a predicate in a group of its own. -/
def insertPredicate (predicate : Scalar) : Planning GroupId := do
  let inserted ← Planning.insert (.scalar (.predicate predicate)) [] none none
  return inserted.group

/-- Insert an operator over groups. -/
def insertOver (op : LogicalOperator) (children : List GroupId) : Planning GroupId := do
  let inserted ← Planning.insert (.logical op) children none none
  return inserted.group

/-- Insert a query, from the leaves up. -/
def insert : Query → Planning GroupId
  | get access => insertOver (.get access) []
  | select input predicate => do
    let relation ← input.insert
    let condition ← insertPredicate predicate
    insertOver .select [relation, condition]
  | join outer inner predicate => do
    let left ← outer.insert
    let right ← inner.insert
    let condition ← insertPredicate predicate
    insertOver .innerJoin [left, right, condition]
  | groupBy grouping aggregates input => do
    let relation ← input.insert
    insertOver (.groupBy grouping aggregates) [relation]

/-- Insert several queries, one after the other. -/
def insertAll : List Query → Planning (List GroupId)
  | [] => pure []
  | query :: rest => do
    let group ← query.insert
    let groups ← insertAll rest
    return group :: groups

end Query

namespace Interpretation

variable {V : Type} (meaning : Interpretation V)

/-- The rows of a query. -/
def rows : Query → Multiset (Row V)
  | .get access => meaning.accessed access.table.id access.columns access.scan
  | .select input predicate => selected (meaning.holds predicate) (rows input)
  | .join outer inner predicate => joined (meaning.holds predicate) (rows outer) (rows inner)
  | .groupBy grouping aggregates input => meaning.aggregated grouping aggregates (rows input)

/-- The rows of a query with their columns. -/
def relation : Query → Relation V
  | .get access => meaning.accessRelation access.table.id access.columns access.scan
  | .select input predicate => (relation input).select (meaning.condition predicate)
  | .join outer inner predicate => (relation outer).join (relation inner) (meaning.condition predicate)
  | .groupBy grouping aggregates input =>
    meaning.aggregateRelation grouping aggregates (relation input)

/-- The relation of a query has the rows of the query, and knows where they are from. -/
theorem relation_eq (query : Query) : (meaning.relation query).rows = meaning.rows query ∧
    (meaning.relation query).columns = query.columns ∧
    (meaning.relation query).joins = query.joins ∧
    (meaning.relation query).outside = query.outside := by
  induction query with
  | get access => exact ⟨rfl, rfl, rfl, rfl⟩
  | select input predicate ih =>
      obtain ⟨hrows, hcolumns, hjoins, houtside⟩ := ih
      refine ⟨congrArg (selected (meaning.holds predicate)) hrows, hcolumns, hjoins, ?_⟩
      simp only [relation, Relation.select, Query.outside, hcolumns, hjoins, houtside]
      rfl
  | join outer inner predicate ihouter ihinner =>
      obtain ⟨hrows, hcolumns, _, houtside⟩ := ihouter
      obtain ⟨hrows', hcolumns', _, houtside'⟩ := ihinner
      refine ⟨congrArg₂ (joined (meaning.holds predicate)) hrows hrows',
        congrArg₂ (· ∪ ·) hcolumns hcolumns', rfl, ?_⟩
      simp only [relation, Relation.outside_join, Query.outside, hcolumns, hcolumns', houtside,
        houtside']
      rfl
  | groupBy grouping aggregates input ih => 
      exact ⟨congrArg (meaning.aggregated grouping aggregates) ih.1, rfl, rfl, rfl⟩

/-- The relations of the inputs of a join can be joined. -/
theorem joinable {outer inner : Query} (hcolumns : Disjoint outer.columns inner.columns)
    (houter : Disjoint outer.outside inner.columns) (hinner : Disjoint inner.outside outer.columns) :
    (meaning.relation outer).Joinable (meaning.relation inner) := by
  obtain ⟨_, houterColumns, _, houterOutside⟩ := meaning.relation_eq outer
  obtain ⟨_, hinnerColumns, _, hinnerOutside⟩ := meaning.relation_eq inner
  constructor
  · rwa [houterColumns, hinnerColumns]
  · rwa [houterOutside, hinnerColumns]
  · rwa [hinnerOutside, houterColumns]

end Interpretation

/-! ## Insertion -/

/-- The value of a query for a reading of operators, if it has one. -/
def Reading.query? {α : Type} (reading : Reading α) : Query → Option α
  | .get access => reading.apply (.logical (.get access)) []
  | .select input predicate =>
    (reading.query? input).bind fun relation =>
      (reading.condition predicate).bind (reading.select relation)
  | .join outer inner predicate =>
    (reading.query? outer).bind fun left => (reading.query? inner).bind fun right =>
      (reading.condition predicate).bind (reading.join left right)
  | .groupBy grouping aggregates input =>
    (reading.query? input).bind fun relation =>
      reading.apply (.logical (.groupBy grouping aggregates)) [relation]

namespace Planning

open Memo (Grows)

variable {α : Type} {reading : Reading α} {memo : Memo} {values : GroupId → α}

/-- A group is inserted that has a value. -/
def Yields (reading : Reading α) (action : Planning GroupId) (memo : Memo) (values : GroupId → α)
    (value : α) : Prop :=
  Post action memo
    (fun group final => ∃ values', Grows reading memo values final values' ∧
      group.index < final.groups.size ∧ values' group = value)
    fun _ _ => False

/-- An insertion of what computes a value over groups that are there. -/
theorem Yields.insert {op : Operator} {children : List GroupId} {value : α}
    (h : memo.Models reading values)
    (hknown : ∀ child ∈ children, child.index < memo.groups.size)
    (harity : op.arity = some children.length) (hphysical : op.isPhysical = false)
    (hcomputes : reading.apply op (children.map values) = some value) :
    Yields reading (do
      let inserted ← Planning.insert op children none none
      return inserted.group) memo values value := by
  have hvalid : memo.Insertable op children none :=
    { known := by simpa using hknown
      arity := fun count hcount => Option.some.inj (harity.symm.trans hcount)
      physical := by simp [hphysical] }
  refine (Post.insert_computes none h hcomputes (by simp)).andThen
    (fun _ _ hfail => hfail.2 hvalid) ?_
  rintro inserted final hinserted
  exact Post.pure hinserted

theorem Yields.insertPredicate {predicate : Scalar} {value : α} (h : memo.Models reading values)
    (hvalue : reading.condition predicate = some value) :
    Yields reading (Query.insertPredicate predicate) memo values value :=
  Yields.insert h (by simp) rfl rfl hvalue

theorem Yields.insertOver {op : LogicalOperator} {children : List GroupId} {value : α}
    (h : memo.Models reading values)
    (hknown : ∀ child ∈ children, child.index < memo.groups.size)
    (harity : op.arity = some children.length)
    (hcomputes : reading.apply (.logical op) (children.map values) = some value) :
    Yields reading (Query.insertOver op children) memo values value :=
  Yields.insert h hknown harity rfl hcomputes

/-- What is inserted after another group, whose value stays. -/
theorem Yields.andThen {first : Planning GroupId} {next : GroupId → Planning GroupId}
    {value value' : α} (hfirst : Yields reading first memo values value)
    (hnext : ∀ group middle values', Grows reading memo values middle values' →
      group.index < middle.groups.size → values' group = value →
      Yields reading (next group) middle values' value') :
    Yields reading (first >>= next) memo values value' := by
  refine Post.andThen hfirst (fun _ _ hfail => hfail) ?_
  rintro group middle ⟨values', hgrows, hknown, hvalue⟩
  refine (hnext group middle values' hgrows hknown hvalue).mono ?_ fun _ _ hfail => hfail
  rintro last final ⟨values'', hgrows', hlast⟩
  exact ⟨values'', hgrows.trans hgrows', hlast⟩

/-- An inserted query has its value, by induction on the query. -/
theorem Yields.insertQuery {query : Query} {value : α} (hvalue : reading.query? query = some value)
    (h : memo.Models reading values) : Yields reading query.insert memo values value := by
  induction query generalizing memo values value with
  | get access => exact Yields.insertOver h (by simp) rfl hvalue
  | select input predicate ih =>
      obtain ⟨relation, hinput, hvalue⟩ := Option.bind_eq_some_iff.mp hvalue
      obtain ⟨condition, hcondition, hvalue⟩ := Option.bind_eq_some_iff.mp hvalue
      refine (ih hinput h).andThen fun below _ _ hinput hbelow hrelation => ?_
      refine (Yields.insertPredicate hinput.models hcondition).andThen
        fun test _ _ hgrows htest hcondition => ?_
      have hbelow' := Nat.lt_of_lt_of_le hbelow hgrows.groups_size
      refine Yields.insertOver hgrows.models (by simp [hbelow', htest]) rfl ?_
      rw [List.map_cons, List.map_singleton, hgrows.agrees below hbelow, hrelation, hcondition]
      exact hvalue
  | join outer inner predicate ihouter ihinner =>
      obtain ⟨left, houter, hvalue⟩ := Option.bind_eq_some_iff.mp hvalue
      obtain ⟨right, hinner, hvalue⟩ := Option.bind_eq_some_iff.mp hvalue
      obtain ⟨condition, hcondition, hvalue⟩ := Option.bind_eq_some_iff.mp hvalue
      refine (ihouter houter h).andThen fun outer _ _ hfirst houter hleft => ?_
      refine (ihinner hinner hfirst.models).andThen fun inner _ _ hsecond hinner hright => ?_
      refine (Yields.insertPredicate hsecond.models hcondition).andThen
        fun test _ _ hgrows htest hcondition => ?_
      have houter' := Nat.lt_of_lt_of_le houter hsecond.groups_size
      have hknown := Nat.lt_of_lt_of_le houter' hgrows.groups_size
      have hknown' := Nat.lt_of_lt_of_le hinner hgrows.groups_size
      refine Yields.insertOver hgrows.models (by simp [hknown, hknown', htest]) rfl ?_
      rw [List.map_cons, List.map_cons, List.map_singleton, hgrows.agrees outer houter',
        hsecond.agrees outer houter, hgrows.agrees inner hinner, hleft, hright, hcondition]
      exact hvalue
  | groupBy grouping aggregates input ih =>
      obtain ⟨relation, hinput, hvalue⟩ := Option.bind_eq_some_iff.mp hvalue
      refine (ih hinput h).andThen fun below _ _ hinput hbelow hrelation => ?_
      refine Yields.insertOver hinput.models (by simp [hbelow]) rfl ?_
      rw [List.map_singleton, hrelation]
      exact hvalue

/-- Inserted queries have their values, by induction on the list of queries. -/
theorem Post.insertQueries {queries : List Query} {found : Query → α}
    (hvalues : ∀ query ∈ queries, reading.query? query = some (found query))
    (h : memo.Models reading values) :
    Post (Query.insertAll queries) memo
      (fun groups final => ∃ values', Grows reading memo values final values' ∧
        (∀ group ∈ groups, group.index < final.groups.size) ∧
        groups.map values' = queries.map found)
      fun _ _ => False := by
  induction queries generalizing memo values with
  | nil => exact Post.pure ⟨values, .refl h, by simp, rfl⟩
  | cons query rest ih =>
      obtain ⟨hquery, hrest⟩ := List.forall_mem_cons.mp hvalues
      refine Post.andThen (Yields.insertQuery hquery h) (fun _ _ hfail => hfail) ?_
      rintro group middle ⟨values', hgrows, hknown, hvalue⟩
      refine (ih hrest hgrows.models).andThen (fun _ _ hfail => hfail) ?_
      rintro groups final ⟨values'', hgrows', hknowns, hvalues⟩
      refine Post.pure ⟨values'', hgrows.trans hgrows', ?_, ?_⟩
      · exact List.forall_mem_cons.mpr ⟨Nat.lt_of_lt_of_le hknown hgrows'.groups_size, hknowns⟩
      · rw [List.map_cons, List.map_cons, hgrows'.agrees group hknown, hvalue, hvalues]

end Planning

/-- The relation of a query is its value, by induction on the query. -/
theorem Interpretation.reading_query? {V : Type} (meaning : Interpretation V) {query : Query}
    (hseparate : query.Separate) (hconfined : query.Confined) :
    meaning.reading.query? query = some (.relation (meaning.relation query)) := by
  induction query with
  | get access => rfl
  | select input predicate ih =>
      unfold Reading.query?
      rw [ih hseparate hconfined]
      rfl
  | join outer inner predicate ihouter ihinner =>
      obtain ⟨houter, hinner, hcolumns⟩ := hseparate
      obtain ⟨houter', hinner', hread, hread'⟩ := hconfined
      unfold Reading.query?
      rw [ihouter houter houter', ihinner hinner hinner']
      exact if_pos (meaning.joinable hcolumns hread hread')
  | groupBy grouping aggregates input ih =>
      unfold Reading.query?
      rw [ih hseparate hconfined]
      rfl

/-! ## Bags of groups -/

/-- The value without its columns. -/
def ScopedValue.value {V : Type} : ScopedValue V → Value V
  | relation found => .relation found.rows
  | condition test => .condition test.holds

namespace Interpretation

variable {V : Type} (meaning : Interpretation V)

/-- An operator computes rows from rows as it computes relations from relations. -/
theorem compute_of_reading {op : Operator} {values : List (ScopedValue V)} {value : ScopedValue V}
    (h : meaning.reading.apply op values = some value) :
    meaning.compute op (values.map ScopedValue.value) = some value.value := by
  obtain ⟨step, hstep, happly⟩ := Option.bind_eq_some_iff.mp h
  unfold compute
  rw [hstep, Option.bind_some]
  cases step with
  | access table columns scan =>
      obtain ⟨rfl, rfl⟩ := applyScoped_access happly
      rfl
  | selection =>
      obtain ⟨input, condition, rfl, rfl⟩ := applyScoped_selection happly
      rfl
  | join =>
      obtain ⟨outer, inner, condition, rfl, _, rfl⟩ := applyScoped_join happly
      rfl
  | aggregate grouping aggregates =>
      obtain ⟨input, rfl, rfl⟩ := applyScoped_aggregate happly
      rfl
  | unchanged =>
      unfold applyScoped at happly
      split at happly <;> simp_all [apply]
  | condition predicate =>
      obtain ⟨rfl, rfl⟩ := applyScoped_condition happly
      rfl

/-- Bags for all groups: the groups of queries have those of the queries, duplicates share theirs,
and every alternative computes that of its group. -/
structure Bags (memo : Memo) (queries : List Query) (groups : List GroupId)
    (bags : GroupId → Value V) : Prop where
  queries : groups.map bags = queries.map fun query => .relation (meaning.rows query)
  linked : ∀ id, bags (memo.master id) = bags id
  computed : ∀ id expr, memo.expr? id = some expr →
    meaning.compute expr.op (expr.children.map bags) = some (bags expr.group)

/-- Queries can be inserted into the empty memo, and however a search ends, there are bags for all
groups of the memo that it leaves, which still has every alternative from before. -/
theorem exists_bags_search {queries : List Query}
    (hseparate : ∀ query ∈ queries, query.Separate) (hconfined : ∀ query ∈ queries, query.Confined) :
    ∃ groups memo, Planning.exec (Query.insertAll queries) {} = (.ok groups, memo) ∧
      ∀ (planner : Planner) (root : GroupId) (required : PlanRequirement),
        let final := (planner.search standardRules root required memo).state.memo
        (∀ id expr, memo.expr? id = some expr → ∃ expr', final.expr? id = some expr' ∧
          expr'.op = expr.op ∧ expr'.children = expr.children) ∧
        ∃ bags, meaning.Bags final queries groups bags := by
  have hinserted := Planning.Post.insertQueries
    (fun query hquery => meaning.reading_query? (hseparate query hquery) (hconfined query hquery))
    (Memo.models_empty meaning.reading fun _ => .condition (meaning.condition .always))
  unfold Planning.Post at hinserted
  generalize Planning.exec (Query.insertAll queries) {} = outcome at hinserted ⊢
  obtain ⟨error | groups, memo⟩ := outcome
  · exact hinserted.elim
  obtain ⟨values, hgrows, hknown, hvalues⟩ := hinserted
  refine ⟨groups, memo, rfl, fun planner root required => ?_⟩
  obtain ⟨values', hgrows'⟩ := planner.continues_search meaning.admitsRules.sound root required memo
    values hgrows.models
  refine ⟨hgrows'.exprs, fun group => (values' group).value, ?_, fun id => ?_,
    fun id expr hexpr => ?_⟩
  · have hagree : groups.map values' = groups.map values :=
      List.map_congr_left fun group hgroup => hgrows'.agrees group (hknown group hgroup)
    have hrows := congrArg (List.map ScopedValue.value) (hagree.trans hvalues)
    simp only [List.map_map] at hrows
    refine hrows.trans (List.map_congr_left fun query _ => ?_)
    exact congrArg Value.relation (meaning.relation_eq query).1
  · exact congrArg ScopedValue.value (hgrows'.models.linked id)
  · have hcomputed := meaning.compute_of_reading (hgrows'.models.computed id expr hexpr)
    rwa [List.map_map] at hcomputed

end Interpretation

/-! ## Three tables -/

/-- A table with one column, both of the same number. -/
def TableAccess.single (id : Nat) : TableAccess :=
  { table := { id, name := "", rows := 1 }, columns := [⟨id⟩] }

/-- Two columns are equal. -/
def Scalar.equate (left right : Nat) : Scalar := .compare .equal (.column ⟨left⟩) (.column ⟨right⟩)

/-- Values are truth values, every table has one row that is true throughout, and what no input
delivers is NULL. -/
def Interpretation.allTrueRows : Interpretation Bool where
  literal
    | .bool value => some value
    | _ => none
  compare
    | .equal, left, right => left == right
    | .notEqual, left, right => left != right
    | .less, left, right => !left && right
    | .lessOrEqual, left, right => !left || right
    | .greater, left, right => left && !right
    | .greaterOrEqual, left, right => left || !right
  truth := id
  ofTruth := id
  truth_ofTruth _ := rfl
  literal_bool _ := rfl
  literal_same left right h := by
    cases left <;> cases right <;> simp_all [Literal.same]
  absent _ := none
  table _ _ _ := {fun _ => some (some true)}
  aggregate _ _ rows := rows

/-- A planner with a budget that lasts for a few transformations. -/
def Planner.exploring : Planner where
  model := .unit
  config := { maxIterations := 4, pruning := false }
  fuel := 64

/-- A selection above a join of three tables. -/
def Query.chained : Query :=
  select (join (join (get (.single 0)) (get (.single 1)) (.equate 0 1)) (get (.single 2))
    (.equate 1 2)) (.equate 0 2)

/-- There are bags after a search for the best plan of a selection above a join. -/
theorem Interpretation.exists_bags_of_chained :
    Query.chained.Separate ∧ Query.chained.Confined ∧
    ∃ groups memo, Planning.exec (Query.insertAll [.chained]) {} = (.ok groups, memo) ∧
      ∃ bags, allTrueRows.Bags
        (({ model := .unit } : Planner).search standardRules ⟨8⟩ {} memo).state.memo
        [.chained] groups bags := by
  have hseparate : Query.chained.Separate :=
    ⟨⟨trivial, trivial, by decide⟩, trivial, by decide⟩
  have hconfined : Query.chained.Confined :=
    ⟨⟨trivial, trivial, by decide, by decide⟩, trivial, by decide, by decide⟩
  obtain ⟨groups, memo, hexec, hsearch⟩ := allTrueRows.exists_bags_search
    (List.forall_mem_singleton.mpr hseparate) (List.forall_mem_singleton.mpr hconfined)
  exact ⟨hseparate, hconfined, groups, memo, hexec, (hsearch { model := .unit } ⟨8⟩ {}).2⟩

/-- Three tables, of which the first two are joined by a column of the third. -/
def Query.escaping : Query :=
  join (join (get (.single 0)) (get (.single 1)) (.equate 0 2)) (get (.single 2)) (.equate 1 2)

/-- Equal operators compute the same. -/
theorem Interpretation.compute_eq_of_same {V : Type} (meaning : Interpretation V)
    {left right : Operator} (h : left.same right = true) (values : List (Value V)) :
    meaning.compute left values = meaning.compute right values := by
  unfold compute
  rcases Operator.step?_eq_of_same h with hstep | ⟨predicate, predicate', rfl, rfl, hsame⟩
  · rw [hstep]
  · cases values with
    | nil =>
        refine congrArg (fun holds => some (Value.condition holds)) (funext fun row => ?_)
        exact congrArg (·.map meaning.truth) (eval_eq_of_same row predicate predicate' hsame)
    | cons _ _ => rfl

/-- Whether the memo has alternatives with the given numbers, operators, children and groups. -/
def Memo.hasAlternatives (memo : Memo) (listed : List (Nat × Operator × List Nat × Nat)) : Bool :=
  listed.all fun (index, op, children, group) => (memo.expr? ⟨index⟩).any fun expr =>
    expr.op.same op && expr.children == children.map GroupId.mk && expr.group == ⟨group⟩

/-- The bags of groups with known alternatives. -/
theorem Interpretation.Bags.compute_of_hasAlternatives {V : Type} {meaning : Interpretation V}
    {memo : Memo} {queries : List Query} {groups : List GroupId} {bags : GroupId → Value V}
    (h : meaning.Bags memo queries groups bags) {listed : List (Nat × Operator × List Nat × Nat)}
    (hlisted : memo.hasAlternatives listed = true) : ∀ found ∈ listed,
    meaning.compute found.2.1 (found.2.2.1.map fun child => bags ⟨child⟩) =
      some (bags ⟨found.2.2.2⟩) := by
  rintro ⟨index, op, children, group⟩ hfound
  have hsame := List.all_eq_true.mp hlisted _ hfound
  cases hexpr : memo.expr? ⟨index⟩ with
  | none => simp [hexpr] at hsame
  | some expr =>
      simp only [hexpr, Option.any_some, Bool.and_eq_true, beq_iff_eq] at hsame
      obtain ⟨⟨hop, hchildren⟩, hgroup⟩ := hsame
      have hcomputed := h.computed ⟨index⟩ expr hexpr
      rw [meaning.compute_eq_of_same hop, hchildren, hgroup, List.map_map] at hcomputed
      exact hcomputed

/-- With different columns on both sides of every join alone, bags need not exist: associativity
takes a predicate that reads a column of the third table to where the column is. -/
theorem Interpretation.no_bags_of_escaping_predicate :
    Query.escaping.Separate ∧
    ∃ root memo, Planning.exec (Query.insertAll [.escaping]) {} = (.ok [root], memo) ∧
      ¬ ∃ bags, allTrueRows.Bags (Planner.exploring.search standardRules root {} memo).state.memo
        [.escaping] [root] bags := by
  have hinserted : (Planning.exec (Query.insertAll [.escaping]) {}).1.toOption = some [⟨6⟩] := by
    decide +kernel
  have hroot : (Planning.exec (Query.insertAll [.escaping]) {}).1 = .ok [⟨6⟩] := by
    cases houtcome : (Planning.exec (Query.insertAll [.escaping]) {}).1 with
    | error _ => simp [houtcome, Except.toOption] at hinserted
    | ok groups => simpa [houtcome, Except.toOption] using hinserted
  refine ⟨⟨⟨trivial, trivial, by decide⟩, trivial, by decide⟩, ⟨6⟩, _, Prod.ext hroot rfl, ?_⟩
  rintro ⟨bags, h⟩
  have hfinal : (Planner.exploring.search standardRules ⟨6⟩ {}
      (Planning.exec (Query.insertAll [.escaping]) {}).2).state.memo.hasAlternatives
      [(0, .logical (.get (.single 0)), [], 0), (1, .logical (.get (.single 1)), [], 1),
        (2, .scalar (.predicate (.equate 0 2)), [], 2),
        (4, .logical (.get (.single 2)), [], 4), (5, .scalar (.predicate (.equate 1 2)), [], 5),
        (9, .logical .innerJoin, [1, 4, 5], 7),
        (10, .logical .innerJoin, [0, 7, 2], 6)] = true := by decide +kernel
  obtain ⟨hfirst, hsecond, hlower, hthird, hupper, hmoved, hadded, -⟩ :
      _ ∧ _ ∧ _ ∧ _ ∧ _ ∧ _ ∧ _ ∧ _ := by
    simpa only [List.forall_mem_cons] using fun found hfound =>
      h.compute_of_hasAlternatives hfinal found hfound
  simp only [List.map_cons, List.map_nil] at hfirst hsecond hlower hthird hupper hmoved hadded
  rw [← Option.some.inj hsecond, ← Option.some.inj hthird, ← Option.some.inj hupper] at hmoved
  rw [← Option.some.inj hfirst, ← Option.some.inj hmoved, ← Option.some.inj hlower] at hadded
  have hqueries : allTrueRows.rows .escaping = _ := Value.relation.inj
    ((List.cons.inj h.queries).1.symm.trans (Option.some.inj hadded).symm)
  exact absurd (congrArg Multiset.card hqueries) (by decide +kernel)

end QueryPlanner
