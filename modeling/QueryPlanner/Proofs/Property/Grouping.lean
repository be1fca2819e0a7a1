import Mathlib.Data.List.Perm.Basic
import QueryPlanner.Proofs.Property.Partition

/-!
# Sibling plans in every order

An operator combines what its children know of the partitioned scans one after the other. Joins are
commuted and regrouped, so the same maps come together in many ways (`Grouping`), and the way matters:
a propagator that is met before a resolver hides it, and of two propagators that meet before they
meet their consumer one is lost. `PartitionMap.groupings_agree_iff` says for which maps the way does
not matter for a scan: all that know it have it in the same standing, or one consumer meets
propagators none of which can be lost (`Standing.Served`).
-/

namespace QueryPlanner

/-! ## Orders and groupings -/

/-- Items that are put together two by two, in some order and grouping. -/
inductive Grouping (α : Type) where
  | nothing
  | single (item : α)
  | pair (left right : Grouping α)

namespace Grouping

variable {α β : Type}

/-- The items from left to right. -/
def items : Grouping α → List α
  | .nothing => []
  | .single item => [item]
  | .pair left right => left.items ++ right.items

/-- What the items come to. -/
def fold (start : α) (join : α → α → α) : Grouping α → α
  | .nothing => start
  | .single item => item
  | .pair left right => join (left.fold start join) (right.fold start join)

/-- The same grouping of what the items stand for. -/
def filterMap (image : α → Option β) : Grouping α → Grouping β
  | .nothing => .nothing
  | .single item => (image item).elim .nothing .single
  | .pair left right => .pair (left.filterMap image) (right.filterMap image)

/-- One item after the other, from the left. -/
def chain (items : List α) : Grouping α :=
  items.foldl (fun before item => .pair before (.single item)) .nothing

/-- One item after the other, from the right. -/
def stack : List α → Grouping α
  | [] => .nothing
  | item :: rest => .pair (.single item) (stack rest)

theorem items_stack (items : List α) : (stack items).items = items := by
  induction items with
  | nil => rfl
  | cons item rest ih => exact congrArg (item :: ·) ih

theorem items_chain (items : List α) : (chain items).items = items := by
  have hfrom : ∀ (items : List α) (before : Grouping α),
      (items.foldl (fun before item => .pair before (.single item)) before).items =
        before.items ++ items := by
    intro items
    induction items with
    | nil => simp
    | cons item rest ih => exact fun before => (ih _).trans (List.append_assoc ..)
  exact hfrom items .nothing

theorem fold_chain (start : α) (join : α → α → α) (items : List α) :
    (chain items).fold start join = items.foldl join start := by
  have hfrom : ∀ (items : List α) (before : Grouping α),
      (items.foldl (fun before item => .pair before (.single item)) before).fold start join =
        items.foldl join (before.fold start join) := by
    intro items
    induction items with
    | nil => exact fun _ => rfl
    | cons item rest ih => exact fun before => ih _
  exact hfrom items .nothing

theorem items_filterMap (image : α → Option β) (grouping : Grouping α) :
    (grouping.filterMap image).items = grouping.items.filterMap image := by
  induction grouping with
  | nothing => rfl
  | single item => cases h : image item <;> simp [filterMap, items, h]
  | pair left right hleft hright => simp [filterMap, items, hleft, hright]

end Grouping

/-- Every order of what the items stand for comes from an order of the items. -/
theorem exists_perm_filterMap_eq {α β : Type} {image : α → Option β} {images : List β}
    {items : List α} (h : images.Perm (items.filterMap image)) :
    ∃ ordered : List α, ordered.Perm items ∧ ordered.filterMap image = images := by
  generalize hgoal : items.filterMap image = goal at h
  induction h generalizing items with
  | nil => exact ⟨items, .refl _, hgoal⟩
  | cons value _ ih =>
      obtain ⟨before, item, after, rfl, hbefore, hitem, hafter⟩ := List.filterMap_eq_cons_iff.mp hgoal
      obtain ⟨ordered, hperm, hordered⟩ := ih hafter
      refine ⟨before ++ item :: ordered, (hperm.cons item).append_left before, ?_⟩
      rw [List.filterMap_append, List.filterMap_eq_nil_iff.mpr hbefore, List.nil_append,
        List.filterMap_cons_some hitem, hordered]
  | swap first second rest =>
      obtain ⟨before, item, after, rfl, hbefore, hitem, hafter⟩ := List.filterMap_eq_cons_iff.mp hgoal
      obtain ⟨between, other, last, rfl, hbetween, hother, hlast⟩ :=
        List.filterMap_eq_cons_iff.mp hafter
      refine ⟨before ++ (between ++ other :: item :: last), ?_, ?_⟩
      · exact .append_left before ((List.perm_append_comm_assoc between [other, item] last).trans
          ((List.Perm.swap item other (between ++ last)).trans
            ((List.perm_append_comm_assoc [other] between last).cons item)))
      · simp [List.filterMap_append, List.filterMap_eq_nil_iff.mpr hbefore,
          List.filterMap_eq_nil_iff.mpr hbetween, hitem, hother, hlast]
  | trans _ _ ih ih' =>
      obtain ⟨middle, hmiddle, hfound⟩ := ih' hgoal
      obtain ⟨ordered, hperm, hordered⟩ := ih hfound
      exact ⟨ordered, hperm.trans hmiddle, hordered⟩

/-! ## Standings of a scan -/

/-- What a plan knows of a partitioned scan: its role for it, and how many selectors it expects. -/
structure Standing where
  role : PartitionRole
  expected : Option Nat
  deriving DecidableEq

/-- The standing that an entry records. -/
def PartitionEntry.standing (entry : PartitionEntry) : Standing := ⟨entry.role, entry.expected⟩

/-- The standing of a scan in a map. -/
def PartitionMap.standing? (map : PartitionMap) (scan : ScanId) : Option Standing :=
  (map.get? scan).map (·.standing)

namespace Standing

/-- The standing of a consumer after a propagator, by the number of selectors expected before. -/
def served : Option Nat → Standing
  | some (remaining + 1) => ⟨if remaining == 0 then .resolver else .consumer, some remaining⟩
  | _ => ⟨.consumer, none⟩

/-- The standing of a scan in two sibling plans together. -/
def meet (first second : Standing) : Standing :=
  match first.role, second.role with
  | .propagator, .consumer => served second.expected
  | .consumer, .propagator => served first.expected
  | _, _ => first

/-- The standing that a scan comes to, if it is known at all. -/
def together : Grouping Standing → Option Standing
  | .nothing => none
  | .single standing => some standing
  | .pair left right => (together left).merge meet (together right)

end Standing

/-- Meeting entries changes their standings alone. -/
theorem PartitionMap.standing_meet (first second : PartitionEntry) :
    (meet first second).standing = first.standing.meet second.standing := by
  obtain ⟨role, expected, relation, keys⟩ := first
  obtain ⟨role', expected', relation', keys'⟩ := second
  cases role <;> cases role' <;> first
    | rfl
    | rcases expected with _ | _ | _ <;> rcases expected' with _ | _ | _ <;> rfl

theorem PartitionMap.standing?_combine {left right : PartitionMap} {scan : ScanId} :
    (left.combine right).standing? scan =
      (left.standing? scan).merge Standing.meet (right.standing? scan) := by
  unfold standing?
  rw [get?_combine]
  cases left.get? scan <;> cases right.get? scan <;> simp [standing_meet]

/-- The maps of sibling plans, combined in an order and grouping. -/
def Grouping.combined (grouping : Grouping PartitionMap) : PartitionMap :=
  grouping.fold .empty PartitionMap.combine

/-- An operator combines the maps of its children from the left. -/
theorem PhysicalOperator.scans_combinedPartition_eq_chain {view : ExprView} :
    (combinedPartition view).scans =
      (Grouping.chain (view.childPlans.map (·.partition.scans))).combined := by
  unfold Grouping.combined
  rw [scans_combinedPartition, Grouping.fold_chain]

/-- The standing of a scan in combined maps is what its standings in the maps come to. -/
theorem Grouping.standing?_combined {grouping : Grouping PartitionMap} {scan : ScanId} :
    grouping.combined.standing? scan =
      Standing.together (grouping.filterMap (·.standing? scan)) := by
  induction grouping with
  | nothing => rfl
  | single map =>
      show map.standing? scan = Standing.together ((map.standing? scan).elim .nothing .single)
      cases map.standing? scan <;> rfl
  | pair left right hleft hright =>
      show (left.combined.combine right.combined).standing? scan = _
      rw [PartitionMap.standing?_combine, hleft, hright]
      rfl

namespace Standing

variable {first second consumer : Standing} {standings rest : List Standing}
  {grouping : Grouping Standing}

/-! ## Standings that meet -/

theorem role_served_ne (expected : Option Nat) : (served expected).role ≠ .propagator := by
  rcases expected with _ | _ | _ | _ <;> simp [served]

/-- Whoever meets a resolver stays. -/
theorem meet_of_resolver (h : second.role = .resolver) : first.meet second = first := by
  unfold meet
  rw [h]
  cases first.role <;> rfl

/-- A resolver stays. -/
theorem resolver_meet (h : first.role = .resolver) : first.meet second = first := by
  unfold meet
  rw [h]

/-- Two in the same role: the first stays. -/
theorem meet_of_role_eq (h : second.role = first.role) : first.meet second = first := by
  unfold meet
  rw [h]
  cases first.role <;> rfl

theorem meet_served (h : first.role = .consumer) (h' : second.role = .propagator) :
    first.meet second = served first.expected := by
  unfold meet
  rw [h, h']

theorem served_meet (h : first.role = .propagator) (h' : second.role = .consumer) :
    first.meet second = served second.expected := by
  unfold meet
  rw [h, h']

/-- Who is no propagator stays when it meets another that is none. -/
theorem meet_of_ne (h : first.role ≠ .propagator) (h' : second.role ≠ .propagator) :
    first.meet second = first := by
  unfold meet
  cases hfirst : first.role <;> cases hsecond : second.role <;> simp_all

theorem role_meet_ne (h : first.role ≠ .propagator) : (first.meet second).role ≠ .propagator := by
  unfold meet
  cases hfirst : first.role <;> cases hsecond : second.role <;>
    simp_all [role_served_ne]

/-- A consumer that met a propagator is another consumer, or none, unless it expects any number. -/
theorem served_ne (h : consumer.role = .consumer) (hexpected : consumer.expected ≠ none) :
    served consumer.expected ≠ consumer := by
  obtain ⟨role, _ | _ | remaining⟩ := consumer
  · exact absurd rfl hexpected
  · simp [served]
  · simp [served]

/-- A grouping without standings comes to nothing. -/
theorem together_eq_none (h : grouping.items = []) : together grouping = none := by
  induction grouping with
  | nothing => rfl
  | single standing => simp [Grouping.items] at h
  | pair left right hleft hright =>
      obtain ⟨hfirst, hsecond⟩ := List.append_eq_nil_iff.mp h
      rw [together, hleft hfirst, hright hsecond]
      rfl

theorem together_stack_cons :
    together (.stack (first :: rest)) = (some first).merge meet (together (.stack rest)) := rfl

/-- The first of several in the same role stays. -/
theorem together_stack_of_role_eq (h : ∀ standing ∈ rest, standing.role = first.role) :
    together (.stack (first :: rest)) = some first := by
  induction rest generalizing first with
  | nil => rfl
  | cons second rest ih =>
      have hsecond := h second (by simp)
      rw [together_stack_cons, ih fun standing hstanding =>
        (h standing (by simp [hstanding])).trans hsecond.symm, Option.merge_some_some,
        meet_of_role_eq hsecond]

/-- A resolver in front stays. -/
theorem together_stack_of_resolver (h : first.role = .resolver) :
    together (.stack (first :: rest)) = some first := by
  rw [together_stack_cons]
  cases together (.stack rest) with
  | none => rfl
  | some standing => rw [Option.merge_some_some, resolver_meet h]

/-- A consumer in front does not become a propagator. -/
theorem together_stack_of_consumer (h : first.role = .consumer) (rest : List Standing) :
    ∃ standing, together (.stack (first :: rest)) = some standing ∧
      standing.role ≠ .propagator := by
  have hfirst : first.role ≠ .propagator := by simp [h]
  rw [together_stack_cons]
  cases together (.stack rest) with
  | none => exact ⟨first, rfl, hfirst⟩
  | some standing => exact ⟨_, Option.merge_some_some, role_meet_ne hfirst⟩

/-! ## Standings that come to the same in every way -/

/-- Consumers of one standing meet propagators, and none of these can be lost: the consumers expect
any number, or there is one consumer, and it meets one propagator or ends up expecting any number. -/
structure Served (consumer : Standing) (standings : List Standing) : Prop where
  waits : consumer.role = .consumer
  others : ∀ standing ∈ standings, standing = consumer ∨ standing.role = .propagator
  alone : consumer.expected = none ∨ standings.count consumer ≤ 1
  counted : consumer.expected = none ∨ consumer.expected = some 0 ∨
    standings.countP (·.role == .propagator) ≤ 1

/-- Standings that come to the same in every order and grouping. -/
def Orderless (standings : List Standing) : Prop :=
  (∀ first ∈ standings, ∀ second ∈ standings, first = second) ∨
    ∃ consumer ∈ standings, Served consumer standings

instance (consumer : Standing) (standings : List Standing) : Decidable (Served consumer standings) :=
  decidable_of_iff
    (consumer.role = .consumer ∧
      (∀ standing ∈ standings, standing = consumer ∨ standing.role = .propagator) ∧
      (consumer.expected = none ∨ standings.count consumer ≤ 1) ∧
      (consumer.expected = none ∨ consumer.expected = some 0 ∨
        standings.countP (·.role == .propagator) ≤ 1))
    ⟨fun ⟨waits, others, alone, counted⟩ => ⟨waits, others, alone, counted⟩,
      fun h => ⟨h.waits, h.others, h.alone, h.counted⟩⟩

instance (standings : List Standing) : Decidable (Orderless standings) :=
  inferInstanceAs (Decidable (_ ∨ _))

/-- Whether one of the standings is that of a propagator. -/
def hasPropagator (standings : List Standing) : Bool := standings.any (·.role == .propagator)

theorem Served.sublist (h : Served consumer standings) (hsublist : rest.Sublist standings) :
    Served consumer rest where
  waits := h.waits
  others standing hstanding := h.others standing (hsublist.subset hstanding)
  alone := h.alone.imp_right (Nat.le_trans (hsublist.count_le _))
  counted := h.counted.imp_right (Or.imp_right (Nat.le_trans hsublist.countP_le))

/-- What every standing has and meetings keep, the standings together have. -/
theorem exists_together {keeps : Standing → Prop} (h : ∀ standing ∈ grouping.items, keeps standing)
    (hmeet : ∀ {first second}, keeps first → keeps second → keeps (first.meet second))
    (hinhabited : grouping.items ≠ []) :
    ∃ standing, together grouping = some standing ∧ keeps standing := by
  induction grouping with
  | nothing => exact absurd rfl hinhabited
  | single standing => exact ⟨standing, rfl, h standing (by simp [Grouping.items])⟩
  | pair left right hleft hright =>
      have hfirst := hleft fun standing hstanding => h standing (List.mem_append_left _ hstanding)
      have hsecond := hright fun standing hstanding => h standing (List.mem_append_right _ hstanding)
      rw [together]
      by_cases hnone : left.items = []
      · rw [together_eq_none hnone, Option.merge_none_left]
        exact hsecond fun hnone' => hinhabited (List.append_eq_nil_iff.mpr ⟨hnone, hnone'⟩)
      · obtain ⟨first, hfirst, hkeeps⟩ := hfirst hnone
        by_cases hnone' : right.items = []
        · exact ⟨first, by rw [hfirst, together_eq_none hnone', Option.merge_none_right], hkeeps⟩
        · obtain ⟨second, hsecond, hkeeps'⟩ := hsecond hnone'
          exact ⟨first.meet second, by rw [hfirst, hsecond, Option.merge_some_some],
            hmeet hkeeps hkeeps'⟩

/-- Propagators alone come to a propagator. -/
theorem exists_together_of_propagators (h : ∀ standing ∈ grouping.items, standing.role = .propagator)
    (hinhabited : grouping.items ≠ []) :
    ∃ standing, together grouping = some standing ∧ standing.role = .propagator :=
  exists_together h (fun hfirst hsecond => by rwa [meet_of_role_eq (hsecond.trans hfirst.symm)])
    hinhabited

/-- Equal standings come to their standing. -/
theorem together_of_all_eq (h : ∀ standing ∈ grouping.items, standing = first)
    (hinhabited : grouping.items ≠ []) : together grouping = some first := by
  obtain ⟨standing, htogether, rfl⟩ := exists_together h
    (fun hfirst hsecond => by rw [hfirst, hsecond, meet_of_role_eq rfl]) hinhabited
  exact htogether

/-- A consumer that expects no propagator or any number expects any number after one. -/
theorem served_of_unbounded {expected : Option Nat} (h : expected = none ∨ expected = some 0) :
    served expected = ⟨.consumer, none⟩ := by
  rcases h with rfl | rfl <;> rfl

/-- What a consumer is after the propagators that it met. -/
def Served.standing (consumer : Standing) (standings : List Standing) : Standing :=
  if hasPropagator standings then served consumer.expected else consumer

/-- Another propagator on either side serves the consumer, if it can take one more. -/
theorem Served.meet_propagator {propagator : Standing} (hwaits : consumer.role = .consumer)
    (hrole : propagator.role = .propagator)
    (hmore : hasPropagator standings = true →
      consumer.expected = none ∨ consumer.expected = some 0) :
    (Served.standing consumer standings).meet propagator = served consumer.expected ∧
      propagator.meet (Served.standing consumer standings) = served consumer.expected := by
  unfold Served.standing
  split
  · rename_i hpropagator
    rw [served_of_unbounded (hmore hpropagator)]
    exact ⟨meet_served rfl hrole, served_meet hrole rfl⟩
  · exact ⟨meet_served hwaits hrole, served_meet hrole hwaits⟩

theorem hasPropagator_append : hasPropagator (standings ++ rest) =
    (hasPropagator standings || hasPropagator rest) := List.any_append

theorem hasPropagator_of_propagators (h : ∀ standing ∈ standings, standing.role = .propagator)
    (hinhabited : standings ≠ []) : hasPropagator standings = true := by
  obtain ⟨standing, hstanding⟩ := List.exists_mem_of_ne_nil standings hinhabited
  exact List.any_eq_true.mpr ⟨standing, hstanding, by simp [h standing hstanding]⟩

/-- Two parts with propagators have more than one. -/
theorem two_le_countP (h : hasPropagator standings = true) (h' : hasPropagator rest = true) :
    2 ≤ (standings ++ rest).countP (·.role == .propagator) := by
  have hfirst := List.countP_pos_iff.mpr (List.any_eq_true.mp h)
  have hsecond := List.countP_pos_iff.mpr (List.any_eq_true.mp h')
  rw [List.countP_append]
  omega

/-- Whatever the order and grouping, the consumer is served if there is a propagator. -/
theorem Served.together_eq (h : Served consumer grouping.items) (hmem : consumer ∈ grouping.items) :
    together grouping = some (Served.standing consumer grouping.items) := by
  induction grouping with
  | nothing => simp [Grouping.items] at hmem
  | single standing =>
      obtain rfl := List.mem_singleton.mp hmem
      have hnone : hasPropagator [consumer] = false := by simp [hasPropagator, h.waits]
      exact congrArg some (by simp [Served.standing, Grouping.items, hnone])
  | pair left right hleft hright =>
      have hfirst := h.sublist (List.sublist_append_left left.items right.items)
      have hsecond := h.sublist (List.sublist_append_right left.items right.items)
      -- a part without the consumer has propagators only
      have hpropagators (part : List Standing) (hpart : Served consumer part)
          (hother : consumer ∉ part) : ∀ standing ∈ part, standing.role = .propagator :=
        fun standing hstanding => (hpart.others standing hstanding).resolve_left
          (by rintro rfl; exact hother hstanding)
      -- two propagators are more than a consumer of one can expect
      have hmore (hboth : hasPropagator left.items = true ∧ hasPropagator right.items = true) :
          consumer.expected = none ∨ consumer.expected = some 0 := by
        have htwo := two_le_countP hboth.1 hboth.2
        obtain hnone | hzero | hone := h.counted
        · exact .inl hnone
        · exact .inr hzero
        · exact absurd htwo (by simpa [Grouping.items] using Nat.not_le.mpr (Nat.lt_succ_of_le hone))
      rw [together]
      by_cases hleftMem : consumer ∈ left.items <;> by_cases hrightMem : consumer ∈ right.items
      · -- Two consumers expect any number, which no propagator changes.
        have hnone : consumer.expected = none := by
          refine h.alone.resolve_right fun hone => ?_
          have hcount := List.count_pos_iff.mpr hleftMem
          have hcount' := List.count_pos_iff.mpr hrightMem
          rw [Grouping.items, List.count_append] at hone
          omega
        have hstays (standings : List Standing) : Served.standing consumer standings = consumer := by
          obtain ⟨role, expected⟩ := consumer
          obtain rfl : role = .consumer := h.waits
          obtain rfl : expected = none := hnone
          exact ite_self _
        rw [hleft hfirst hleftMem, hright hsecond hrightMem, Option.merge_some_some, hstays, hstays,
          hstays, meet_of_role_eq rfl]
      · have hothers := hpropagators right.items hsecond hrightMem
        rw [hleft hfirst hleftMem]
        by_cases hempty : right.items = []
        · rw [together_eq_none hempty, Option.merge_none_right, Grouping.items, hempty,
            List.append_nil]
        · obtain ⟨propagator, htogether, hrole⟩ := exists_together_of_propagators hothers hempty
          have hmany := hasPropagator_of_propagators hothers hempty
          rw [htogether, Option.merge_some_some,
            (meet_propagator h.waits hrole fun hany => hmore ⟨hany, hmany⟩).1, standing,
            Grouping.items, hasPropagator_append, hmany, Bool.or_true, if_pos rfl]
      · have hothers := hpropagators left.items hfirst hleftMem
        rw [hright hsecond hrightMem]
        by_cases hempty : left.items = []
        · rw [together_eq_none hempty, Option.merge_none_left, Grouping.items, hempty,
            List.nil_append]
        · obtain ⟨propagator, htogether, hrole⟩ := exists_together_of_propagators hothers hempty
          have hmany := hasPropagator_of_propagators hothers hempty
          rw [htogether, Option.merge_some_some,
            (meet_propagator h.waits hrole fun hany => hmore ⟨hmany, hany⟩).2, standing,
            Grouping.items, hasPropagator_append, hmany, Bool.true_or, if_pos rfl]
      · exact absurd hmem (by simp [Grouping.items, hleftMem, hrightMem])

/-- Every order and grouping of the standings comes to the same. -/
def AgreeOn (standings : List Standing) : Prop :=
  ∀ left right : Grouping Standing, left.items.Perm standings → right.items.Perm standings →
    together left = together right

theorem Orderless.agreeOn (h : Orderless standings) : AgreeOn standings := by
  intro left right hleft hright
  obtain hequal | ⟨consumer, hconsumer, hserved⟩ := h
  · by_cases hempty : standings = []
    · subst hempty
      rw [together_eq_none hleft.eq_nil, together_eq_none hright.eq_nil]
    · obtain ⟨first, hfirst⟩ := List.exists_mem_of_ne_nil standings hempty
      have hcomes (grouping : Grouping Standing) (hperm : grouping.items.Perm standings) :
          together grouping = some first :=
        together_of_all_eq (fun standing hstanding =>
          hequal standing (hperm.mem_iff.mp hstanding) first hfirst) fun hnone =>
            hempty (List.nil_perm.mp (hnone ▸ hperm))
      rw [hcomes left hleft, hcomes right hright]
  · have hcomes (grouping : Grouping Standing) (hperm : grouping.items.Perm standings) :
        together grouping = some (Served.standing consumer standings) := by
      have hown : Served consumer grouping.items :=
        { waits := hserved.waits
          others := fun standing hstanding => hserved.others standing (hperm.mem_iff.mp hstanding)
          alone := by rw [hperm.count_eq]; exact hserved.alone
          counted := by rw [hperm.countP_eq]; exact hserved.counted }
      rw [hown.together_eq (hperm.mem_iff.mpr hconsumer), Served.standing, Served.standing,
        hasPropagator, hasPropagator, hperm.any_eq]
    rw [hcomes left hleft, hcomes right hright]

/-! ## Standings that do not -/

theorem items_pair_stack (first second : List Standing) :
    (Grouping.pair (.stack first) (.stack second)).items = first ++ second := by
  rw [Grouping.items, Grouping.items_stack, Grouping.items_stack]

namespace AgreeOn

variable {second propagator : Standing}

/-- Standings that agree come to the same also in another order. -/
theorem perm (h : AgreeOn standings) (hperm : standings.Perm rest) : AgreeOn rest :=
  fun left right hleft hright => h left right (hleft.trans hperm.symm) (hright.trans hperm.symm)

/-- Those in front of two stacks agree when both stay there. -/
theorem stack_eq (h : AgreeOn standings) {first second : List Standing}
    (hfirst : first.Perm standings) (hsecond : second.Perm standings) :
    together (.stack first) = together (.stack second) :=
  h _ _ ((Grouping.items_stack first).symm ▸ hfirst) ((Grouping.items_stack second).symm ▸ hsecond)

/-- Beside a resolver there is nothing but the same. -/
theorem eq_of_resolver (h : AgreeOn (first :: second :: rest)) (hrole : first.role = .resolver) :
    second = first := by
  have hsame := h.stack_eq (.refl _) (.swap first second rest)
  rw [together_stack_of_resolver hrole, together_stack_cons, together_stack_of_resolver hrole,
    Option.merge_some_some, meet_of_resolver hrole] at hsame
  exact (Option.some.inj hsame).symm

/-- Standings in one role are the same. -/
theorem eq_of_role_eq (h : AgreeOn (first :: second :: rest))
    (hrole : ∀ standing ∈ second :: rest, standing.role = first.role) : second = first := by
  have hsame := h.stack_eq (.refl _) (.swap first second rest)
  have hsecond := hrole second (by simp)
  rw [together_stack_of_role_eq hrole, together_stack_of_role_eq] at hsame
  · exact (Option.some.inj hsame).symm
  · intro standing hstanding
    rcases List.mem_cons.mp hstanding with rfl | hstanding
    · exact hsecond.symm
    · exact (hrole standing (by simp [hstanding])).trans hsecond.symm

/-- Beside another consumer and a propagator, a consumer expects any number. -/
theorem unbounded_of_consumer (h : AgreeOn (consumer :: second :: propagator :: rest))
    (hwaits : consumer.role = .consumer) (hsecond : second.role = .consumer)
    (hrole : propagator.role = .propagator) : consumer.expected = none := by
  by_contra hexpected
  have hconsumer : consumer.role ≠ .propagator := by simp [hwaits]
  -- The consumer comes to the others, or meets the propagator before them.
  have hsame := h (.stack (consumer :: second :: propagator :: rest))
    (.pair (.stack [consumer, propagator]) (.stack (second :: rest)))
    (Grouping.items_stack _ ▸ .refl _)
    (items_pair_stack _ _ ▸ (List.Perm.swap second propagator rest).cons consumer)
  obtain ⟨others, hothers, hothersRole⟩ := together_stack_of_consumer hsecond (propagator :: rest)
  obtain ⟨fewer, hfewer, hfewerRole⟩ := together_stack_of_consumer hsecond rest
  have hmet : together (.stack [consumer, propagator]) = some (served consumer.expected) :=
    congrArg some (meet_served hwaits hrole)
  rw [together_stack_cons, hothers, Option.merge_some_some, meet_of_ne hconsumer hothersRole,
    together, hmet, hfewer, Option.merge_some_some,
    meet_of_ne (role_served_ne _) hfewerRole] at hsame
  exact served_ne hwaits hexpected (Option.some.inj hsame).symm

/-- Beside two propagators, a consumer expects none or any number. -/
theorem unbounded_of_propagators (h : AgreeOn (consumer :: first :: propagator :: rest))
    (hwaits : consumer.role = .consumer)
    (hroles : ∀ standing ∈ first :: propagator :: rest, standing.role = .propagator) :
    consumer.expected = none ∨ consumer.expected = some 0 := by
  by_contra hexpected
  -- All propagators meet before the consumer comes, or one of them serves it first.
  have hsame := h (.pair (.stack (first :: propagator :: rest)) (.stack [consumer]))
    (.pair (.stack (first :: rest)) (.stack [propagator, consumer]))
    (items_pair_stack _ _ ▸ List.perm_append_singleton _ _)
    (items_pair_stack _ _ ▸ (List.perm_append_comm.trans
      ((List.Perm.swap consumer propagator _).trans ((List.Perm.swap first propagator rest).cons _))))
  have hfirst := hroles first (by simp)
  have hall : ∀ standing ∈ propagator :: rest, standing.role = first.role := fun standing hstanding =>
    (hroles standing (List.mem_cons_of_mem _ hstanding)).trans hfirst.symm
  have hserves : together (.stack [propagator, consumer]) = some (served consumer.expected) :=
    congrArg some (served_meet (hroles propagator (by simp)) hwaits)
  have hlast : together (.stack [consumer]) = some consumer := rfl
  rw [together, together_stack_of_role_eq hall, hlast, Option.merge_some_some,
    served_meet hfirst hwaits, together, hserves, together_stack_of_role_eq fun standing hstanding =>
      hall standing (List.mem_cons_of_mem _ hstanding), Option.merge_some_some] at hsame
  have hsame := Option.some.inj hsame
  match hcount : consumer.expected with
  | none => exact hexpected (.inl hcount)
  | some 0 => exact hexpected (.inr hcount)
  | some 1 =>
      rw [hcount, meet_of_resolver rfl] at hsame
      simp [← hsame, served] at hfirst
  | some (remaining + 2) =>
      rw [hcount, served_meet hfirst rfl] at hsame
      simp [served] at hsame

/-- Where standings differ, none of them is that of a resolver. -/
theorem role_ne_resolver (h : AgreeOn standings) (hfirst : first ∈ standings)
    (hsecond : second ∈ standings) (hne : first ≠ second) :
    ∀ standing ∈ standings, standing.role ≠ .resolver := by
  intro resolver hresolver hrole
  have hsame (other : Standing) (hother : other ∈ standings) : other = resolver := by
    by_contra hdiffers
    have hrest := (List.mem_erase_of_ne hdiffers).mpr hother
    exact hdiffers ((h.perm ((List.perm_cons_erase hresolver).trans
      ((List.perm_cons_erase hrest).cons resolver))).eq_of_resolver hrole)
  exact hne ((hsame first hfirst).trans (hsame second hsecond).symm)

/-- Where standings differ, there are a consumer and a propagator. -/
theorem exists_consumer_propagator (h : AgreeOn standings) (hfirst : first ∈ standings)
    (hsecond : second ∈ standings) (hne : first ≠ second) :
    ∃ consumer ∈ standings, ∃ propagator ∈ standings, consumer.role = .consumer ∧
      propagator.role = .propagator := by
  have hroles : ∃ other ∈ standings, other.role ≠ first.role := by
    by_contra! hroles
    have hrest := (List.mem_erase_of_ne hne.symm).mpr hsecond
    have hperm := (List.perm_cons_erase hfirst).trans ((List.perm_cons_erase hrest).cons first)
    exact hne ((h.perm hperm).eq_of_role_eq fun standing hstanding =>
      hroles standing (hperm.mem_iff.mpr (List.mem_cons_of_mem _ hstanding))).symm
  obtain ⟨other, hother, hdiffers⟩ := hroles
  have hresolver := h.role_ne_resolver hfirst hsecond hne
  cases hrole : first.role with
  | resolver => exact absurd hrole (hresolver first hfirst)
  | consumer =>
      cases hrole' : other.role with
      | resolver => exact absurd hrole' (hresolver other hother)
      | consumer => exact absurd (hrole'.trans hrole.symm) hdiffers
      | propagator => exact ⟨first, hfirst, other, hother, hrole, hrole'⟩
  | propagator =>
      cases hrole' : other.role with
      | resolver => exact absurd hrole' (hresolver other hother)
      | propagator => exact absurd (hrole'.trans hrole.symm) hdiffers
      | consumer => exact ⟨other, hother, first, hfirst, hrole', hrole⟩

/-- Beside a propagator, a consumer that is not the only one expects any number. -/
theorem expected_of_mem_erase (h : AgreeOn standings) (hconsumer : consumer ∈ standings)
    (hwaits : consumer.role = .consumer) (hpropagator : propagator ∈ standings)
    (hrole : propagator.role = .propagator) (hsecond : second ∈ standings.erase consumer)
    (hwaits' : second.role = .consumer) : consumer.expected = none := by
  have hne (other : Standing) (hother : other.role = .consumer) : propagator ≠ other := by
    rintro rfl
    simp [hother] at hrole
  have hlast := (List.mem_erase_of_ne (hne second hwaits')).mpr
    ((List.mem_erase_of_ne (hne consumer hwaits)).mpr hpropagator)
  exact (h.perm ((List.perm_cons_erase hconsumer).trans (((List.perm_cons_erase hsecond).trans
    ((List.perm_cons_erase hlast).cons second)).cons consumer))).unbounded_of_consumer hwaits
    hwaits' hrole

/-- Standings that come to the same in every order and grouping are such that none is lost. -/
theorem orderless (h : AgreeOn standings) : Orderless standings := by
  by_cases hequal : ∀ first ∈ standings, ∀ second ∈ standings, first = second
  · exact .inl hequal
  obtain ⟨first, hfirst, second, hsecond, hne⟩ : ∃ first ∈ standings, ∃ second ∈ standings,
      first ≠ second := by push Not at hequal; exact hequal
  have hresolver := h.role_ne_resolver hfirst hsecond hne
  obtain ⟨consumer, hconsumer, propagator, hpropagator, hwaits, hrole⟩ :=
    h.exists_consumer_propagator hfirst hsecond hne
  -- two different consumers expect any number each, so they are the same
  have hothers : ∀ standing ∈ standings, standing = consumer ∨ standing.role = .propagator := by
    intro standing hstanding
    cases hstands : standing.role with
    | propagator => exact .inr rfl
    | resolver => exact absurd hstands (hresolver standing hstanding)
    | consumer =>
        by_contra! hdiffers
        have hnone := h.expected_of_mem_erase hconsumer hwaits hpropagator hrole
          ((List.mem_erase_of_ne hdiffers.1).mpr hstanding) hstands
        have hnone' := h.expected_of_mem_erase hstanding hstands hpropagator hrole
          ((List.mem_erase_of_ne (Ne.symm hdiffers.1)).mpr hconsumer) hwaits
        obtain ⟨role, expected⟩ := standing
        obtain ⟨role', expected'⟩ := consumer
        simp_all
  have halone : consumer.expected = none ∨ standings.count consumer ≤ 1 := by
    by_contra! hmany
    refine hmany.1 (h.expected_of_mem_erase hconsumer hwaits hpropagator hrole ?_ hwaits)
    exact List.count_pos_iff.mp (by rw [List.count_erase_self]; omega)
  refine .inr ⟨consumer, hconsumer, hwaits, hothers, halone, ?_⟩
  by_contra! hlost
  obtain ⟨hsome, hpositive, hmany⟩ := hlost
  -- what is left beside the consumer are propagators, more than it can expect
  have hone := halone.resolve_left hsome
  have hrest : ∀ standing ∈ standings.erase consumer, standing.role = .propagator := by
    intro standing hstanding
    refine (hothers standing (List.mem_of_mem_erase hstanding)).resolve_left ?_
    rintro rfl
    have hcount := List.count_pos_iff.mpr hstanding
    rw [List.count_erase_self] at hcount
    omega
  have hperm := List.perm_cons_erase hconsumer
  have hlength : 1 < (standings.erase consumer).length := by
    refine Nat.lt_of_lt_of_le ?_ (List.countP_le_length (p := (·.role == .propagator)))
    rw [hperm.countP_eq, List.countP_cons_of_neg (by simp [hwaits])] at hmany
    omega
  obtain ⟨first, rest, hlisted⟩ := List.exists_cons_of_length_pos (Nat.zero_lt_of_lt hlength)
  obtain ⟨second, rest, rfl⟩ := List.exists_cons_of_length_pos (l := rest) (by
    rw [hlisted, List.length_cons] at hlength
    omega)
  rw [hlisted] at hperm hrest
  exact ((h.perm hperm).unbounded_of_propagators hwaits hrest).elim hsome hpositive

end AgreeOn

/-- Standings come to the same in every order and grouping if and only if none is lost on the way. -/
theorem agreeOn_iff : AgreeOn standings ↔ Orderless standings :=
  ⟨AgreeOn.orderless, Orderless.agreeOn⟩

/-- A stack comes to what the standings in it come to. -/
theorem together_filterMap_stack {α : Type} {image : α → Option Standing} (items : List α) :
    together ((Grouping.stack items).filterMap image) =
      together (.stack (items.filterMap image)) := by
  induction items with
  | nil => rfl
  | cons item rest ih =>
      show (together ((image item).elim .nothing .single)).merge meet
        (together ((Grouping.stack rest).filterMap image)) = _
      rw [ih]
      cases himage : image item with
      | none => rw [List.filterMap_cons_none himage]; exact Option.merge_none_left
      | some standing => rw [List.filterMap_cons_some himage]; rfl

/-- Every grouping of standings comes from one of the items that have them. -/
theorem exists_grouping_of_filterMap_eq {α : Type} {image : α → Option Standing} {ordered : List α}
    (h : ordered.filterMap image = grouping.items) :
    ∃ origin : Grouping α, origin.items = ordered ∧
      together (origin.filterMap image) = together grouping := by
  induction grouping generalizing ordered with
  | nothing => exact ⟨.stack ordered, Grouping.items_stack _, by rw [together_filterMap_stack, h]; rfl⟩
  | single standing =>
      exact ⟨.stack ordered, Grouping.items_stack _, by rw [together_filterMap_stack, h]; rfl⟩
  | pair left right hleft hright =>
      obtain ⟨first, second, rfl, hfirst, hsecond⟩ := List.filterMap_eq_append_iff.mp h
      obtain ⟨origin, rfl, horigin⟩ := hleft hfirst
      obtain ⟨origin', rfl, horigin'⟩ := hright hsecond
      exact ⟨.pair origin origin', rfl, congrArg₂ (Option.merge meet) horigin horigin'⟩

end Standing

/-- The maps of sibling plans give a scan the same role and number of expected selectors in every
order and grouping, if and only if the standings that they have it in are such that none is lost. -/
theorem PartitionMap.groupings_agree_iff {maps : List PartitionMap} {scan : ScanId} :
    (∀ left right : Grouping PartitionMap, left.items.Perm maps → right.items.Perm maps →
      left.combined.standing? scan = right.combined.standing? scan) ↔
    Standing.Orderless (maps.filterMap (·.standing? scan)) := by
  rw [← Standing.agreeOn_iff]
  constructor
  · intro hagree
    have horigin (grouping : Grouping Standing)
        (hperm : grouping.items.Perm (maps.filterMap (·.standing? scan))) :
        ∃ origin : Grouping PartitionMap, origin.items.Perm maps ∧
          origin.combined.standing? scan = Standing.together grouping := by
      obtain ⟨ordered, hordered, himages⟩ := exists_perm_filterMap_eq hperm
      obtain ⟨origin, rfl, hcomes⟩ := Standing.exists_grouping_of_filterMap_eq himages
      exact ⟨origin, hordered, Grouping.standing?_combined.trans hcomes⟩
    intro left right hleft hright
    obtain ⟨origin, horiginal, hcomes⟩ := horigin left hleft
    obtain ⟨origin', horiginal', hcomes'⟩ := horigin right hright
    rw [← hcomes, ← hcomes', hagree origin origin' horiginal horiginal']
  · intro hagree left right hleft hright
    have himages (grouping : Grouping PartitionMap) (hperm : grouping.items.Perm maps) :
        (grouping.filterMap (·.standing? scan)).items.Perm (maps.filterMap (·.standing? scan)) :=
      Grouping.items_filterMap _ grouping ▸ hperm.filterMap _
    rw [Grouping.standing?_combined, Grouping.standing?_combined,
      hagree _ _ (himages left hleft) (himages right hright)]

/-- A consumer that expects two selectors is served one too few when these meet before it. -/
example : ¬ Standing.Orderless
    [⟨.consumer, some 2⟩, ⟨.propagator, none⟩, ⟨.propagator, none⟩] := by decide

/-- A propagator hides a resolver that it meets first. -/
example : ¬ Standing.Orderless [⟨.propagator, some 0⟩, ⟨.resolver, some 0⟩] := by decide

end QueryPlanner
