import QueryPlanner.Proofs.Optimizer.Comparison
import QueryPlanner.Proofs.Optimizer.Settled

/-!
# The order of costings

When all costs are equal or well apart (`PricesApart`), being better is a strict order on the costings
that planning records (`Memo.Rankable`), and a comparison comes out the same ever after. `Memo.Peaks` says
that no costing that is registered for a context is better than the best one. A costing may be better
when it was recorded and not offered yet (`Memo.PeaksBut`). Whether it becomes the best one or not
when it is offered, nothing is better than the best one after that (`Memo.PeaksBut.setBest`,
`Memo.PeaksBut.offered`).
-/

namespace QueryPlanner

/-! ## The order of costings -/

/-- The contexts that a join is compared by are among its child contexts. -/
theorem Costing.mem_of_joinContexts? {costing : Costing} {outer inner : ContextId}
    (h : costing.joinContexts? = some (outer, inner)) :
    some outer ∈ costing.childContexts ∧ some inner ∈ costing.childContexts := by
  unfold joinContexts? at h
  split at h
  · rename_i first second rest hlisted
    obtain ⟨rfl, rfl⟩ := Prod.mk.inj (Option.some.inj h)
    have hmem (child : ContextId) (hchild : child ∈ costing.childContexts.filterMap id) :
        some child ∈ costing.childContexts := by
      obtain ⟨entry, hentry, hsome⟩ := List.mem_filterMap.mp hchild
      exact hsome ▸ hentry
    rw [hlisted] at hmem
    exact ⟨hmem first (by simp), hmem second (by simp)⟩
  · exact absurd h (by simp)

/-- The models of planners charge finite costs, and any two of these are equal or well apart. -/
def PricesApart (planners : List Planner) : Prop :=
  ∀ planner ∈ planners, ∀ view inputs, (planner.model.cost view inputs).total.isFinite = true ∧
    ∀ other ∈ planners, ∀ view' inputs',
      (planner.model.cost view inputs).Apart (other.model.cost view' inputs')

/-- A costing as planning records it, by the model of some planner. -/
structure Costing.Priced (planners : List Planner) (costing : Costing) : Prop where
  delivers : ∃ delivered, costing.delivered = some delivered
  charged : ∃ planner ∈ planners, ∃ view inputs, costing.cost = planner.model.cost view inputs

/-- Costings that deliver something, with finite costs that are equal or well apart. -/
structure Costing.WellApart (among : Costing → Prop) : Prop where
  delivers : ∀ costing, among costing → ∃ delivered, costing.delivered = some delivered
  finite : ∀ costing, among costing → costing.cost.total.isFinite = true
  apart : ∀ left right, among left → among right → left.cost.Apart right.cost

variable {planners : List Planner} {among : Costing → Prop} {left middle right : Costing}

/-- Where the models charge costs that are equal or well apart, so are the costs of costings. -/
theorem PricesApart.wellApart (h : PricesApart planners) :
    Costing.WellApart (Costing.Priced planners) where
  delivers _ hpriced := hpriced.delivers
  finite _ hpriced := by
    obtain ⟨planner, hplanner, view, inputs, hcost⟩ := hpriced.charged
    rw [hcost]
    exact (h planner hplanner view inputs).1
  apart _ _ hleft hright := by
    obtain ⟨planner, hplanner, view, inputs, hcost⟩ := hleft.charged
    obtain ⟨other, hother, view', inputs', hcost'⟩ := hright.charged
    rw [hcost, hcost']
    exact (h planner hplanner view inputs).2 other hother view' inputs'

/-- Among costs that are equal or well apart, being near is being equal. -/
theorem Costing.WellApart.steady (h : Costing.WellApart among) : Costing.Steady among where
  delivers := h.delivers
  near_trans left middle right hleft hmiddle hright hnear hnear' := by
    rw [(h.apart left middle hleft hmiddle).near_iff (h.finite left hleft)] at hnear
    rw [(h.apart middle right hmiddle hright).near_iff (h.finite middle hmiddle)] at hnear'
    exact Cost.near_of_beq (h.finite left hleft) (Estimate.beq_trans hnear hnear')

namespace Memo

variable {below : GroupId → GroupId → Prop} {memo memo' : Memo} {held : List ContextId}

/-! ## Comparisons come out the same ever after -/

/-- The costing is one that planning records, and what a comparison reads of it is settled: its
alternative is there, and its child contexts have chosen plans. -/
structure Rankable (planners : List Planner) (memo : Memo) (costing : Costing) : Prop
    extends costing.Priced planners where
  expr_found : ∃ expr, memo.expr? costing.expr = some expr
  chosen : ∀ id, some id ∈ costing.childContexts → ∃ context known, memo.Chosen id context known

/-- The inputs of a join over chosen plans stay the same. -/
theorem Evolves.joinInputs? (hevolves : Evolves held memo memo') {costing : Costing}
    (hchosen : ∀ id, some id ∈ costing.childContexts →
      ∃ context known, memo.Chosen id context known) :
    memo'.joinInputs? costing = memo.joinInputs? costing := by
  have hrows (id : ContextId) (hid : some id ∈ costing.childContexts) :
      memo'.bestRows? id = memo.bestRows? id := by
    obtain ⟨context, known, hbest⟩ := hchosen id hid
    have hheld : (memo.best? id).bind memo.costing? = some known := hbest.best
    have hheld' : (memo'.best? id).bind memo'.costing? = some known := (hbest.evolves hevolves).best
    unfold bestRows?
    rw [hheld, hheld']
  unfold Memo.joinInputs? innerGroup?
  cases hjoin : costing.joinContexts? with
  | none => rfl
  | some contexts =>
      obtain ⟨outer, inner⟩ := contexts
      obtain ⟨houter, hinner⟩ := Costing.mem_of_joinContexts? hjoin
      obtain ⟨context, known, hfound⟩ := hchosen inner hinner
      simp only [Option.bind_eq_bind, Option.bind_some, hfound.found,
        (hfound.evolves hevolves).found, hrows outer houter, hrows inner hinner, hevolves.master,
        hevolves.logical]

/-- Comparisons over chosen plans come out the same. -/
theorem Evolves.betterThan (hevolves : Evolves held memo memo')
    (hleft : memo.Rankable planners left) (hright : memo.Rankable planners right) :
    memo'.betterThan left right = memo.betterThan left right := by
  have hjoins {costing : Costing} (h : memo.Rankable planners costing) :
      memo'.isJoinCosting costing = memo.isJoinCosting costing := by
    obtain ⟨expr, hexpr⟩ := h.expr_found
    obtain ⟨expr', hexpr', hop, _⟩ := hevolves.expr _ expr hexpr
    unfold isJoinCosting physical? op?
    rw [hexpr, hexpr', Option.map_some, Option.map_some, hop]
  unfold Memo.betterThan flatterJoin
  rw [hjoins hleft, hjoins hright, hevolves.joinInputs? hleft.chosen,
    hevolves.joinInputs? hright.chosen]

/-- Justified costings can be compared. -/
theorem Justified.rankable {costing : Costing} (h : memo.Justified planners below costing) :
    memo.Rankable planners costing := by
  obtain ⟨context, expr, op, h⟩ := h
  obtain ⟨planner, hplanner, statistics, seen, _, _, hcost⟩ := h.charged
  exact
    { delivers := ⟨_, h.delivered⟩
      charged := ⟨planner, hplanner, _, _, hcost⟩
      expr_found := ⟨expr, h.expr_found⟩
      chosen := fun id => exists_chosen_of_planned h.planned }

/-- The best costing of a context can be compared. -/
theorem Settled.rankable_best (h : memo.Settled planners below) {id : ContextId} {known : Costing}
    (hknown : memo.bestCosting? id = some known) : memo.Rankable planners known := by
  obtain ⟨best, hheld, hfound⟩ := Option.bind_eq_some_iff.mp hknown
  obtain ⟨context, hcontext, hbest⟩ := Option.bind_eq_some_iff.mp hheld
  obtain ⟨costing, hcosting, _, hpruned⟩ := h.best id context best hcontext hbest
  obtain rfl := Option.some.inj (hcosting.symm.trans hfound)
  exact (h.justified best costing hcosting hpruned).rankable

/-! ## Nothing registered is better than the best -/

theorem best?_setBest {id : CostingId} {costing : Costing} {other : ContextId} :
    (memo.setBest id costing).best? other =
      if costing.context = other then (memo.context? other).map fun _ => id
      else memo.best? other := by
  unfold best? setBest
  rw [context?_modifyContext]
  split
  · rw [Option.bind_map]
    cases memo.context? other <;> rfl
  · rfl

/-- Marking how far a context has come leaves the bests. -/
theorem best?_setState {id other : ContextId} {state : ContextState} :
    (memo.modifyContext id fun context => { context with state }).best? other =
      memo.best? other := by
  unfold best?
  rw [context?_modifyContext]
  split
  · rw [Option.bind_map]
    rfl
  · rfl

/-- A costing that was not given up is registered for a context, for whatever alternative and
request. -/
def Registered (memo : Memo) (context : ContextId) (slot : CostingId) (costing : Costing) : Prop :=
  ∃ id expr request, memo.expr? id = some expr ∧ ((context, request), slot) ∈ expr.costings ∧
    memo.costing? slot = some costing ∧ costing.pruned = false

/-- The context has a best costing, and the given one is not better. -/
def Peaked (memo : Memo) (context : ContextId) (costing : Costing) : Prop :=
  ∃ known, memo.bestCosting? context = some known ∧ memo.betterThan costing known = false

/-- No registered costing is better than the best one of its context, apart perhaps from one that was
not offered yet. -/
def PeaksBut (memo : Memo) (fresh : Option CostingId) : Prop :=
  ∀ context slot costing, memo.Registered context slot costing → some slot ≠ fresh →
    memo.Peaked context costing

/-- No registered costing is better than the best one of its context. -/
abbrev Peaks (memo : Memo) : Prop := memo.PeaksBut none

namespace PeaksBut

variable {fresh fresh' : Option CostingId} {id : CostingId} {candidate : Costing}

/-- Where bests stay and nothing is registered but what was there, nothing becomes better. -/
theorem evolves (hpeaks : memo.PeaksBut fresh) (h : memo.Settled planners below)
    (hevolves : Evolves held memo memo') (hbest : ∀ id, memo'.best? id = memo.best? id)
    (hslots : ∀ id expr, memo'.expr? id = some expr → ∀ entry ∈ expr.costings,
      some entry.2 ≠ fresh' →
      some entry.2 ≠ fresh ∧ ∃ before, memo.expr? id = some before ∧ entry ∈ before.costings) :
    memo'.PeaksBut fresh' := by
  rintro context slot costing ⟨id, expr, request, hexpr, hentry, hcosting, hpruned⟩ hfresh
  obtain ⟨hold, before, hbefore, hlisted⟩ := hslots id expr hexpr _ hentry hfresh
  obtain ⟨found, hfound, _⟩ := h.slots id before hbefore _ hlisted
  obtain rfl := Option.some.inj ((hevolves.costing _ _ hfound).symm.trans hcosting)
  obtain ⟨known, hknown, hbetter⟩ :=
    hpeaks context slot found ⟨id, before, request, hbefore, hlisted, hfound, hpruned⟩ hold
  have hrankable := (h.justified _ _ hfound hpruned).rankable
  refine ⟨known, ?_, ?_⟩
  · obtain ⟨best, hheld, hcosting⟩ := Option.bind_eq_some_iff.mp hknown
    exact Option.bind_eq_some_iff.mpr
      ⟨best, (hbest context).trans hheld, hevolves.costing best known hcosting⟩
  · rw [hevolves.betterThan hrankable (h.rankable_best hknown), hbetter]

/-- A costing was offered and is not better than the best one. -/
theorem offered (hpeaks : memo.PeaksBut (some id)) (h : memo.Settled planners below)
    (hcandidate : memo.costing? id = some candidate)
    (hpeak : candidate.pruned = false → memo.Peaked candidate.context candidate) : memo.Peaks := by
  intro context slot costing hregistered _
  by_cases hslot : slot = id
  · subst hslot
    obtain ⟨owner, expr, request, hexpr, hentry, hcosting, hpruned⟩ := hregistered
    obtain rfl := Option.some.inj (hcandidate.symm.trans hcosting)
    obtain ⟨found, hfound, hown⟩ := h.slots owner expr hexpr _ hentry
    obtain rfl := Option.some.inj (hfound.symm.trans hcosting)
    have hpeak := hpeak hpruned
    rwa [show found.context = context from hown] at hpeak
  · exact hpeaks context slot costing hregistered (by simpa using hslot)

/-- A costing was offered and has become the best one of its context, which it is better than so
far. What is better than the new one would have been better than the old one. -/
theorem setBest (hpeaks : memo.PeaksBut (some id)) (h : memo.Settled planners below)
    (hprices : PricesApart planners) (hcandidate : memo.costing? id = some candidate)
    (hpruned : candidate.pruned = false) {context : Context}
    (hcontext : memo.context? candidate.context = some context) (hopen : context.state ≠ .optimized)
    (hbetter : ∀ known, memo.bestCosting? candidate.context = some known →
      memo.betterThan candidate known = true) : (memo.setBest id candidate).Peaks := by
  have hevolves : Evolves [] memo (memo.setBest id candidate) :=
    evolves_modifyContext h.wellFormed.linksEnd hcontext hopen (by simp) rfl rfl fun _ => rfl
  have hrankable := (h.justified id candidate hcandidate hpruned).rankable
  intro other slot costing hregistered _
  obtain ⟨owner, expr, request, hexpr, hentry, hcosting, hcosted⟩ := hregistered
  have hcosting : memo.costing? slot = some costing := hcosting
  have hregistered : memo.Registered other slot costing :=
    ⟨owner, expr, request, hexpr, hentry, hcosting, hcosted⟩
  have hrankable' := (h.justified slot costing hcosting hcosted).rankable
  obtain ⟨found, hfound, hown⟩ := h.slots owner expr hexpr _ hentry
  obtain rfl := Option.some.inj (hfound.symm.trans hcosting)
  by_cases hother : candidate.context = other
  · have hheld : (memo.setBest id candidate).bestCosting? other = some candidate := by
      unfold bestCosting?
      rw [best?_setBest, if_pos hother, ← hother, hcontext]
      exact hcandidate
    refine ⟨candidate, hheld, ?_⟩
    rw [hevolves.betterThan hrankable' hrankable]
    by_cases hslot : slot = id
    · subst hslot
      obtain rfl := Option.some.inj (hcandidate.symm.trans hcosting)
      exact betterThan_self
    · obtain ⟨known, hknown, hworse⟩ :=
        hpeaks other slot found hregistered (by simpa using hslot)
      refine Bool.eq_false_iff.mpr fun hbest => ?_
      have hover := betterThan_trans hprices.wellApart.steady hrankable'.toPriced hrankable.toPriced
        (h.rankable_best hknown).toPriced hbest (hbetter known (hother ▸ hknown))
      simp [hworse] at hover
  · have hslot : slot ≠ id := by
      rintro rfl
      obtain rfl := Option.some.inj (hcandidate.symm.trans hcosting)
      exact hother hown
    obtain ⟨known, hknown, hworse⟩ := hpeaks other slot found hregistered (by simpa using hslot)
    refine ⟨known, ?_, ?_⟩
    · unfold bestCosting?
      rw [best?_setBest, if_neg hother]
      exact hknown
    · rw [hevolves.betterThan hrankable' (h.rankable_best hknown), hworse]

end PeaksBut

end Memo

end QueryPlanner
