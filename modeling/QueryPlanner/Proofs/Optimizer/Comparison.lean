import QueryPlanner.Memo.Context
import QueryPlanner.Memo.Insert
import QueryPlanner.Proofs.Nearness
import QueryPlanner.Proofs.Planning

/-!
# Which costing is better

A costing is better when its cost is lower, beyond the tolerance, or when the costs are near each
other and it is preferred: for spreading its rows further, or for being a flatter join. No costing is
better than itself, and no two are better than each other. Being better is transitive where being near
is (`Costing.Steady`), and then no costing is better than the one that is left when they are offered
one after the other, in whatever order (`Memo.betterThan_order`). Otherwise it is not: for any three
costs of which the middle one is near both others, and these are not near each other, there are
costings that run in a circle (`Memo.exists_circle`).
-/

namespace QueryPlanner

open Planning (exec)

/-- How far rows are spread over the hosts, as far as it matters between equal costs. -/
def Distribution.spread : Distribution → Nat
  | .hashed _ _ => 2
  | .random => 1
  | _ => 0

/-- Between equal costs the costing that spreads its rows further is preferred. -/
theorem Costing.distributionPreference?_eq {left right : Costing} {mine theirs : PlanProperties}
    (hleft : left.delivered = some mine) (hright : right.delivered = some theirs) :
    distributionPreference? left right =
      if mine.distribution.spread = theirs.distribution.spread then none
      else some (decide (theirs.distribution.spread < mine.distribution.spread)) := by
  unfold distributionPreference?
  rw [hleft, hright]
  dsimp only
  generalize mine.distribution = mine
  generalize theirs.distribution = theirs
  cases mine <;> cases theirs <;> rfl

namespace Memo

variable {memo : Memo} {left middle right : Costing}

theorem flatterJoin_self : memo.flatterJoin left left = false := by
  unfold flatterJoin
  cases memo.joinInputs? left <;> simp

/-- Flatter joins than a flatter join are flatter joins. -/
theorem flatterJoin_trans (h : memo.flatterJoin left middle = true)
    (h' : memo.flatterJoin middle right = true) : memo.flatterJoin left right = true := by
  unfold flatterJoin at *
  simp only [Bool.and_eq_true] at h h' ⊢
  obtain ⟨⟨hleft, _⟩, h⟩ := h
  obtain ⟨⟨_, hright⟩, h'⟩ := h'
  refine ⟨⟨hleft, hright⟩, ?_⟩
  cases hmine : memo.joinInputs? left with
  | none => simp [hmine] at h
  | some mine =>
      cases hbetween : memo.joinInputs? middle with
      | none => simp [hmine, hbetween] at h
      | some between =>
          cases htheirs : memo.joinInputs? right with
          | none => simp [htheirs, hbetween] at h'
          | some theirs =>
              simp only [hmine, hbetween, htheirs, Bool.and_eq_true, decide_eq_true_eq] at h h' ⊢
              exact ⟨⟨⟨h.1.1.1, h'.1.1.2⟩, Estimate.beq_trans h.1.2 h'.1.2⟩,
                UInt32.lt_trans h.2 h'.2⟩

/-- Whether a costing is preferred to another one that costs the same. -/
def prefers (memo : Memo) (left right : Costing) : Bool :=
  (Costing.distributionPreference? left right).getD (memo.flatterJoin left right)

theorem betterThan_eq : memo.betterThan left right =
    (left.cost.lowerThan right.cost || left.cost.near right.cost && memo.prefers left right) := rfl

/-- Between costings that deliver something, the one that spreads its rows further is preferred, then
the flatter join. -/
theorem prefers_iff {mine theirs : PlanProperties} (hmine : left.delivered = some mine)
    (htheirs : right.delivered = some theirs) :
    memo.prefers left right = true ↔ theirs.distribution.spread < mine.distribution.spread ∨
      mine.distribution.spread = theirs.distribution.spread ∧ memo.flatterJoin left right = true := by
  unfold prefers
  rw [Costing.distributionPreference?_eq hmine htheirs]
  split
  · rename_i hspread
    simp [hspread]
  · rename_i hspread
    simp [hspread]

theorem prefers_self : memo.prefers left left = false := by
  cases hmine : left.delivered with
  | none =>
      unfold prefers Costing.distributionPreference?
      rw [hmine]
      exact flatterJoin_self
  | some mine =>
      rw [Bool.eq_false_iff, ne_eq, prefers_iff hmine hmine]
      rintro (hspread | ⟨_, hflatter⟩)
      · exact Nat.lt_irrefl _ hspread
      · simp [flatterJoin_self] at hflatter

theorem flatterJoin_asymm (h : memo.flatterJoin left right = true) :
    memo.flatterJoin right left = false := by
  refine Bool.eq_false_iff.mpr fun h' => ?_
  simpa [flatterJoin_self] using flatterJoin_trans h h'

theorem prefers_asymm (h : memo.prefers left right = true) : memo.prefers right left = false := by
  cases hmine : left.delivered with
  | none =>
      unfold prefers Costing.distributionPreference? at h ⊢
      rw [hmine] at h ⊢
      cases hright : right.delivered <;> rw [hright] at h <;> exact flatterJoin_asymm h
  | some mine =>
      cases htheirs : right.delivered with
      | none =>
          unfold prefers Costing.distributionPreference? at h ⊢
          rw [hmine, htheirs] at h ⊢
          exact flatterJoin_asymm h
      | some theirs =>
          rw [prefers_iff hmine htheirs] at h
          rw [Bool.eq_false_iff, ne_eq, prefers_iff htheirs hmine]
          rintro (hspread | ⟨hspread, hflatter⟩)
          · omega
          · obtain hspread' | ⟨_, hflatter'⟩ := h
            · omega
            · simp [flatterJoin_asymm hflatter] at hflatter'

/-- What is preferred to a preferred costing is preferred. -/
theorem prefers_trans {mine between theirs : PlanProperties} (hmine : left.delivered = some mine)
    (hbetween : middle.delivered = some between) (htheirs : right.delivered = some theirs)
    (h : memo.prefers left middle = true) (h' : memo.prefers middle right = true) :
    memo.prefers left right = true := by
  rw [prefers_iff hmine hbetween] at h
  rw [prefers_iff hbetween htheirs] at h'
  rw [prefers_iff hmine htheirs]
  obtain hspread | ⟨hspread, hflatter⟩ := h <;> obtain hspread' | ⟨hspread', hflatter'⟩ := h'
  · exact .inl (hspread'.trans hspread)
  · exact .inl (hspread' ▸ hspread)
  · exact .inl (hspread ▸ hspread')
  · exact .inr ⟨hspread.trans hspread', flatterJoin_trans hflatter hflatter'⟩

/-- No costing is better than itself. -/
theorem betterThan_self : memo.betterThan left left = false := by
  rw [betterThan_eq, prefers_self, Bool.and_false, Bool.or_false, Bool.eq_false_iff]
  exact fun hlower => Estimate.not_lt_self (Cost.lt_of_lowerThan hlower)

theorem betterThan_iff : memo.betterThan left right = true ↔
    left.cost.total < right.cost.total ∧ left.cost.near right.cost = false ∨
      left.cost.near right.cost = true ∧ memo.prefers left right = true := by
  rw [betterThan_eq, Bool.or_eq_true, Bool.and_eq_true, Cost.lowerThan_iff]

/-- No two costings are better than each other. -/
theorem betterThan_asymm (h : memo.betterThan left right = true) :
    memo.betterThan right left = false := by
  refine Bool.eq_false_iff.mpr fun h' => ?_
  rw [betterThan_iff] at h h'
  rw [Cost.near_comm] at h'
  obtain ⟨hlower, hapart⟩ | ⟨hnear, hprefers⟩ := h <;>
    obtain ⟨hlower', hapart'⟩ | ⟨hnear', hprefers'⟩ := h'
  · exact Estimate.not_lt_self (Estimate.lt_of_lt_of_lt hlower hlower')
  · simp [hapart] at hnear'
  · simp [hnear] at hapart'
  · simp [prefers_asymm hprefers] at hprefers'

end Memo

/-- Costings that deliver something, among whose costs being near is transitive. -/
structure Costing.Steady (among : Costing → Prop) : Prop where
  delivers : ∀ costing, among costing → ∃ delivered, costing.delivered = some delivered
  near_trans : ∀ left middle right, among left → among middle → among right →
    left.cost.near middle.cost = true → middle.cost.near right.cost = true →
    left.cost.near right.cost = true

namespace Memo

variable {memo : Memo} {among : Costing → Prop} {left middle right : Costing}

/-- What is better than a better costing is better. -/
theorem betterThan_trans (h : Costing.Steady among) (hleft : among left) (hmiddle : among middle)
    (hright : among right) (hfirst : memo.betterThan left middle = true)
    (hsecond : memo.betterThan middle right = true) : memo.betterThan left right = true := by
  rw [betterThan_iff] at hfirst hsecond ⊢
  obtain ⟨hlower, hapart⟩ | ⟨hnear, hprefers⟩ := hfirst <;>
    obtain ⟨hlower', hapart'⟩ | ⟨hnear', hprefers'⟩ := hsecond
  · refine .inl ⟨Estimate.lt_of_lt_of_lt hlower hlower', Bool.eq_false_iff.mpr fun hnear => ?_⟩
    have hbetween := Cost.near_of_between (Estimate.le_of_lt hlower) (Estimate.le_of_lt hlower') hnear
    simp [hapart] at hbetween
  · refine .inl ⟨Cost.lt_of_lt_of_near hlower hapart hnear', Bool.eq_false_iff.mpr fun hnear => ?_⟩
    have hnear := h.near_trans _ _ _ hleft hright hmiddle hnear (Cost.near_comm.trans hnear')
    simp [hapart] at hnear
  · refine .inl ⟨Cost.lt_of_near_of_lt hnear hlower' hapart', Bool.eq_false_iff.mpr fun hnear' => ?_⟩
    have hnear := h.near_trans _ _ _ hmiddle hleft hright (Cost.near_comm.trans hnear) hnear'
    simp [hapart'] at hnear
  · obtain ⟨mine, hmine⟩ := h.delivers left hleft
    obtain ⟨between, hbetween⟩ := h.delivers middle hmiddle
    obtain ⟨theirs, htheirs⟩ := h.delivers right hright
    exact .inr ⟨h.near_trans _ _ _ hleft hmiddle hright hnear hnear',
      prefers_trans hmine hbetween htheirs hprefers hprefers'⟩

/-! ## Costings that are offered one after the other -/

/-- The costing that is left when some are offered one after the other, each replacing the best one so
far if it is better. -/
def survivor (memo : Memo) (first : Costing) (rest : List Costing) : Costing :=
  rest.foldl (fun best next => if memo.betterThan next best then next else best) first

theorem survivor_cons {first next : Costing} {rest : List Costing} :
    memo.survivor first (next :: rest) =
      memo.survivor (if memo.betterThan next first then next else first) rest := rfl

theorem survivor_mem (first : Costing) (rest : List Costing) :
    memo.survivor first rest ∈ first :: rest := by
  induction rest generalizing first with
  | nil => exact List.mem_singleton_self first
  | cons next rest ih =>
      rw [survivor_cons]
      split
      · exact List.mem_cons_of_mem _ (ih next)
      · obtain hfirst | hrest := List.mem_cons.mp (ih first)
        · rw [hfirst]
          exact List.mem_cons_self
        · exact List.mem_cons_of_mem _ (List.mem_cons_of_mem _ hrest)

/-- What is not better than the first one is not better than the one that is left, by induction on
those that come after. What replaces the best one so far is better, so what is better than the new one
would have been better than the old one. -/
theorem survivor_stays (h : Costing.Steady among) {costing first : Costing} {rest : List Costing}
    (hcosting : among costing) (hoffered : ∀ other ∈ first :: rest, among other)
    (hunbeaten : memo.betterThan costing first = false) :
    memo.betterThan costing (memo.survivor first rest) = false := by
  induction rest generalizing first with
  | nil => exact hunbeaten
  | cons next rest ih =>
      have hfirst : among first := hoffered first List.mem_cons_self
      have hnext : among next := hoffered next (by simp)
      have hrest (other : Costing) (hother : other ∈ rest) : among other :=
        hoffered other (by simp [hother])
      rw [survivor_cons]
      split
      · rename_i hbetter
        refine ih (by simpa [hnext] using hrest) (Bool.eq_false_iff.mpr fun hbest => ?_)
        simp [betterThan_trans h hcosting hnext hfirst hbest hbetter] at hunbeaten
      · exact ih (by simpa [hfirst] using hrest) hunbeaten

/-- No costing that was offered is better than the one that is left. -/
theorem survivor_unbeaten (h : Costing.Steady among) {costing first : Costing}
    {rest : List Costing} (hoffered : ∀ other ∈ first :: rest, among other)
    (hcosting : costing ∈ first :: rest) :
    memo.betterThan costing (memo.survivor first rest) = false := by
  induction rest generalizing first with
  | nil =>
      obtain rfl := List.mem_singleton.mp hcosting
      exact betterThan_self
  | cons next rest ih =>
      have hamong : among costing := hoffered costing hcosting
      have hfirst : among first := hoffered first List.mem_cons_self
      have hnext : among next := hoffered next (by simp)
      have hrest (other : Costing) (hother : other ∈ rest) : among other :=
        hoffered other (by simp [hother])
      rw [survivor_cons]
      split
      · rename_i hbetter
        have hoffered' : ∀ other ∈ next :: rest, among other := by simpa [hnext] using hrest
        obtain rfl | hlater := List.mem_cons.mp hcosting
        · exact survivor_stays h hamong hoffered' (betterThan_asymm hbetter)
        · exact ih hoffered' hlater
      · rename_i hkeeps
        have hoffered' : ∀ other ∈ first :: rest, among other := by simpa [hfirst] using hrest
        obtain rfl | hlater := List.mem_cons.mp hcosting
        · exact ih hoffered' List.mem_cons_self
        · obtain rfl | hlater := List.mem_cons.mp hlater
          · exact survivor_stays h hamong hoffered' (by simpa using hkeeps)
          · exact ih hoffered' (List.mem_cons_of_mem _ hlater)

/-- Being better is irreflexive and asymmetric for all costings. Among costings that deliver something
and of which two are near each other's cost whenever a third one is near both, it is transitive, no
costing is better than the one that is left when some are offered one after the other, and of those
that are left in two orders neither is better. -/
theorem betterThan_order (memo : Memo) :
    (∀ costing, memo.betterThan costing costing = false) ∧
    (∀ left right, ¬ (memo.betterThan left right = true ∧ memo.betterThan right left = true)) ∧
    ∀ among, Costing.Steady among →
      (∀ left middle right, among left → among middle → among right →
        memo.betterThan left middle = true → memo.betterThan middle right = true →
        memo.betterThan left right = true) ∧
      ∀ first rest, (∀ costing ∈ first :: rest, among costing) →
        (∀ costing ∈ first :: rest, memo.betterThan costing (memo.survivor first rest) = false) ∧
        ∀ first' rest', (first' :: rest').Perm (first :: rest) →
          memo.betterThan (memo.survivor first' rest') (memo.survivor first rest) = false ∧
          memo.betterThan (memo.survivor first rest) (memo.survivor first' rest') = false := by
  refine ⟨fun _ => betterThan_self, fun left right ⟨h, h'⟩ => ?_, fun among h => ⟨?_, ?_⟩⟩
  · simp [betterThan_asymm h] at h'
  · exact fun _ _ _ hleft hmiddle hright => betterThan_trans h hleft hmiddle hright
  · intro first rest hoffered
    refine ⟨fun _ => survivor_unbeaten h hoffered, fun first' rest' horder => ⟨?_, ?_⟩⟩
    · exact survivor_unbeaten h hoffered (horder.subset (survivor_mem first' rest'))
    · exact survivor_unbeaten h (fun other hother => hoffered other (horder.subset hother))
        (horder.symm.subset (survivor_mem first rest))

end Memo

/-! ## Where being near is not transitive -/

/-- A costing of one alternative that delivers its rows in the given way. -/
def Costing.delivering (distribution : Distribution) (cost : Cost) : Costing where
  expr := ⟨0⟩
  context := ⟨0⟩
  request := 0
  childContexts := []
  delivered := some { distribution }
  statistics := none
  cost
  pruned := false

namespace Memo

variable {memo : Memo} {low middle high : Cost}

theorem betterThan_of_spread {mine theirs : Distribution} {left right : Cost}
    (hnear : left.near right = true) (hspread : theirs.spread < mine.spread) :
    memo.betterThan (.delivering mine left) (.delivering theirs right) = true :=
  betterThan_iff.mpr (.inr ⟨hnear, (prefers_iff rfl rfl).mpr (.inl hspread)⟩)

/-- Of costs in a row, each near the next, the last one is lower than the first, and not near it. -/
theorem circle_of_lt (hhigh : high.near middle = true) (hlow : middle.near low = true)
    (hapart : low.near high = false) (hlower : low.total < high.total) :
    memo.betterThan (.delivering (.hashed [] false) high) (.delivering .random middle) = true ∧
      memo.betterThan (.delivering .random middle) (.delivering .singleton low) = true ∧
      memo.betterThan (.delivering .singleton low) (.delivering (.hashed [] false) high) = true :=
  ⟨betterThan_of_spread hhigh (by decide), betterThan_of_spread hlow (by decide),
    betterThan_iff.mpr (.inl ⟨hlower, hapart⟩)⟩

/-- Where the middle one of three costs is near both others, and these are not near each other, there
are costings with these costs that run in a circle. -/
theorem exists_circle (memo : Memo) (hlow : low.near middle = true)
    (hhigh : middle.near high = true) (hapart : low.near high = false) :
    ∃ first second third : Costing, second.cost = middle ∧
      (first.cost = high ∧ third.cost = low ∨ first.cost = low ∧ third.cost = high) ∧
      memo.betterThan first second = true ∧ memo.betterThan second third = true ∧
      memo.betterThan third first = true := by
  obtain ⟨hfinite, _⟩ := Cost.isFinite_of_near hlow
  obtain ⟨_, hfinite'⟩ := Cost.isFinite_of_near hhigh
  obtain hlower | hlower := Cost.lt_or_lt_of_not_near hfinite hfinite' hapart
  · exact ⟨_, _, _, rfl, .inl ⟨rfl, rfl⟩, circle_of_lt (Cost.near_comm.trans hhigh)
      (Cost.near_comm.trans hlow) hapart hlower⟩
  · exact ⟨_, _, _, rfl, .inr ⟨rfl, rfl⟩, circle_of_lt hlow hhigh
      (Cost.near_comm.trans hapart) hlower⟩

/-- A table whose scan is recorded for three requests: hashed, at random and on one host, each one unit
in the last place cheaper than the one before. -/
def wavering : Memo :=
  let access : TableAccess := { table := { id := 0, name := "", rows := 0 }, columns := [⟨0⟩] }
  let filled := (exec (Planning.insert (.logical (.get access)) [] none none) {}).2
  let opened := (exec (Planning.lookupOrCreateContext ⟨0⟩ {} 0) filled).2
  [(Distribution.hashed [] false, 0.5000000000000002), (.random, 0.5000000000000001),
    (.singleton, 0.5)].zipIdx.foldl (fun memo ((distribution, cost), request) =>
      (exec (Planning.insertCosting { Costing.delivering distribution ⟨cost⟩ with request }) memo).2)
    opened

/-- The hashed costing is better than the one at random, which is better than the one on one host, and
this one is better than the hashed one. -/
theorem wavering_circle :
    ∃ hashed random singleton, wavering.costing? ⟨0⟩ = some hashed ∧
      wavering.costing? ⟨1⟩ = some random ∧ wavering.costing? ⟨2⟩ = some singleton ∧
      (∀ costing ∈ [hashed, random, singleton], costing.pruned = false ∧
        costing.delivered.isSome = true ∧ costing.cost.total.isFinite = true) ∧
      wavering.betterThan hashed random = true ∧ wavering.betterThan random singleton = true ∧
      wavering.betterThan hashed singleton = false := by
  have hcheck : ((wavering.costing? ⟨0⟩).any fun hashed => (wavering.costing? ⟨1⟩).any fun random =>
      (wavering.costing? ⟨2⟩).any fun singleton =>
        ([hashed, random, singleton].all fun costing => !costing.pruned &&
          costing.delivered.isSome && costing.cost.total.isFinite) &&
        wavering.betterThan hashed random && wavering.betterThan random singleton &&
        !wavering.betterThan hashed singleton) = true := by
    decide +kernel
  simp only [Option.any_eq_true, Bool.and_eq_true, List.all_eq_true, Bool.not_eq_true'] at hcheck
  obtain ⟨hashed, hhashed, random, hrandom, singleton, hsingleton, ⟨⟨hall, hfirst⟩, hsecond⟩, hthird⟩ :=
    hcheck
  exact ⟨hashed, random, singleton, hhashed, hrandom, hsingleton,
    fun costing hcosting => and_assoc.mp (hall costing hcosting), hfirst, hsecond, hthird⟩

end Memo

end QueryPlanner
