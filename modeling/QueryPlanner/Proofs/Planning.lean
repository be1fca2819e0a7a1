import Mathlib.Data.List.Forall2
import Mathlib.Order.Defs.Unbundled
import QueryPlanner.Memo.Basic

/-!
# Reasoning about computations on a state

`Planning.exec` runs a computation. `Planning.Post` says what holds of its outcome and of the state
it leaves, whether it succeeds or fails; a computation that cannot fail has `False` on the side of
failures. `Planning.Keeps` says that a computation, however it ends, only moves the state along a
relation. The rules follow the way computations are put together, loops with an invariant that
every round keeps. The state is the memo, or that of a search.
-/

namespace QueryPlanner.Planning

variable {α β σ : Type}

/-- A computation on a state that may fail. -/
abbrev Fallible (σ α : Type) := ExceptT PlanningError (StateM σ) α

/-- The outcome of a computation, and the state it leaves. -/
def exec (action : Fallible σ α) (state : σ) : Except PlanningError α × σ := action state

/-- The second computation starts from the state that the first one leaves. -/
theorem exec_bind (action : Fallible σ α) (next : α → Fallible σ β) (state : σ) :
    exec (action >>= next) state =
      match exec action state with
      | (.ok value, middle) => exec (next value) middle
      | (.error error, middle) => (.error error, middle) := by
  show (match action state with | (outcome, middle) => ExceptT.bindCont next outcome middle) = _
  unfold exec
  cases action state with
  | mk outcome middle => cases outcome <;> rfl

/-- What holds after a computation: `ok` of its value and the state it leaves when it succeeds,
`fail` of the error and that state when it fails. -/
def Post (action : Fallible σ α) (state : σ) (ok : α → σ → Prop)
    (fail : PlanningError → σ → Prop) : Prop :=
  match exec action state with
  | (.ok value, final) => ok value final
  | (.error error, final) => fail error final

namespace Post

variable {state : σ} {ok : α → σ → Prop} {fail : PlanningError → σ → Prop}

theorem pure {value : α} (h : ok value state) : Post (pure value) state ok fail := h

theorem throw {error : PlanningError} (h : fail error state) :
    Post (throw error : Fallible σ α) state ok fail := h

theorem get {ok : σ → σ → Prop} (h : ok state state) : Post get state ok fail := h

theorem set {next : σ} {ok : PUnit → σ → Prop} (h : ok ⟨⟩ next) :
    Post (set next) state ok fail := h

theorem modify {change : σ → σ} {ok : PUnit → σ → Prop} (h : ok ⟨⟩ (change state)) :
    Post (modify change) state ok fail := h

/-- Weaker statements hold after a computation as well. -/
theorem mono {action : Fallible σ α} {ok' : α → σ → Prop} {fail' : PlanningError → σ → Prop}
    (h : Post action state ok fail) (hok : ∀ value final, ok value final → ok' value final)
    (hfail : ∀ error final, fail error final → fail' error final) :
    Post action state ok' fail' := by
  unfold Post at *
  generalize exec action state = result at *
  obtain ⟨error | value, final⟩ := result
  · exact hfail _ _ h
  · exact hok _ _ h

/-- Two statements that hold after a computation hold together. -/
theorem both {action : Fallible σ α} {ok' : α → σ → Prop} {fail' : PlanningError → σ → Prop}
    (h : Post action state ok fail) (h' : Post action state ok' fail') :
    Post action state (fun value final => ok value final ∧ ok' value final)
      (fun error final => fail error final ∧ fail' error final) := by
  unfold Post at *
  generalize exec action state = result at *
  obtain ⟨error | value, final⟩ := result <;> exact ⟨h, h'⟩

/-- What holds after a computation for each of several instances holds for all of them. -/
theorem all {ι : Type} {premise : ι → Prop} {action : Fallible σ α} {ok' : ι → σ → Prop}
    (h : ∀ index, premise index →
      Post action state (fun _ => ok' index) (fun _ => ok' index)) :
    Post action state (fun _ final => ∀ index, premise index → ok' index final)
      (fun _ final => ∀ index, premise index → ok' index final) := by
  unfold Post at *
  generalize exec action state = result at *
  obtain ⟨error | value, final⟩ := result <;> exact h

/-- Two computations one after the other. -/
theorem bind {action : Fallible σ α} {next : α → Fallible σ β} {ok : β → σ → Prop}
    (h : Post action state (fun value middle => Post (next value) middle ok fail) fail) :
    Post (action >>= next) state ok fail := by
  unfold Post at *
  rw [exec_bind]
  generalize exec action state = result at *
  obtain ⟨error | value, middle⟩ := result <;> exact h

/-- Two computations one after the other, the first one known by what holds after it. -/
theorem andThen {action : Fallible σ α} {next : α → Fallible σ β} {middleOk : α → σ → Prop}
    {middleFail : PlanningError → σ → Prop} {ok : β → σ → Prop}
    (h : Post action state middleOk middleFail)
    (hfail : ∀ error middle, middleFail error middle → fail error middle)
    (hnext : ∀ value middle, middleOk value middle → Post (next value) middle ok fail) :
    Post (action >>= next) state ok fail :=
  bind (h.mono hnext hfail)

/-- The value of a computation is changed by a function. -/
theorem map {action : Fallible σ α} {change : α → β} {ok : β → σ → Prop}
    (h : Post action state (fun value => ok (change value)) fail) :
    Post (change <$> action) state ok fail := by
  rw [map_eq_pure_bind]
  exact bind (h.mono (fun _ _ hok => hok) (fun _ _ hfail => hfail))

/-- A handler goes on from the state that a failure leaves. -/
theorem tryCatch {action : Fallible σ α} {handler : PlanningError → Fallible σ α}
    (h : Post action state ok fun error middle => Post (handler error) middle ok fail) :
    Post (tryCatch action handler) state ok fail := by
  have hexec : exec (MonadExcept.tryCatch action handler) state =
      match exec action state with
      | (.ok value, middle) => (.ok value, middle)
      | (.error error, middle) => exec (handler error) middle := by
    unfold exec
    simp only [MonadExcept.tryCatch, tryCatchThe, MonadExceptOf.tryCatch, ExceptT.tryCatch,
      ExceptT.mk, Bind.bind, StateT.bind]
    cases action state with
    | mk outcome middle => cases outcome <;> rfl
  unfold Post at *
  rw [hexec]
  generalize exec action state = result at *
  obtain ⟨error | value, middle⟩ := result <;> exact h

/-- A loop over a list keeps an invariant that every round keeps. -/
theorem forM {items : List α} {body : α → Fallible σ PUnit} (inv : σ → Prop)
    (hstart : inv state)
    (hround : ∀ item ∈ items, ∀ current, inv current →
      Post (body item) current (fun _ => inv) fail) :
    Post (items.forM body) state (fun _ => inv) fail := by
  induction items generalizing state with
  | nil => exact hstart
  | cons item rest ih =>
      refine bind ((hround item (by simp) state hstart).mono (fun _ middle hmiddle => ?_)
        (fun _ _ h => h))
      exact ih hmiddle (fun other hother => hround other (by simp [hother]))

/-- A loop that accumulates a value keeps an invariant of the items seen so far, the value and the
state that every round extends by its item. -/
theorem foldlM_seen {items : List α} {body : β → α → Fallible σ β} {start : β}
    (inv : List α → β → σ → Prop) (seen : List α) (hstart : inv seen start state)
    (hround : ∀ seen found, ∀ item ∈ items, ∀ current, inv seen found current →
      Post (body found item) current (inv (seen ++ [item])) fail) :
    Post (items.foldlM body start) state (inv (seen ++ items)) fail := by
  induction items generalizing state start seen with
  | nil => rwa [List.append_nil]
  | cons item rest ih =>
      rw [List.foldlM_cons, List.append_cons]
      refine bind ((hround seen start item (by simp) state hstart).mono
        (fun found middle hmiddle => ?_) (fun _ _ h => h))
      exact ih _ hmiddle (fun seen found other hother => hround seen found other (by simp [hother]))

/-- A loop that accumulates a value keeps an invariant of state and value that every round keeps. -/
theorem foldlM {items : List α} {body : β → α → Fallible σ β} {start : β}
    (inv : β → σ → Prop) (hstart : inv start state)
    (hround : ∀ found, ∀ item ∈ items, ∀ current, inv found current →
      Post (body found item) current inv fail) :
    Post (items.foldlM body start) state inv fail :=
  foldlM_seen (fun _ => inv) [] hstart fun _ => hround

/-- Applying a computation to every element of a list: an invariant that every round keeps, and a
relation between the elements and the values found. -/
theorem mapM {items : List α} {body : α → Fallible σ β} (inv : σ → Prop)
    (found : α → β → Prop) (hstart : inv state)
    (hround : ∀ item ∈ items, ∀ current, inv current →
      Post (body item) current (fun value final => inv final ∧ found item value) fail) :
    Post (items.mapM body) state
      (fun values final => inv final ∧ List.Forall₂ found items values) fail := by
  induction items generalizing state with
  | nil => exact ⟨hstart, .nil⟩
  | cons item rest ih =>
      rw [List.mapM_cons]
      refine bind ((hround item (by simp) state hstart).mono (fun value middle h => ?_)
        (fun _ _ h => h))
      refine bind ((ih h.1 (fun other hother => hround other (by simp [hother]))).mono
        (fun values final hrest => ?_) (fun _ _ h => h))
      exact ⟨hrest.1, .cons h.2 hrest.2⟩

/-- What is known after a computation is known of its result. -/
theorem exists_exec {action : Fallible σ α} (h : Post action state ok fail) :
    (∃ value final, exec action state = (.ok value, final) ∧ ok value final) ∨
      ∃ error final, exec action state = (.error error, final) ∧ fail error final := by
  unfold Post at h
  generalize exec action state = result at *
  obtain ⟨error | value, final⟩ := result
  · exact .inr ⟨error, final, rfl, h⟩
  · exact .inl ⟨value, final, rfl, h⟩

/-- What is known of a success, when the computation succeeds. -/
theorem of_ok {action : Fallible σ α} (h : Post action state ok fail) {value : α} {final : σ}
    (hexec : exec action state = (.ok value, final)) : ok value final := by
  unfold Post at h
  rwa [hexec] at h

/-- What is known of both outcomes of a computation. -/
theorem of_exec {action : Fallible σ α}
    (hok : ∀ value final, exec action state = (.ok value, final) → ok value final)
    (hfail : ∀ error final, exec action state = (.error error, final) → fail error final) :
    Post action state ok fail := by
  unfold Post
  generalize exec action state = result at *
  obtain ⟨error | value, final⟩ := result
  · exact hfail _ _ rfl
  · exact hok _ _ rfl

/-- What both outcomes of a computation leave is what it leaves. -/
theorem exec_snd {action : Fallible σ α} {P : σ → Prop}
    (h : Post action state (fun _ => P) (fun _ => P)) : P (exec action state).2 := by
  obtain ⟨value, final, hexec, hfinal⟩ | ⟨error, final, hexec, hfinal⟩ := h.exists_exec <;>
    rw [hexec] <;> exact hfinal

end Post

/-- However the computation ends, the state it leaves is related to the one it started from. -/
def Keeps (R : σ → σ → Prop) (action : Fallible σ α) : Prop :=
  ∀ state, Post action state (fun _ final => R state final) (fun _ final => R state final)

namespace Keeps

variable {R : σ → σ → Prop}

/-- A computation that moves the state along a relation moves it along a wider one. -/
theorem mono {R' : σ → σ → Prop} {action : Fallible σ α} (h : Keeps R action)
    (hwider : ∀ state final, R state final → R' state final) : Keeps R' action := fun state =>
  (h state).mono (fun _ final hfinal => hwider state final hfinal)
    (fun _ final hfinal => hwider state final hfinal)

/-- A relation that holds of the computation whenever it starts from a state with some property. -/
theorem whenever {P : σ → Prop} {S : σ → σ → Prop} {action : Fallible σ α}
    (h : ∀ state, P state → Post action state (fun _ => S state) (fun _ => S state)) :
    Keeps (fun state final => P state → S state final) action := by
  intro state
  by_cases hstate : P state
  · exact (h state hstate).mono (fun _ _ hfinal _ => hfinal) fun _ _ hfinal _ => hfinal
  · exact Post.of_exec (fun _ _ _ h' => absurd h' hstate) fun _ _ _ h' => absurd h' hstate

/-- A relation that allows for running the computation. -/
theorem of_exec {action : Fallible σ α} (h : ∀ state, R state (exec action state).2) :
    Keeps R action := by
  intro state
  have hstate := h state
  refine Post.of_exec (fun _ _ hexec => ?_) fun _ _ hexec => ?_ <;> rwa [hexec] at hstate

theorem pure [Std.Refl R] {value : α} : Keeps R (pure value) := fun state => Std.Refl.refl state

theorem throw [Std.Refl R] {error : PlanningError} : Keeps R (throw error : Fallible σ α) :=
  fun state => Std.Refl.refl state

theorem get [Std.Refl R] : Keeps R get := fun state => Std.Refl.refl state

theorem modify {change : σ → σ} (h : ∀ state, R state (change state)) :
    Keeps R (modify change) := fun state => h state

/-- What the computation does may depend on the whole state. -/
theorem getThen {next : σ → Fallible σ β}
    (h : ∀ state, Post (next state) state (fun _ final => R state final)
      (fun _ final => R state final)) :
    Keeps R (MonadState.get >>= next) := fun state => Post.bind (h state)

theorem bind [IsTrans σ R] {action : Fallible σ α} {next : α → Fallible σ β}
    (h : Keeps R action) (hnext : ∀ value, Keeps R (next value)) : Keeps R (action >>= next) := by
  intro state
  refine (h state).andThen (fun _ _ hfail => hfail) (fun value middle hmiddle => ?_)
  exact (hnext value middle).mono (fun _ _ hfinal => IsTrans.trans _ _ _ hmiddle hfinal)
    (fun _ _ hfinal => IsTrans.trans _ _ _ hmiddle hfinal)

theorem map {action : Fallible σ α} {change : α → β} (h : Keeps R action) :
    Keeps R (change <$> action) := fun state => Post.map (h state)

theorem tryCatch [IsTrans σ R] {action : Fallible σ α} {handler : PlanningError → Fallible σ α}
    (h : Keeps R action) (hhandler : ∀ error, Keeps R (handler error)) :
    Keeps R (tryCatch action handler) := by
  intro state
  refine Post.tryCatch ((h state).mono (fun _ _ hok => hok) (fun error middle hmiddle => ?_))
  exact (hhandler error middle).mono (fun _ _ hfinal => IsTrans.trans _ _ _ hmiddle hfinal)
    (fun _ _ hfinal => IsTrans.trans _ _ _ hmiddle hfinal)

theorem forM [Std.Refl R] [IsTrans σ R] {items : List α} {body : α → Fallible σ PUnit}
    (h : ∀ item ∈ items, Keeps R (body item)) : Keeps R (items.forM body) := by
  intro state
  refine Post.forM _ (Std.Refl.refl state) (fun item hitem current hcurrent => ?_)
  exact (h item hitem current).mono (fun _ _ hfinal => IsTrans.trans _ _ _ hcurrent hfinal)
    (fun _ _ hfinal => IsTrans.trans _ _ _ hcurrent hfinal)

theorem foldlM [Std.Refl R] [IsTrans σ R] {items : List α} {body : β → α → Fallible σ β}
    {start : β} (h : ∀ found, ∀ item ∈ items, Keeps R (body found item)) :
    Keeps R (items.foldlM body start) := by
  intro state
  refine Post.foldlM (fun _ => R state) (Std.Refl.refl state)
    (fun found item hitem current hcurrent => ?_)
  exact (h found item hitem current).mono (fun _ _ hfinal => IsTrans.trans _ _ _ hcurrent hfinal)
    (fun _ _ hfinal => IsTrans.trans _ _ _ hcurrent hfinal)

theorem mapM [Std.Refl R] [IsTrans σ R] {items : List α} {body : α → Fallible σ β}
    (h : ∀ item ∈ items, Keeps R (body item)) : Keeps R (items.mapM body) := by
  intro state
  refine (Post.mapM (R state) (fun _ _ => True) (Std.Refl.refl state)
    (fun item hitem current hcurrent => ?_)).mono (fun _ _ h => h.1) (fun _ _ h => h)
  exact (h item hitem current).mono
    (fun _ _ hfinal => ⟨IsTrans.trans _ _ _ hcurrent hfinal, trivial⟩)
    (fun _ _ hfinal => IsTrans.trans _ _ _ hcurrent hfinal)

end Keeps

/-- However the computation ends, the state it leaves is related to the one it started from, and what
it answers is good there. -/
def Answers (R : σ → σ → Prop) (good : α → σ → Prop) (action : Fallible σ α) : Prop :=
  ∀ state, Post action state (fun value final => R state final ∧ good value final)
    (fun _ final => R state final)

namespace Answers

variable {R : σ → σ → Prop} {good : β → σ → Prop}

theorem keeps {action : Fallible σ β} (h : Answers R good action) : Keeps R action := fun state =>
  (h state).mono (fun _ _ hfinal => hfinal.1) fun _ _ hfinal => hfinal

theorem pure [Std.Refl R] {value : β} (h : ∀ state, good value state) :
    Answers R good (pure value) := fun state => Post.pure ⟨Std.Refl.refl state, h state⟩

/-- A computation that keeps the relation may come before. -/
theorem after [IsTrans σ R] {action : Fallible σ α} {next : α → Fallible σ β} (h : Keeps R action)
    (hnext : ∀ value, Answers R good (next value)) : Answers R good (action >>= next) := by
  intro state
  refine (h state).andThen (fun _ _ hfail => hfail) fun value middle hmiddle => ?_
  exact (hnext value middle).mono
    (fun _ _ hfinal => ⟨IsTrans.trans _ _ _ hmiddle hfinal.1, hfinal.2⟩)
    fun _ _ hfinal => IsTrans.trans _ _ _ hmiddle hfinal

end Answers

/-- A check of the value of a computation that passes shows that there is one. -/
theorem exists_ok_of_any {result : Except PlanningError α} {check : α → Bool}
    (h : result.toOption.any check = true) : ∃ value, result = .ok value ∧ check value = true := by
  cases result with
  | error _ => simp [Except.toOption] at h
  | ok value => exact ⟨value, rfl, h⟩

/-! ## Look-ups by identifier -/

section LookUps

variable {memo : Memo} {ok : α → Memo → Prop} {fail : PlanningError → Memo → Prop}

/-- A look-up gives what is found, and fails without a trace otherwise. -/
theorem Post.found {id : UnknownId} {result : Option α}
    (hsome : ∀ value, result = some value → ok value memo)
    (hnone : result = none → fail (.unknownId id) memo) :
    Post (found id result) memo ok fail := by
  cases result with
  | none => exact hnone rfl
  | some value => exact hsome value rfl

theorem Post.group {id : GroupId} {ok : Group → Memo → Prop}
    (hsome : ∀ found, memo.group? id = some found → ok found memo)
    (hnone : memo.group? id = none → fail (.unknownId (.group id)) memo) :
    Post (Planning.group id) memo ok fail :=
  Post.bind (Post.found hsome hnone)

theorem Post.expr {id : ExprId} {ok : MemoExpr → Memo → Prop}
    (hsome : ∀ found, memo.expr? id = some found → ok found memo)
    (hnone : memo.expr? id = none → fail (.unknownId (.expr id)) memo) :
    Post (Planning.expr id) memo ok fail :=
  Post.bind (Post.found hsome hnone)

theorem Post.context {id : ContextId} {ok : Context → Memo → Prop}
    (hsome : ∀ found, memo.context? id = some found → ok found memo)
    (hnone : memo.context? id = none → fail (.unknownId (.context id)) memo) :
    Post (Planning.context id) memo ok fail :=
  Post.bind (Post.found hsome hnone)

theorem Post.costing {id : CostingId} {ok : Costing → Memo → Prop}
    (hsome : ∀ found, memo.costing? id = some found → ok found memo)
    (hnone : memo.costing? id = none → fail (.unknownId (.costing id)) memo) :
    Post (Planning.costing id) memo ok fail :=
  Post.bind (Post.found hsome hnone)

theorem Post.checkAbort {aborted : Bool} {ok : Unit → Memo → Prop}
    (hgo : aborted = false → ok () memo) (hstop : aborted = true → fail .aborted memo) :
    Post (checkAbort aborted) memo ok fail := by
  cases aborted with
  | true => exact hstop rfl
  | false => exact hgo rfl

end LookUps

-- from here on a computation is followed by the rules and not by running it
attribute [irreducible] Post

end QueryPlanner.Planning
