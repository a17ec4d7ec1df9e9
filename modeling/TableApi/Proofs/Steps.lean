import TableApi.Fault

/-!
# Taking a computation apart

Everything that may fail is a chain of steps, some of which also change a state.
`ok_of_bind` opens a chain without a state; `outcome` is what a chain with one
comes to, and its lemmas say the same for it: a chain succeeds when each of its
steps does (`outcome_bind_ok`), and otherwise ends with the first that fails, in the
state that this step leaves (`outcome_bind`). `FailsOnly` bounds the faults of a chain by
those of its steps.
-/

namespace TableApi

/-- A chain succeeds only when its first step and the rest do. -/
theorem ok_of_bind {ε α β : Type} {first : Except ε α} {rest : α → Except ε β} {result : β}
    (h : first >>= rest = .ok result) : ∃ value, first = .ok value ∧ rest value = .ok result := by
  cases first with
  | error fault => cases h
  | ok value => exact ⟨value, rfl, h⟩

/-- A chain succeeds exactly when its first step and the rest do. -/
theorem bind_ok_iff {ε α β : Type} {first : Except ε α} {rest : α → Except ε β} {result : β} :
    first >>= rest = .ok result ↔ ∃ value, first = .ok value ∧ rest value = .ok result := by
  constructor
  · exact ok_of_bind
  · rintro ⟨value, hfirst, hrest⟩
    rw [hfirst]
    exact hrest

/-- A chain fails when its first step fails, or else when the rest does. -/
theorem error_of_bind {ε α β : Type} {first : Except ε α} {rest : α → Except ε β} {fault : ε}
    (h : first >>= rest = .error fault) :
    first = .error fault ∨ ∃ value, first = .ok value ∧ rest value = .error fault := by
  cases first with
  | error own =>
    cases h
    exact .inl rfl
  | ok value => exact .inr ⟨value, rfl, h⟩

/-- Checks that are made one after another all succeed when each of them does. -/
theorem forM_ok_iff {ε α : Type} {items : List α} {check : α → Except ε Unit} :
    items.forM check = .ok () ↔ ∀ item ∈ items, check item = .ok () := by
  induction items with
  | nil =>
    constructor
    · intro _ item hitem
      cases hitem
    · intro _
      rfl
  | cons item rest ih =>
    rw [List.forall_mem_cons, ← ih]
    constructor
    · intro h
      obtain ⟨_, hitem, hrest⟩ := ok_of_bind h
      exact ⟨hitem, hrest⟩
    · rintro ⟨hitem, hrest⟩
      show (check item >>= fun _ => rest.forM check) = .ok ()
      rw [hitem]
      exact hrest

theorem eq_ok_get {ε α : Type} {x : Except ε α} (h : x.toOption.isSome) :
    x = .ok (x.toOption.get h) := by
  cases x with
  | error fault => cases h
  | ok value => rfl

/-- A fault can be told without a look at what success would give. -/
theorem eq_error_of_map {ε α : Type} {x : Except ε α} {fault : ε}
    (h : x.map (fun _ => ()) = .error fault) : x = .error fault := by
  cases x with
  | error own => exact congrArg _ (Except.error.inj h)
  | ok value => cases h

/-- Every fault that a computation may end with is of a kind. -/
def FailsOnly {ε α : Type} (kind : ε → Prop) (step : Except ε α) : Prop :=
  ∀ fault, step = .error fault → kind fault

namespace FailsOnly

variable {ε α β : Type} {kind other : ε → Prop}

theorem ok (value : α) : FailsOnly kind (.ok value) := by
  intro fault h
  cases h

theorem error {fault : ε} (h : kind fault) : FailsOnly (α := α) kind (.error fault) := by
  intro own hown
  cases hown
  exact h

/-- What fails in few ways fails in these and others. -/
theorem mono {step : Except ε α} (h : FailsOnly kind step)
    (hle : ∀ fault, kind fault → other fault) : FailsOnly other step :=
  fun fault hfault => hle fault (h fault hfault)

/-- A chain fails as one of its steps does. -/
theorem bind {first : Except ε α} {rest : α → Except ε β} (h : FailsOnly kind first)
    (hrest : ∀ value, first = .ok value → FailsOnly kind (rest value)) :
    FailsOnly kind (first >>= rest) := by
  intro fault hfault
  rcases error_of_bind hfault with hfirst | ⟨value, hvalue, hlater⟩
  · exact h fault hfirst
  · exact hrest value hvalue fault hlater

theorem mapM {items : List α} {step : α → Except ε β}
    (h : ∀ item ∈ items, FailsOnly kind (step item)) : FailsOnly kind (items.mapM step) := by
  induction items with
  | nil => exact ok []
  | cons item rest ih =>
    obtain ⟨hitem, hrest⟩ := List.forall_mem_cons.1 h
    rw [List.mapM_cons]
    exact bind hitem fun _ _ => bind (ih hrest) fun _ _ => ok _

end FailsOnly

section Outcome

variable {ε σ α β : Type}

/-- What a computation with a state comes to when it starts in a state. -/
def outcome (action : ExceptT ε (StateM σ) α) (start : σ) : Except ε α × σ :=
  action.run.run start

@[simp] theorem outcome_pure (value : α) (start : σ) :
    outcome (pure value : ExceptT ε (StateM σ) α) start = (.ok value, start) := rfl

@[simp] theorem outcome_throw (fault : ε) (start : σ) :
    outcome (throw fault : ExceptT ε (StateM σ) α) start = (.error fault, start) := rfl

/-- A step of the state alone always succeeds. -/
@[simp] theorem outcome_lift (step : StateM σ α) (start : σ) :
    outcome (ExceptT.lift step : ExceptT ε (StateM σ) α) start =
      (.ok (step.run start).1, (step.run start).2) := rfl

/-- A step without a state leaves the state as it is. -/
@[simp] theorem outcome_liftExcept (step : Except ε α) (start : σ) :
    outcome (liftM step : ExceptT ε (StateM σ) α) start = (step, start) := rfl

/-- A chain goes on from where its first step succeeds and stops where it fails. -/
theorem outcome_bind (first : ExceptT ε (StateM σ) α) (rest : α → ExceptT ε (StateM σ) β)
    (start : σ) :
    outcome (first >>= rest) start = match outcome first start with
      | (.ok value, middle) => outcome (rest value) middle
      | (.error fault, middle) => (.error fault, middle) := by
  simp only [outcome, ExceptT.run_bind, StateT.run_bind]
  rcases StateT.run (ExceptT.run first) start with ⟨_ | _, _⟩ <;> rfl

theorem outcome_bind_of_ok {first : ExceptT ε (StateM σ) α} {rest : α → ExceptT ε (StateM σ) β}
    {start middle : σ} {value : α} (h : outcome first start = (.ok value, middle)) :
    outcome (first >>= rest) start = outcome (rest value) middle := by
  rw [outcome_bind, h]

theorem outcome_bind_of_error {first : ExceptT ε (StateM σ) α}
    {rest : α → ExceptT ε (StateM σ) β} {start middle : σ} {fault : ε}
    (h : outcome first start = (.error fault, middle)) :
    outcome (first >>= rest) start = (.error fault, middle) := by
  rw [outcome_bind, h]

/-- A chain that succeeds. -/
theorem outcome_bind_ok {first : ExceptT ε (StateM σ) α} {rest : α → ExceptT ε (StateM σ) β}
    {start final : σ} {result : β} :
    outcome (first >>= rest) start = (.ok result, final) ↔
      ∃ value middle, outcome first start = (.ok value, middle) ∧
        outcome (rest value) middle = (.ok result, final) := by
  rw [outcome_bind]
  rcases outcome first start with ⟨fault | value, middle⟩
  · simp
  · constructor
    · intro h
      exact ⟨value, middle, rfl, h⟩
    · rintro ⟨_, _, heq, h⟩
      cases heq
      exact h

/-- A chain with a state fails as one of its steps does. -/
theorem failsOnly_outcome_bind {kind : ε → Prop} {first : ExceptT ε (StateM σ) α}
    {rest : α → ExceptT ε (StateM σ) β} {start : σ} (h : FailsOnly kind (outcome first start).1)
    (hrest : ∀ value middle, outcome first start = (.ok value, middle) →
      FailsOnly kind (outcome (rest value) middle).1) :
    FailsOnly kind (outcome (first >>= rest) start).1 := by
  rw [outcome_bind]
  rcases hfirst : outcome first start with ⟨fault | value, middle⟩
  · rw [hfirst] at h
    exact .error (h fault rfl)
  · exact hrest value middle hfirst

/-- So does a chain that begins with a step without a state. -/
theorem failsOnly_outcome_except {kind : ε → Prop} {step : Except ε α}
    {rest : α → ExceptT ε (StateM σ) β} {start : σ} (h : FailsOnly kind step)
    (hrest : ∀ value, step = .ok value → FailsOnly kind (outcome (rest value) start).1) :
    FailsOnly kind (outcome (liftM step >>= rest) start).1 := by
  refine failsOnly_outcome_bind h fun value middle hstep => ?_
  rw [outcome_liftExcept, Prod.mk.injEq] at hstep
  obtain ⟨hvalue, rfl⟩ := hstep
  exact hrest value hvalue

end Outcome

end TableApi
