import HypercubeSum.Run

/-!
# Outcomes of runs

What a run composed of steps leaves is read off its steps: a step that succeeds hands its value and
state on, and a step that fails ends the run with the state it left.
-/

namespace HypercubeSum

/-- A failing computation that succeeded has gone through its first step. -/
theorem bind_eq_ok {ε α β : Type} {step : Except ε α} {next : α → Except ε β} {value : β}
    (h : (step >>= next) = .ok value) : ∃ a, step = .ok a ∧ next a = .ok value := by
  cases step with
  | error fault => cases h
  | ok a => exact ⟨a, rfl, h⟩

theorem bind_of_eq_ok {ε α β : Type} {step : Except ε α} {next : α → Except ε β} {a : α}
    (h : step = .ok a) : (step >>= next) = next a := by
  rw [h]
  rfl

/-- Where a step succeeds on every item, with a property and an image of its value that are known,
it succeeds on the list. -/
theorem mapM_ok {ε α β γ : Type} (step : α → Except ε β) (items : List α) (P : β → Prop)
    (image : β → γ) (known : α → γ)
    (each : ∀ a ∈ items, ∃ b, step a = .ok b ∧ P b ∧ image b = known a) :
    ∃ results, items.mapM step = .ok results ∧ (∀ b ∈ results, P b) ∧
      results.map image = items.map known := by
  induction items with
  | nil => exact ⟨[], rfl, by simp, rfl⟩
  | cons a rest ih =>
    obtain ⟨b, first, holds, same⟩ := each a List.mem_cons_self
    obtain ⟨bs, others, hold, images⟩ := ih fun a later => each a (List.mem_cons_of_mem _ later)
    refine ⟨b :: bs, ?_, ?_, ?_⟩
    · rw [List.mapM_cons, first, others]
      rfl
    · intro c member
      rcases List.mem_cons.1 member with rfl | later
      · exact holds
      · exact hold c later
    · rw [List.map_cons, same, images, List.map_cons]

/-- Where its values are known, the results are their list. -/
theorem mapM_eq_ok {ε α β : Type} {step : α → Except ε β} {image : α → β} {items : List α}
    (each : ∀ a ∈ items, step a = .ok (image a)) : items.mapM step = .ok (items.map image) := by
  obtain ⟨results, done, -, images⟩ := mapM_ok step items (fun _ => True) id image
    fun a member => ⟨image a, each a member, trivial, rfl⟩
  rw [done, ← images, List.map_id]

theorem mapM_map_ok {ε α β γ : Type} {read : β → Except ε γ} {write : α → β} {image : α → γ}
    {items : List α} (each : ∀ a ∈ items, read (write a) = .ok (image a)) :
    (items.map write).mapM read = .ok (items.map image) := by
  rw [List.mapM_map]
  exact mapM_eq_ok each

/-- Values that are read back one by one are read back as a list. -/
theorem mapM_map_self {ε α β : Type} {read : β → Except ε α} {write : α → β} {items : List α}
    (each : ∀ a ∈ items, read (write a) = .ok a) : (items.map write).mapM read = .ok items := by
  have all : (items.map write).mapM read = .ok (items.map id) := mapM_map_ok each
  rwa [List.map_id] at all

/-- Where a step succeeds on a list, each result is that of an item. -/
theorem exists_of_mapM_eq_ok {ε α β : Type} {step : α → Except ε β} {items : List α}
    {results : List β} (h : items.mapM step = .ok results) :
    ∀ b ∈ results, ∃ a ∈ items, step a = .ok b := by
  induction items generalizing results with
  | nil =>
    cases h
    simp
  | cons a rest ih =>
    rw [List.mapM_cons] at h
    obtain ⟨first, here, h⟩ := bind_eq_ok h
    obtain ⟨others, later, h⟩ := bind_eq_ok h
    cases h
    intro b member
    rcases List.mem_cons.1 member with rfl | old
    · exact ⟨a, List.mem_cons_self, here⟩
    · obtain ⟨c, inside, same⟩ := ih later b old
      exact ⟨c, List.mem_cons_of_mem _ inside, same⟩

/-- And each item has a result. -/
theorem length_of_mapM_eq_ok {ε α β : Type} {step : α → Except ε β} {items : List α}
    {results : List β} (h : items.mapM step = .ok results) : results.length = items.length := by
  induction items generalizing results with
  | nil => cases h; rfl
  | cons a rest ih =>
    rw [List.mapM_cons] at h
    obtain ⟨first, -, h⟩ := bind_eq_ok h
    obtain ⟨others, later, h⟩ := bind_eq_ok h
    cases h
    rw [List.length_cons, ih later, List.length_cons]

/-- Items on which the step succeeds only add their results. -/
theorem mapM_append_of_ok {ε α β : Type} {step : α → Except ε β} {items extra : List α}
    {more : List β} (known : extra.mapM step = .ok more) :
    (items ++ extra).mapM step = (· ++ more) <$> items.mapM step := by
  rw [List.mapM_append, known]
  cases items.mapM step <;> rfl

/-- Whatever a computation fails with, an argument was invalid. -/
def Refuses {α : Type} (outcome : Except Fault α) : Prop :=
  ∀ fault, outcome = .error fault → fault.kind = .invalidArgument

namespace Refuses

variable {α β : Type}

theorem ok (value : α) : Refuses (.ok value) := by
  intro fault refused
  cases refused

theorem error {fault : Fault} (kind : fault.kind = .invalidArgument) :
    Refuses (.error fault : Except Fault α) := by
  intro other refused
  cases refused
  exact kind

theorem bind {step : Except Fault α} {next : α → Except Fault β} (first : Refuses step)
    (later : ∀ a, step = .ok a → Refuses (next a)) : Refuses (step >>= next) := by
  cases outcome : step with
  | error fault => exact error (first fault outcome)
  | ok a => exact later a outcome

/-- Without success there is a fault. -/
theorem error_iff {outcome : Except Fault α} (refuses : Refuses outcome) :
    (∃ fault, outcome = .error fault ∧ fault.kind = .invalidArgument) ↔
      ¬ ∃ value, outcome = .ok value := by
  cases outcome with
  | error fault => simpa using refuses fault rfl
  | ok value => simp

end Refuses

/-- Only a message that does not add up is a rejection. -/
theorem Fault.eq_roundRejected {fault : Fault} (kind : fault.kind = .rejection) :
    ∃ round, fault = .roundRejected round := by
  cases fault <;> first
    | exact ⟨_, rfl⟩
    | cases kind

namespace Run

variable {σ α β : Type} {state later : σ}

theorem start_bind (step : Run σ α) (next : α → Run σ β) :
    start (step >>= next) state =
      match start step state with
      | (.ok value, later) => start (next value) later
      | (.error fault, later) => (.error fault, later) := by
  unfold start
  simp only [ExceptT.run_bind, StateT.run_bind]
  rcases StateT.run (ExceptT.run step) state with ⟨outcome, later⟩
  cases outcome <;> rfl

@[simp] theorem start_pure (value : α) : start (pure value : Run σ α) state = (.ok value, state) :=
  rfl

@[simp] theorem start_throw (fault : Fault) :
    start (throw fault : Run σ α) state = (.error fault, state) := rfl

@[simp] theorem start_get : start (get : Run σ σ) state = (.ok state, state) := rfl

@[simp] theorem start_set : start (set later : Run σ PUnit) state = (.ok ⟨⟩, later) := rfl

@[simp] theorem start_lift (outcome : Except Fault α) :
    start (liftM outcome : Run σ α) state = (outcome, state) := rfl

@[simp] theorem start_map (f : α → β) (run : Run σ α) :
    start (f <$> run) state = (f <$> (start run state).1, (start run state).2) := by
  rw [map_eq_pure_bind, start_bind]
  rcases start run state with ⟨_ | _, later⟩ <;> rfl

theorem start_bind_ok {step : Run σ α} {next : α → Run σ β} {value : α}
    (first : start step state = (.ok value, later)) :
    start (step >>= next) state = start (next value) later := by
  rw [start_bind, first]

theorem outcome_bind_ok {step : Run σ α} {next : α → Run σ β} {value : α}
    (first : start step state = (.ok value, later)) :
    outcome (step >>= next) state = outcome (next value) later := by
  rw [outcome, start_bind_ok first, outcome]

/-- A step that fails ends the run. -/
theorem start_bind_error {step : Run σ α} {next : α → Run σ β} {fault : Fault}
    (first : start step state = (.error fault, later)) :
    start (step >>= next) state = (.error fault, later) := by
  rw [start_bind, first]

/-- A run that succeeded has gone through its first step. -/
theorem start_bind_eq_ok {step : Run σ α} {next : α → Run σ β} {value : β} {final : σ}
    (h : start (step >>= next) state = (.ok value, final)) :
    ∃ a middle, start step state = (.ok a, middle) ∧
      start (next a) middle = (.ok value, final) := by
  rw [start_bind] at h
  split at h
  next a middle first => exact ⟨a, middle, first, h⟩
  next => cases h

theorem start_of_outcome {run : Run σ α} {outcome : Except Fault α}
    (h : Run.outcome run state = outcome) : start run state = (outcome, (start run state).2) := by
  rw [← h]
  rfl

theorem outcome_eq_ok {run : Run σ α} {value : α} (h : start run state = (.ok value, later)) :
    outcome run state = .ok value := by
  rw [outcome, h]

/-- A run that always gives a value with a property gives as many as it is repeated. -/
theorem start_replicate {run : Run σ α} {property : α → Prop}
    (each : ∀ state, ∃ value later, start run state = (.ok value, later) ∧ property value)
    (count : Nat) (state : σ) :
    ∃ values later, start (replicate run count) state = (.ok values, later) ∧
      values.length = count ∧ ∀ value ∈ values, property value := by
  induction count generalizing state with
  | zero => exact ⟨[], state, rfl, rfl, by simp⟩
  | succ count ih =>
    obtain ⟨first, middle, here, right⟩ := each state
    obtain ⟨rest, later, others, length, known⟩ := ih middle
    refine ⟨first :: rest, later, ?_, by rw [List.length_cons, length], ?_⟩
    · rw [replicate, start_bind_ok here, start_bind_ok others]
      rfl
    · intro value member
      rcases List.mem_cons.1 member with rfl | old
      · exact right
      · exact known value old

/-- From every state, a run gives a value with a property or refuses an argument. -/
def Gives (run : Run σ α) (property : α → Prop) : Prop :=
  ∀ state, Refuses (outcome run state) ∧ ∀ value, outcome run state = .ok value → property value

namespace Gives

variable {run : Run σ α} {property : α → Prop}

theorem lift {outcome : Except Fault α} (refuses : Refuses outcome)
    (right : ∀ value, outcome = .ok value → property value) :
    Gives (liftM outcome : Run σ α) property := fun _ => ⟨refuses, right⟩

theorem of_start
    (each : ∀ state, ∃ value later, start run state = (.ok value, later) ∧ property value) :
    Gives run property := by
  intro state
  obtain ⟨value, later, ended, right⟩ := each state
  rw [outcome_eq_ok ended]
  refine ⟨.ok value, fun other same => ?_⟩
  cases same
  exact right

theorem pure {value : α} (right : property value) : Gives (pure value : Run σ α) property := by
  refine lift (.ok value) fun other same => ?_
  cases same
  exact right

theorem modifyGet {change : σ → α × σ} (right : ∀ state, property (change state).1) :
    Gives (modifyGet change : Run σ α) property := by
  refine fun state => ⟨.ok (change state).1, fun value same => ?_⟩
  cases same
  exact right state

theorem bind {next : α → Run σ β} {goal : β → Prop} (first : Gives run property)
    (later : ∀ a, property a → Gives (next a) goal) : Gives (run >>= next) goal := by
  intro state
  obtain ⟨refuses, right⟩ := first state
  unfold outcome at *
  rw [start_bind]
  rcases ended : start run state with ⟨fault | a, middle⟩
  · rw [ended] at refuses
    refine ⟨.error (refuses fault rfl), fun value same => ?_⟩
    cases same
  · rw [ended] at right
    exact later a (right a rfl) middle

/-- What one run gives, repeated runs give in a list. -/
theorem replicate (gives : Gives run property) (count : Nat) :
    Gives (Run.replicate run count) fun values => ∀ value ∈ values, property value := by
  induction count with
  | zero => exact pure (by simp)
  | succ count ih =>
    refine gives.bind fun first here => ih.bind fun rest others => pure fun value member => ?_
    rcases List.mem_cons.1 member with rfl | later
    · exact here
    · exact others value later

end Gives

end Run

end HypercubeSum
