import Mathlib.Data.List.Basic

/-! Runs of a machine that takes one input after the other. A run is the list of its
inputs; what holds in every state of it follows from what each of its steps keeps. -/

namespace Machine
open List

variable {σ ι : Type*} (step : σ → ι → σ)

def run (s : σ) (inputs : List ι) : σ := inputs.foldl step s

/-- `holds` is true at the start, after each step and at the end. -/
def EveryState (holds : σ → Prop) (s : σ) (inputs : List ι) : Prop :=
  ∀ done rest, inputs = done ++ rest → holds (run step s done)

/-- Every input is `good` in the state that it finds. -/
def EveryStep (good : σ → ι → Prop) (s : σ) (inputs : List ι) : Prop :=
  ∀ done input rest, inputs = done ++ input :: rest → good (run step s done) input

variable {step} {holds : σ → Prop} {good : σ → ι → Prop} {s : σ}

theorem everyState_nil : EveryState step holds s [] ↔ holds s := by
  constructor
  · intro every
    exact every [] [] rfl
  · intro here done rest split
    obtain ⟨rfl, rfl⟩ := append_eq_nil_iff.mp split.symm
    exact here

variable {inputs : List ι}

theorem everyState_cons {input : ι} : EveryState step holds s (input :: inputs) ↔
      holds s ∧ EveryState step holds (step s input) inputs := by
  constructor
  · intro every
    refine ⟨every [] _ rfl, ?_⟩
    intro done rest split
    exact every (input :: done) rest (congrArg (input :: ·) split)
  · intro ⟨here, later⟩ done rest split
    cases done with
    | nil => exact here
    | cons first done =>
      cases split
      exact later done rest rfl

theorem everyStep_nil : EveryStep step good s [] := by
  intro done input rest split
  exact absurd split.symm (append_ne_nil_of_right_ne_nil _ (cons_ne_nil _ _))

theorem everyStep_cons {input : ι} : EveryStep step good s (input :: inputs) ↔
      good s input ∧ EveryStep step good (step s input) inputs := by
  constructor
  · intro every
    refine ⟨every [] input _ rfl, ?_⟩
    intro done next rest split
    exact every (input :: done) next rest (congrArg (input :: ·) split)
  · intro ⟨here, later⟩ done next rest split
    cases done with
    | nil =>
      cases split
      exact here
    | cons first done =>
      cases split
      exact later done next rest rfl

theorem EveryStep.with_mem (steps : EveryStep step good s inputs) :
    EveryStep step (fun s input => input ∈ inputs ∧ good s input) s inputs := by
  intro done input rest split
  refine ⟨?_, steps done input rest split⟩
  rw [split]
  exact mem_append_right done mem_cons_self

theorem everyState_of_everyStep {inv : σ → Prop}
    (keeps : ∀ s input, inv s → good s input → inv (step s input)) (start : inv s)
    (steps : EveryStep step good s inputs) : EveryState step inv s inputs := by
  induction inputs generalizing s with
  | nil => exact everyState_nil.mpr start
  | cons input inputs ih =>
    obtain ⟨here, later⟩ := everyStep_cons.mp steps
    exact everyState_cons.mpr ⟨start, ih (keeps s input start here) later⟩

theorem EveryState.mono {inv : σ → Prop} (every : EveryState step inv s inputs)
    (weaker : ∀ s, inv s → holds s) : EveryState step holds s inputs :=
  fun done rest split => weaker _ (every done rest split)

theorem EveryState.last (every : EveryState step holds s inputs) :
    holds (run step s inputs) := every inputs [] (append_nil inputs).symm

/-- If a step that is not good ends outside `holds`, a run stays inside `holds` exactly when
all its steps are good. -/
theorem everyState_iff_everyStep (inv : σ → Prop)
    (keeps : ∀ s input, inv s → good s input → inv (step s input)) (inside : ∀ s, inv s → holds s)
    (needed : ∀ s input, inv s → holds (step s input) → good s input)
    (start : inv s) (inputs : List ι) :
    EveryState step holds s inputs ↔ EveryStep step good s inputs := by
  constructor
  · intro every
    induction inputs generalizing s with
    | nil => exact everyStep_nil
    | cons input inputs ih =>
      have later := (everyState_cons.mp every).2
      have here := needed s input start (later [] inputs rfl)
      exact everyStep_cons.mpr ⟨here, ih (keeps s input start here) later⟩
  · intro steps
    exact (everyState_of_everyStep keeps start steps).mono inside

end Machine
