import Mathlib

/-! Loops over a list that carry a state. A plain fold runs to its end; a stage may
stop with an error, and then nothing after it runs. For both, a fact about the state
after the loop comes from the turn that reaches it and from the turns that keep it. -/
namespace Loop
open List

variable {α ε σ : Type*}

variable {xs : List α} {x : α} {s' s : σ} {inv : σ → Prop}

theorem foldl_reaches {turn : σ → α → σ} {goal : σ → Prop} (keeps : ∀ s x, goal s → goal (turn s x))
    (mem : x ∈ xs) (reaches : ∀ s, goal (turn s x)) (s : σ) : goal (xs.foldl turn s) := by
  have kept : ∀ (ys : List α) (s : σ), goal s → goal (ys.foldl turn s) := by
    intro ys s start
    exact List.foldlRecOn ys turn start fun s held y _ => keeps s y held
  induction xs generalizing s with
  | nil => cases mem
  | cons y ys ih =>
    rw [foldl_cons]
    rcases mem_cons.mp mem with rfl | later
    · exact kept ys _ (reaches s)
    · exact ih later _

abbrev Stage (ε σ : Type*) := σ → Option ε × σ

def proceed (result : Option ε × σ) (next : Stage ε σ) : Option ε × σ :=
  match result with
  | (none, s) => next s
  | (some err, s) => (some err, s)

def Stage.andThen (first second : Stage ε σ) : Stage ε σ := fun s => proceed (first s) second

def each (turn : α → Stage ε σ) : List α → Stage ε σ
  | [] => fun s => (none, s)
  | x :: xs => (turn x).andThen (each turn xs)

variable {turn : α → Stage ε σ} {first second : Stage ε σ}

theorem proceed_ok {result : Option ε × σ} {next : Stage ε σ} :
    proceed result next = (none, s') ↔ ∃ mid, result = (none, mid) ∧ next mid = (none, s') := by
  obtain ⟨err, mid⟩ := result
  cases err with
  | none => simp [proceed]
  | some err => simp [proceed]

theorem andThen_ok : first.andThen second s = (none, s') ↔
      ∃ mid, first s = (none, mid) ∧ second mid = (none, s') := proceed_ok

theorem each_cons_ok : each turn (x :: xs) s = (none, s') ↔
      ∃ mid, turn x s = (none, mid) ∧ each turn xs mid = (none, s') := andThen_ok

theorem each_keeps (inv : σ → Prop) (done : each turn xs s = (none, s'))
    (keeps : ∀ x ∈ xs, ∀ s s', turn x s = (none, s') → inv s → inv s') (start : inv s) :
    inv s' := by
  induction xs generalizing s with
  | nil =>
    cases done
    exact start
  | cons x xs ih =>
    obtain ⟨mid, first, rest⟩ := each_cons_ok.mp done
    apply ih rest
    · intro y mem
      exact keeps y (mem_cons_of_mem x mem)
    · exact keeps x mem_cons_self s mid first start

theorem each_reaches (inv goal : σ → Prop) (done : each turn xs s = (none, s')) (mem : x ∈ xs)
    (keeps : ∀ y ∈ xs, ∀ s s', turn y s = (none, s') → inv s → inv s')
    (holds : ∀ y ∈ xs, ∀ s s', turn y s = (none, s') → goal s → goal s')
    (reaches : ∀ s s', turn x s = (none, s') → inv s → goal s') (start : inv s) : goal s' := by
  induction xs generalizing s with
  | nil => cases mem
  | cons y ys ih =>
    obtain ⟨mid, first, rest⟩ := each_cons_ok.mp done
    rcases mem_cons.mp mem with rfl | later
    · apply each_keeps goal rest _ (reaches s mid first start)
      intro z there
      exact holds z (mem_cons_of_mem x there)
    · apply ih rest later
      · intro z there
        exact keeps z (mem_cons_of_mem y there)
      · intro z there
        exact holds z (mem_cons_of_mem y there)
      · exact keeps y mem_cons_self s mid first start

/-- From every state the stage ends without an error, in a state related to the first. -/
def Stage.Advances (rel : σ → σ → Prop) (stage : Stage ε σ) : Prop :=
  ∀ s, ∃ s', stage s = (none, s') ∧ rel s s'

theorem Stage.Advances.andThen {rel : σ → σ → Prop} [IsTrans σ rel] (one : first.Advances rel)
    (two : second.Advances rel) : (first.andThen second).Advances rel := by
  intro s
  obtain ⟨mid, ran, upTo⟩ := one s
  obtain ⟨s', rest, onward⟩ := two mid
  exact ⟨s', andThen_ok.mpr ⟨mid, ran, rest⟩, IsTrans.trans s mid s' upTo onward⟩

theorem each_advances {rel : σ → σ → Prop} [IsPreorder σ rel]
    (turns : ∀ x ∈ xs, (turn x).Advances rel) : (each turn xs).Advances rel := by
  induction xs with
  | nil =>
    intro s
    exact ⟨s, rfl, refl s⟩
  | cons x xs ih =>
    apply Stage.Advances.andThen (turns x mem_cons_self)
    exact ih fun y mem => turns y (mem_cons_of_mem x mem)

/-- The invariant holds after the stage, whether or not it ended with an error. -/
def Stage.Preserves (inv : σ → Prop) (stage : Stage ε σ) : Prop := ∀ s, inv s → inv (stage s).2

theorem proceed_preserves {result : Option ε × σ} {next : Stage ε σ} (before : inv result.2)
    (after : next.Preserves inv) : inv (proceed result next).2 := by
  obtain ⟨err, s⟩ := result
  cases err with
  | none => exact after s before
  | some err => exact before

theorem Stage.Preserves.andThen (one : first.Preserves inv) (two : second.Preserves inv) :
    (first.andThen second).Preserves inv :=
  fun s start => proceed_preserves (one s start) two

theorem each_preserves (turns : ∀ x, (turn x).Preserves inv) : (each turn xs).Preserves inv := by
  induction xs with
  | nil => exact fun s start => start
  | cons x xs ih => exact (turns x).andThen ih

end Loop
