import Mathlib.Data.Nat.Init
import Mathlib.Logic.Relation

/-! Loops that may not end. A turn of such a loop gives the state of the next turn or what the
loop ends with. -/

namespace Iterate

variable {σ ρ : Type*} (turn : σ → σ ⊕ ρ)

def within : Nat → σ → Option ρ
  | 0, _ => none
  | n + 1, s =>
    match turn s with
    | .inl next => within n next
    | .inr result => some result

/-- One turn leads from `s` to `t`. -/
def Leads (s t : σ) : Prop := turn s = .inl t

abbrev Reaches : σ → σ → Prop := Relation.ReflTransGen (Leads turn)

def Ends (s : σ) : Prop := ∃ n, (within turn n s).isSome = true

variable {turn}

variable {s next : σ} {result : ρ}

theorem within_inl (goes : turn s = .inl next) (n : Nat) :
    within turn (n + 1) s = within turn n next := by
  simp only [within, goes]

theorem within_inr (stops : turn s = .inr result) (n : Nat) :
    within turn (n + 1) s = some result := by
  simp only [within, stops]

theorem exists_within_inl (goes : turn s = .inl next) :
    (∃ n, within turn n s = some result) ↔ ∃ n, within turn n next = some result := by
  constructor
  · rintro ⟨n, ended⟩
    cases n with
    | zero => cases ended
    | succ n => exact ⟨n, within_inl goes n ▸ ended⟩
  · rintro ⟨n, ended⟩
    exact ⟨n + 1, (within_inl goes n).trans ended⟩

theorem exists_within_inr {other : ρ} (stops : turn s = .inr result) :
    (∃ n, within turn n s = some other) ↔ result = other := by
  constructor
  · rintro ⟨n, ended⟩
    cases n with
    | zero => cases ended
    | succ n => exact Option.some.inj ((within_inr stops n).symm.trans ended)
  · rintro rfl
    exact ⟨1, within_inr stops 0⟩

theorem ends_iff_exists : Ends turn s ↔ ∃ result n, within turn n s = some result := by
  simp only [Ends, Option.isSome_iff_exists]
  exact exists_comm

theorem ends_of_inr (stops : turn s = .inr result) : Ends turn s :=
  ends_iff_exists.mpr ⟨result, (exists_within_inr stops).mpr rfl⟩

theorem ends_iff_of_inl (goes : turn s = .inl next) : Ends turn s ↔ Ends turn next := by
  rw [ends_iff_exists, ends_iff_exists]
  exact exists_congr fun _ => exists_within_inl goes

theorem forall_reaches_inl (goes : turn s = .inl next) {holds : σ → Prop} :
    (∀ t, Reaches turn s t → holds t) ↔ holds s ∧ ∀ t, Reaches turn next t → holds t := by
  constructor
  · intro all
    exact ⟨all s .refl, fun t reaches => all t (.head goes reaches)⟩
  · rintro ⟨here, later⟩ t reaches
    cases reaches using Relation.ReflTransGen.head_induction_on with
    | refl => exact here
    | head first rest =>
      cases goes.symm.trans first
      exact later t rest

theorem forall_reaches_inr (stops : turn s = .inr result) {holds : σ → Prop} :
    (∀ t, Reaches turn s t → holds t) ↔ holds s := by
  constructor
  · exact fun all => all s .refl
  · intro here t reaches
    cases reaches using Relation.ReflTransGen.head_induction_on with
    | refl => exact here
    | head first _ => cases stops.symm.trans first

theorem within_of_reaches (reaches : Reaches turn s next) {n : Nat}
    (ended : within turn n s = some result) : ∃ m, within turn m next = some result := by
  induction reaches with
  | refl => exact ⟨n, ended⟩
  | tail _ last ih => exact (exists_within_inl last).mp ih

theorem ends_of_measure (inv : σ → Prop) (measure : σ → Nat)
    (falls : ∀ s next, inv s → turn s = .inl next → inv next ∧ measure next < measure s)
    (start : inv s) : Ends turn s := by
  induction size : measure s using Nat.strong_induction_on generalizing s with
  | _ size ih =>
    cases step : turn s with
    | inr result => exact ends_of_inr step
    | inl next =>
      obtain ⟨kept, less⟩ := falls s next start step
      exact (ends_iff_of_inl step).mpr (ih (measure next) (size ▸ less) kept rfl)

theorem not_ends_of_invariant (stuck : σ → Prop)
    (goes : ∀ s, stuck s → ∃ next, turn s = .inl next ∧ stuck next) (start : stuck s) :
    ¬ Ends turn s := by
  rintro ⟨n, ended⟩
  induction n generalizing s with
  | zero => cases ended
  | succ n ih =>
    obtain ⟨next, step, kept⟩ := goes s start
    exact ih kept (within_inl step n ▸ ended)

/-- A loop whose turns make progress until one of them is hit, and that goes on for ever once it is
marked by a hit: it ends exactly when it is not marked at the start and no turn of it is hit. -/
theorem ends_iff_no_hit (sound marked hit : σ → Prop) (measure : σ → Nat)
    (goesOn : ∀ s, sound s → marked s ∨ hit s → ∃ next, turn s = .inl next ∧ sound next ∧
      marked next)
    (falls : ∀ s next, sound s → ¬ marked s → ¬ hit s → turn s = .inl next →
      sound next ∧ ¬ marked next ∧ measure next < measure s) (start : sound s) :
    Ends turn s ↔ ¬ marked s ∧ ∀ t, Reaches turn s t → ¬ hit t := by
  have stuck {s : σ} (held : sound s ∧ marked s) : ¬ Ends turn s := by
    refine not_ends_of_invariant (fun s => sound s ∧ marked s) ?_ held
    rintro s ⟨start, mark⟩
    exact goesOn s start (.inl mark)
  by_cases mark : marked s
  · exact iff_of_false (stuck ⟨start, mark⟩) fun free => free.1 mark
  rw [and_iff_right mark]
  constructor
  · intro ends
    induction size : measure s using Nat.strong_induction_on generalizing s with
    | _ size ih =>
      have here : ¬ hit s := by
        intro hits
        obtain ⟨next, step, held⟩ := goesOn s start (.inr hits)
        exact stuck held ((ends_iff_of_inl step).mp ends)
      cases step : turn s with
      | inr result => exact (forall_reaches_inr step).mpr here
      | inl next =>
        obtain ⟨kept, free, less⟩ := falls s next start mark here step
        refine (forall_reaches_inl step).mpr ⟨here, ?_⟩
        exact ih (measure next) (size ▸ less) kept free ((ends_iff_of_inl step).mp ends) rfl
  · intro unhit
    refine ends_of_measure (fun s => (sound s ∧ ¬ marked s) ∧ ∀ t, Reaches turn s t → ¬ hit t)
      measure ?_ ⟨⟨start, mark⟩, unhit⟩
    rintro s next ⟨⟨start, mark⟩, unhit⟩ step
    obtain ⟨here, later⟩ := (forall_reaches_inl step).mp unhit
    obtain ⟨kept, free, less⟩ := falls s next start mark here step
    exact ⟨⟨⟨kept, free⟩, later⟩, less⟩

/-! ### Two runs in step -/

/-- The two turns both go on, to related states, or both stop, with related results. -/
inductive InStep (related : σ → σ → Prop) (same : ρ → ρ → Prop) : σ ⊕ ρ → σ ⊕ ρ → Prop where
  | goes {s t : σ} (after : related s t) : InStep related same (.inl s) (.inl t)
  | stops {a b : ρ} (after : same a b) : InStep related same (.inr a) (.inr b)

section InStep

variable {related : σ → σ → Prop} {same : ρ → ρ → Prop}
  (step : ∀ s t, related s t → InStep related same (turn s) (turn t)) {t u : σ}
include step

theorem reaches_in_step (start : related s t) (reaches : Reaches turn s u) :
    ∃ v, Reaches turn t v ∧ related u v := by
  induction reaches with
  | refl => exact ⟨t, .refl, start⟩
  | tail _ last ih =>
    obtain ⟨v, reached, held⟩ := ih
    have both := step _ _ held
    rw [show turn _ = _ from last] at both
    generalize goes : turn v = after at both
    cases both with
    | goes after => exact ⟨_, reached.tail goes, after⟩

theorem within_in_step (start : related s t) {n : Nat} (ended : within turn n s = some result) :
    ∃ other, within turn n t = some other ∧ same result other := by
  induction n generalizing s t with
  | zero => cases ended
  | succ n ih =>
    have both := step s t start
    unfold within at ended ⊢
    generalize turn s = one at both ended
    generalize turn t = two at both
    cases both with
    | goes after => exact ih after ended
    | stops after =>
      cases ended
      exact ⟨_, rfl, after⟩

end InStep

end Iterate
