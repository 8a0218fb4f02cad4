import Mathlib.Data.Nat.Init
import Mathlib.Data.Set.Defs
import Mathlib.Logic.Relation

/-! A loop whose turn is a partial function of its state: `none` where the loop stops. It runs
for ever when it comes back to a state, and stops when a measure of the state falls. -/

namespace Orbit

variable {α : Type*} (next : α → Option α)

/-- The state after `n` more turns, if the loop is still running then. -/
def walk : Nat → α → Option α
  | 0, s => some s
  | n + 1, s => (next s).bind (walk n)

/-- One turn leads from `s` to `t`. -/
def Leads (s t : α) : Prop := next s = some t

abbrev Reaches : α → α → Prop := Relation.ReflTransGen (Leads next)

variable {next}

variable {s t : α} {states : Set α}

theorem walk_ne_none_of_return (returns : Relation.TransGen (Leads next) s s) (n : Nat) :
    walk next n s ≠ none := by
  suffices always : ∀ n t, Reaches next t s → walk next n t ≠ none from always n s .refl
  clear n
  intro n
  induction n with
  | zero =>
    intro t _ stopped
    cases stopped
  | succ n ih =>
    intro t reaches
    have onward : Relation.TransGen (Leads next) t s := .trans_right reaches returns
    obtain ⟨u, first, rest⟩ := Relation.TransGen.head'_iff.mp onward
    change (next t).bind (walk next n) ≠ none
    rw [show next t = some u from first]
    exact ih u rest

theorem mem_of_reaches (kept : ∀ s ∈ states, ∀ t, next s = some t → t ∈ states) (start : s ∈ states)
    (reaches : Reaches next s t) : t ∈ states := by
  induction reaches with
  | refl => exact start
  | tail _ last ih => exact kept _ ih _ last

/-- A loop stops if a measure of its state falls at every turn that it comes to. -/
theorem stops_of_measure (measure : α → Nat)
    (falls : ∀ t, Reaches next s t → ∀ u, next t = some u → measure u < measure t) :
    ∃ n, walk next n s = none := by
  induction size : measure s using Nat.strong_induction_on generalizing s with
  | _ size ih =>
    cases turn : next s with
    | none => exact ⟨1, by simp [walk, turn]⟩
    | some u =>
      have less := falls s .refl u turn
      obtain ⟨n, stopped⟩ := ih (measure u) (size ▸ less)
        (fun t reaches => falls t (.head turn reaches)) rfl
      exact ⟨n + 1, by simp [walk, turn, stopped]⟩

end Orbit
