import Mathlib.Order.Basic

/-! Computations that note what they do in a log and may fail, and rules that bound the
log of a computation by way of what its parts return. A failure keeps the log so far. -/

structure Logged (ω ε α : Type) where
  log : List ω
  value : Except ε α

namespace Logged

variable {ω ε α β : Type}

instance : Monad (Logged ω ε) where
  pure a := ⟨[], .ok a⟩
  bind m f := match m.value with
    | .ok a => ⟨m.log ++ (f a).log, (f a).value⟩
    | .error e => ⟨m.log, .error e⟩

def note (event : ω) : Logged ω ε Unit := ⟨[event], .ok ()⟩

def fail (error : ε) : Logged ω ε α := ⟨[], .error error⟩

def demand (condition : Prop) [Decidable condition] (error : ε) : Logged ω ε Unit :=
  if condition then pure () else fail error

def attach : (m : Logged ω ε α) → Logged ω ε {a : α // m.value = .ok a}
  | ⟨log, .ok a⟩ => ⟨log, .ok ⟨a, rfl⟩⟩
  | ⟨log, .error e⟩ => ⟨log, .error e⟩

variable {m : Logged ω ε α} {f : α → Logged ω ε β}

theorem bind_of_ok {a : α} (value : m.value = .ok a) :
    m >>= f = ⟨m.log ++ (f a).log, (f a).value⟩ := by
  change (match m.value with
    | .ok a => (⟨m.log ++ (f a).log, (f a).value⟩ : Logged ω ε β)
    | .error e => ⟨m.log, .error e⟩) = _
  rw [value]

theorem bind_of_error {e : ε} (value : m.value = .error e) : m >>= f = ⟨m.log, .error e⟩ := by
  change (match m.value with
    | .ok a => (⟨m.log ++ (f a).log, (f a).value⟩ : Logged ω ε β)
    | .error e => ⟨m.log, .error e⟩) = _
  rw [value]

theorem bind_value_ok_iff {b : β} :
    (m >>= f).value = .ok b ↔ ∃ a, m.value = .ok a ∧ (f a).value = .ok b := by
  cases value : m.value with
  | ok a => simp [bind_of_ok value]
  | error e => simp [bind_of_error value]

theorem mem_bind_log {event : ω} :
    event ∈ (m >>= f).log ↔ event ∈ m.log ∨ ∃ a, m.value = .ok a ∧ event ∈ (f a).log := by
  cases value : m.value with
  | ok a => simp [bind_of_ok value]
  | error e => simp [bind_of_error value]

/-- Every event of the log is allowed, and a value that is returned satisfies `post`. -/
structure Keeps (allowed : ω → Prop) (m : Logged ω ε α) (post : α → Prop) : Prop where
  events : ∀ event ∈ m.log, allowed event
  returned : ∀ a, m.value = .ok a → post a

namespace Keeps

variable {allowed : ω → Prop}

variable {post : α → Prop} {m : Logged ω ε α}

theorem pure {a : α} (holds : post a) : Keeps allowed (pure a : Logged ω ε α) post where
  events _ mem := by cases mem
  returned _ value := by
    cases value
    exact holds

theorem fail (error : ε) : Keeps allowed (fail error : Logged ω ε α) post where
  events _ mem := by cases mem
  returned _ value := by cases value

theorem note {event : ω} (ok : allowed event) :
    Keeps allowed (note event : Logged ω ε Unit) fun _ => True where
  events _ mem := by
    cases List.mem_singleton.mp mem
    exact ok
  returned _ _ := trivial

theorem demand (condition : Prop) [Decidable condition] (error : ε) :
    Keeps allowed (demand condition error : Logged ω ε Unit) fun _ => condition := by
  unfold Logged.demand
  split
  · exact pure ‹_›
  · exact fail error

theorem bind {f : α → Logged ω ε β} {mid : α → Prop} {post : β → Prop} (first : Keeps allowed m mid)
    (rest : ∀ a, mid a → Keeps allowed (f a) post) : Keeps allowed (m >>= f) post where
  events event mem := by
    rcases mem_bind_log.mp mem with inFirst | ⟨a, value, inRest⟩
    · exact first.events event inFirst
    · exact (rest a (first.returned a value)).events event inRest
  returned b returned := by
    obtain ⟨a, value, last⟩ := bind_value_ok_iff.mp returned
    exact (rest a (first.returned a value)).returned b last

theorem mono {post' : α → Prop} (keeps : Keeps allowed m post) (weaker : ∀ a, post a → post' a) :
    Keeps allowed m post' where
  events := keeps.events
  returned a value := weaker a (keeps.returned a value)

theorem ite {condition : Prop} [Decidable condition] {n : Logged ω ε α}
    (yes : Keeps allowed m post) (no : Keeps allowed n post) :
    Keeps allowed (if condition then m else n) post := by
  split
  · exact yes
  · exact no

theorem attach (keeps : Keeps allowed m post) : Keeps allowed m.attach fun a => post a.1 where
  events := by
    match m with
    | ⟨_, .ok _⟩ => exact keeps.events
    | ⟨_, .error _⟩ => exact keeps.events
  returned a _ := keeps.returned a.1 a.2

end Keeps

/-- The computation returns `a`, and of its log `pick` gives `out`. -/
structure Yields {κ : Type} (pick : ω → Option κ) (m : Logged ω ε α) (a : α) (out : List κ) :
    Prop where
  value : m.value = .ok a
  picked : m.log.filterMap pick = out

namespace Yields

variable {κ : Type} {pick : ω → Option κ}

theorem pure (a : α) : Yields pick (pure a : Logged ω ε α) a [] := ⟨rfl, rfl⟩

variable {out : List κ} {m : Logged ω ε α} {a : α}

theorem note {event : ω} (picked : (pick event).toList = out) :
    Yields pick (note event : Logged ω ε Unit) () out where
  value := rfl
  picked := by
    rw [← picked]
    change List.filterMap pick [event] = _
    cases shown : pick event with
    | none => simp [shown]
    | some k => simp [shown]

theorem demand {condition : Prop} [Decidable condition] {error : ε} (holds : condition) :
    Yields pick (demand condition error : Logged ω ε Unit) () [] := by
  rw [Logged.demand, if_pos holds]
  exact pure ()

theorem bind {f : α → Logged ω ε β} {b : β} {first second : List κ} (one : Yields pick m a first)
    (two : Yields pick (f a) b second) : Yields pick (m >>= f) b (first ++ second) where
  value := bind_value_ok_iff.mpr ⟨a, one.value, two.value⟩
  picked := by rw [bind_of_ok one.value, List.filterMap_append, one.picked, two.picked]

theorem attach (yields : Yields pick m a out) : Yields pick m.attach ⟨a, yields.value⟩ out := by
  obtain ⟨log, value⟩ := m
  obtain ⟨returned, picked⟩ := yields
  cases returned
  exact ⟨rfl, picked⟩

theorem thenPure (yields : Yields pick m a out) (f : α → β) :
    Yields pick (m >>= fun x => Pure.pure (f x)) (f a) out := by
  rw [← List.append_nil out]
  exact yields.bind (pure (f a))

theorem andThen {f : α → Logged ω ε β} {b : β} (one : Yields pick m a [])
    (two : Yields pick (f a) b out) : Yields pick (m >>= f) b out :=
  one.bind two

end Yields

end Logged
