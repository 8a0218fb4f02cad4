import Mathlib.Data.List.Induction

/-! Keeping the first element of every key. Elements that come in an order of falling rank are
then the ones of the highest rank among those that share their key. -/

namespace Firsts
open List

variable {α κ : Type} [DecidableEq κ] (key : α → κ)

def keep (kept : List α) (x : α) : List α := if ∃ y ∈ kept, key y = key x then kept else kept ++ [x]

def firsts (l : List α) : List α := l.foldl (keep key) []

theorem firsts_concat (l : List α) (x : α) : firsts key (l ++ [x]) = keep key (firsts key l) x := by
  rw [firsts, foldl_append]
  rfl

variable {key}

variable {kept l : List α} {x y : α}

theorem mem_keep (mem : y ∈ keep key kept x) : y ∈ kept ∨ y = x ∧ ∀ z ∈ kept, key z ≠ key x := by
  unfold keep at mem
  split at mem
  next => exact .inl mem
  next new =>
    rcases mem_append.mp mem with old | last
    · exact .inl old
    · exact .inr ⟨mem_singleton.mp last, fun z inside same => new ⟨z, inside, same⟩⟩

theorem subset_keep (x : α) (mem : y ∈ kept) : y ∈ keep key kept x := by
  unfold keep
  split
  · exact mem
  · exact mem_append_left _ mem

theorem subset_foldl_keep (mem : y ∈ kept) : y ∈ l.foldl (keep key) kept := by
  induction l generalizing kept with
  | nil => exact mem
  | cons x l ih => exact ih (subset_keep x mem)

theorem exists_key_keep (kept : List α) (x : α) : ∃ y ∈ keep key kept x, key y = key x := by
  unfold keep
  split
  next found => exact found
  next => exact ⟨x, mem_append_right _ mem_cons_self, rfl⟩

theorem mem_of_mem_firsts (mem : x ∈ firsts key l) : x ∈ l := by
  induction l using List.reverseRecOn with
  | nil => cases mem
  | append_singleton l last ih =>
    rw [firsts_concat] at mem
    rcases mem_keep mem with old | ⟨rfl, -⟩
    · exact mem_append_left _ (ih old)
    · exact mem_append_right _ mem_cons_self

theorem exists_key_firsts (mem : x ∈ l) : ∃ y ∈ firsts key l, key y = key x := by
  induction l using List.reverseRecOn with
  | nil => cases mem
  | append_singleton l last ih =>
    rw [firsts_concat]
    rcases mem_append.mp mem with old | new
    · obtain ⟨y, kept, same⟩ := ih old
      exact ⟨y, subset_keep last kept, same⟩
    · rw [mem_singleton.mp new]
      exact exists_key_keep _ last

theorem rank_le_firsts {rank : α → Nat} (falls : l.Pairwise fun a b => rank b ≤ rank a)
    (kept : x ∈ firsts key l) (mem : y ∈ l) (same : key y = key x) : rank y ≤ rank x := by
  induction l using List.reverseRecOn with
  | nil => cases mem
  | append_singleton l last ih =>
    obtain ⟨fallsFirst, -, low⟩ := pairwise_append.mp falls
    rw [firsts_concat] at kept
    rcases mem_keep kept with old | ⟨rfl, new⟩
    · rcases mem_append.mp mem with inside | newest
      · exact ih fallsFirst old inside
      · rw [mem_singleton.mp newest]
        exact low x (mem_of_mem_firsts old) last mem_cons_self
    · rcases mem_append.mp mem with inside | newest
      · have before : ∃ z ∈ firsts key l, key z = key y := exists_key_firsts inside
        obtain ⟨z, keptBefore, sameKey⟩ := before
        exact absurd (sameKey.trans same) (new z keptBefore)
      · exact Nat.le_of_eq (congrArg rank (mem_singleton.mp newest))

end Firsts
