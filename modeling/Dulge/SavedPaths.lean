import Dulge.FileExtraction
import Dulge.MapDisk

/-! Where the `.pacsave` and `.pacnew` files of the entries of packages are: beside the paths of
the entries, and never at one of them or above one, unless a name has such a suffix itself. -/

namespace Dulge
open List

theorem pacsave_whole : slash ∉ pacsave := by decide

theorem pacnew_whole : slash ∉ pacnew := by decide

theorem pacsave_ne_nil : pacsave ≠ [] := by decide

theorem pacnew_ne_nil : pacnew ≠ [] := by decide

theorem decimal_digit {n : Nat} {c : UInt8} (mem : c ∈ decimal n) : 48 ≤ c ∧ c ≤ 57 := by
  unfold decimal at mem
  split at mem
  · rw [mem_singleton.mp mem]
    decide
  · obtain ⟨digit, inside, rfl⟩ := mem_map.mp mem
    have small : digit < 10 := Nat.digits_lt_base (by omega) (mem_reverse.mp inside)
    interval_cases digit <;> decide

theorem decimal_ne_nil (n : Nat) : decimal n ≠ [] := by
  unfold decimal
  split
  · exact cons_ne_nil _ _
  · rename_i positive
    simpa [Nat.digits_eq_nil_iff_eq_zero] using positive

theorem PacsaveTail.whole {tail : CStr} (numbered : PacsaveTail tail) : slash ∉ tail := by
  rcases numbered with rfl | ⟨n, rfl⟩
  · exact not_mem_nil
  · intro mem
    rcases mem_append.mp mem with dot | digit
    · exact absurd dot (by decide)
    · exact absurd (decimal_digit digit).1 (by decide)

/-- The file of an entry: the directory it is in, its last component, and that it is no path of
slashes only. -/
structure Place (root f : CStr) (front : List CStr) (last : CStr) : Prop where
  inRoot : components root <+: front
  member : last ∈ components f
  key : components (root ++ f) = front ++ [last]
  suffix : ∀ suffix, suffix ≠ [] → slash ∉ suffix →
    components (root ++ f ++ suffix) = front ++ [last ++ suffix]

theorem exists_place {root f : CStr} (rootSlash : endsInSlash root = true)
    (plain : endsInSlash (root ++ f) = false) : ∃ front last, Place root f front last := by
  have nonempty : f ≠ [] := by
    rintro rfl
    rw [append_nil, rootSlash] at plain
    cases plain
  rw [endsInSlash_append nonempty] at plain
  obtain ⟨front, last, stem⟩ := exists_stem f
  have named : last ≠ [] := by
    intro none
    rcases stem.empty none with empty | ends
    · exact nonempty empty
    · rw [ends] at plain
      cases plain
  have key : components f = front ++ [last] := by
    rw [stem.components, filter_singleton]
    simp [named]
  refine ⟨components root ++ front, last, prefix_append _ _, ?_, ?_, ?_⟩
  · rw [key]
    exact mem_append_right _ mem_cons_self
  · rw [components_root rootSlash, key, append_assoc]
  · intro suffix given free
    rw [append_assoc, components_root rootSlash, stem.suffix suffix given free, append_assoc]

section

variable {host : FileHost} {f : CStr} {front : List CStr} {last : CStr}

theorem components_removedPath (host : FileHost) (name : CStr) :
    components (removedPath host name) = components (host.root ++ name) := by
  unfold removedPath
  dsimp only
  split
  · rename_i ends
    rw [← components_slash, dropLast_of_endsInSlash ends]
  · rfl

variable {tail name : CStr}

theorem saved_key {path : CStr} {side : List CStr} {part : CStr} (stem : Stem path side part)
    (whole : slash ∉ tail) :
    components (path ++ pacsave ++ tail) = side ++ [part ++ (pacsave ++ tail)] := by
  rw [append_assoc]
  apply stem.suffix
  · exact append_ne_nil_of_left_ne_nil pacsave_ne_nil tail
  · exact fun mem => (mem_append.mp mem).elim pacsave_whole whole

theorem saved_part_ne (part tail : CStr) : part ++ (pacsave ++ tail) ≠ part := by
  intro same
  exact append_ne_nil_of_left_ne_nil pacsave_ne_nil tail (append_right_eq_self.mp same)

theorem stem_inRoot {side : List CStr} {part : CStr} (stem : Stem (removedPath host name) side part)
    (rootSlash : endsInSlash host.root = true) :
    components host.root <+: side ∨ components host.root = side ++ [part] := by
  have entry := components_removedPath host name
  rw [stem.components, components_root rootSlash] at entry
  have start : components host.root <+: side ++ [part].filter (· ≠ []) := ⟨_, entry.symm⟩
  by_cases none : part = []
  · simp [none] at start
    exact .inl start
  · rw [filter_singleton] at start
    simp only [ne_eq, none, not_false_eq_true, decide_true] at start
    exact (prefix_concat_iff.mp start).symm

/-- The path of a saved file does not lead to a file without `.pacsave` in its name. -/
theorem saved_not_above (rootSlash : endsInSlash host.root = true) (clean : ¬ pacsave <:+: f)
    (name : CStr) (numbered : PacsaveTail tail) :
    ¬ components (removedPath host name ++ pacsave ++ tail) <+: components (host.root ++ f) := by
  intro above
  obtain ⟨side, part, stem⟩ := exists_stem (removedPath host name)
  rw [saved_key stem numbered.whole, components_root rootSlash] at above
  rcases stem_inRoot stem rootSlash with ⟨rest, rfl⟩ | whole
  · rw [append_assoc, prefix_append_right_inj] at above
    have piece := infix_of_mem_components (above.subset (mem_append_right _ mem_cons_self))
    exact clean (List.IsInfix.trans ⟨part, tail, by simp⟩ piece)
  · rw [whole, append_assoc, prefix_append_right_inj, singleton_append, cons_prefix_cons] at above
    exact saved_part_ne part tail above.1

theorem Place.pacsave_key (place : Place host.root f front last) :
    components (host.root ++ f ++ pacsave) = front ++ [last ++ pacsave] :=
  place.suffix pacsave pacsave_ne_nil pacsave_whole

/-- The path of a saved file does not lead to the `.pacsave` file of another path. -/
theorem saved_not_above_saved (rootSlash : endsInSlash host.root = true) (clean : ¬ pacsave <:+: f)
    (place : Place host.root f front last) (name : CStr)
    (other : components (host.root ++ name) ≠ components (host.root ++ f))
    (numbered : PacsaveTail tail) : ¬ components (removedPath host name ++ pacsave ++ tail) <+:
      components (host.root ++ f ++ pacsave) := by
  intro above
  rw [place.pacsave_key, prefix_concat_iff] at above
  rcases above with same | inside
  · obtain ⟨side, part, stem⟩ := exists_stem (removedPath host name)
    rw [saved_key stem numbered.whole] at same
    obtain ⟨rfl, parts⟩ := append_inj' same rfl
    replace parts := singleton_inj.mp parts
    rcases numbered with rfl | ⟨n, rfl⟩
    · rw [append_nil, append_left_inj] at parts
      subst parts
      apply other
      rw [← components_removedPath, stem.components, place.key, filter_singleton]
      simp [ne_nil_of_mem_components place.member]
    · have ends := congrArg List.getLast? parts
      rw [List.getLast?_append_of_ne_nil last pacsave_ne_nil, ← append_assoc, ← append_assoc,
        List.getLast?_append_of_ne_nil _ (decimal_ne_nil n)] at ends
      exact absurd (decimal_digit (mem_of_getLast? ends)).2 (by decide)
  · apply saved_not_above rootSlash clean name numbered
    rw [place.key]
    exact inside.trans (prefix_append front [last])

/-- An entry without `.pacsave` in its name is not at the `.pacsave` path of a file or below. -/
theorem not_below_saved (rootSlash : endsInSlash host.root = true)
    (place : Place host.root f front last) (clean : ¬ pacsave <:+: name) :
    ¬ components (host.root ++ f ++ pacsave) <+: components (host.root ++ name) := by
  intro above
  obtain ⟨rest, rfl⟩ := place.inRoot
  rw [place.pacsave_key, components_root rootSlash, append_assoc, prefix_append_right_inj] at above
  have piece := infix_of_mem_components (above.subset (mem_append_right _ mem_cons_self))
  exact clean (List.IsInfix.trans ⟨last, [], by simp⟩ piece)

theorem pacnew_key (host : FileHost) (name : CStr) :
    ∃ side part, components (host.root ++ name ++ pacnew) = side ++ [part ++ pacnew] ∧
      side <+: components (host.root ++ name) := by
  obtain ⟨side, part, stem⟩ := exists_stem (host.root ++ name)
  refine ⟨side, part, stem.suffix pacnew pacnew_ne_nil pacnew_whole, ?_⟩
  rw [stem.components]
  exact prefix_append _ _

theorem prefix_of_prefix_pacnew (clean : ¬ pacnew <:+: f) (place : Place host.root f front last)
    (above : components (host.root ++ f) <+: components (host.root ++ name ++ pacnew)) :
    components (host.root ++ f) <+: components (host.root ++ name) := by
  obtain ⟨side, part, key, start⟩ := pacnew_key host name
  rw [key, prefix_concat_iff] at above
  rcases above with same | inside
  · rw [place.key] at same
    have parts := singleton_inj.mp (append_inj' same rfl).2
    have piece := infix_of_mem_components place.member
    rw [parts] at piece
    exact absurd (List.IsInfix.trans ⟨part, [], by simp⟩ piece) clean
  · exact inside.trans start

theorem pacnew_not_below_saved (rootSlash : endsInSlash host.root = true)
    (place : Place host.root f front last) (clean : ¬ pacsave <:+: name) :
    ¬ components (host.root ++ f ++ pacsave) <+: components (host.root ++ name ++ pacnew) := by
  intro above
  obtain ⟨side, part, key, start⟩ := pacnew_key host name
  rw [key, prefix_concat_iff] at above
  rcases above with same | inside
  · rw [place.pacsave_key] at same
    have parts := singleton_inj.mp (append_inj' same rfl).2
    have ends := congrArg List.getLast? parts
    rw [List.getLast?_append_of_ne_nil last pacsave_ne_nil,
      List.getLast?_append_of_ne_nil part pacnew_ne_nil] at ends
    exact absurd ends (by decide)
  · exact not_below_saved rootSlash place clean (inside.trans start)

theorem saved_not_above_self (name : CStr) (numbered : PacsaveTail tail) :
    ¬ components (removedPath host name ++ pacsave ++ tail) <+: components
      (removedPath host name) := by
  intro above
  obtain ⟨side, part, stem⟩ := exists_stem (removedPath host name)
  rw [saved_key stem numbered.whole, stem.components, prefix_append_right_inj] at above
  have same := mem_singleton.mp ((filter_sublist).subset (above.subset mem_cons_self))
  exact saved_part_ne part tail same

theorem Place.not_prefix_pacnew (place : Place host.root f front last) :
    ¬ components (host.root ++ f) <+: components (host.root ++ f ++ pacnew) := by
  intro above
  rw [place.key, place.suffix pacnew pacnew_ne_nil pacnew_whole, prefix_append_right_inj,
    cons_prefix_cons] at above
  exact pacnew_ne_nil (append_right_eq_self.mp above.1.symm)

end

end Dulge
