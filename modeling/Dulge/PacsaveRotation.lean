import Dulge.LocalDesc
import Dulge.Lib.Rotation

/-! What `shift_pacsave` does to the saved copies of a file. The copies are slots: slot 0 is
`.pacsave` and slot `i` is `.pacsave.i`; the call moves the slots up to the largest number that
it finds in the directory. -/

namespace Dulge
open Rotation List

/-- What follows `.pacsave` in the name of a saved copy: nothing, or a dot and digits. -/
def SavedTail (tail : CStr) : Prop :=
  tail = [] ∨ ∃ digits : CStr, digits ≠ [] ∧ (∀ c ∈ digits, isdigit c = true) ∧
    tail = cstr "." ++ digits

/-- What follows `.pacsave` in the name of a slot. -/
def slotTail : Nat → CStr
  | 0 => []
  | i + 1 => cstr "." ++ decimal (i + 1)

theorem slotTail_saved (i : Nat) : SavedTail (slotTail i) := by
  cases i with
  | zero => exact .inl rfl
  | succ i => exact .inr ⟨_, decimal_ne_nil _, decimal_isdigit _, rfl⟩

theorem decimal_injective : Function.Injective decimal := by
  intro m n same
  rw [← digitsValue_decimal m, ← digitsValue_decimal n, same]

theorem slotTail_injective : Function.Injective slotTail := by
  intro i j same
  cases i with
  | zero =>
    cases j with
    | zero => rfl
    | succ j => cases same
  | succ i =>
    cases j with
    | zero => cases same
    | succ j => exact decimal_injective (append_cancel_left same)

theorem pacsaveNumbered_eq (file : CStr) (i : Nat) :
    pacsaveNumbered file (i + 1) = file ++ pacsave ++ slotTail (i + 1) :=
  append_assoc _ _ _

section Rotation

variable {σ γ κ : Type} {disk : Disk σ γ} {host : FileHost} {file : CStr}
  {content : σ → CStr → Option κ} {found : κ → Bool} {s : σ}

/-- The calls on the saved copies of a file, where `content` tells what is at the name with a
given tail: a rename moves what is there over what is at the new name and fails if there is
nothing; `stat` finds what is `found`, which a link to nowhere is not. -/
structure Saves (disk : Disk σ γ) (file : CStr) (content : σ → CStr → Option κ)
    (found : κ → Bool) : Prop where
  stat : ∀ s, (disk.stat s (file ++ pacsave)).isSome = (content s []).any found
  rename : ∀ s i tail, SavedTail tail →
    content (disk.rename (file ++ pacsave ++ slotTail i) (file ++ pacsave ++ slotTail (i + 1)) s).2
        tail =
      match content s (slotTail i) with
      | none => content s tail
      | some c =>
        if tail = slotTail (i + 1) then some c
        else if tail = slotTail i then none
        else content s tail

def slots (content : σ → CStr → Option κ) (s : σ) (i : Nat) : Option κ := content s (slotTail i)

def SameBeside (content : σ → CStr → Option κ) (s s' : σ) : Prop :=
  ∀ tail, SavedTail tail → (∀ i, tail ≠ slotTail i) → content s' tail = content s tail

theorem SameBeside.trans {s₁ s₂ s₃ : σ} (one : SameBeside content s₁ s₂)
    (two : SameBeside content s₂ s₃) : SameBeside content s₁ s₃ :=
  fun tail saved beside => (two tail saved beside).trans (one tail saved beside)

theorem Saves.rename_slots (saves : Saves disk file content found) (s : σ) (i : Nat) :
    slots content (disk.rename (file ++ pacsave ++ slotTail i)
      (file ++ pacsave ++ slotTail (i + 1)) s).2 = move (slots content s) i := by
  funext j
  rw [slots, saves.rename s i _ (slotTail_saved j)]
  cases there : content s (slotTail i) with
  | none =>
    have empty : slots content s i = none := there
    rw [move_of_none empty, slots]
  | some c =>
    have filled : slots content s i = some c := there
    rw [move_of_some filled, Function.update_apply, Function.update_apply]
    simp only [slotTail_injective.eq_iff, slots]

theorem Saves.rename_beside (saves : Saves disk file content found) (s : σ) (i : Nat) :
    SameBeside content s (disk.rename (file ++ pacsave ++ slotTail i)
      (file ++ pacsave ++ slotTail (i + 1)) s).2 := by
  intro tail saved beside
  rw [saves.rename s i tail saved]
  split
  · rfl
  · rw [if_neg (beside (i + 1)), if_neg (beside i)]

theorem Saves.shiftNumbered (saves : Saves disk file content found) {n : Nat}
    (fits : ∀ i ≤ n + 1, (pacsaveNumbered file i).length < pathMax) (s : σ) :
    (shiftNumbered disk file n s).1 = true ∧
      slots content (shiftNumbered disk file n s).2 = shift n (slots content s) ∧
      SameBeside content s (shiftNumbered disk file n s).2 := by
  induction n generalizing s with
  | zero => exact ⟨rfl, rfl, fun _ _ _ => rfl⟩
  | succ n ih =>
    have short : ¬ ((pacsaveNumbered file (n + 1)).length ≥ pathMax ∨
        (pacsaveNumbered file (n + 2)).length ≥ pathMax) := by
      have low := fits (n + 1) (by omega)
      have high := fits (n + 2) (by omega)
      omega
    rw [Dulge.shiftNumbered, if_neg short, pacsaveNumbered_eq, pacsaveNumbered_eq]
    obtain ⟨done, moved, beside⟩ := ih (fun i low => fits i (by omega))
      (disk.rename (file ++ pacsave ++ slotTail (n + 1)) (file ++ pacsave ++ slotTail (n + 2)) s).2
    refine ⟨done, ?_, (saves.rename_beside s (n + 1)).trans beside⟩
    rw [moved, saves.rename_slots]
    rfl

def savedNumber (host : FileHost) (accepts : CStr → Bool) (basename name : CStr) : Option Nat :=
  if name ≠ cstr "." ∧ name ≠ cstr ".." ∧ accepts name = true then
    some (host.strtoul (name.drop (basename.length + pacsave.length + 1)))
  else none

def savedNumbers (host : FileHost) (accepts : CStr → Bool) (basename : CStr)
    (names : List CStr) : Set Nat :=
  {n | ∃ name ∈ names, savedNumber host accepts basename name = some n}

theorem savedNumber_lt (range : ∀ text, host.strtoul text < 2 ^ 64) {accepts : CStr → Bool}
    {basename name : CStr} {n : Nat}
    (number : savedNumber host accepts basename name = some n) : n < 2 ^ 64 := by
  unfold savedNumber at number
  split at number
  · cases number
    exact range _
  · cases number

/-- The last slot that is moved: the largest number, or 0 if there is none; a number that is
the largest `unsigned long` makes the counter wrap to 0. -/
def LastShifted (numbers : Set Nat) (k : Nat) : Prop :=
  (2 ^ 64 - 1 ∈ numbers ∧ k = 0) ∨ (2 ^ 64 - 1 ∉ numbers ∧ IsGreatest (insert 0 numbers) k)

theorem LastShifted.unique {numbers : Set Nat} {k l : Nat} (one : LastShifted numbers k)
    (two : LastShifted numbers l) : k = l := by
  rcases one with ⟨wraps, rfl⟩ | ⟨below, greatest⟩
  · rcases two with ⟨-, rfl⟩ | ⟨below, -⟩
    · rfl
    · exact absurd wraps below
  · rcases two with ⟨wraps, -⟩ | ⟨-, other⟩
    · exact absurd wraps below
    · exact greatest.unique other

theorem foldl_max_greatest {α : Type*} (number : α → Option Nat) (list : List α) (start : Nat) :
    IsGreatest (insert start {n | ∃ x ∈ list, number x = some n})
      (list.foldl (fun top x => max top ((number x).getD 0)) start) := by
  induction list generalizing start with
  | nil =>
    refine ⟨Set.mem_insert _ _, ?_⟩
    rintro m (rfl | ⟨x, mem, -⟩)
    · exact Nat.le_refl _
    · exact absurd mem not_mem_nil
  | cons x list ih =>
    obtain ⟨mem, bound⟩ := ih (max start ((number x).getD 0))
    have first := bound (Set.mem_insert _ _)
    rw [foldl_cons]
    refine ⟨?_, ?_⟩
    · rcases Set.mem_insert_iff.mp mem with here | ⟨y, later, value⟩
      · rw [here]
        cases value : number x with
        | none => exact .inl (Nat.max_zero start)
        | some n =>
          rcases Nat.le_total n start with low | high
          · exact .inl (Nat.max_eq_left low)
          · refine .inr ⟨x, mem_cons_self, ?_⟩
            rw [value, Option.getD_some, Nat.max_eq_right high]
      · exact .inr ⟨y, mem_cons_of_mem x later, value⟩
    · rintro m (rfl | ⟨y, mem, value⟩)
      · exact (Nat.le_max_left _ _).trans first
      · rcases mem_cons.mp mem with rfl | later
        · rw [value] at first ⊢
          exact (Nat.le_max_right _ _).trans first
        · exact bound (.inr ⟨y, later, value⟩)

theorem pacsaveLogMax_eq (host : FileHost) (accepts : CStr → Bool) (basename : CStr)
    (names : List CStr) : pacsaveLogMax host accepts basename names =
      names.foldl (fun top name => max top ((savedNumber host accepts basename name).getD 0)) 0 := by
  unfold pacsaveLogMax
  congr 1
  funext logMax name
  unfold savedNumber
  by_cases dots : name = cstr "." ∨ name = cstr ".."
  · have refused : ¬ (name ≠ cstr "." ∧ name ≠ cstr ".." ∧ accepts name = true) := by tauto
    rw [if_pos dots, if_neg refused, Option.getD_none, Nat.max_zero]
  · obtain ⟨notDot, notDots⟩ := not_or.mp dots
    rw [if_neg dots]
    by_cases accepted : accepts name = true
    · rw [if_pos accepted, if_pos ⟨notDot, notDots, accepted⟩, Option.getD_some]
    · rw [if_neg accepted, if_neg fun all => accepted all.2.2, Option.getD_none, Nat.max_zero]

theorem lastShifted_logMax (range : ∀ text, host.strtoul text < 2 ^ 64) (accepts : CStr → Bool)
    (basename : CStr) (names : List CStr) : let logMax := pacsaveLogMax host accepts basename names
    LastShifted (savedNumbers host accepts basename names)
      (if logMax + 1 < 2 ^ 64 then logMax else 0) := by
  intro logMax
  have greatest : IsGreatest (insert 0 (savedNumbers host accepts basename names)) logMax := by
    rw [show logMax = _ from pacsaveLogMax_eq host accepts basename names]
    exact foldl_max_greatest _ names 0
  split
  · rename_i small
    refine .inr ⟨fun wraps => ?_, greatest⟩
    have bound := greatest.2 (Set.mem_insert_of_mem 0 wraps)
    omega
  · rename_i large
    refine .inl ⟨?_, rfl⟩
    rcases Set.mem_insert_iff.mp greatest.1 with zero | ⟨name, mem, number⟩
    · omega
    · have bound := savedNumber_lt range number
      refine ⟨name, mem, ?_⟩
      rw [number, Option.some.injEq]
      omega

/-- Every saved copy is at the name of a numbered one, and `.pacsave` is free. -/
structure PacsavesKept (content : σ → CStr → Option κ) (s s' : σ) : Prop where
  kept : ∀ tail c, SavedTail tail → content s tail = some c →
    ∃ digits : CStr, digits ≠ [] ∧ (∀ d ∈ digits, isdigit d = true) ∧
      content s' (cstr "." ++ digits) = some c
  gone : content s' [] = none

/-- The pattern compiles and the directory can be read, `stat` finds the `.pacsave` file if there
is one, and of the last slot that is moved and the one above it one is free. Without a pattern
or a directory there is no `.pacsave` file. -/
def RotationSafe (disk : Disk σ γ) (host : FileHost) (file : CStr)
    (content : σ → CStr → Option κ) (found : κ → Bool) (s : σ) : Prop :=
  match host.regex (mbasename file), disk.readdir s (mdirname file) with
  | some accepts, some names =>
    (∀ c, content s [] = some c → found c = true) ∧
      ∀ k, LastShifted (savedNumbers host accepts (mbasename file) names) k →
        content s (slotTail k) = none ∨ content s (slotTail (k + 1)) = none
  | _, _ => content s [] = none

def PathsFit (disk : Disk σ γ) (host : FileHost) (file : CStr) (s : σ) : Prop :=
  ∀ accepts names, host.regex (mbasename file) = some accepts →
    disk.readdir s (mdirname file) = some names →
    ∀ k, LastShifted (savedNumbers host accepts (mbasename file) names) k →
      ∀ i ≤ k + 1, (pacsaveNumbered file i).length < pathMax

def Distinct (content : σ → CStr → Option κ) (s : σ) : Prop :=
  ∀ tail tail' c, SavedTail tail → SavedTail tail' → content s tail = some c →
    content s tail' = some c → tail = tail'

theorem Saves.shiftPacsave (saves : Saves disk file content found)
    (range : ∀ text, host.strtoul text < 2 ^ 64) {accepts : CStr → Bool} {names : List CStr}
    (compiled : host.regex (mbasename file) = some accepts)
    (listed : disk.readdir s (mdirname file) = some names) (fit : PathsFit disk host file s)
    {k : Nat} (last : LastShifted (savedNumbers host accepts (mbasename file) names) k) :
    SameBeside content s (shiftPacsave disk host file s) ∧
      slots content (shiftPacsave disk host file s) =
        if (content s []).any found then rotate k (slots content s)
        else shift k (slots content s) := by
  have counter := (lastShifted_logMax range accepts (mbasename file) names).unique last
  have fits := fit accepts names compiled listed k last
  obtain ⟨done, moved, beside⟩ := saves.shiftNumbered fits s
  have shifted : Dulge.shiftNumbered disk file k s = (true, (Dulge.shiftNumbered disk file k s).2) :=
    Prod.ext done rfl
  have base : content (Dulge.shiftNumbered disk file k s).2 [] = content s [] :=
    (congrFun moved 0).trans (shift_zero k _)
  have short : ¬ ((file ++ pacsave).length ≥ pathMax ∨
      (pacsaveNumbered file 1).length ≥ pathMax) := by
    have one := fits 1 (by omega)
    have longer : (file ++ pacsave).length ≤ (pacsaveNumbered file 1).length := by
      rw [pacsaveNumbered_eq]
      exact (sublist_append_left _ _).length_le
    omega
  simp only [Dulge.shiftPacsave, compiled, listed, counter]
  rw [shifted]
  simp only [short, if_false, saves.stat, base]
  split
  · have renamed := saves.rename_slots (Dulge.shiftNumbered disk file k s).2 0
    have others := saves.rename_beside (Dulge.shiftNumbered disk file k s).2 0
    rw [show slotTail 0 = [] from rfl, append_nil, ← pacsaveNumbered_eq] at renamed others
    exact ⟨beside.trans others, renamed.trans (congrArg (move · 0) moved)⟩
  · exact ⟨beside, moved⟩

theorem shiftPacsave_unread (disk : Disk σ γ) (host : FileHost) (file : CStr) (s : σ)
    (unread : host.regex (mbasename file) = none ∨ disk.readdir s (mdirname file) = none) :
    shiftPacsave disk host file s = s := by
  unfold shiftPacsave
  split
  · rfl
  · rename_i accepts compiled
    rcases unread with none | none
    · rw [compiled] at none
      cases none
    · rw [none]

theorem SavedTail.slot_or_beside (tail : CStr) :
    (∃ i, tail = slotTail i) ∨ ∀ i, tail ≠ slotTail i := by
  by_cases slot : ∃ i, tail = slotTail i
  · exact .inl slot
  · exact .inr fun i same => slot ⟨i, same⟩

section Kept

variable {s' : σ} {k : Nat}

theorem pacsavesKept_of_rotate (beside : SameBeside content s s')
    (rotated : slots content s' = rotate k (slots content s))
    (free : content s (slotTail k) = none ∨ content s (slotTail (k + 1)) = none) :
    PacsavesKept content s s' := by
  refine ⟨?_, (congrFun rotated 0).trans (rotate_zero k _)⟩
  intro tail c saved there
  rcases SavedTail.slot_or_beside tail with ⟨i, rfl⟩ | away
  · have filled : slots content s i = some c := there
    obtain ⟨j, positive, found⟩ := rotate_keeps free filled
    obtain ⟨j, rfl⟩ := Nat.exists_eq_succ_of_ne_zero (Nat.pos_iff_ne_zero.mp positive)
    exact ⟨decimal (j + 1), decimal_ne_nil _, decimal_isdigit _,
      (congrFun rotated (j + 1)).trans found⟩
  · rcases saved with rfl | ⟨digits, some, numeral, rfl⟩
    · exact absurd rfl (away 0)
    · exact ⟨digits, some, numeral, (beside _ (.inr ⟨digits, some, numeral, rfl⟩) away).trans there⟩

theorem free_of_pacsavesKept (beside : SameBeside content s s')
    (rotated : slots content s' = rotate k (slots content s)) (distinct : Distinct content s)
    (kept : PacsavesKept content s s') :
    content s (slotTail k) = none ∨ content s (slotTail (k + 1)) = none := by
  cases last : content s (slotTail k) with
  | none => exact .inl rfl
  | some a =>
    cases above : content s (slotTail (k + 1)) with
    | none => exact .inr rfl
    | some b =>
      obtain ⟨digits, some, numeral, found⟩ := kept.kept _ b (slotTail_saved (k + 1)) above
      have saved : SavedTail (cstr "." ++ digits) := .inr ⟨digits, some, numeral, rfl⟩
      have other : ∀ tail, SavedTail tail → content s tail = Option.some b →
          tail = slotTail (k + 1) := fun tail saved there =>
        distinct _ _ b saved (slotTail_saved (k + 1)) there above
      rcases SavedTail.slot_or_beside (cstr "." ++ digits) with ⟨j, slot⟩ | away
      · have there : rotate k (slots content s) j = Option.some b := by
          rw [← rotated, slots, ← slot]
          exact found
        have filled : slots content s k = Option.some a := last
        obtain ⟨i, apart, source⟩ := source_of_rotate filled there
        exact absurd (slotTail_injective (other _ (slotTail_saved i) source)) apart
      · have before := (beside _ saved away).symm.trans found
        exact absurd (other _ saved before) (away (k + 1))

end Kept

/-- The slots rotate if `stat` finds what is at `.pacsave`. -/
theorem rotate_of_found {k : Nat} {s' : σ}
    (effect : slots content s' = if (content s []).any found then rotate k (slots content s)
      else shift k (slots content s)) (seen : ∀ c, content s [] = some c → found c = true) :
    slots content s' = rotate k (slots content s) := by
  rw [effect]
  cases base : content s [] with
  | none =>
    have empty : shift k (slots content s) 0 = none := (shift_zero k _).trans base
    exact (move_of_none empty).symm
  | some c =>
    rw [Option.any_some, seen c base]
    rfl

/-- Rotating the saved copies of a file loses none of them and frees `.pacsave` if the pattern
compiles, the directory can be read, and the call does not move a copy over another one; and
where the copies differ, only then. -/
theorem shiftPacsave_kept_iff (saves : Saves disk file content found)
    (range : ∀ text, host.strtoul text < 2 ^ 64) (fit : PathsFit disk host file s) :
    (RotationSafe disk host file content found s →
      PacsavesKept content s (shiftPacsave disk host file s)) ∧
    (Distinct content s → PacsavesKept content s (shiftPacsave disk host file s) →
      RotationSafe disk host file content found s) := by
  unfold RotationSafe
  split
  · rename_i accepts names compiled listed
    obtain ⟨k, last⟩ : ∃ k, LastShifted (savedNumbers host accepts (mbasename file) names) k :=
      ⟨_, lastShifted_logMax range accepts _ names⟩
    obtain ⟨beside, effect⟩ := saves.shiftPacsave range compiled listed fit last
    constructor
    · rintro ⟨seen, free⟩
      exact pacsavesKept_of_rotate beside (rotate_of_found effect seen) (free k last)
    · intro distinct kept
      have seen : ∀ c, content s [] = some c → found c = true := by
        intro c base
        by_contra unseen
        rw [base, Option.any_some, if_neg unseen] at effect
        have stays := (congrFun effect 0).trans ((shift_zero k _).trans base)
        have gone := kept.gone
        rw [show content _ [] = _ from stays] at gone
        cases gone
      refine ⟨seen, fun l other => ?_⟩
      rw [← last.unique other]
      exact free_of_pacsavesKept beside (rotate_of_found effect seen) distinct kept
  · rename_i unread
    have failed : host.regex (mbasename file) = none ∨ disk.readdir s (mdirname file) = none := by
      cases compiled : host.regex (mbasename file) with
      | none => exact .inl rfl
      | some accepts =>
        cases listed : disk.readdir s (mdirname file) with
        | none => exact .inr rfl
        | some names => exact (unread accepts names compiled listed).elim
    rw [shiftPacsave_unread disk host file s failed]
    constructor
    · intro free
      refine ⟨?_, free⟩
      rintro tail c (rfl | ⟨digits, some, numeral, rfl⟩) there
      · rw [free] at there
        cases there
      · exact ⟨digits, some, numeral, there⟩
    · exact fun _ kept => kept.gone

/-! ### Base names without special characters -/

def plainPattern (basename name : CStr) : Bool :=
  let digits := name.drop (basename.length + pacsave.length + 1)
  name = basename ++ pacsave ++ cstr "." ++ digits && digits ≠ [] && digits.all isdigit

theorem plainPattern_numbered (basename : CStr) (i : Nat) :
    plainPattern basename (basename ++ pacsave ++ slotTail (i + 1)) = true ∧
      (basename ++ pacsave ++ slotTail (i + 1)).drop (basename.length + pacsave.length + 1) =
        decimal (i + 1) := by
  have shape : basename ++ pacsave ++ slotTail (i + 1) =
      basename ++ pacsave ++ cstr "." ++ decimal (i + 1) := (append_assoc _ _ _).symm
  have digits : (basename ++ pacsave ++ slotTail (i + 1)).drop
      (basename.length + pacsave.length + 1) = decimal (i + 1) := by
    rw [shape]
    apply drop_left'
    rw [length_append, length_append]
    rfl
  refine ⟨?_, digits⟩
  simp only [plainPattern, digits, Bool.and_eq_true, decide_eq_true_eq, all_eq_true]
  exact ⟨⟨shape, decimal_ne_nil _⟩, decimal_isdigit _⟩

section Plain

variable {names : List CStr} {basename name : CStr} {n : Nat}

/-- `strtoul` in base 10 of a text of digits. -/
def Saturates (strtoul : CStr → Nat) : Prop :=
  ∀ digits : CStr, digits ≠ [] → (∀ d ∈ digits, isdigit d = true) →
    strtoul digits = min (digitsValue digits) (2 ^ 64 - 1)

theorem savedNumber_plain (parses : Saturates host.strtoul)
    (number : savedNumber host (plainPattern basename) basename name = some n) :
    plainPattern basename name = true ∧
      n = min (digitsValue (name.drop (basename.length + pacsave.length + 1))) (2 ^ 64 - 1) := by
  unfold savedNumber at number
  split at number
  · rename_i fits
    have accepted := fits.2.2
    have parts := accepted
    simp only [plainPattern, Bool.and_eq_true, decide_eq_true_eq, all_eq_true] at parts
    rw [parses _ parts.1.2 parts.2, Option.some.injEq] at number
    exact ⟨accepted, number.symm⟩
  · cases number

/-- With such a base name and no copy of a number that cannot be counted up from, nothing stands
in the way of the copies. -/
theorem rotationSafe_of_plain
    (compiled : host.regex (mbasename file) = some (plainPattern (mbasename file)))
    (parses : Saturates host.strtoul) (listed : disk.readdir s (mdirname file) = some names)
    (complete : ∀ tail, SavedTail tail → tail ≠ [] → content s tail ≠ none →
      mbasename file ++ pacsave ++ tail ∈ names)
    (seen : ∀ c, content s [] = some c → found c = true)
    (small : ∀ name ∈ names, plainPattern (mbasename file) name = true →
      digitsValue (name.drop ((mbasename file).length + pacsave.length + 1)) < 2 ^ 64 - 1) :
    RotationSafe disk host file content found s := by
  unfold RotationSafe
  rw [compiled, listed]
  refine ⟨seen, ?_⟩
  intro k last
  refine .inr (by_contra fun there => ?_)
  have mem := complete (slotTail (k + 1)) (slotTail_saved _) (cons_ne_nil _ _) there
  obtain ⟨accepted, digits⟩ := plainPattern_numbered (mbasename file) k
  have bound := small _ mem accepted
  rw [digits, digitsValue_decimal] at bound
  have number : k + 1 ∈ savedNumbers host (plainPattern (mbasename file)) (mbasename file) names := by
    refine ⟨_, mem, ?_⟩
    have long : 2 < (mbasename file ++ pacsave ++ slotTail (k + 1)).length := by
      rw [length_append, length_append, show pacsave.length = 8 from rfl]
      omega
    have notDot : mbasename file ++ pacsave ++ slotTail (k + 1) ≠ cstr "." := fun same =>
      absurd (same ▸ long) (by decide)
    have notDots : mbasename file ++ pacsave ++ slotTail (k + 1) ≠ cstr ".." := fun same =>
      absurd (same ▸ long) (by decide)
    rw [savedNumber, if_pos ⟨notDot, notDots, accepted⟩, digits,
      parses _ (decimal_ne_nil _) (decimal_isdigit _), digitsValue_decimal, Nat.min_eq_left bound.le]
  rcases last with ⟨⟨name, inside, wraps⟩, -⟩ | ⟨-, greatest⟩
  · obtain ⟨fits, value⟩ := savedNumber_plain parses wraps
    have low := small name inside fits
    omega
  · have top := greatest.2 (Set.mem_insert_of_mem 0 number)
    omega

end Plain

end Rotation

/-! ### On the file system without links -/

theorem SavedTail.whole {tail : CStr} (saved : SavedTail tail) : slash ∉ tail := by
  rcases saved with rfl | ⟨digits, -, numeral, rfl⟩
  · exact not_mem_nil
  · intro mem
    rcases mem_append.mp mem with dot | digit
    · exact absurd dot (by decide)
    · exact absurd (numeral slash digit) (by decide)

section MapDisk

variable {κ : Type}

def savedNode (file : CStr) (tree : Tree κ) (tail : CStr) : Option (TreeNode κ) :=
  tree.node (components (file ++ pacsave ++ tail))

theorem saved_keys (file : CStr) : ∃ (side : List CStr) (part : CStr), ∀ tail, SavedTail tail →
    components (file ++ pacsave ++ tail) = side ++ [part ++ (pacsave ++ tail)] := by
  obtain ⟨side, part, stem⟩ := exists_stem file
  exact ⟨side, part, fun tail saved => saved_key stem saved.whole⟩

theorem sibling_below_iff {side : List CStr} {a b : CStr} : side ++ [a] <+: side ++ [b] ↔ a = b := by
  simp

theorem rename_sibling (tree : Tree κ) (side : List CStr) {a b : CStr} (apart : a ≠ b) (c : CStr) :
    (tree.rename (side ++ [a]) (side ++ [b])).2.node (side ++ [c]) =
      match tree.node (side ++ [a]) with
      | none => tree.node (side ++ [c])
      | some node =>
        if c = b then some node else if c = a then none else tree.node (side ++ [c]) := by
  have same {d e : CStr} : side ++ [d] = side ++ [e] ↔ d = e := by simp
  unfold Tree.rename
  cases there : tree.node (side ++ [a]) with
  | none => rfl
  | some node =>
    cases node with
    | file content =>
      dsimp only [Tree.set]
      simp only [Function.update_apply, same]
    | directory =>
      have beside : ¬ (side ++ [a] <+: side ++ [b] ∧ side ++ [a] ≠ side ++ [b]) := by
        rw [sibling_below_iff]
        exact fun both => apart both.1
      rw [if_neg beside]
      simp only [Tree.move, sibling_below_iff]
      by_cases target : c = b
      · subst target
        rw [if_pos rfl, if_pos rfl, drop_length, append_nil, there]
      · rw [if_neg (Ne.symm target), if_neg target]
        simp only [@eq_comm _ a c]

theorem mapDisk_saves [DecidableEq κ] (system : MapSystem κ) (file : CStr) :
    Saves (mapDisk system) file (savedNode file) fun _ => true := by
  obtain ⟨side, part, key⟩ := saved_keys file
  refine ⟨?_, ?_⟩
  · intro tree
    rw [savedNode, append_nil]
    simp only [mapDisk, MapSystem.stat]
    cases tree.node (components (file ++ pacsave)) with
    | none => rfl
    | some node => cases node <;> rfl
  · intro tree i tail saved
    have apart : part ++ (pacsave ++ slotTail i) ≠ part ++ (pacsave ++ slotTail (i + 1)) := by
      intro same
      have equal := slotTail_injective (append_cancel_left (append_cancel_left same))
      omega
    have renamed := rename_sibling tree side apart (part ++ (pacsave ++ tail))
    simp only [append_cancel_left_eq] at renamed
    simp only [savedNode, mapDisk, key _ saved, key _ (slotTail_saved _)]
    rw [renamed]
    cases tree.node (side ++ [part ++ (pacsave ++ slotTail i)]) <;> rfl

theorem mem_children {tree : Tree κ} {key : List CStr} {name : CStr}
    (there : tree.node (key ++ [name]) ≠ none) : name ∈ tree.children key := by
  have some := Option.isSome_iff_ne_none.mpr there
  rw [Tree.children, mem_filterMap]
  refine ⟨key ++ [name], ?_, List.getLast?_concat⟩
  rw [mem_filter, decide_eq_true_eq]
  exact ⟨tree.covered _ some, append_ne_nil_of_right_ne_nil _ (cons_ne_nil _ _),
    dropLast_concat, some⟩

end MapDisk

theorem pathsFit_of_short {σ γ : Type} {disk : Disk σ γ} {host : FileHost} {file : CStr} {s : σ}
    (range : ∀ text, host.strtoul text < 2 ^ 64) (short : file.length + 29 < pathMax) :
    PathsFit disk host file s := by
  intro accepts names _ _ k last i low
  have bound : k < 2 ^ 64 := by
    rcases last with ⟨-, rfl⟩ | ⟨-, greatest⟩
    · exact Nat.two_pow_pos 64
    · rcases Set.mem_insert_iff.mp greatest.1 with rfl | ⟨name, -, number⟩
      · exact Nat.two_pow_pos 64
      · exact savedNumber_lt range number
  have digits := decimal_length (n := i) (by omega)
  have length : (pacsaveNumbered file i).length = file.length + 8 + 1 + (decimal i).length := by
    simp only [pacsaveNumbered, length_append]
    rfl
  omega

theorem strtoull_lt (text : CStr) : (strtoull text).result < 2 ^ 64 := by
  unfold strtoull
  split
  · exact Nat.two_pow_pos 64
  · rename_i minus digits rest scan
    by_cases large : 2 ^ 64 ≤ digitsValue digits
    · rw [if_pos large]
      exact Nat.sub_lt (Nat.two_pow_pos 64) Nat.one_pos
    · rw [if_neg large]
      cases minus with
      | true => exact Nat.mod_lt _ (Nat.two_pow_pos 64)
      | false => exact Nat.not_le.mp large

theorem strtoull_saturates : Saturates fun text => (strtoull text).result := by
  intro digits some numeral
  have scan := scanNumber_signed false numeral some
  simp only [Bool.false_eq_true, if_false, nil_append] at scan
  simp only [strtoull, scan, Bool.false_eq_true, if_false]
  split
  · rename_i large
    rw [Nat.min_eq_right ((Nat.sub_le _ _).trans large)]
  · rename_i small
    rw [Nat.min_eq_left (by omega)]

def rotatingHost : FileHost :=
  { FileHost.plain (fun _ => etcFiles) (fun _ => []) [] with
    regex := fun basename => some (plainPattern basename)
    strtoul := fun text => (strtoull text).result }

/-- Copies of `/etc/c`, given by the tail of their name and their content. -/
def copiesTree (copies : List (CStr × Nat)) : Tree Nat :=
  copies.foldl
    (fun tree copy => tree.set [cstr "etc", cstr "c" ++ pacsave ++ copy.1] (some (.file copy.2)))
    ((Tree.empty.set [] (some .directory)).set [cstr "etc"] (some .directory))

theorem etc_key {tail : CStr} (whole : slash ∉ tail) :
    components (cstr "/etc/c" ++ pacsave ++ tail) =
      [cstr "etc"] ++ [cstr "c" ++ pacsave ++ tail] := by
  have part : slash ∉ cstr "c" ++ pacsave ++ tail := fun mem =>
    (mem_append.mp mem).elim (by decide) whole
  exact (components_append (cstr "/etc") _).trans
    (congrArg (_ ++ ·) (components_of_part part (cons_ne_nil _ _)))

/-- A `.pacsave` file and a first copy. -/
theorem shiftPacsave_kept_two : let tree := copiesTree [([], 1), (slotTail 1, 2)]
    PacsavesKept (savedNode (cstr "/etc/c")) tree
      (shiftPacsave (mapDisk numberSystem) rotatingHost (cstr "/etc/c") tree) := by
  intro tree
  have listed : (mapDisk numberSystem).readdir tree (mdirname (cstr "/etc/c")) =
      some (tree.children [cstr "etc"]) := by decide +kernel
  refine (shiftPacsave_kept_iff (mapDisk_saves numberSystem (cstr "/etc/c")) strtoull_lt
    (pathsFit_of_short strtoull_lt (by decide))).1 ?_
  refine rotationSafe_of_plain rfl strtoull_saturates listed ?_ (fun _ _ => rfl) (by decide +kernel)
  intro tail saved _ there
  rw [savedNode, etc_key saved.whole] at there
  exact mem_children there

/-- A copy with the largest number that `strtoul` gives: the counter wraps, the numbered copies
stay where they are, and the `.pacsave` file is moved over the first of them. -/
theorem shiftPacsave_overwrites_first :
    let tree := copiesTree [([], 1), (slotTail 1, 2), (cstr ".18446744073709551615", 3)]
    let after := shiftPacsave (mapDisk numberSystem) rotatingHost (cstr "/etc/c") tree
    tree.fileAt (cstr "/etc/c.pacsave.1") = some 2 ∧ ∀ path, after.fileAt path ≠ some 2 := by
  intro tree after
  have listed : (mapDisk numberSystem).readdir tree (mdirname (cstr "/etc/c")) =
      some (tree.children [cstr "etc"]) := by decide +kernel
  have wraps : pacsaveLogMax rotatingHost (plainPattern (mbasename (cstr "/etc/c")))
      (mbasename (cstr "/etc/c")) (tree.children [cstr "etc"]) = 2 ^ 64 - 1 := by decide +kernel
  have moved : after = ((mapDisk numberSystem).rename (cstr "/etc/c" ++ pacsave)
      (pacsaveNumbered (cstr "/etc/c") 1) tree).2 := by
    have compiled : rotatingHost.regex (mbasename (cstr "/etc/c")) =
        some (plainPattern (mbasename (cstr "/etc/c"))) := rfl
    have short : ¬ ((cstr "/etc/c" ++ pacsave).length ≥ pathMax ∨
        (pacsaveNumbered (cstr "/etc/c") 1).length ≥ pathMax) := by decide +kernel
    have found : ((mapDisk numberSystem).stat tree (cstr "/etc/c" ++ pacsave)).isSome = true := by
      decide +kernel
    simp only [after, shiftPacsave, compiled, listed, wraps, show ¬ 2 ^ 64 - 1 + 1 < 2 ^ 64 by omega,
      if_false, shiftNumbered, short, found, if_true]
  have base : tree.node (components (cstr "/etc/c" ++ pacsave)) = some (.file 1) := by
    decide +kernel
  refine ⟨by decide +kernel, ?_⟩
  intro path there
  rw [Tree.fileAt_eq_some, moved, mapDisk_rename_file base] at there
  have node := there.2
  have target : components (pacsaveNumbered (cstr "/etc/c") 1) =
      [cstr "etc", cstr "c" ++ pacsave ++ slotTail 1] := by decide +kernel
  simp only [Function.update_apply, target, tree, copiesTree, foldl_cons, foldl_nil,
    Tree.set, Tree.empty] at node
  split_ifs at node <;> simp_all

end Dulge
