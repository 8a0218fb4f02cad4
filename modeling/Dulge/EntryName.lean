import Dulge.Filelist
import Dulge.Depstring

/-! What the loader accepts as name and version of a package, and the names of the entries
of the local database: `_alpm_pkg_check_meta` and `_alpm_splitname`. -/

namespace Dulge
open List

def hyphen : UInt8 := 45

/-! ### The checks of the metadata -/

def nameMax : Nat := 255

/-- The class of characters that `_alpm_pkg_check_meta` writes down. -/
def invalidCharacters : CStr := cstr "[![:alnum:]+_.@-]"

def metaError (name version reason : CStr) : CStr :=
  cstr "invalid metadata for package " ++ name ++ cstr "-" ++ version ++ cstr " (" ++ reason ++
    cstr ")\n"

/-- `_alpm_pkg_check_meta` of a package with a handle, as the errors that it logs. The name is
the pattern of the match and the class is the string, in the order of the source. -/
def pkgCheckMetaErrors (fnmatch : CStr → CStr → Bool) (name version : Option CStr) : List CStr :=
  match name, version with
  | some (n :: name), some (v :: version) =>
    let error := metaError (n :: name) (v :: version)
    (if n = hyphen ∨ n = 46 then
      [error (cstr "package name cannot start with '.' or '-'")] else []) ++
    (if fnmatch (n :: name) invalidCharacters then
      [error (cstr "package name contains invalid characters")] else []) ++
    (if ((memchr hyphen (v :: version)).bind fun parts => memchr hyphen parts.2).isSome then
      [error (cstr "package version contains invalid characters")] else []) ++
    (if (memchr slash (v :: version)).isSome then
      [error (cstr "package version contains invalid characters")] else []) ++
    (if nameMax < (n :: name).length + (v :: version).length + 1 then
      [error (cstr "package name and version too long")] else [])
  | _, _ => [cstr "invalid package metadata (name or version missing)"]

def pkgCheckMeta (fnmatch : CStr → CStr → Bool) (name version : Option CStr) : Int :=
  if (pkgCheckMetaErrors fnmatch name version).isEmpty then 0 else -1

/-- The checks of `_alpm_pkg_load_internal` behind a description file. -/
inductive InfoError where
  | missingName | missingVersion | invalidVersion
  deriving DecidableEq, Repr

def checkInfo (name version : Option CStr) : Option InfoError :=
  if name = none ∨ name = some [] then some .missingName
  else if version = none ∨ version = some [] then some .missingVersion
  else if (version.bind (memchr hyphen)).isNone then some .invalidVersion
  else none

def accepts (fnmatch : CStr → CStr → Bool) (name version : CStr) : Bool :=
  checkInfo (some name) (some version) = none && pkgCheckMeta fnmatch (some name) (some version) = 0

/-- A name and version that the loader takes: the version has one hyphen and no slash. -/
structure Accepted (name version : CStr) : Prop where
  named : name ≠ []
  versioned : ∃ pkgver pkgrel : CStr, version = pkgver ++ hyphen :: pkgrel ∧
    hyphen ∉ pkgver ∧ hyphen ∉ pkgrel
  noSlash : slash ∉ version

variable {name version target : CStr}

theorem accepted_of_accepts {fnmatch : CStr → CStr → Bool}
    (taken : accepts fnmatch name version = true) : Accepted name version := by
  simp only [accepts, Bool.and_eq_true, decide_eq_true_eq] at taken
  obtain ⟨info, checked⟩ := taken
  have named : name ≠ [] := by
    rintro rfl
    simp [checkInfo] at info
  have present : version ≠ [] := by
    rintro rfl
    simp [checkInfo, named] at info
  have split : ∃ parts, memchr hyphen version = some parts := by
    simp only [checkInfo, reduceCtorEq, Option.some.injEq, named, present, or_self, if_false,
      Option.bind_some] at info
    split at info
    · cases info
    · rename_i found
      exact Option.ne_none_iff_exists'.mp (by simpa using found)
  obtain ⟨parts, found⟩ := split
  obtain ⟨shape, first⟩ := memchr_some found
  obtain ⟨n, name, rfl⟩ := exists_cons_of_ne_nil named
  obtain ⟨v, version, rfl⟩ := exists_cons_of_ne_nil present
  have clean : pkgCheckMetaErrors fnmatch (some (n :: name)) (some (v :: version)) = [] := by
    simpa [pkgCheckMeta] using checked
  simp only [pkgCheckMetaErrors, append_eq_nil_iff, ite_eq_right_iff, cons_ne_self,
    imp_false] at clean
  obtain ⟨⟨⟨_, twice⟩, separator⟩, _⟩ := clean
  refine ⟨named, ⟨parts.1, parts.2, shape, first, ?_⟩, ?_⟩
  · rw [found, Option.bind_some, memchr_isSome] at twice
    exact twice
  · rwa [memchr_isSome] at separator

/-! ### Entries of the local database -/

def entryName (name version : CStr) : CStr := name ++ hyphen :: version

/-- What `_alpm_splitname` ends with: `fault` where it reads below the memory that is there. -/
inductive Split where
  | fault
  | invalid
  | parts (name version : CStr) (nameHash : Nat)
  deriving DecidableEq, Repr

/-- The loop that goes back to a hyphen or a terminator, over the cells below the pointer
from the nearest on: the cell it stops at and the cells below that one. -/
def scanBack : List UInt8 → Option (UInt8 × List UInt8)
  | [] => none
  | c :: cells => if c ≠ 0 ∧ c ≠ hyphen then scanBack cells else some (c, cells)

/-- `_alpm_splitname` for a caller that wants all three results. `before` are the cells of memory
below `target`, from the nearest on: the loops do not stop at the start of the string. -/
def splitname (before : List UInt8) (target : Option CStr) : Split :=
  match target with
  | none => .invalid
  | some target =>
    let cells := (target.takeWhile (· ≠ slash)).reverse ++ before
    match (scanBack cells).bind fun stop => scanBack stop.2 with
    | none => .fault
    | some (c, below) =>
      if c ≠ hyphen ∨ below.length = before.length then .invalid
      else
        -- a pointer below the string gives a length that no string reaches
        let name :=
          if before.length < below.length then target.take (below.length - before.length)
          else target
        let version := (cells.take (cells.length - below.length - 1)).reverse
        .parts name (version.takeWhile (· ≠ 0)) (hashSdbm name)

theorem scanBack_append {text : List UInt8} (zero : 0 ∉ text) (plain : hyphen ∉ text)
    (cells : List UInt8) : scanBack (text ++ hyphen :: cells) = some (hyphen, cells) := by
  induction text with
  | nil => simp [scanBack]
  | cons d text ih =>
    simp only [mem_cons, not_or] at zero plain
    rw [cons_append, scanBack, if_pos ⟨Ne.symm zero.1, Ne.symm plain.1⟩]
    exact ih zero.2 plain.2

theorem scanBack_length {cells below : List UInt8} {c : UInt8}
    (found : scanBack cells = some (c, below)) : below.length < cells.length := by
  induction cells with
  | nil => cases found
  | cons d cells ih =>
    rw [scanBack] at found
    split at found
    · exact Nat.lt_succ_of_lt (ih found)
    · cases found
      exact Nat.lt_succ_self _

theorem take_backwards (front : List UInt8) (rest : List UInt8) :
    (front ++ hyphen :: rest).take ((front ++ hyphen :: rest).length - rest.length - 1) = front := by
  have count : (front ++ hyphen :: rest).length - rest.length - 1 = front.length := by
    rw [length_append, length_cons]
    omega
  rw [count, take_left]

/-- A target with two hyphens before its first slash is taken apart at the second one from the
back, and taken for invalid if nothing stands before it. The memory below is not looked at. -/
theorem splitname_of_hyphens {pkgver pkgrel : CStr}
    (shape : target.takeWhile (· ≠ slash) = entryName name (pkgver ++ hyphen :: pkgrel))
    (zero : 0 ∉ pkgver ++ hyphen :: pkgrel) (singleL : hyphen ∉ pkgver) (singleR : hyphen ∉ pkgrel)
    (before : List UInt8) : splitname before (some target) = if name = [] then .invalid
      else .parts name (pkgver ++ hyphen :: pkgrel) (hashSdbm name) := by
  have text : (pkgver ++ hyphen :: pkgrel).takeWhile (· ≠ 0) = pkgver ++ hyphen :: pkgrel :=
    takeWhile_eq_self_iff.mpr (decide_ne_of_not_mem zero)
  have backwards : (entryName name (pkgver ++ hyphen :: pkgrel)).reverse ++ before =
      pkgrel.reverse ++ hyphen :: (pkgver.reverse ++ hyphen :: (name.reverse ++ before)) := by
    simp [entryName]
  simp only [mem_append, mem_cons, not_or] at zero
  have first := scanBack_append (mt mem_reverse.mp zero.2.2) (mt mem_reverse.mp singleR)
    (pkgver.reverse ++ hyphen :: (name.reverse ++ before))
  have second := scanBack_append (mt mem_reverse.mp zero.1) (mt mem_reverse.mp singleL)
    (name.reverse ++ before)
  simp only [splitname, shape, backwards, first, Option.bind_some, second]
  by_cases named : name = []
  · subst named
    simp
  have later : ¬ (hyphen ≠ hyphen ∨ (name.reverse ++ before).length = before.length) := by
    simp [named]
  rw [if_neg later, if_neg named]
  have front := take_backwards (pkgrel.reverse ++ hyphen :: pkgver.reverse) (name.reverse ++ before)
  simp only [append_assoc, cons_append] at front
  have start : (name.reverse ++ before).length - before.length = name.length := by simp
  have taken : target.take name.length = name := by
    have initial : name <+: target :=
      (prefix_append name _).trans (shape ▸ List.takeWhile_prefix _)
    exact prefix_iff_eq_take.mp initial |>.symm
  rw [front, start, if_pos (by simp [length_pos_iff.mpr named]), taken]
  simp only [reverse_append, reverse_cons, reverse_reverse, append_assoc,
    cons_append, nil_append, text]

theorem splitname_of_plain (accepted : Accepted name version) (zero : 0 ∉ version)
    (plain : slash ∉ name) (before : List UInt8) :
    splitname before (some (entryName name version)) = .parts name version (hashSdbm name) := by
  obtain ⟨named, ⟨pkgver, pkgrel, rfl, singleL, singleR⟩, noSlash⟩ := accepted
  have clean : slash ∉ entryName name (pkgver ++ hyphen :: pkgrel) := by
    rw [entryName, mem_append, mem_cons]
    rintro (mem | equal | mem)
    · exact plain mem
    · exact absurd equal (by decide)
    · exact noSlash mem
  have whole : (entryName name (pkgver ++ hyphen :: pkgrel)).takeWhile (· ≠ slash) = _ :=
    takeWhile_eq_self_iff.mpr (decide_ne_of_not_mem clean)
  rw [splitname_of_hyphens whole zero singleL singleR, if_neg named]

theorem takeWhile_of_slash (inside : slash ∈ name) (rest : CStr) :
    ((name ++ rest).takeWhile (· ≠ slash)).length < name.length := by
  induction name with
  | nil => cases inside
  | cons c name ih =>
    by_cases isSlash : c = slash
    · simp [isSlash]
    · have later : slash ∈ name := by
        rcases mem_cons.mp inside with equal | later
        · exact absurd equal.symm isSlash
        · exact later
      rw [cons_append, takeWhile_cons_of_pos (by simpa using isSlash)]
      simpa using ih later

theorem splitname_of_slash {foundName foundVersion : CStr} {nameHash : Nat} {before : List UInt8}
    (inside : slash ∈ name)
    (found : splitname before (some (entryName name version)) =
      .parts foundName foundVersion nameHash) : foundName ≠ name := by
  have short := takeWhile_of_slash inside (hyphen :: version)
  rintro rfl
  simp only [splitname] at found
  split at found
  · cases found
  · rename_i c below scanned
    split at found
    · cases found
    · obtain ⟨stop, first, second⟩ := Option.bind_eq_some_iff.mp scanned
      have one := scanBack_length first
      have two := scanBack_length second
      simp only [length_append, length_reverse] at one
      injection found with sameName
      have lengths := congrArg List.length sameName
      split at lengths
      · rw [length_take, entryName, length_append, length_cons] at lengths
        rw [entryName] at one
        omega
      · rw [entryName, length_append, length_cons] at lengths
        omega

theorem last_hyphen_injective {front front' back back' : CStr} (single : hyphen ∉ back)
    (single' : hyphen ∉ back') (equal : front ++ hyphen :: back = front' ++ hyphen :: back') :
    front = front' ∧ back = back' := by
  have reversed : back.reverse ++ hyphen :: front.reverse =
      back'.reverse ++ hyphen :: front'.reverse := by
    simpa using congrArg List.reverse equal
  have cut : ∀ text rest : CStr, hyphen ∉ text →
      (text ++ hyphen :: rest).takeWhile (· ≠ hyphen) = text := by
    intro text rest absent
    rw [takeWhile_append_of_pos (decide_ne_of_not_mem absent)]
    simp
  have backs : back.reverse = back'.reverse := by
    rw [← cut back.reverse front.reverse (mt mem_reverse.mp single), reversed,
      cut back'.reverse front'.reverse (mt mem_reverse.mp single')]
  have backs : back = back' := reverse_injective backs
  subst backs
  exact ⟨append_cancel_right equal, rfl⟩

theorem entryName_parts_injective {name' pkgver pkgver' pkgrel pkgrel' : CStr}
    (singleL : hyphen ∉ pkgver) (singleL' : hyphen ∉ pkgver') (singleR : hyphen ∉ pkgrel)
    (singleR' : hyphen ∉ pkgrel')
    (same : entryName name (pkgver ++ hyphen :: pkgrel) =
      entryName name' (pkgver' ++ hyphen :: pkgrel')) :
    name = name' ∧ pkgver = pkgver' ∧ pkgrel = pkgrel' := by
  have outer : (name ++ hyphen :: pkgver) ++ hyphen :: pkgrel =
      (name' ++ hyphen :: pkgver') ++ hyphen :: pkgrel' := by
    simpa [entryName] using same
  obtain ⟨inner, rfl⟩ := last_hyphen_injective singleR singleR' outer
  obtain ⟨rfl, rfl⟩ := last_hyphen_injective singleL singleL' inner
  exact ⟨rfl, rfl, rfl⟩

theorem entryName_injective {name' version' : CStr} (accepted : Accepted name version)
    (accepted' : Accepted name' version') (same : entryName name version = entryName name' version') :
    name = name' ∧ version = version' := by
  obtain ⟨_, ⟨pkgver, pkgrel, rfl, singleL, singleR⟩, _⟩ := accepted
  obtain ⟨_, ⟨pkgver', pkgrel', rfl, singleL', singleR'⟩, _⟩ := accepted'
  obtain ⟨rfl, rfl, rfl⟩ := entryName_parts_injective singleL singleL' singleR singleR' same
  exact ⟨rfl, rfl⟩

/-- The entry name of an accepted package gives its name and version back exactly when the
name has no slash; the entry names of accepted packages differ in any case. -/
theorem splitname_entryName_iff (fnmatch : CStr → CStr → Bool) (name version : CStr)
    (taken : accepts fnmatch name version = true) (zero : 0 ∉ version) (before : List UInt8) :
    (splitname before (some (entryName name version)) = .parts name version (hashSdbm name) ↔
        slash ∉ name) ∧ ∀ name' version', accepts fnmatch name' version' = true →
        entryName name version = entryName name' version' → name = name' ∧ version = version' := by
  have accepted := accepted_of_accepts taken
  refine ⟨⟨?_, ?_⟩, ?_⟩
  · intro exact inside
    exact splitname_of_slash inside exact rfl
  · intro plain
    exact splitname_of_plain accepted zero plain before
  · intro name' version' taken' same
    exact entryName_injective accepted (accepted_of_accepts taken') same

/-- A name with a slash passes the check of its characters, as it is the pattern there: it
matches no text but itself. Its entry name is not even a valid one. -/
theorem splitname_slash_name :
    accepts (fun pattern string => pattern = string) (cstr "a/b") (cstr "1-1") = true ∧
      splitname [0, 0] (some (entryName (cstr "a/b") (cstr "1-1"))) = .invalid := by
  decide +kernel

theorem splitname_plain_name : splitname [0] (some (cstr "foo-bar-1.0-2")) =
      .parts (cstr "foo-bar") (cstr "1.0-2") (hashSdbm (cstr "foo-bar")) :=
  (splitname_entryName_iff (fun pattern string => pattern = string) (cstr "foo-bar") (cstr "1.0-2")
    (by decide +kernel) (by decide +kernel) [0]).1.mpr (by decide +kernel)

/-! ### Names that are no entry names -/

theorem scanBack_eq_none {cells : List UInt8} (zero : 0 ∉ cells) (plain : hyphen ∉ cells) :
    scanBack cells = none := by
  induction cells with
  | nil => rfl
  | cons c cells ih =>
    simp only [mem_cons, not_or] at zero plain
    rw [scanBack, if_pos ⟨Ne.symm zero.1, Ne.symm plain.1⟩]
    exact ih zero.2 plain.2

theorem exists_last_hyphen {text : CStr} (inside : hyphen ∈ text) :
    ∃ front back : CStr, text = front ++ hyphen :: back ∧ hyphen ∉ back := by
  obtain ⟨back, front, shape, absent⟩ :=
    eq_append_cons_of_mem (mem_reverse.mpr inside)
  refine ⟨front.reverse, back.reverse, ?_, mt mem_reverse.mp absent⟩
  rw [← reverse_reverse text, shape]
  simp

theorem splitname_fault (zero : 0 ∉ target) (few : (target.takeWhile (· ≠ slash)).count hyphen < 2) :
    splitname [] (some target) = .fault := by
  have zero : 0 ∉ target.takeWhile (· ≠ slash) :=
    fun mem => zero ((List.takeWhile_prefix _).subset mem)
  simp only [splitname, append_nil]
  generalize target.takeWhile (· ≠ slash) = part at *
  by_cases inside : hyphen ∈ part
  · obtain ⟨front, back, rfl, single⟩ := exists_last_hyphen inside
    have plain : hyphen ∉ front := by
      rw [count_append, count_cons_self] at few
      exact count_eq_zero.mp (by omega)
    simp only [mem_append, mem_cons, not_or] at zero
    have first := scanBack_append (mt mem_reverse.mp zero.2.2) (mt mem_reverse.mp single)
      front.reverse
    have second := scanBack_eq_none (mt mem_reverse.mp zero.1) (mt mem_reverse.mp plain)
    simp [first, second]
  · have first := scanBack_eq_none (mt mem_reverse.mp zero) (mt mem_reverse.mp inside)
    simp only [first, Option.bind_none]

def IsEntry (text : CStr) : Prop :=
  ∃ name pkgver pkgrel, text = entryName name (pkgver ++ hyphen :: pkgrel) ∧ name ≠ [] ∧
    hyphen ∉ pkgver ∧ hyphen ∉ pkgrel

structure SplitsExactly (target : CStr) : Prop where
  inside : splitname [] (some target) ≠ .fault
  succeeds : ∀ before, (∃ name version nameHash,
    splitname before (some target) = .parts name version nameHash) ↔
      IsEntry (target.takeWhile (· ≠ slash))
  recomposes : ∀ before name version nameHash,
    splitname before (some target) = .parts name version nameHash →
      entryName name version = target.takeWhile (· ≠ slash)

theorem exists_entry_of_hyphens {text : CStr} (many : 2 ≤ text.count hyphen) :
    ∃ name pkgver pkgrel : CStr, text = entryName name (pkgver ++ hyphen :: pkgrel) ∧
      hyphen ∉ pkgver ∧ hyphen ∉ pkgrel := by
  have outer : hyphen ∈ text := count_pos_iff.mp (by omega)
  obtain ⟨front, pkgrel, rfl, singleR⟩ := exists_last_hyphen outer
  have inner : hyphen ∈ front := by
    rw [count_append, count_cons_self, count_eq_zero.mpr singleR] at many
    exact count_pos_iff.mp (by omega)
  obtain ⟨name, pkgver, rfl, singleL⟩ := exists_last_hyphen inner
  exact ⟨name, pkgver, pkgrel, by simp [entryName], singleL, singleR⟩

theorem splitsExactly_of_hyphens (zero : 0 ∉ target)
    (many : 2 ≤ (target.takeWhile (· ≠ slash)).count hyphen) : SplitsExactly target := by
  obtain ⟨name, pkgver, pkgrel, shape, singleL, singleR⟩ := exists_entry_of_hyphens many
  have zero : 0 ∉ pkgver ++ hyphen :: pkgrel := by
    intro mem
    have mem : 0 ∈ target.takeWhile (· ≠ slash) := by
      rw [shape, entryName]
      exact mem_append_right _ (mem_cons_of_mem _ mem)
    exact zero ((List.takeWhile_prefix _).subset mem)
  have split := splitname_of_hyphens shape zero singleL singleR
  by_cases named : name = []
  · subst named
    refine ⟨by simp [split], fun before => ?_, by simp [split]⟩
    simp only [split, if_true, reduceCtorEq, exists_false, false_iff]
    rintro ⟨name', pkgver', pkgrel', same, named, singleL', singleR'⟩
    rw [shape] at same
    exact named (entryName_parts_injective singleL singleL' singleR singleR' same).1.symm
  · refine ⟨by simp [split, named], fun before => ?_, ?_⟩
    · simp only [split, named, if_false]
      exact ⟨fun _ => ⟨name, pkgver, pkgrel, shape, named, singleL, singleR⟩, fun _ => ⟨_, _, _, rfl⟩⟩
    · intro before name' version' nameHash found
      rw [split, if_neg named] at found
      cases found
      exact shape.symm

/-- An entry name is split exactly, and inside the string, when it has two hyphens before its
first slash. -/
theorem splitsExactly_iff (target : CStr) (zero : 0 ∉ target) :
    SplitsExactly target ↔ 2 ≤ (target.takeWhile (· ≠ slash)).count hyphen := by
  constructor
  · intro exact
    by_contra few
    exact exact.inside (splitname_fault zero (by omega))
  · exact splitsExactly_of_hyphens zero

theorem splitsExactly_desc : SplitsExactly (cstr "foo-1.0-2/desc") :=
  (splitsExactly_iff (cstr "foo-1.0-2/desc") (by decide)).mpr (by decide +kernel)

/-- A name without hyphens is read below its start, and with hyphens there it even succeeds. -/
theorem splitname_below_start : splitname [] (some (cstr "foo")) = .fault ∧
      splitname [hyphen, 98, hyphen] (some (cstr "foo")) =
        .parts (cstr "foo") (cstr "b-foo") (hashSdbm (cstr "foo")) := by
  decide +kernel

end Dulge
