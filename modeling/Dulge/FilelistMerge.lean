import Dulge.Filelist

/-! The two merges of `filelist.c` over sorted file lists: what the difference and the
intersection of two lists contain, and for which lists. -/

namespace Dulge

open Comparator List

/-! ### The difference -/

variable {a b x y p : CStr} {files filesA filesB : List CStr}

theorem sorted_eq_of_count {left right : List CStr} (sortedL : Sorted strcmp left)
    (sortedR : Sorted strcmp right) (counts : ∀ name, left.count name = right.count name) :
    left = right := by
  have perm : left.Perm right := perm_iff_count.mpr counts
  refine perm.eq_of_pairwise ?_ sortedL sortedR
  intro a b _ _ ab ba
  have swap := strcmp_swap a b
  exact strcmp_eq_zero.mp (by omega)

def filesOnlyIn (filesA filesB : List CStr) : List CStr := filesA.filter fun name => name ∉ filesB

theorem count_filesOnlyIn (filesA filesB : List CStr) (name : CStr) :
    (filesOnlyIn filesA filesB).count name = if name ∈ filesB then 0 else filesA.count name := by
  unfold filesOnlyIn
  split
  · rename_i mem
    rw [count_eq_zero, mem_filter]
    simp [mem]
  · rename_i absent
    exact count_filter (by simpa using absent)

/-- The difference is the list of the entries that are new exactly when no entry of the
second list is repeated more often in the first. -/
theorem filelistDifference_eq_iff (filesA filesB : Filelist) :
    filelistDifference filesA.names filesB.names = filesOnlyIn filesA.names filesB.names ↔
      ∀ name ∈ filesB.names, filesA.names.count name ≤ filesB.names.count name := by
  have counts := count_filelistDifference filesA.sorted filesB.sorted
  constructor
  · intro equal name member
    have none := counts name
    rw [equal, count_filesOnlyIn, if_pos member] at none
    omega
  · intro few
    refine sorted_eq_of_count (filesA.sorted.sublist (filelistDifference_sublist _ _))
      (filesA.sorted.sublist filter_sublist) ?_
    intro name
    rw [counts, count_filesOnlyIn]
    split
    · rename_i member
      have := few name member
      omega
    · rename_i absent
      rw [count_eq_zero.mpr absent, Nat.sub_zero]

/-- A path that the new package lists twice stays in its list of new files although the
installed package has it. -/
theorem filelistDifference_repeated :
    Sorted strcmp [cstr "x", cstr "x"] ∧ Sorted strcmp [cstr "x"] ∧
      filelistDifference [cstr "x", cstr "x"] [cstr "x"] = [cstr "x"] ∧
      filesOnlyIn [cstr "x", cstr "x"] [cstr "x"] = [] := by
  unfold Sorted
  decide +kernel

/-! ### The intersection -/

def stripSlash (name : CStr) : CStr := if endsInSlash name then name.dropLast else name

def samePath (x y : CStr) : Bool :=
  stripSlash x = stripSlash y && !(endsInSlash x && endsInSlash y)

def sharedPaths (filesA filesB : List CStr) : List CStr :=
  filesA.filter fun x => filesB.any fun y => samePath x y

theorem charValue_eq_zero {name : CStr} (terminated : 0 ∉ name) : charValue name = 0 ↔ name = [] := by
  cases name with
  | nil => simp [charValue]
  | cons c cs =>
    have nonzero : c ≠ 0 := fun zero => terminated (zero ▸ mem_cons_self)
    have positive : c.toNat ≠ 0 := fun zero => nonzero (UInt8.toNat_inj.mp zero)
    have bound := c.toNat_lt
    simp only [charValue, reduceCtorEq, iff_false]
    split <;> omega

theorem charValue_cons_ne {c d : UInt8} (other : c ≠ d) (p q : CStr) :
    charValue (c :: p) ≠ charValue (d :: q) := by
  intro same
  apply other
  apply UInt8.toNat_inj.mp
  have := c.toNat_lt
  have := d.toNat_lt
  simp only [charValue] at same
  have small : ∀ e : UInt8, e < 128 ↔ e.toNat < 128 := fun e => UInt8.lt_iff_toNat_lt
  simp only [small] at same
  split at same <;> split at same <;> omega

/-- The comparison of the merge takes two names as equal when they differ in one trailing
slash at most. -/
theorem filelistPathcmp_eq_zero (zeroX : 0 ∉ x) (zeroY : 0 ∉ y) :
    filelistPathcmp x y = 0 ↔ x = y ∨ x = y ++ [slash] ∨ y = x ++ [slash] := by
  have skipped : ∀ {c : UInt8} {p : CStr}, 0 ∉ c :: p →
      ((if c = slash then charValue p else charValue (c :: p)) = 0 ↔ c :: p = [slash]) := by
    intro c p terminated
    split
    · rename_i isSlash
      rw [charValue_eq_zero fun inside => terminated (mem_cons_of_mem c inside), isSlash]
      simp
    · rename_i other
      rw [charValue_eq_zero terminated]
      simp [other]
  induction x generalizing y with
  | nil =>
    cases y with
    | nil => simp [filelistPathcmp]
    | cons d q =>
      have := skipped zeroY
      simp only [filelistPathcmp, show charValue [] = 0 from rfl, zero_sub, ← apply_ite Neg.neg,
        neg_eq_zero, this]
      simp
  | cons c p ih =>
    cases y with
    | nil =>
      have := skipped zeroX
      simp only [filelistPathcmp, show charValue [] = 0 from rfl, sub_zero, this]
      simp
    | cons d q =>
      simp only [mem_cons, not_or] at zeroX zeroY
      by_cases same : c = d
      · subst same
        simp [filelistPathcmp, ih zeroX.2 zeroY.2]
      · have differ := charValue_cons_ne same p q
        simp only [filelistPathcmp, same, if_false, cons_append, List.cons.injEq, false_and]
        simp [Ne.symm same, sub_eq_zero, differ]

theorem endsInSlash_dir (p : CStr) : endsInSlash (p ++ [slash]) = true := by
  simp [endsInSlash]

theorem samePath_iff : samePath x y = true ↔
    x = y ∧ endsInSlash x = false ∨ x = y ++ [slash] ∧ endsInSlash y = false ∨
      y = x ++ [slash] ∧ endsInSlash x = false := by
  constructor
  · intro same
    simp only [samePath, Bool.and_eq_true, decide_eq_true_eq, Bool.not_eq_true',
      Bool.and_eq_false_iff] at same
    obtain ⟨strip, plain⟩ := same
    cases endsX : endsInSlash x <;> cases endsY : endsInSlash y
    · simp only [stripSlash, endsX, endsY, Bool.false_eq_true, if_false] at strip
      exact .inl ⟨strip, rfl⟩
    · simp only [stripSlash, endsX, endsY, Bool.false_eq_true, if_false, if_true] at strip
      rw [strip, dropLast_of_endsInSlash endsY]
      exact .inr (.inr ⟨rfl, rfl⟩)
    · simp only [stripSlash, endsX, endsY, Bool.false_eq_true, if_false, if_true] at strip
      rw [← strip, dropLast_of_endsInSlash endsX]
      exact .inr (.inl ⟨rfl, rfl⟩)
    · rw [endsX, endsY] at plain
      simp at plain
  · rintro (⟨rfl, plain⟩ | ⟨rfl, plain⟩ | ⟨rfl, plain⟩)
    · simp [samePath, plain]
    · simp [samePath, plain, stripSlash, endsInSlash_dir]
    · simp [samePath, plain, stripSlash, endsInSlash_dir]

theorem samePath_pathcmp (zeroX : 0 ∉ x) (zeroY : 0 ∉ y) : samePath x y = true ↔
      filelistPathcmp x y = 0 ∧ (endsInSlash x = false ∨ endsInSlash y = false) := by
  rw [samePath_iff, filelistPathcmp_eq_zero zeroX zeroY]
  constructor
  · rintro (⟨rfl, plain⟩ | ⟨rfl, plain⟩ | ⟨rfl, plain⟩)
    · exact ⟨.inl rfl, .inl plain⟩
    · exact ⟨.inr (.inl rfl), .inr plain⟩
    · exact ⟨.inr (.inr rfl), .inl plain⟩
  · rintro ⟨rfl | rfl | rfl, plain⟩
    · exact .inl ⟨rfl, plain.elim id id⟩
    · rw [endsInSlash_dir] at plain
      exact .inr (.inl ⟨rfl, by simpa using plain⟩)
    · rw [endsInSlash_dir] at plain
      exact .inr (.inr ⟨rfl, by simpa using plain⟩)

theorem samePath_of_pathcmp_ne (zeroX : 0 ∉ x) (zeroY : 0 ∉ y) (differ : filelistPathcmp x y ≠ 0) :
    samePath x y = false := by
  rw [Bool.eq_false_iff, Ne, samePath_pathcmp zeroX zeroY]
  exact fun same => differ same.1

def Terminated (files : List CStr) : Prop := ∀ name ∈ files, 0 ∉ name

/-- No step of the merge moves on from an entry that it still has to report, or from the only
entry that another one would be reported for. -/
def keepsPartners : List CStr → List CStr → Bool
  | a :: filesA, b :: filesB =>
    if filelistPathcmp a b < 0 then
      !filesB.any (samePath a) && keepsPartners filesA (b :: filesB)
    else
      filesA.all (fun x => !samePath x b || filesB.any (samePath x)) &&
        if 0 < filelistPathcmp a b then keepsPartners (a :: filesA) filesB
        else keepsPartners filesA filesB
  | _, _ => true
termination_by filesA filesB => filesA.length + filesB.length

theorem all_spare : filesA.all (fun x => !samePath x b || filesB.any (samePath x)) = true ↔
      ∀ x ∈ filesA, samePath x b = true → filesB.any (samePath x) = true := by
  simp [← Bool.not_eq_true, imp_iff_not_or]

theorem filelistIntersection_sound (zeroA : Terminated filesA) (zeroB : Terminated filesB) :
    ∀ x ∈ filelistIntersection filesA filesB, x ∈ sharedPaths filesA filesB := by
  have widen : ∀ {filesA filesB more less : List CStr} {x : CStr}, x ∈ sharedPaths filesA filesB →
      filesA ⊆ more → filesB ⊆ less → x ∈ sharedPaths more less := by
    intro filesA filesB more less x shared subA subB
    simp only [sharedPaths, mem_filter, any_eq_true] at shared ⊢
    obtain ⟨mem, y, partner, same⟩ := shared
    exact ⟨subA mem, y, subB partner, same⟩
  induction filesA, filesB using filelistIntersection.induct with
  | case1 a filesA b filesB less ih =>
    intro x found
    rw [filelistIntersection, if_pos less] at found
    exact widen (ih (forall_mem_cons.mp zeroA).2 zeroB x found)
      (subset_cons_self a filesA) (List.Subset.refl _)
  | case2 a filesA b filesB notLess more ih =>
    intro x found
    rw [filelistIntersection, if_neg notLess, if_pos more] at found
    exact widen (ih zeroA (forall_mem_cons.mp zeroB).2 x found) (List.Subset.refl _)
      (subset_cons_self b filesB)
  | case3 a filesA b filesB notLess notMore plain ih =>
    intro x found
    rw [filelistIntersection, if_neg notLess, if_neg notMore, if_pos plain] at found
    obtain ⟨terminatedA, zeroA⟩ := forall_mem_cons.mp zeroA
    obtain ⟨terminatedB, zeroB⟩ := forall_mem_cons.mp zeroB
    rcases mem_cons.mp found with rfl | later
    · have same : samePath x b = true :=
        (samePath_pathcmp terminatedA terminatedB).mpr ⟨by omega, by simpa using plain⟩
      simp [sharedPaths, same]
    · exact widen (ih zeroA zeroB x later) (subset_cons_self a filesA)
        (subset_cons_self b filesB)
  | case4 a filesA b filesB notLess notMore dirs ih =>
    intro x found
    rw [filelistIntersection, if_neg notLess, if_neg notMore, if_neg dirs] at found
    exact widen (ih (forall_mem_cons.mp zeroA).2 (forall_mem_cons.mp zeroB).2 x found)
      (subset_cons_self a filesA) (subset_cons_self b filesB)
  | case5 filesA filesB short =>
    intro x found
    rw [filelistIntersection.eq_def] at found
    split at found
    · exact absurd rfl (short _ _ _ _ rfl)
    · cases found

theorem sharedPaths_cons (a : CStr) (filesA filesB : List CStr) : sharedPaths (a :: filesA) filesB =
      if filesB.any (samePath a) then a :: sharedPaths filesA filesB
      else sharedPaths filesA filesB := by
  simp [sharedPaths, filter_cons]

/-- A list of entries that share their path without the help of `b` has them all exactly
when no entry needs `b`. -/
theorem eq_sharedPaths_cons {found : List CStr} (sound : ∀ x ∈ found, x ∈ sharedPaths filesA filesB) :
    found = sharedPaths filesA (b :: filesB) ↔
      (∀ x ∈ filesA, samePath x b = true → filesB.any (samePath x) = true) ∧
        found = sharedPaths filesA filesB := by
  have drop : (∀ x ∈ filesA, samePath x b = true → filesB.any (samePath x) = true) →
      sharedPaths filesA (b :: filesB) = sharedPaths filesA filesB := by
    intro spare
    apply filter_congr
    intro x mem
    rw [any_cons]
    cases same : samePath x b with
    | false => rfl
    | true => simp [spare x mem same]
  constructor
  · intro equal
    have spare : ∀ x ∈ filesA, samePath x b = true → filesB.any (samePath x) = true := by
      intro x mem same
      have inside : x ∈ found := by
        rw [equal]
        simp [sharedPaths, mem, same]
      exact (mem_filter.mp (sound x inside)).2
    exact ⟨spare, equal.trans (drop spare)⟩
  · rintro ⟨spare, equal⟩
    exact equal.trans (drop spare).symm

theorem strcmp_dir (p : CStr) : strcmp p (p ++ [slash]) < 0 := by
  induction p with
  | nil => simp [strcmp]
  | cons c p ih => simpa [strcmp] using ih

theorem ne_of_strcmp_neg (less : strcmp x y < 0) : x ≠ y := by
  rintro rfl
  simp at less

theorem not_le_of_strcmp_neg (less : strcmp x y < 0) : ¬ strcmp y x ≤ 0 := by
  intro back
  exact ne_of_strcmp_neg (strcmp_lawful.lt_of_lt_of_le less back) rfl

theorem not_shared_of_dirs (sorted : Sorted strcmp (b :: filesB)) (zeroA : 0 ∉ a) (zeroB : 0 ∉ b)
    (equal : filelistPathcmp a b = 0) (dirA : endsInSlash a = true) (dirB : endsInSlash b = true) :
    (b :: filesB).any (samePath a) = false := by
  rw [any_eq_false]
  intro y mem same
  have behind : strcmp b y ≤ 0 := by
    rcases mem_cons.mp mem with rfl | later
    · simp
    · exact rel_of_pairwise_cons sorted later
  rcases samePath_iff.mp same with ⟨rfl, plain⟩ | ⟨rfl, plain⟩ | ⟨rfl, plain⟩
  · simp [dirA] at plain
  · rcases (filelistPathcmp_eq_zero zeroA zeroB).mp equal with rfl | shorter | rfl
    · exact not_le_of_strcmp_neg (strcmp_dir y) behind
    · rw [append_cancel_right shorter] at plain
      simp [dirB] at plain
    · have below := strcmp_of_prefix (prefix_append (y ++ [slash]) [slash])
      exact not_le_of_strcmp_neg (strcmp_dir y) (strcmp_trans below behind)
  · simp [dirA] at plain

theorem filelistIntersection_eq_iff_keepsPartners (sortedB : Sorted strcmp filesB)
    (nodupA : filesA.Nodup) (zeroA : Terminated filesA) (zeroB : Terminated filesB) :
    filelistIntersection filesA filesB = sharedPaths filesA filesB ↔
      keepsPartners filesA filesB = true := by
  induction filesA, filesB using filelistIntersection.induct with
  | case1 a filesA b filesB less ih =>
    obtain ⟨absent, nodupA⟩ := nodup_cons.mp nodupA
    obtain ⟨terminatedA, zeroA⟩ := forall_mem_cons.mp zeroA
    have terminatedB := (forall_mem_cons.mp zeroB).1
    have sound := filelistIntersection_sound zeroA zeroB
    have other := samePath_of_pathcmp_ne terminatedA terminatedB (by omega)
    rw [filelistIntersection, if_pos less, keepsPartners, if_pos less, Bool.and_eq_true,
      ← ih sortedB nodupA zeroA zeroB, sharedPaths_cons, any_cons, other, Bool.false_or]
    cases ahead : filesB.any (samePath a) with
    | false => simp
    | true =>
      simp only [if_true, Bool.not_true, Bool.false_eq_true, false_and, iff_false]
      intro equal
      have inside := sound a (equal ▸ mem_cons_self)
      exact absent (mem_filter.mp inside).1
  | case2 a filesA b filesB notLess more ih =>
    obtain ⟨terminatedA, _⟩ := forall_mem_cons.mp zeroA
    obtain ⟨terminatedB, zeroB⟩ := forall_mem_cons.mp zeroB
    have other := samePath_of_pathcmp_ne terminatedA terminatedB (by omega)
    rw [filelistIntersection, if_neg notLess, if_pos more, keepsPartners, if_neg notLess,
      if_pos more, Bool.and_eq_true, ← ih sortedB.of_cons nodupA zeroA zeroB,
      eq_sharedPaths_cons (filelistIntersection_sound zeroA zeroB), forall_mem_cons, all_spare]
    simp [other]
  | case3 a filesA b filesB notLess notMore plain ih =>
    obtain ⟨absent, nodupA⟩ := nodup_cons.mp nodupA
    obtain ⟨terminatedA, zeroA⟩ := forall_mem_cons.mp zeroA
    obtain ⟨terminatedB, zeroB⟩ := forall_mem_cons.mp zeroB
    have same : samePath a b = true :=
      (samePath_pathcmp terminatedA terminatedB).mpr ⟨by omega, by simpa using plain⟩
    rw [filelistIntersection, if_neg notLess, if_neg notMore, if_pos plain, keepsPartners,
      if_neg notLess, if_neg notMore, Bool.and_eq_true, ← ih sortedB.of_cons nodupA zeroA zeroB,
      sharedPaths_cons, any_cons, same, Bool.true_or, if_pos rfl, List.cons.injEq,
      eq_sharedPaths_cons (filelistIntersection_sound zeroA zeroB), all_spare]
    simp
  | case4 a filesA b filesB notLess notMore dirs ih =>
    have dirs : endsInSlash a = true ∧ endsInSlash b = true := by simpa using dirs
    obtain ⟨absent, nodupA⟩ := nodup_cons.mp nodupA
    obtain ⟨terminatedA, zeroA⟩ := forall_mem_cons.mp zeroA
    obtain ⟨terminatedB, zeroB⟩ := forall_mem_cons.mp zeroB
    have alone := not_shared_of_dirs sortedB terminatedA terminatedB (by omega) dirs.1 dirs.2
    rw [filelistIntersection, if_neg notLess, if_neg notMore, if_neg (by simp [dirs]),
      keepsPartners, if_neg notLess, if_neg notMore, Bool.and_eq_true,
      ← ih sortedB.of_cons nodupA zeroA zeroB, sharedPaths_cons, alone,
      if_neg (by simp), eq_sharedPaths_cons (filelistIntersection_sound zeroA zeroB), all_spare]
  | case5 filesA filesB short =>
    cases filesA with
    | nil => simp [filelistIntersection, keepsPartners, sharedPaths]
    | cons a filesA =>
      cases filesB with
      | nil => simp [filelistIntersection, keepsPartners, sharedPaths]
      | cons b filesB => exact absurd rfl (short a filesA b filesB rfl)

theorem strcmp_dir_between {q : CStr} (low : strcmp p q < 0) (high : strcmp q (p ++ [slash]) < 0) :
    strcmp (q ++ [slash]) (p ++ [slash]) < 0 := by
  induction p generalizing q with
  | nil =>
    cases q with
    | nil => simp [strcmp] at low
    | cons d q =>
      simp only [nil_append, cons_append, strcmp] at high ⊢
      rcases byte_trichotomy d slash with less | rfl | more
      · simp [less]
      · cases q <;> simp [strcmp] at high
      · simp [more, UInt8.lt_asymm more] at high
  | cons c p ih =>
    cases q with
    | nil => simp [strcmp] at low
    | cons d q =>
      simp only [cons_append, strcmp] at low high ⊢
      rcases byte_trichotomy c d with less | rfl | more
      · simp [less, UInt8.lt_asymm less] at high
      · simp only [UInt8.lt_irrefl, if_false] at low high ⊢
        exact ih low high
      · simp [more, UInt8.lt_asymm more] at low

/-- The comparison of the merge puts the entries of the lists in the order of `strcmp`. -/
def Agrees (filesA filesB : List CStr) : Prop :=
  ∀ x ∈ filesA, ∀ y ∈ filesB,
    (filelistPathcmp x y < 0 → strcmp x y < 0) ∧ (0 < filelistPathcmp x y → 0 < strcmp x y)

structure Adjacent (filesA filesB : List CStr) : Prop where
  /-- A directory of the first list that is no directory in the second one. -/
  dirA : ∀ p ∈ filesB, endsInSlash p = false → p ++ [slash] ∈ filesA →
    ∀ a ∈ filesA, strcmp p a ≤ 0 → 0 ≤ strcmp a (p ++ [slash])
  /-- A directory of the second list only that is no directory in the first one. -/
  dirB : ∀ p ∈ filesA, endsInSlash p = false → p ∉ filesB → p ++ [slash] ∈ filesB →
    ∀ b ∈ filesB, strcmp p b < 0 → 0 ≤ strcmp b (p ++ [slash])

theorem strcmp_ge_head (sorted : Sorted strcmp (a :: files)) (mem : x ∈ a :: files) :
    0 ≤ strcmp x a := by
  rcases mem_cons.mp mem with rfl | later
  · simp
  · have first := rel_of_pairwise_cons sorted later
    have turn := strcmp_swap a x
    omega

/-- In the order of `strcmp`, without a repetition. -/
def Ascending (files : List CStr) : Prop := files.Pairwise fun x y => strcmp x y < 0

theorem ascending_of_sorted (sorted : Sorted strcmp files) (nodup : files.Nodup) :
    Ascending files := by
  refine (sorted.and nodup).imp fun ⟨low, other⟩ => ?_
  have differ := strcmp_eq_zero.not.mpr other
  omega

theorem Ascending.sorted (ascending : Ascending files) : Sorted strcmp files :=
  ascending.imp le_of_lt

/-- A head that is below `p` is none of the entries from `p` on. -/
theorem mem_behind_head {head : CStr} (above : strcmp head p < 0) (low : strcmp p x ≤ 0)
    (mem : x ∈ head :: files) : x ∈ files := by
  rcases mem_cons.mp mem with rfl | later
  · exact absurd low (not_le_of_strcmp_neg above)
  · exact later

section Steps

variable {a b : CStr} {filesA filesB : List CStr}

theorem adjacent_next_left (sortedB : Sorted strcmp (b :: filesB)) (less : strcmp a b < 0)
    (other : b ≠ a ++ [slash]) : Adjacent (a :: filesA) (b :: filesB) ↔
      filesB.any (samePath a) = false ∧ Adjacent filesA (b :: filesB) := by
  have ahead : ∀ y ∈ b :: filesB, strcmp a y < 0 := sortedB.below_head strcmp_lawful less
  constructor
  · intro adjacent
    refine ⟨?_, ?_, ?_⟩
    · rw [any_eq_false]
      intro y mem same
      have above := ahead y (mem_cons_of_mem b mem)
      rcases samePath_iff.mp same with ⟨rfl, _⟩ | ⟨rfl, _⟩ | ⟨rfl, plain⟩
      · exact ne_of_strcmp_neg above rfl
      · exact not_le_of_strcmp_neg above (strcmp_dir y).le
      · -- the head of the second list stands between the two entries
        have high := adjacent.dirB a mem_cons_self plain
          (fun inside => ne_of_strcmp_neg (ahead a inside) rfl) (mem_cons_of_mem b mem)
          b mem_cons_self less
        have low := rel_of_pairwise_cons sortedB mem
        exact other (strcmp_eq_zero.mp (by omega))
    · intro p mem plain dir x inside
      exact adjacent.dirA p mem plain (mem_cons_of_mem a dir) x (mem_cons_of_mem a inside)
    · intro p mem
      exact adjacent.dirB p (mem_cons_of_mem a mem)
  · rintro ⟨alone, adjacent⟩
    refine ⟨?_, ?_⟩
    · intro p mem plain dir x inside low
      have above := ahead p mem
      exact adjacent.dirA p mem plain (mem_behind_head above (strcmp_dir p).le dir) x
        (mem_behind_head above low inside) low
    · intro p mem plain absent dir
      rcases mem_cons.mp mem with rfl | mem
      · rcases mem_cons.mp dir with isHead | dir
        · exact absurd isHead.symm other
        · have same : samePath p (p ++ [slash]) = true := samePath_iff.mpr (.inr (.inr ⟨rfl, plain⟩))
          rw [any_eq_false] at alone
          exact absurd same (alone _ dir)
      · exact adjacent.dirB p mem plain absent dir

theorem not_any_samePath_dir (ascB : Ascending (b :: filesB)) :
    filesB.any (samePath (b ++ [slash])) = false := by
  rw [any_eq_false]
  intro y mem same
  rcases samePath_iff.mp same with ⟨rfl, plain⟩ | ⟨equal, _⟩ | ⟨rfl, plain⟩
  · simp [endsInSlash_dir] at plain
  · rw [← append_cancel_right equal] at mem
    exact ne_of_strcmp_neg (rel_of_pairwise_cons ascB mem) rfl
  · simp [endsInSlash_dir] at plain

theorem adjacent_next_right (sortedA : Sorted strcmp (a :: filesA)) (ascB : Ascending (b :: filesB))
    (less : strcmp b a < 0) (other : a ≠ b ++ [slash]) : Adjacent (a :: filesA) (b :: filesB) ↔
      (∀ x ∈ filesA, samePath x b = true → filesB.any (samePath x) = true) ∧
        Adjacent (a :: filesA) filesB := by
  have ahead : ∀ x ∈ a :: filesA, strcmp b x < 0 := sortedA.below_head strcmp_lawful less
  constructor
  · intro adjacent
    refine ⟨?_, ?_, ?_⟩
    · intro x mem same
      have above := ahead x (mem_cons_of_mem a mem)
      rcases samePath_iff.mp same with ⟨rfl, _⟩ | ⟨rfl, plain⟩ | ⟨rfl, _⟩
      · exact absurd rfl (ne_of_strcmp_neg above)
      · have high := adjacent.dirA b mem_cons_self plain (mem_cons_of_mem a mem)
          a mem_cons_self less.le
        have low := rel_of_pairwise_cons sortedA mem
        exact absurd (strcmp_eq_zero.mp (by omega)) other
      · exact absurd (strcmp_dir x).le (not_le_of_strcmp_neg above)
    · intro p mem
      exact adjacent.dirA p (mem_cons_of_mem b mem)
    · intro p mem plain absent dir y inside
      refine adjacent.dirB p mem plain ?_ (mem_cons_of_mem b dir) y
        (mem_cons_of_mem b inside)
      rw [mem_cons, not_or]
      exact ⟨(ne_of_strcmp_neg (ahead p mem)).symm, absent⟩
  · rintro ⟨spare, adjacent⟩
    refine ⟨?_, ?_⟩
    · intro p mem plain dir
      rcases mem_cons.mp mem with rfl | mem
      · rcases mem_cons.mp dir with isHead | dir
        · exact absurd isHead.symm other
        · have left := spare _ dir (samePath_iff.mpr (.inr (.inl ⟨rfl, plain⟩)))
          rw [not_any_samePath_dir ascB] at left
          cases left
      · exact adjacent.dirA p mem plain dir
    · intro p mem plain absent dir y inside low
      have above := ahead p mem
      rw [mem_cons, not_or] at absent
      exact adjacent.dirB p mem plain absent.2 (mem_behind_head above (strcmp_dir p).le dir) y
        (mem_behind_head above low.le inside) low

def Paired (a b : CStr) : Prop := a = b ∨ a = b ++ [slash] ∨ b = a ++ [slash]

theorem dir_of_samePath_paired {x : CStr} (ascA : Ascending (a :: filesA)) (paired : Paired a b)
    (mem : x ∈ filesA) (same : samePath x b = true) :
    x = b ++ [slash] ∧ endsInSlash b = false ∧ a = b := by
  have before : strcmp a x < 0 := rel_of_pairwise_cons ascA mem
  have low : strcmp a x ≤ 0 := before.le
  have fresh : a ≠ x := ne_of_strcmp_neg before
  have drop : ∀ p : CStr, ¬ strcmp (p ++ [slash]) p ≤ 0 := by
    intro p
    exact not_le_of_strcmp_neg (strcmp_dir p)
  rcases samePath_iff.mp same with ⟨rfl, plain⟩ | ⟨rfl, plain⟩ | ⟨rfl, plain⟩
  · rcases paired with rfl | rfl | rfl
    · exact absurd rfl fresh
    · exact absurd low (drop x)
    · simp [endsInSlash_dir] at plain
  · rcases paired with rfl | rfl | rfl
    · exact ⟨rfl, plain, rfl⟩
    · exact absurd rfl fresh
    · simp [endsInSlash_dir] at plain
  · rcases paired with rfl | rfl | equal
    · exact absurd low (drop x)
    · exact absurd (strcmp_trans (strcmp_dir _).le low) (drop x)
    · exact absurd (append_cancel_right equal).symm fresh

theorem adjacent_tails (ascA : Ascending (a :: filesA)) (paired : Paired a b)
    (adjacent : Adjacent (a :: filesA) (b :: filesB)) : Adjacent filesA filesB := by
  refine ⟨?_, ?_⟩
  · intro p mem plain dir x inside
    exact adjacent.dirA p (mem_cons_of_mem b mem) plain (mem_cons_of_mem a dir) x
      (mem_cons_of_mem a inside)
  · intro p mem plain absent dir y inside
    refine adjacent.dirB p (mem_cons_of_mem a mem) plain ?_ (mem_cons_of_mem b dir) y
      (mem_cons_of_mem b inside)
    rw [mem_cons, not_or]
    refine ⟨?_, absent⟩
    rintro rfl
    have above : strcmp a p < 0 := rel_of_pairwise_cons ascA mem
    rcases paired with rfl | rfl | rfl
    · exact ne_of_strcmp_neg above rfl
    · exact not_le_of_strcmp_neg above (strcmp_dir p).le
    · simp [endsInSlash_dir] at plain

theorem Paired.symm (paired : Paired a b) : Paired b a := by
  rcases paired with same | longer | shorter
  · exact .inl same.symm
  · exact .inr (.inr longer)
  · exact .inr (.inl shorter)

-- the head of the other list is neither the directory of a later path nor above that path
theorem mem_tail_of_later (ascA : Ascending (a :: filesA)) (ascB : Ascending (b :: filesB))
    (paired : Paired a b) (mem : p ∈ filesB)
    (plain : endsInSlash p = false) (dir : p ++ [slash] ∈ a :: filesA) (inside : x ∈ a :: filesA)
    (low : strcmp p x ≤ 0) : p ++ [slash] ∈ filesA ∧ x ∈ filesA := by
  have above : strcmp b p < 0 := rel_of_pairwise_cons ascB mem
  rcases mem_cons.mp dir with rfl | later
  · rcases paired with rfl | equal | rfl
    · exact absurd (strcmp_dir p).le (not_le_of_strcmp_neg above)
    · rw [append_cancel_right equal] at above
      exact absurd rfl (ne_of_strcmp_neg above)
    · have twice := strcmp_trans (strcmp_dir p).le (strcmp_dir (p ++ [slash])).le
      exact absurd twice (not_le_of_strcmp_neg above)
  · refine ⟨later, (mem_cons.mp inside).resolve_left ?_⟩
    rintro rfl
    rcases paired with rfl | rfl | rfl
    · exact absurd low (not_le_of_strcmp_neg above)
    · -- what lies between a path and its directory lies there with its own directory
      have notDir : strcmp p (b ++ [slash]) ≠ 0 := by
        intro equal
        rw [strcmp_eq_zero.mp equal, endsInSlash_dir] at plain
        cases plain
      have below := strcmp_dir_between above (by omega)
      have order : strcmp (b ++ [slash]) (p ++ [slash]) < 0 := rel_of_pairwise_cons ascA later
      exact absurd order.le (not_le_of_strcmp_neg below)
    · exact absurd (strcmp_trans low (strcmp_dir x).le) (not_le_of_strcmp_neg above)

theorem adjacent_next_both (ascA : Ascending (a :: filesA)) (ascB : Ascending (b :: filesB))
    (paired : Paired a b) : Adjacent (a :: filesA) (b :: filesB) ↔
      (∀ x ∈ filesA, samePath x b = true → filesB.any (samePath x) = true) ∧
        Adjacent filesA filesB := by
  constructor
  · intro adjacent
    refine ⟨?_, adjacent_tails ascA paired adjacent⟩
    intro x mem same
    obtain ⟨rfl, plain, rfl⟩ := dir_of_samePath_paired ascA paired mem same
    have high := adjacent.dirA a mem_cons_self plain (mem_cons_of_mem a mem)
      a mem_cons_self (by simp)
    have := strcmp_dir a
    omega
  · rintro ⟨spare, adjacent⟩
    refine ⟨?_, ?_⟩
    · intro p mem plain dir x inside low
      rcases mem_cons.mp mem with rfl | mem
      · rcases mem_cons.mp dir with isHead | later
        · exact isHead ▸ strcmp_ge_head ascA.sorted inside
        · have left := spare _ later (samePath_iff.mpr (.inr (.inl ⟨rfl, plain⟩)))
          rw [not_any_samePath_dir ascB] at left
          cases left
      · have tails := mem_tail_of_later ascA ascB paired mem plain dir inside low
        exact adjacent.dirA p mem plain tails.1 x tails.2 low
    · intro p mem plain absent dir y inside low
      rw [mem_cons, not_or] at absent
      rcases mem_cons.mp mem with rfl | mem
      · rcases mem_cons.mp dir with isHead | later
        · exact isHead ▸ strcmp_ge_head ascB.sorted inside
        · rcases paired with rfl | rfl | rfl
          · exact absurd rfl absent.1
          · simp [endsInSlash_dir] at plain
          · exact absurd rfl (ne_of_strcmp_neg (rel_of_pairwise_cons ascB later))
      · have tails := mem_tail_of_later ascB ascA paired.symm mem plain dir inside low.le
        exact adjacent.dirB p mem plain absent.2 tails.1 y tails.2 low

end Steps

theorem Agrees.mono {lessA lessB : List CStr} (agrees : Agrees filesA filesB)
    (subA : lessA ⊆ filesA) (subB : lessB ⊆ filesB) : Agrees lessA lessB :=
  fun x memberX y memberY => agrees x (subA memberX) y (subB memberY)

theorem keepsPartners_iff_adjacent (ascA : Ascending filesA) (ascB : Ascending filesB)
    (zeroA : Terminated filesA) (zeroB : Terminated filesB) (agrees : Agrees filesA filesB) :
    keepsPartners filesA filesB = true ↔ Adjacent filesA filesB := by
  induction filesA, filesB using keepsPartners.induct with
  | case1 a filesA b filesB less ih =>
    have cmp := filelistPathcmp_eq_zero (zeroA a mem_cons_self) (zeroB b mem_cons_self)
    have before := (agrees a mem_cons_self b mem_cons_self).1 less
    have other : b ≠ a ++ [slash] := fun dir => by
      have := cmp.mpr (.inr (.inr dir))
      omega
    rw [keepsPartners, if_pos less, Bool.and_eq_true, Bool.not_eq_true',
      ih ascA.of_cons ascB (forall_mem_cons.mp zeroA).2 zeroB
        (agrees.mono (subset_cons_self a filesA) (List.Subset.refl _)),
      adjacent_next_left ascB.sorted before other]
  | case2 a filesA b filesB notLess ihRight ihBoth =>
    have cmp := filelistPathcmp_eq_zero (zeroA a mem_cons_self) (zeroB b mem_cons_self)
    rw [keepsPartners, if_neg notLess, Bool.and_eq_true, all_spare]
    by_cases more : 0 < filelistPathcmp a b
    · have before := (agrees a mem_cons_self b mem_cons_self).2 more
      have other : a ≠ b ++ [slash] := fun dir => by
        have := cmp.mpr (.inr (.inl dir))
        omega
      rw [if_pos more, ihRight ascA ascB.of_cons zeroA (forall_mem_cons.mp zeroB).2
          (agrees.mono (List.Subset.refl _) (subset_cons_self b filesB)),
        adjacent_next_right ascA.sorted ascB ((strcmp_lawful.swap a b).mpr before) other]
    · rw [if_neg more, ihBoth ascA.of_cons ascB.of_cons (forall_mem_cons.mp zeroA).2
          (forall_mem_cons.mp zeroB).2
          (agrees.mono (subset_cons_self a filesA) (subset_cons_self b filesB)),
        adjacent_next_both ascA ascB (cmp.mp (by omega))]
  | case3 filesA filesB short =>
    cases filesA with
    | nil => simp [keepsPartners, Adjacent.mk]
    | cons a filesA =>
      cases filesB with
      | nil => simp [keepsPartners, Adjacent.mk]
      | cons b filesB => exact absurd rfl (short a filesA b filesB rfl)

/-- A `char` below 128 has the value of its byte. -/
theorem charValue_of_plain {c : UInt8} (plain : c < 128) (p : CStr) :
    charValue (c :: p) = c.toNat := by
  simp [charValue, plain]

theorem charValue_nonneg (plain : ∀ c ∈ p, c < 128) : 0 ≤ charValue p := by
  cases p with
  | nil => simp [charValue]
  | cons c p =>
    rw [charValue_of_plain (plain c mem_cons_self)]
    omega

theorem pathcmp_sign_of_plain (plainX : ∀ c ∈ x, c < 128) (plainY : ∀ c ∈ y, c < 128) :
    (filelistPathcmp x y < 0 → strcmp x y < 0) ∧ (0 < filelistPathcmp x y → 0 < strcmp x y) := by
  induction x generalizing y with
  | nil =>
    cases y with
    | nil => simp [filelistPathcmp]
    | cons d q =>
      have whole := charValue_nonneg plainY
      have tail := charValue_nonneg (forall_mem_cons.mp plainY).2
      refine ⟨fun _ => by simp [strcmp], fun above => ?_⟩
      simp only [filelistPathcmp, show charValue [] = 0 from rfl] at above
      split at above <;> omega
  | cons c p ih =>
    have headX := plainX c mem_cons_self
    cases y with
    | nil =>
      have whole := charValue_nonneg plainX
      have tail := charValue_nonneg (forall_mem_cons.mp plainX).2
      refine ⟨fun below => ?_, fun _ => by simp [strcmp]⟩
      simp only [filelistPathcmp, show charValue [] = 0 from rfl] at below
      split at below <;> omega
    | cons d q =>
      have headY := plainY d mem_cons_self
      rcases byte_trichotomy c d with less | rfl | more
      · have order := UInt8.lt_iff_toNat_lt.mp less
        have differ : c ≠ d := fun equal => by simp [equal] at less
        simp only [filelistPathcmp, differ, if_false, charValue_of_plain headX,
          charValue_of_plain headY, strcmp, less, if_true]
        omega
      · have := ih (forall_mem_cons.mp plainX).2 (forall_mem_cons.mp plainY).2
        simpa [filelistPathcmp, strcmp] using this
      · have order := UInt8.lt_iff_toNat_lt.mp more
        have differ : c ≠ d := fun equal => by simp [equal] at more
        simp only [filelistPathcmp, differ, if_false, charValue_of_plain headX,
          charValue_of_plain headY, strcmp, more, UInt8.lt_asymm more, if_true]
        omega

/-- Names without a byte from 128 on compare as `strcmp` has them. -/
theorem agrees_of_plain (plainA : ∀ x ∈ filesA, ∀ c ∈ x, c < 128)
    (plainB : ∀ y ∈ filesB, ∀ c ∈ y, c < 128) : Agrees filesA filesB := by
  intro x memberX y memberY
  exact pathcmp_sign_of_plain (plainA x memberX) (plainB y memberY)

/-- The intersection is the list of the shared paths exactly when the merge passes over none
of them; and where its comparison agrees with the order of the lists, exactly when no other
entry stands between two that share a path. -/
theorem filelistIntersection_eq_iff (filesA filesB : Filelist) (nodupA : filesA.names.Nodup)
    (nodupB : filesB.names.Nodup) (zeroA : Terminated filesA.names)
    (zeroB : Terminated filesB.names) :
    (filelistIntersection filesA.names filesB.names = sharedPaths filesA.names filesB.names ↔
        keepsPartners filesA.names filesB.names = true) ∧ (Agrees filesA.names filesB.names →
        (filelistIntersection filesA.names filesB.names = sharedPaths filesA.names filesB.names ↔
          Adjacent filesA.names filesB.names)) := by
  have states := filelistIntersection_eq_iff_keepsPartners filesB.sorted nodupA zeroA zeroB
  refine ⟨states, fun agrees => ?_⟩
  rw [states]
  exact keepsPartners_iff_adjacent (ascending_of_sorted filesA.sorted nodupA)
    (ascending_of_sorted filesB.sorted nodupB) zeroA zeroB agrees

/-- The file `a-` is compared with `a` before the directory `a/` is. -/
theorem filelistIntersection_neighbour : Sorted strcmp [cstr "a-", cstr "a/"] ∧
      filelistIntersection [cstr "a-", cstr "a/"] [cstr "a"] = [] ∧
      sharedPaths [cstr "a-", cstr "a/"] [cstr "a"] = [cstr "a/"] := by
  unfold Sorted
  decide +kernel

/-- Two packages with a file and a directory of one name. -/
theorem filelistIntersection_shared :
    filelistIntersection [cstr "usr/", cstr "usr/x/"] [cstr "usr/", cstr "usr/x"] =
      sharedPaths [cstr "usr/", cstr "usr/x/"] [cstr "usr/", cstr "usr/x"] := by
  have sortedA : Sorted strcmp [cstr "usr/", cstr "usr/x/"] := by
    unfold Sorted
    decide +kernel
  have sortedB : Sorted strcmp [cstr "usr/", cstr "usr/x"] := by
    unfold Sorted
    decide +kernel
  have agrees : Agrees [cstr "usr/", cstr "usr/x/"] [cstr "usr/", cstr "usr/x"] := by
    apply agrees_of_plain <;> decide +kernel
  refine ((filelistIntersection_eq_iff ⟨_, sortedA⟩ ⟨_, sortedB⟩ ?_ ?_ ?_ ?_).2 agrees).mpr ⟨?_, ?_⟩
  all_goals
    simp only [Terminated]
    decide +kernel

end Dulge
