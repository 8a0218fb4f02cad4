import Dulge.FileConflict

/-! What a search without a conflict says about the files on disk. Every file that an entry of
a target would overwrite is settled by one of the reasons of the search. One of them is not a
good one: an entry `d//` of which only one slash is cut off is looked up as the directory `d/`. -/

namespace Dulge

open Loop List

def Findings.Grows (before after : Findings) : Prop :=
  before.conflicts.length ≤ after.conflicts.length

instance : IsPreorder Findings Findings.Grows where
  refl found := Nat.le_refl found.conflicts.length
  trans _ _ _ := Nat.le_trans

theorem Findings.Grows.quiet {before after : Findings} (grows : before.Grows after)
    (clean : after.conflicts = []) : before.conflicts = [] := by
  unfold Findings.Grows at grows
  rw [clean] at grows
  exact length_eq_zero_iff.mp (Nat.le_zero.mp grows)

section

variable {host : ConflictHost}

def OnDisk (host : ConflictHost) (path : CStr) : Prop :=
  ∃ kind, host.llstat (host.root ++ path) = some kind ∧ kind ≠ .directory

/-- Why a file may be overwritten: it is given up or adopted, or it is below an entry of the
list that is no directory on disk and whose name, less its slash, is given up. -/
def Settled (host : ConflictHost) (upgrade rem : List Pkg) (p : Pkg) (files : List CStr)
    (path : CStr) : Prop :=
  GivenUp host upgrade rem p path ∨ Adopted host p path ∨
    ∃ entry ∈ files, endsInSlash entry = true ∧ OnDisk host entry ∧ entry <+: path ∧
      GivenUp host upgrade rem p entry.dropLast

variable {upgrade rem : List Pkg} {p : Pkg}

theorem Settled.mono {files more : List CStr} {path : CStr}
    (settled : Settled host upgrade rem p files path) (subset : files ⊆ more) :
    Settled host upgrade rem p more path := by
  rcases settled with given | adopted | ⟨entry, mem, below⟩
  · exact .inl given
  · exact .inr (.inl adopted)
  · exact .inr (.inr ⟨entry, subset mem, below⟩)

def AllSettled (host : ConflictHost) (upgrade rem : List Pkg) (p : Pkg) (files : List CStr) : Prop :=
  ∀ path ∈ files, endsInSlash path = false → OnDisk host path →
    Settled host upgrade rem p files path

theorem AllSettled.cons {filestr : CStr} {rest remaining : List CStr}
    (tail : AllSettled host upgrade rem p remaining) (subset : remaining ⊆ rest)
    (head : endsInSlash filestr = false → OnDisk host filestr →
      Settled host upgrade rem p (filestr :: rest) filestr)
    (passed : ∀ path ∈ rest, path ∉ remaining → Settled host upgrade rem p (filestr :: rest) path) :
    AllSettled host upgrade rem p (filestr :: rest) := by
  intro path mem plain onDisk
  rcases mem_cons.mp mem with rfl | later
  · exact head plain onDisk
  · by_cases kept : path ∈ remaining
    · exact (tail path kept plain onDisk).mono fun name inside =>
        mem_cons_of_mem filestr (subset inside)
    · exact passed path later kept

theorem AllSettled.skip {filestr : CStr} {rest : List CStr}
    (tail : AllSettled host upgrade rem p rest) (absent : ¬ OnDisk host filestr) :
    AllSettled host upgrade rem p (filestr :: rest) := by
  apply tail.cons (List.Subset.refl rest)
  · exact fun _ onDisk => absurd onDisk absent
  · exact fun path mem dropped => absurd mem dropped

theorem addFileconflict_spec (memory : ∀ n, host.memory n = true) (filestr : CStr) (pkg1 : Pkg)
    (pkg2 : Option Pkg) (found : Findings) :
    ∃ found', addFileconflict host filestr pkg1 pkg2 found = (none, found') ∧
      found.conflicts.length < found'.conflicts.length := by
  rw [addFileconflict, if_pos (memory _)]
  exact ⟨_, rfl, by simp⟩

theorem checkTargets_advances (memory : ∀ n, host.memory n = true) (p1 : Pkg) (later : List Pkg) :
    (checkTargets host p1 later).Advances Findings.Grows := by
  apply each_advances
  intro p2 _
  apply each_advances
  intro filename _ found
  unfold checkCommon
  split
  · exact ⟨found, rfl, Nat.le_refl _⟩
  · obtain ⟨found', added, more⟩ :=
      addFileconflict_spec memory (host.root ++ filename) p1 (some p2) found
    exact ⟨found', added, Nat.le_of_lt more⟩

/-- The loop over new files ends, takes no conflict back, and when it leaves none then its
entries are settled. -/
theorem checkNewfiles_settles (upgrade rem : List Pkg) (p : Pkg)
    (memory : ∀ n, host.memory n = true) (overwrite : host.overwriteFiles = [])
    (files : List CStr) (found : Findings) :
    ∃ found', checkNewfiles host upgrade rem p files found = (none, found') ∧
      found.Grows found' ∧ (found'.conflicts = [] → AllSettled host upgrade rem p files) := by
  induction files, found using checkNewfiles.induct host upgrade rem p with
  | case1 found =>
    refine ⟨found, by rw [checkNewfiles], Nat.le_refl _, ?_⟩
    intro _ path mem
    cases mem
  | case2 filestr rest found absent ih =>
    obtain ⟨found', ran, grows, settles⟩ := ih
    refine ⟨found', by rw [checkNewfiles, absent]; exact ran, grows, ?_⟩
    intro clean
    apply (settles clean).skip
    rintro ⟨kind, there, _⟩
    rw [absent] at there
    cases there
  | case3 filestr rest found kind there directory ih =>
    obtain ⟨found', ran, grows, settles⟩ := ih
    refine ⟨found', by rw [checkNewfiles, there]; simpa only [directory, if_true] using ran,
      grows, ?_⟩
    intro clean
    apply (settles clean).skip
    rintro ⟨seen, again, file⟩
    rw [there] at again
    cases again
    simp [file] at directory
  | case4 filestr rest found kind there judged verdict found1 resolved ih =>
    obtain ⟨found', ran, grows, settles⟩ := ih
    have named := entry_named there (Bool.not_eq_true _ ▸ judged)
    refine ⟨found', ?_, grows, ?_⟩
    · rw [checkNewfiles, there]
      simp only [judged]
      exact (if_pos resolved).trans ran
    intro clean
    apply (settles clean).cons
    · split
      · exact (dropWhile_suffix _).subset
      · exact List.Subset.refl rest
    · intro plain ⟨seen, again, file⟩
      rw [there] at again
      cases again
      rcases judge_resolved overwrite named.nonempty plain file resolved with given | adopted
      · exact .inl given
      · exact .inr (.inl adopted)
    · intro path mem dropped
      split at dropped
      · rename_i passed
        obtain ⟨ends, given⟩ := judge_passOver named.nonempty passed
        have below := List.isPrefixOf_iff_prefix.mp
          ((Comparator.holds_or_mem_dropWhile mem).resolve_right dropped)
        have onDisk : OnDisk host filestr := by
          refine ⟨kind, there, ?_⟩
          rintro rfl
          simp [endsInSlash_append named.nonempty, ends] at judged
        exact .inr (.inr ⟨filestr, mem_cons_self, ends, onDisk, below, given⟩)
      · exact absurd mem dropped
  | case5 filestr rest found kind there judged verdict unresolved ih =>
    obtain ⟨mid, added, more⟩ := addFileconflict_spec memory
      (host.root ++ relativePath host.root filestr) p
        (findFileOwner host (relativePath host.root filestr))
      { found with skipRemove := found.skipRemove ++ verdict.moved }
    obtain ⟨found', ran, grows, _⟩ := ih mid
    refine ⟨found', ?_, Nat.le_trans (Nat.le_of_lt more) grows, ?_⟩
    · rw [checkNewfiles, there]
      simp only [judged]
      exact (if_neg unresolved).trans (proceed_ok.mpr ⟨mid, added, ran⟩)
    · intro clean
      have empty := grows.quiet clean
      simp [empty] at more

theorem newfiles_subset (p : Pkg) : newfiles host p ⊆ (host.files p).names := by
  unfold newfiles
  split
  · exact (filelistDifference_sublist _ _).subset
  · exact List.Subset.refl _

theorem installed_of_not_new {path : CStr} (entry : host.Lists p path)
    (old : path ∉ newfiles host p) : ∃ q, host.installed p = some q ∧ host.Lists q path := by
  unfold newfiles at old
  split at old
  · rename_i dbpkg found
    exact ⟨dbpkg, found, mem_of_not_mem_difference entry old⟩
  · exact absurd entry old

theorem checkUpgrade_settles (upgrade rem : List Pkg) (memory : ∀ n, host.memory n = true)
    (overwrite : host.overwriteFiles = []) (targets : List Pkg) (found : Findings) :
    ∃ found', checkUpgrade host upgrade rem targets found = (none, found') ∧ found.Grows found' ∧
      (found'.conflicts = [] → ∀ p ∈ targets, AllSettled host upgrade rem p (newfiles host p)) := by
  induction targets generalizing found with
  | nil =>
    refine ⟨found, rfl, Nat.le_refl _, ?_⟩
    intro _ p mem
    cases mem
  | cons p1 later ih =>
    obtain ⟨first, compared, grown⟩ := checkTargets_advances memory p1 later found
    obtain ⟨second, looked, more, settles⟩ :=
      checkNewfiles_settles upgrade rem p1 memory overwrite (newfiles host p1) first
    obtain ⟨found', rest, onward, others⟩ := ih second
    refine ⟨found', ?_, Nat.le_trans grown (Nat.le_trans more onward), ?_⟩
    · exact andThen_ok.mpr ⟨second, andThen_ok.mpr ⟨first, compared, looked⟩, rest⟩
    · intro clean p mem
      rcases mem_cons.mp mem with rfl | behind
      · exact settles (onward.quiet clean)
      · exact others clean p behind

theorem dbFindFileconflicts_settles (memory : ∀ n, host.memory n = true)
    (overwrite : host.overwriteFiles = [])
    (clean : (dbFindFileconflicts host upgrade rem).conflicts = []) (target : p ∈ upgrade) :
    AllSettled host upgrade rem p (host.files p).names := by
  obtain ⟨found', ran, _, settles⟩ :=
    checkUpgrade_settles upgrade rem memory overwrite upgrade ⟨[], []⟩
  simp only [dbFindFileconflicts, ran] at clean
  intro path entry plain onDisk
  by_cases new : path ∈ newfiles host p
  · exact (settles clean p target path new plain onDisk).mono (newfiles_subset p)
  · exact .inl (.inl (installed_of_not_new entry new))

end

/-- The reasons for which a file on disk may be overwritten by an entry of a target: the last
one is that the entry is below another one, `d/`, whose name `d` is the name of a file, not of
a directory, that is given up. -/
def Accounted (host : ConflictHost) (upgrade rem : List Pkg) (p : Pkg) (path : CStr) : Prop :=
  GivenUp host upgrade rem p path ∨ Adopted host p path ∨
    ∃ d, d ++ [slash] ∈ (host.files p).names ∧ d ++ [slash] <+: path ∧
      endsInSlash d = false ∧ GivenUp host upgrade rem p d

/-- An entry of two slashes misleads the search about a foreign file below it. The entry is no
directory on disk; what is given up is the directory `d/`, which is all that is left of `d//`
when one slash is cut off; and nothing accounts for the file. -/
structure Misleads (host : ConflictHost) (upgrade rem : List Pkg) (p : Pkg) (entry path : CStr) :
    Prop where
  listed : entry ∈ (host.files p).names
  slashes : endsInSlash entry = true ∧ endsInSlash entry.dropLast = true
  onDisk : OnDisk host entry
  directory : GivenUp host upgrade rem p entry.dropLast
  below : entry <+: path
  kept : ¬ GivenUp host upgrade rem p path
  foreign : ¬ Adopted host p path
  /-- No entry `d/` above the file takes the place of a file `d`. -/
  uncovered : ∀ d, d ++ [slash] ∈ (host.files p).names → d ++ [slash] <+: path →
    endsInSlash d = false → ¬ GivenUp host upgrade rem p d

section

variable {host : ConflictHost} {upgrade rem : List Pkg} {p : Pkg} {entry path : CStr}

theorem Misleads.not_accounted (misleads : Misleads host upgrade rem p entry path) :
    ¬ Accounted host upgrade rem p path := by
  rintro (given | adopted | ⟨d, listed, below, single, given⟩)
  · exact misleads.kept given
  · exact misleads.foreign adopted
  · exact misleads.uncovered d listed below single given

/-- A reason of the search is a good one, or the entry behind it has two slashes. -/
theorem Settled.accounted_or_misleads
    (settled : Settled host upgrade rem p (host.files p).names path) :
    Accounted host upgrade rem p path ∨ ∃ entry, Misleads host upgrade rem p entry path := by
  by_cases accounted : Accounted host upgrade rem p path
  · exact .inl accounted
  · simp only [Accounted, not_or, not_exists, not_and] at accounted
    obtain ⟨kept, foreign, uncovered⟩ := accounted
    rcases settled with given | adopted | ⟨entry, listed, ends, onDisk, below, given⟩
    · exact absurd given kept
    · exact absurd adopted foreign
    · have whole := dropLast_of_endsInSlash ends
      have double : endsInSlash entry.dropLast = true := by
        by_contra single
        exact uncovered entry.dropLast (whole.symm ▸ listed) (whole.symm ▸ below)
          (Bool.not_eq_true _ ▸ single) given
      exact .inr ⟨entry, listed, ⟨ends, double⟩, onDisk, given, below, kept, foreign, uncovered⟩

/-- A search that finds no conflict lets no foreign file be overwritten, unless an entry of two
slashes misleads it. -/
theorem accounted_iff_not_misled (memory : ∀ n, host.memory n = true)
    (overwrite : host.overwriteFiles = [])
    (clean : (dbFindFileconflicts host upgrade rem).conflicts = []) :
    (∀ p ∈ upgrade, ∀ path ∈ (host.files p).names, endsInSlash path = false → OnDisk host path →
        Accounted host upgrade rem p path) ↔
      ∀ p ∈ upgrade, ∀ path ∈ (host.files p).names, endsInSlash path = false → OnDisk host path →
        ∀ entry, ¬ Misleads host upgrade rem p entry path := by
  constructor
  · intro safe p target path listed plain onDisk entry misleads
    exact misleads.not_accounted (safe p target path listed plain onDisk)
  · intro straight p target path listed plain onDisk
    have settled := dbFindFileconflicts_settles memory overwrite clean target path listed plain onDisk
    rcases settled.accounted_or_misleads with accounted | ⟨entry, misleads⟩
    · exact accounted
    · exact absurd misleads (straight p target path listed plain onDisk entry)

end

def splitTarget : Pkg := Pkg.bare 0 (cstr "p") (cstr "2")

def splitInstalled : Pkg := { Pkg.bare 1 (cstr "p") (cstr "1") with origin := .localdb }

/-- The directory `a` of the installed version has been replaced by a link to `b`, where there is
a file `x`. -/
def splitHost (installed : Filelist) : ConflictHost where
  root := cstr "/"
  dbLocal := Db.populate [splitInstalled]
  files pkg :=
    if pkg.addr = 0 then ⟨[cstr "a//", cstr "a//x"], by unfold Comparator.Sorted; decide⟩
    else installed
  backup _ := []
  overwriteFiles := []
  fnmatch _ _ := false
  memory _ := true
  lstat path :=
    [(cstr "/", .directory), (cstr "/a", .symlink), (cstr "/b", .directory),
      (cstr "/b/x", .regular), (cstr "/a/x", .regular), (cstr "/a//x", .regular)].lookup path
  readdir _ := none
  depth _ := 0
  descends := by
    intro _ _ _ listing
    cases listing
  rootSlash := by decide
  rootDirectory := by decide

theorem splitHost_installed (installed : Filelist) :
    (splitHost installed).installed splitTarget = some splitInstalled := by
  change dbGetPkgfromcache (Db.populate [splitInstalled]) (cstr "p") = _
  decide +kernel

/-- The installed version lists the file behind the link, so the entry `a//` does no harm. -/
theorem accounted_behind_link :
    let host := splitHost ⟨[cstr "a/", cstr "a//x"], by unfold Comparator.Sorted; decide⟩
    ∀ p ∈ [splitTarget], ∀ path ∈ (host.files p).names, endsInSlash path = false →
      OnDisk host path → Accounted host [splitTarget] [] p path := by
  intro host
  refine (accounted_iff_not_misled (fun _ => rfl) rfl (by decide +kernel)).mpr ?_
  intro p target path listed plain _ entry misleads
  rw [mem_singleton.mp target] at listed misleads
  have file : path = cstr "a//x" := by
    rcases mem_pair.mp listed with rfl | rfl
    · exact absurd plain (by decide)
    · rfl
  subst file
  refine misleads.kept (.inl ⟨splitInstalled, splitHost_installed _, ?_⟩)
  exact mem_cons_of_mem _ mem_cons_self

theorem splitHost_givenUp {name : CStr}
    (given : GivenUp (splitHost ⟨[cstr "a/"], pairwise_singleton _ _⟩) [splitTarget]
      [] splitTarget name) : name = cstr "a/" := by
  rcases given with ⟨q, found, lists⟩ | ⟨q, mem, _⟩ | ⟨p2, mem, differs, _⟩
  · rw [splitHost_installed] at found
    cases found
    exact mem_singleton.mp lists
  · cases mem
  · rw [mem_singleton.mp mem] at differs
    exact absurd rfl differs

/-- The entry `a//` is taken for a file of the installed version that becomes a directory, and
`a//x` is passed over. -/
theorem dbFindFileconflicts_passes_foreign_file :
    let host := splitHost ⟨[cstr "a/"], pairwise_singleton _ _⟩
    (∀ n, host.memory n = true) ∧ host.overwriteFiles = [] ∧
      (dbFindFileconflicts host [splitTarget] []).conflicts = [] ∧
      cstr "a//x" ∈ (host.files splitTarget).names ∧ endsInSlash (cstr "a//x") = false ∧
      OnDisk host (cstr "a//x") ∧ ¬ Accounted host [splitTarget] [] splitTarget (cstr "a//x") := by
  refine ⟨fun _ => rfl, rfl, by decide +kernel, by decide +kernel, by decide,
    ⟨.regular, by decide +kernel, by decide⟩, ?_⟩
  rintro (given | ⟨⟨backup, member, _⟩, _⟩ | ⟨d, _, _, single, given⟩)
  · have same := splitHost_givenUp given
    exact absurd same (by decide)
  · cases member
  · rw [splitHost_givenUp given] at single
    exact absurd single (by decide)

end Dulge
