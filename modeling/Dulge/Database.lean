import Dulge.PkghashInvariant

/-! Databases, and the handle through which every operation reaches them. A
database is known by the package hash it has loaded, and its record carries the
proof that the hash is valid, so lookup through the table and search along the
list are the same function here once and for all. -/
namespace Dulge
open List

/-- `alpm_db_t`: `hash` is what `_alpm_db_get_pkgcache_hash` returns, `none` for a
database that is not valid or that cannot be loaded. -/
structure Db where
  hash : Option Pkghash
  usageInstall : Bool
  usageUpgrade : Bool
  invalid : Bool
  missing : Bool
  valid : ∀ h ∈ hash, h.Valid

def dbGetPkgcache (db : Db) : List Pkg :=
  match db.hash with
  | none => []
  | some hash => hash.list.map Node.data

def dbGetPkgfromcache (db : Db) (target : CStr) : Option Pkg :=
  match db.hash with
  | none => none
  | some hash => (pkghashFind hash target).join

theorem dbGetPkgcache_names (db : Db) : ((dbGetPkgcache db).map Pkg.name).Nodup := by
  unfold dbGetPkgcache
  cases loaded : db.hash with
  | none => exact nodup_nil
  | some hash =>
    rw [map_map]
    exact (db.valid hash loaded).names

theorem pkgFind_of_mem {pkgs : List Pkg} (names : (pkgs.map Pkg.name).Nodup) {p : Pkg}
    (mem : p ∈ pkgs) : pkgFind pkgs p.name = some p := by
  cases found : pkgFind pkgs p.name with
  | none => exact absurd rfl (pkgFind_none.mp found p mem)
  | some q =>
    obtain ⟨there, same⟩ := pkgFind_some found
    rw [inj_on_of_nodup_map names there mem same]

theorem dbGetPkgfromcache_eq (db : Db) (target : CStr) :
    dbGetPkgfromcache db target = pkgFind (dbGetPkgcache db) target := by
  have names := dbGetPkgcache_names db
  unfold dbGetPkgfromcache
  unfold dbGetPkgcache at names ⊢
  cases loaded : db.hash with
  | none => rfl
  | some hash =>
    simp only [loaded] at names
    have denotes : hash.Denotes (pkgFind (hash.list.map Node.data)) := by
      intro name p
      constructor
      · intro found
        obtain ⟨mem, same⟩ := pkgFind_some found
        exact ⟨same, mem_map.mp mem⟩
      · rintro ⟨rfl, mem⟩
        exact pkgFind_of_mem names (mem_map.mpr mem)
    simp [pkghashFind_spec (db.valid hash loaded) denotes]

/-- The entry loop of `local_db_populate`, over the entries whose name and
description could be read. A name that is already there is reported and skipped. -/
def populateEntries : Pkghash → Nat → List Pkg → Option Pkghash
  | hash, _, [] => some hash
  | hash, addr, pkg :: entries => do
      match ← pkghashFind hash pkg.name with
      | some _ => populateEntries hash addr entries
      | none => populateEntries (← pkghashAdd hash addr pkg) (addr + 1) entries

/-- `local_db_populate` from the estimated count and the readable entries on. -/
def localDbPopulate (estCount : Nat) (entries : List Pkg) : Option Pkghash := do
  let hash ← pkghashCreate estCount
  let hash ← populateEntries hash 0 entries
  some { hash with list := listMsort (fun a b => pkgCmp a.data b.data) hash.list.length hash.list }

theorem populateEntries_valid {entries : List Pkg} {hash hash' : Pkghash} {addr : Nat}
    (valid : hash.Valid) (below : ∀ node ∈ hash.list, node.addr < addr)
    (done : populateEntries hash addr entries = some hash') : hash'.Valid := by
  induction entries generalizing hash addr with
  | nil =>
    cases done
    exact valid
  | cons pkg entries ih =>
    obtain ⟨position, lt, probed, ⟨empty, absent⟩ | ⟨node, hit, named⟩⟩ :=
      probe_spec valid pkg.name
    · have found : pkghashFind hash pkg.name = some none := by
        simp [pkghashFind, probed, empty]
      have newAddr : ∀ node ∈ hash.list, node.addr ≠ addr :=
        fun node member => (below node member).ne
      rcases pkghashAddPkg_spec valid absent newAddr false with
        ⟨failed, _⟩ | ⟨next, added, valid', mem⟩
      · simp [populateEntries, found, pkghashAdd, failed] at done
      · simp only [populateEntries, found, pkghashAdd, added, Option.bind_eq_bind,
          Option.bind_some] at done
        refine ih valid' ?_ done
        intro node member
        rcases (mem node).mp member with old | rfl
        · exact Nat.lt_succ_of_lt (below node old)
        · exact Nat.lt_succ_self addr
    · have found : pkghashFind hash pkg.name = some (some node.data) := by
        simp [pkghashFind, probed, hit]
      simp only [populateEntries, found, Option.bind_eq_bind, Option.bind_some] at done
      exact ih valid below done

theorem Pkghash.Valid.reorder {h : Pkghash} (valid : h.Valid) {list : List Node}
    (perm : list.Perm h.list) : Pkghash.Valid { h with list := list } where
  holds := valid.holds.perm fun _ => perm.mem_iff
  names := (perm.map _).nodup_iff.mpr valid.names
  addrs := (perm.map _).nodup_iff.mpr valid.addrs
  count := valid.count.trans perm.length_eq.symm
  load := valid.load
  room := valid.room
  chained := valid.chained

theorem localDbPopulate_valid {estCount : Nat} {entries : List Pkg} {hash : Pkghash}
    (done : localDbPopulate estCount entries = some hash) : hash.Valid := by
  simp only [localDbPopulate, Option.bind_eq_bind, Option.bind_eq_some_iff] at done
  obtain ⟨created, create, filled, fill, last⟩ := done
  cases last
  have empty : ∀ node ∈ created.list, node.addr < 0 := by
    simp [(pkghashCreate_spec create).2.2.2.1]
  exact (populateEntries_valid (pkghashCreate_valid create) empty fill).reorder
    (listMsort_perm _ _ _)

def Db.populate (entries : List Pkg) : Db where
  hash := localDbPopulate entries.length entries
  usageInstall := true
  usageUpgrade := true
  invalid := false
  missing := false
  valid := fun _ done => localDbPopulate_valid done

example : (dbGetPkgcache (Db.populate [Pkg.bare 0 (cstr "b") (cstr "1"),
    Pkg.bare 1 (cstr "a") (cstr "1"), Pkg.bare 2 (cstr "b") (cstr "2")])).map Pkg.addr = [1, 0] := by
  decide +kernel

/-- The `ALPM_TRANS_FLAG_*` bits that dependency handling and preparation read. -/
structure TransFlags where
  nodeps : Bool
  nodepversion : Bool
  cascade : Bool
  recurse : Bool
  recurseall : Bool
  unneeded : Bool
  noconflicts : Bool
  deriving DecidableEq

def TransFlags.none : TransFlags := ⟨false, false, false, false, false, false, false⟩

/-- `alpm_handle_t`. The world outside the library is part of it: `answers n` is
what the front end writes into the `n`-th question, `memory n` says whether the
allocations of the `n`-th `_alpm_pkg_dup` succeed, `loads` whether the database
entry of a local package can be read to its end, and `fnmatch`, `filecacheFind` and
`statSize` are the calls into the C library and the file system. -/
structure Handle where
  dbLocal : Db
  dbsSync : List Db
  assumeinstalled : List Depend
  ignorepkg : List CStr
  ignoregroup : List CStr
  flags : Option TransFlags
  answers : Nat → Int
  memory : Nat → Bool
  loads : Pkg → Bool
  fnmatch : CStr → CStr → Bool
  filecacheFind : CStr → Option CStr
  statSize : CStr → Option Int

/-- A handle on which every question keeps its default answer, every duplication
succeeds, and nothing is ignored or in the file cache. -/
def Handle.quiet (dbLocal : Db) (dbsSync : List Db) (flags : TransFlags) : Handle where
  dbLocal := dbLocal
  dbsSync := dbsSync
  assumeinstalled := []
  ignorepkg := []
  ignoregroup := []
  flags := some flags
  answers := fun _ => 0
  memory := fun _ => true
  loads := fun _ => true
  fnmatch := fun _ _ => false
  filecacheFind := fun _ => none
  statSize := fun _ => none

/-- `force_load` returns 0. Only a local package is read on demand. -/
def forceLoad (handle : Handle) (pkg : Pkg) : Bool :=
  pkg.origin ≠ .localdb || handle.loads pkg

/-- The return value of the `n`-th `_alpm_pkg_dup`: a package that cannot be loaded
is duplicated all the same, with a value that some callers take for a failure. -/
def pkgDup (handle : Handle) (pkg : Pkg) (n : Nat) : Int :=
  if handle.memory n then if forceLoad handle pkg then 0 else 1 else -1

theorem pkgDup_loads {handle : Handle} {pkg : Pkg} {n : Nat} (copied : pkgDup handle pkg n = 0) :
    forceLoad handle pkg = true := by
  unfold pkgDup at copied
  split_ifs at copied with memory loads
  · exact loads
  · exact absurd copied one_ne_zero

theorem pkgDup_eq_zero {handle : Handle} (memory : ∀ n, handle.memory n = true) (pkg : Pkg)
    (n : Nat) : pkgDup handle pkg n = 0 ↔ forceLoad handle pkg = true := by
  simp [pkgDup, memory]

theorem pkgDup_ne {handle : Handle} (memory : ∀ n, handle.memory n = true) (pkg : Pkg) (n : Nat) :
    pkgDup handle pkg n ≠ -1 := by
  unfold pkgDup
  rw [if_pos (memory n)]
  split_ifs
  · decide
  · decide

def pkgShouldIgnore (handle : Handle) (pkg : Pkg) : Bool :=
  handle.ignorepkg.any (fun pattern => handle.fnmatch pattern pkg.name) ||
    pkg.groups.any fun grp => handle.ignoregroup.any fun pattern => handle.fnmatch pattern grp

/-- `handle->trans->flags`, which only code inside a transaction reads. -/
def Handle.transFlags (handle : Handle) : TransFlags := handle.flags.getD TransFlags.none

/-- `no_dep_version`: without a transaction there is no flag to read. -/
def noDepVersion (handle : Handle) : Bool :=
  match handle.flags with
  | none => false
  | some flags => flags.nodepversion

theorem noDepVersion_eq (handle : Handle) :
    noDepVersion handle = handle.transFlags.nodepversion := by
  unfold noDepVersion Handle.transFlags
  cases handle.flags with
  | none => rfl
  | some flags => rfl

end Dulge
