import Dulge.Version

/-! Packages and dependencies as the resolver reads them. A `Pkg` is one package
object with its metadata loaded: `addr` is the object's identity, so two objects
with equal metadata are still two values. Both records carry the proof that the
stored hash is the hash of the name, which every constructor of the source sets. -/
namespace Dulge

/-- `alpm_depmod_t` -/
inductive Depmod where
  | any | eq | ge | le | gt | lt
  deriving DecidableEq, Repr

/-- `alpm_depend_t` -/
structure Depend where
  name : CStr
  version : Option CStr
  desc : Option CStr
  nameHash : Nat
  mod : Depmod
  hashed : nameHash = hashSdbm name
  deriving DecidableEq

/-- `alpm_pkgreason_t` -/
inductive Pkgreason where
  | explicit | depend | unknown
  deriving DecidableEq, Repr

/-- `alpm_pkgfrom_t` -/
inductive Pkgfrom where
  | file | localdb | syncdb
  deriving DecidableEq, Repr

/-- The fields of `alpm_pkg_t` that dependency handling and transaction
preparation read. `removes`, `oldpkg` and `download_size` belong to the running
transaction and are part of its state. -/
structure Pkg where
  addr : Nat
  name : CStr
  nameHash : Nat
  version : CStr
  filename : Option CStr
  size : Int
  origin : Pkgfrom
  reason : Pkgreason
  groups : List CStr
  depends : List Depend
  optdepends : List Depend
  conflicts : List Depend
  provides : List Depend
  hashed : nameHash = hashSdbm name
  deriving DecidableEq

def Pkg.bare (addr : Nat) (name version : CStr) : Pkg where
  addr := addr
  name := name
  nameHash := hashSdbm name
  version := version
  filename := some name
  size := 0
  origin := .syncdb
  reason := .explicit
  groups := []
  depends := []
  optdepends := []
  conflicts := []
  provides := []
  hashed := rfl

def Depend.new (name : CStr) (mod : Depmod) (version desc : Option CStr) : Depend where
  name := name
  version := version
  desc := desc
  nameHash := hashSdbm name
  mod := mod
  hashed := rfl

/-- `alpm_depmissing_t` -/
structure Depmissing where
  target : CStr
  depend : Depend
  causingpkg : Option CStr
  deriving DecidableEq

def pkgCmp (pkg1 pkg2 : Pkg) : Int := strcmp pkg1.name pkg2.name

def pkgFind (haystack : List Pkg) (needle : CStr) : Option Pkg :=
  haystack.find? fun info => info.nameHash = hashSdbm needle ∧ strcmp info.name needle = 0

theorem pkgFind_eq (haystack : List Pkg) (needle : CStr) :
    pkgFind haystack needle = haystack.find? fun info => info.name = needle := by
  unfold pkgFind
  congr 1
  funext info
  have hash : info.name = needle → info.nameHash = hashSdbm needle := fun same => same ▸ info.hashed
  simp only [strcmp_eq_zero, decide_eq_decide]
  exact ⟨And.right, fun same => ⟨hash same, same⟩⟩

variable {haystack pkgs : List Pkg} {needle : CStr} {dep : Depend}

theorem pkgFind_some {p : Pkg} (h : pkgFind haystack needle = some p) :
    p ∈ haystack ∧ p.name = needle := by
  rw [pkgFind_eq] at h
  exact ⟨List.mem_of_find?_eq_some h, by simpa using List.find?_some h⟩

theorem pkgFind_none : pkgFind haystack needle = none ↔ ∀ p ∈ haystack, p.name ≠ needle := by
  simp [pkgFind_eq]

theorem pkgFind_isSome :
    (pkgFind haystack needle).isSome = true ↔ ∃ p ∈ haystack, p.name = needle := by
  simp [pkgFind_eq]

def depVercmp (version1 : Option CStr) (mod : Depmod) (version2 : Option CStr) : Bool :=
  match mod with
  | .any => true
  | .eq => pkgVercmp version1 version2 = 0
  | .ge => pkgVercmp version1 version2 ≥ 0
  | .le => pkgVercmp version1 version2 ≤ 0
  | .lt => pkgVercmp version1 version2 < 0
  | .gt => pkgVercmp version1 version2 > 0

def depcmpLiteral (pkg : Pkg) (dep : Depend) : Bool :=
  if pkg.nameHash ≠ dep.nameHash ∨ strcmp pkg.name dep.name ≠ 0 then false
  else depVercmp (some pkg.version) dep.mod dep.version

/-- One provision against a dependency: a provision without a version only
satisfies a dependency on any version. -/
def provisionSatisfies (dep provision : Depend) : Bool :=
  let named := provision.nameHash = dep.nameHash ∧ strcmp provision.name dep.name = 0
  if dep.mod = .any then named
  else if provision.mod = .eq then named ∧ depVercmp provision.version dep.mod dep.version
  else false

def depcmpProvides (dep : Depend) (provisions : List Depend) : Bool :=
  provisions.any (provisionSatisfies dep)

def depcmp (pkg : Pkg) (dep : Depend) : Bool :=
  depcmpLiteral pkg dep || depcmpProvides dep pkg.provides

/-- `_alpm_pkg_depends_on`: does `pkg2` satisfy a dependency of `pkg1`? -/
def pkgDependsOn (pkg1 pkg2 : Pkg) : Bool := pkg1.depends.any (depcmp pkg2)

def findDepSatisfier (pkgs : List Pkg) (dep : Depend) : Option Pkg :=
  pkgs.find? fun pkg => depcmp pkg dep

theorem findDepSatisfier_some {p : Pkg} (h : findDepSatisfier pkgs dep = some p) :
    p ∈ pkgs ∧ depcmp p dep = true :=
  ⟨List.mem_of_find?_eq_some h, List.find?_some (p := fun pkg => depcmp pkg dep) h⟩

theorem findDepSatisfier_none :
    findDepSatisfier pkgs dep = none ↔ ∀ p ∈ pkgs, depcmp p dep = false := by
  simp [findDepSatisfier]

theorem findDepSatisfier_isSome :
    (findDepSatisfier pkgs dep).isSome = true ↔ ∃ p ∈ pkgs, depcmp p dep = true := by
  simp [findDepSatisfier]

theorem pkgDependsOn_iff {pkg1 pkg2 : Pkg} :
    pkgDependsOn pkg1 pkg2 = true ↔ ∃ dep ∈ pkg1.depends, depcmp pkg2 dep = true := by
  simp [pkgDependsOn]

/-- The dependency as `NODEPVERSION` rewrites it for the time of a check. -/
def Depend.anyVersion (dep : Depend) : Depend := { dep with mod := .any }

theorem depcmpLiteral_iff {pkg : Pkg} : depcmpLiteral pkg dep = true ↔
      pkg.name = dep.name ∧ depVercmp (some pkg.version) dep.mod dep.version = true := by
  have hash : pkg.name = dep.name → pkg.nameHash = dep.nameHash := by
    intro same
    rw [pkg.hashed, dep.hashed, same]
  unfold depcmpLiteral
  simp only [ne_eq, strcmp_eq_zero]
  split_ifs with other
  · simp only [false_iff, not_and]
    intro same
    rcases other with differs | differs
    · exact absurd (hash same) differs
    · exact absurd same differs
  · simp only [not_or, not_not] at other
    simp [other.2]

theorem provisionSatisfies_iff {provision : Depend} :
    provisionSatisfies dep provision = true ↔ provision.name = dep.name ∧ (dep.mod = .any ∨
        provision.mod = .eq ∧ depVercmp provision.version dep.mod dep.version = true) := by
  have hash : provision.name = dep.name → provision.nameHash = dep.nameHash := by
    intro same
    rw [provision.hashed, dep.hashed, same]
  unfold provisionSatisfies
  simp only [strcmp_eq_zero]
  split_ifs with any eq
  · simp only [decide_eq_true_eq, any, true_or, and_true]
    exact ⟨And.right, fun same => ⟨hash same, same⟩⟩
  · simp only [decide_eq_true_eq, any, eq, true_and, false_or]
    exact ⟨fun h => ⟨h.1.2, h.2⟩, fun h => ⟨⟨hash h.1, h.1⟩, h.2⟩⟩
  · simp [any, eq]

theorem depcmpProvides_anyVersion {provisions : List Depend}
    (h : depcmpProvides dep provisions = true) :
    depcmpProvides dep.anyVersion provisions = true := by
  simp only [depcmpProvides, List.any_eq_true, provisionSatisfies_iff] at h ⊢
  obtain ⟨provision, mem, same, _⟩ := h
  exact ⟨provision, mem, same, .inl rfl⟩

theorem depcmp_anyVersion {pkg : Pkg} (h : depcmp pkg dep = true) :
    depcmp pkg dep.anyVersion = true := by
  unfold depcmp at h ⊢
  rcases Bool.or_eq_true_iff.mp h with literal | provided
  · have any : depcmpLiteral pkg dep.anyVersion = true :=
      depcmpLiteral_iff.mpr ⟨(depcmpLiteral_iff.mp literal).1, rfl⟩
    rw [any, Bool.true_or]
  · rw [depcmpProvides_anyVersion provided, Bool.or_true]

end Dulge
