import Dulge.Checkdeps
import Dulge.Depstring

/-! `resolvedep` and `_alpm_resolvedeps`: the search for one satisfier, and the
recursive search that collects a package with what it needs. The list of packages
is passed through the recursion and put back when something below fails, while
what is reported and how many questions were asked is not. The recursion runs with
fuel, and `none` is a search that is not finished. -/
namespace Dulge
open List Option

inductive ResolveError where
  | pkgIgnored | pkgNotFound
  deriving DecidableEq, Repr

/-- The question whether an ignored package is to be installed, which is only asked
when the caller wants it. -/
def askInstall (handle : Handle) (prompt : Bool) (asked : Nat) : Bool × Nat :=
  if prompt then (handle.answers asked ≠ 0, asked + 1) else (false, asked)

def Db.usable (db : Db) : Bool := db.usageInstall || db.usageUpgrade

/-- The loop for literals. It returns the package, or whether one was ignored. -/
def resolveLiteral (handle : Handle) (dep : Depend) (excluding : List Pkg) (prompt : Bool) :
    List Db → Bool → Nat → Option Pkg × Bool × Nat
  | [], ignored, asked => (none, ignored, asked)
  | db :: dbs, ignored, asked =>
    if db.usable then
      match dbGetPkgfromcache db dep.name with
      | none => resolveLiteral handle dep excluding prompt dbs ignored asked
      | some pkg =>
        if depcmpLiteral pkg dep && (pkgFind excluding pkg.name).isNone then
          if pkgShouldIgnore handle pkg then
            let (install, asked) := askInstall handle prompt asked
            if install then (some pkg, ignored, asked)
            else resolveLiteral handle dep excluding prompt dbs true asked
          else (some pkg, ignored, asked)
        else resolveLiteral handle dep excluding prompt dbs ignored asked
    else resolveLiteral handle dep excluding prompt dbs ignored asked

def providesOther (dep : Depend) (excluding : List Pkg) (pkg : Pkg) : Bool :=
  decide (pkg.nameHash ≠ dep.nameHash ∨ strcmp pkg.name dep.name ≠ 0) &&
    depcmpProvides dep pkg.provides && (pkgFind excluding pkg.name).isNone

/-- The loop for satisfiers over the packages of the usable databases. A provider
that is installed ends it at once. -/
def resolveProviders (handle : Handle) (dep : Depend) (excluding : List Pkg) (prompt : Bool) :
    List Pkg → List Pkg → Bool → Nat → Option Pkg × List Pkg × Bool × Nat
  | [], providers, ignored, asked => (none, providers, ignored, asked)
  | pkg :: pkgs, providers, ignored, asked =>
    if providesOther dep excluding pkg then
      let (install, asked) :=
        if pkgShouldIgnore handle pkg then askInstall handle prompt asked else (true, asked)
      if install then
        if (dbGetPkgfromcache handle.dbLocal pkg.name).isSome then
          (some pkg, providers, ignored, asked)
        else resolveProviders handle dep excluding prompt pkgs (providers ++ [pkg]) ignored asked
      else resolveProviders handle dep excluding prompt pkgs providers true asked
    else resolveProviders handle dep excluding prompt pkgs providers ignored asked

def selectProvider (handle : Handle) (providers : List Pkg) (asked : Nat) : Option Pkg × Nat :=
  let (useIndex, asked) :=
    if 1 < providers.length then (handle.answers asked, asked + 1) else (0, asked)
  if 0 ≤ useIndex then (providers[useIndex.toNat]?, asked) else (none, asked)

def resolvedep (handle : Handle) (dep : Depend) (dbs : List Db) (excluding : List Pkg)
    (prompt : Bool) (asked : Nat) : Except ResolveError Pkg × Nat :=
  match resolveLiteral handle dep excluding prompt dbs false asked with
  | (some pkg, _, asked) => (.ok pkg, asked)
  | (none, ignored, asked) =>
    match resolveProviders handle dep excluding prompt
        ((dbs.filter Db.usable).flatMap dbGetPkgcache) [] ignored asked with
    | (some pkg, _, _, asked) => (.ok pkg, asked)
    | (none, providers, ignored, asked) =>
      match selectProvider handle providers asked with
      | (some pkg, asked) => (.ok pkg, asked)
      | (none, asked) => (.error (if ignored then .pkgIgnored else .pkgNotFound), asked)

/-- What `_alpm_resolvedeps` changes: the list behind `packages`, the list behind
`data`, and the number of questions asked. -/
structure Resolve where
  packages : List Pkg
  data : List Depmissing
  asked : Nat
  deriving DecidableEq

section Model

variable (handle : Handle) (localpkgs preferred rem : List Pkg)

def pickSatisfier (missdep : Depend) (st : Resolve) : Option Pkg × Resolve :=
  match findDepSatisfier preferred missdep with
  | some spkg => (some spkg, st)
  | none =>
    let (found, asked) := resolvedep handle missdep handle.dbsSync st.packages false st.asked
    (found.toOption, { st with asked := asked })

def resolveLocally (miss : Depmissing) (st : Resolve) : Bool × Resolve :=
  let (found, asked) := resolvedep handle miss.depend [handle.dbLocal] rem false st.asked
  match found with
  | .ok _ => (true, { st with asked := asked })
  | .error _ => (false, { st with asked := asked, data := st.data ++ [miss] })

def resolveMiss (recurse : Pkg → Resolve → Option (Bool × Resolve)) (miss : Depmissing)
    (st : Resolve) : Option (Bool × Resolve) :=
  if (findDepSatisfier st.packages miss.depend).isSome then some (true, st)
  else
    match pickSatisfier handle preferred miss.depend st with
    | (none, st) => some (resolveLocally handle rem miss st)
    | (some spkg, st) =>
      match recurse spkg st with
      | none => none
      | some (true, st) => some (true, st)
      | some (false, st) => some (resolveLocally handle rem miss st)

/-- The loop over the missing dependencies. It goes on after a failure. -/
def resolveMisses (recurse : Pkg → Resolve → Option (Bool × Resolve)) :
    List Depmissing → Bool → Resolve → Option (Bool × Resolve)
  | [], ok, st => some (ok, st)
  | miss :: deps, ok, st =>
    match resolveMiss handle preferred rem recurse miss st with
    | none => none
    | some (resolved, st) => resolveMisses recurse deps (ok && resolved) st

/-- What `alpm_checkdeps` misses for one package on its own. -/
def missingDeps (pkg : Pkg) : List Depmissing := checkdeps handle localpkgs rem [pkg] false

/-- `_alpm_resolvedeps`; the Boolean is the return value 0. -/
def resolvedeps : Nat → Pkg → Resolve → Option (Bool × Resolve)
  | 0, _, _ => none
  | fuel + 1, pkg, st =>
    if (pkgFind st.packages pkg.name).isSome then some (true, st)
    else
      match resolveMisses handle preferred rem (resolvedeps fuel)
          (missingDeps handle localpkgs rem pkg) true
          { st with packages := st.packages ++ [pkg] } with
      | none => none
      | some (true, st') => some (true, st')
      | some (false, st') => some (false, { st' with packages := st.packages })

end Model

/-- What `resolvedep` may return. -/
structure Resolves (dbs : List Db) (dep : Depend) (excluding : List Pkg) (pkg : Pkg) : Prop where
  there : ∃ db ∈ dbs, pkg ∈ dbGetPkgcache db
  satisfies : depcmp pkg dep = true
  allowed : ∀ q ∈ excluding, q.name ≠ pkg.name

section Search

variable {handle : Handle} {dep : Depend} {excluding : List Pkg} {prompt : Bool}

variable {asked : Nat} {pkg : Pkg}

theorem resolveLiteral_some {dbs : List Db} {ignored : Bool}
    (found : (resolveLiteral handle dep excluding prompt dbs ignored asked).1 = some pkg) :
    Resolves dbs dep excluding pkg := by
  induction dbs generalizing ignored asked with
  | nil => cases found
  | cons db dbs ih =>
    have further : ∀ {ignored asked},
        (resolveLiteral handle dep excluding prompt dbs ignored asked).1 = some pkg →
          Resolves (db :: dbs) dep excluding pkg := by
      intro ignored asked later
      obtain ⟨⟨other, listed, there⟩, satisfies, allowed⟩ := ih later
      exact ⟨⟨other, mem_cons_of_mem db listed, there⟩, satisfies, allowed⟩
    rw [resolveLiteral] at found
    split_ifs at found with usable
    · cases looked : dbGetPkgfromcache db dep.name with
      | none =>
        rw [looked] at found
        exact further found
      | some candidate =>
        have hit : (depcmpLiteral candidate dep && (pkgFind excluding candidate.name).isNone) =
            true → Resolves (db :: dbs) dep excluding candidate := by
          intro fits
          rw [Bool.and_eq_true, isNone_iff_eq_none, pkgFind_none] at fits
          rw [dbGetPkgfromcache_eq] at looked
          refine ⟨⟨db, mem_cons_self, (pkgFind_some looked).1⟩, ?_, fits.2⟩
          rw [depcmp, fits.1, Bool.true_or]
        simp only [looked] at found
        split_ifs at found with literal ignore install
        · cases found
          exact hit literal
        · exact further found
        · cases found
          exact hit literal
        · exact further found
    · exact further found

theorem providesOther_satisfies (provides : providesOther dep excluding pkg = true) :
    depcmp pkg dep = true ∧ ∀ q ∈ excluding, q.name ≠ pkg.name := by
  rw [providesOther, Bool.and_eq_true, Bool.and_eq_true, isNone_iff_eq_none,
    pkgFind_none] at provides
  refine ⟨?_, provides.2⟩
  rw [depcmp, provides.1.2, Bool.or_true]

theorem resolveProviders_mem (handle : Handle) (dep : Depend) (excluding : List Pkg)
    (prompt : Bool) (pkgs providers : List Pkg) (ignored : Bool) (asked : Nat) :
    (∀ pkg ∈ (resolveProviders handle dep excluding prompt pkgs providers ignored asked).1,
        pkg ∈ pkgs ∧ providesOther dep excluding pkg = true) ∧
      ∀ pkg ∈ (resolveProviders handle dep excluding prompt pkgs providers ignored asked).2.1,
        pkg ∈ providers ∨ pkg ∈ pkgs ∧ providesOther dep excluding pkg = true := by
  induction pkgs generalizing providers ignored asked with
  | nil => simp [resolveProviders]
  | cons pkg pkgs ih =>
    have further : ∀ {q}, q ∈ pkgs ∧ providesOther dep excluding q = true →
        q ∈ pkg :: pkgs ∧ providesOther dep excluding q = true :=
      fun h => ⟨mem_cons_of_mem pkg h.1, h.2⟩
    rw [resolveProviders]
    by_cases provides : providesOther dep excluding pkg = true
    · have here : pkg ∈ pkg :: pkgs ∧ providesOther dep excluding pkg = true :=
        ⟨mem_cons_self, provides⟩
      simp only [provides, if_true]
      generalize (if pkgShouldIgnore handle pkg = true then askInstall handle prompt asked
        else (true, asked)) = choice
      by_cases install : choice.1 = true
      · simp only [install, if_true]
        by_cases installed : (dbGetPkgfromcache handle.dbLocal pkg.name).isSome = true
        · simp only [installed, if_true]
          refine ⟨?_, fun q listed => .inl listed⟩
          rintro q ⟨⟩
          exact here
        · simp only [installed, Bool.false_eq_true, if_false]
          obtain ⟨early, collected⟩ := ih (providers ++ [pkg]) ignored choice.2
          refine ⟨fun q found => further (early q found), ?_⟩
          intro q listed
          rcases collected q listed with before | later
          · rcases mem_append.mp before with old | last
            · exact .inl old
            · rw [mem_singleton.mp last]
              exact .inr here
          · exact .inr (further later)
      · simp only [install, Bool.false_eq_true, if_false]
        obtain ⟨early, collected⟩ := ih providers true choice.2
        exact ⟨fun q found => further (early q found),
          fun q listed => (collected q listed).imp_right further⟩
    · simp only [provides, Bool.false_eq_true, if_false]
      obtain ⟨early, collected⟩ := ih providers ignored asked
      exact ⟨fun q found => further (early q found),
        fun q listed => (collected q listed).imp_right further⟩

theorem selectProvider_mem {providers : List Pkg}
    (found : (selectProvider handle providers asked).1 = some pkg) : pkg ∈ providers := by
  unfold selectProvider at found
  simp only at found
  split_ifs at found
  · exact mem_of_getElem? found
  · exact mem_of_getElem? found

theorem resolvedep_ok {dbs : List Db}
    (found : (resolvedep handle dep dbs excluding prompt asked).1 = .ok pkg) :
    Resolves dbs dep excluding pkg := by
  have provider : pkg ∈ (dbs.filter Db.usable).flatMap dbGetPkgcache →
      providesOther dep excluding pkg = true → Resolves dbs dep excluding pkg := by
    intro listed provides
    obtain ⟨db, usable, there⟩ := mem_flatMap.mp listed
    obtain ⟨satisfies, allowed⟩ := providesOther_satisfies provides
    exact ⟨⟨db, (mem_filter.mp usable).1, there⟩, satisfies, allowed⟩
  unfold resolvedep at found
  split at found
  · rename_i first ignored after literal
    cases found
    exact resolveLiteral_some (congrArg Prod.fst literal)
  · rename_i ignored after literal
    have listed := resolveProviders_mem handle dep excluding prompt
      ((dbs.filter Db.usable).flatMap dbGetPkgcache) [] ignored after
    split at found
    · rename_i early providers ignored' after' search
      cases found
      rw [search] at listed
      obtain ⟨mem, provides⟩ := listed.1 pkg rfl
      exact provider mem provides
    · rename_i providers ignored' after' search
      rw [search] at listed
      split at found
      · rename_i chosen after'' selected
        cases found
        have mem := selectProvider_mem (congrArg Prod.fst selected)
        obtain ⟨mem, provides⟩ := (listed.2 pkg mem).resolve_left not_mem_nil
        exact provider mem provides
      · cases found

end Search

/-- The list of packages only grows, and keeps its names distinct. -/
structure Grows (st st' : Resolve) : Prop where
  keeps : st.packages <+: st'.packages
  names : (st.packages.map Pkg.name).Nodup → (st'.packages.map Pkg.name).Nodup

theorem Grows.refl (st : Resolve) : Grows st st := ⟨prefix_rfl, id⟩

variable {st : Resolve}

theorem Grows.trans {st' st'' : Resolve} (first : Grows st st') (second : Grows st' st'') :
    Grows st st'' :=
  ⟨first.keeps.trans second.keeps, fun nodup => second.names (first.names nodup)⟩

theorem Grows.of_eq {st' : Resolve} (same : st'.packages = st.packages) : Grows st st' :=
  ⟨by rw [same], by rw [same]; exact id⟩

/-- How a call can end: the name was on the list, or the package is on the list
now with what it needed, or the list is as it was. -/
inductive Outcome (pkg : Pkg) (st : Resolve) : Bool × Resolve → Prop
  | listed : (pkgFind st.packages pkg.name).isSome = true → Outcome pkg st (true, st)
  | added {st'} : pkgFind st.packages pkg.name = none →
      Grows { st with packages := st.packages ++ [pkg] } st' → Outcome pkg st (true, st')
  | failed {st'} : pkgFind st.packages pkg.name = none → st'.packages = st.packages →
      Outcome pkg st (false, st')

theorem Outcome.grows {pkg : Pkg} {result : Bool × Resolve} (outcome : Outcome pkg st result) :
    Grows st result.2 := by
  cases outcome with
  | listed _ => exact Grows.refl st
  | added fresh more =>
    refine ⟨(prefix_append _ _).trans more.keeps, fun nodup => more.names ?_⟩
    rw [map_append, nodup_append]
    refine ⟨nodup, nodup_singleton _, ?_⟩
    rintro name listed other last rfl
    obtain ⟨q, mem, rfl⟩ := mem_map.mp listed
    exact pkgFind_none.mp fresh q mem (mem_singleton.mp last)
  | failed _ same => exact Grows.of_eq same

section Recursion

variable {handle : Handle} {localpkgs preferred rem : List Pkg}

variable {st : Resolve} {recurse : Pkg → Resolve → Option (Bool × Resolve)} {miss : Depmissing}
  {result : Bool × Resolve} {deps : List Depmissing} {ok : Bool} {fuel : Nat} {pkg : Pkg}
  {packages : List Pkg}

theorem pickSatisfier_packages {missdep : Depend} {st' : Resolve} {choice : Option Pkg}
    (picked : pickSatisfier handle preferred missdep st = (choice, st')) :
    st'.packages = st.packages := by
  unfold pickSatisfier at picked
  split at picked
  · cases picked
    rfl
  · cases picked
    rfl

variable (handle rem) in
theorem resolveLocally_packages (miss : Depmissing) (st : Resolve) :
    (resolveLocally handle rem miss st).2.packages = st.packages := by
  unfold resolveLocally
  simp only
  split
  · rfl
  · rfl

theorem resolveMiss_cases (done : resolveMiss handle preferred rem recurse miss st = some result) :
    ((findDepSatisfier st.packages miss.depend).isSome = true ∧ result = (true, st)) ∨
      findDepSatisfier st.packages miss.depend = none ∧
        ((∃ st1, pickSatisfier handle preferred miss.depend st = (none, st1) ∧
            result = resolveLocally handle rem miss st1) ∨
          ∃ spkg st1, pickSatisfier handle preferred miss.depend st = (some spkg, st1) ∧
            ((∃ st2, recurse spkg st1 = some (true, st2) ∧ result = (true, st2)) ∨
              ∃ st2, recurse spkg st1 = some (false, st2) ∧
                result = resolveLocally handle rem miss st2)) := by
  unfold resolveMiss at done
  split_ifs at done with listed
  · cases done
    exact .inl ⟨listed, rfl⟩
  · have unsatisfied : findDepSatisfier st.packages miss.depend = none := by
      simpa using listed
    refine .inr ⟨unsatisfied, ?_⟩
    cases picked : pickSatisfier handle preferred miss.depend st with
    | mk choice st1 =>
      simp only [picked] at done
      cases choice with
      | none =>
        cases done
        exact .inl ⟨st1, rfl, rfl⟩
      | some spkg =>
        refine .inr ⟨spkg, st1, rfl, ?_⟩
        cases called : recurse spkg st1 with
        | none => simp [called] at done
        | some answer =>
          obtain ⟨ok, st2⟩ := answer
          cases ok with
          | true =>
            simp only [called, Option.some.injEq] at done
            exact .inl ⟨st2, rfl, done.symm⟩
          | false =>
            simp only [called, Option.some.injEq] at done
            exact .inr ⟨st2, rfl, done.symm⟩

theorem resolveMiss_grows
    (calls : ∀ pkg st result, recurse pkg st = some result → Outcome pkg st result)
    (done : resolveMiss handle preferred rem recurse miss st = some result) :
    Grows st result.2 := by
  have picks : ∀ {choice st1}, pickSatisfier handle preferred miss.depend st = (choice, st1) →
      Grows st st1 := fun picked => Grows.of_eq (pickSatisfier_packages picked)
  rcases resolveMiss_cases done with ⟨_, rfl⟩ | ⟨_, ⟨st1, picked, rfl⟩ | ⟨spkg, st1, picked, rest⟩⟩
  · exact Grows.refl st
  · exact (picks picked).trans (Grows.of_eq (resolveLocally_packages handle rem miss st1))
  · rcases rest with ⟨st2, called, rfl⟩ | ⟨st2, called, rfl⟩
    · exact (picks picked).trans (calls _ _ _ called).grows
    · exact ((picks picked).trans (calls _ _ _ called).grows).trans
        (Grows.of_eq (resolveLocally_packages handle rem miss st2))

theorem resolveMisses_grows
    (calls : ∀ pkg st result, recurse pkg st = some result → Outcome pkg st result)
    (done : resolveMisses handle preferred rem recurse deps ok st = some result) :
    Grows st result.2 := by
  induction deps generalizing ok st with
  | nil =>
    cases done
    exact Grows.refl st
  | cons miss deps ih =>
    rw [resolveMisses] at done
    cases turn : resolveMiss handle preferred rem recurse miss st with
    | none => simp [turn] at done
    | some next =>
      simp only [turn] at done
      exact (resolveMiss_grows calls turn).trans (ih done)

theorem resolvedeps_outcome
    (done : resolvedeps handle localpkgs preferred rem fuel pkg st = some result) :
    Outcome pkg st result := by
  induction fuel generalizing pkg st result with
  | zero => cases done
  | succ fuel ih =>
    rw [resolvedeps] at done
    split_ifs at done with listed
    · cases done
      exact .listed listed
    · have fresh : pkgFind st.packages pkg.name = none := by
        simpa using listed
      split at done
      · cases done
      · rename_i st' loop
        cases done
        exact .added fresh (resolveMisses_grows (fun _ _ _ called => ih called) loop)
      · cases done
        exact .failed fresh rfl

theorem resolveMisses_mono {recurse' : Pkg → Resolve → Option (Bool × Resolve)}
    (calls : ∀ pkg st result, recurse pkg st = some result → recurse' pkg st = some result)
    (done : resolveMisses handle preferred rem recurse deps ok st = some result) :
    resolveMisses handle preferred rem recurse' deps ok st = some result := by
  induction deps generalizing ok st with
  | nil => exact done
  | cons miss deps ih =>
    have turn : ∀ {next}, resolveMiss handle preferred rem recurse miss st = some next →
        resolveMiss handle preferred rem recurse' miss st = some next := by
      intro next turn
      rcases resolveMiss_cases turn with ⟨listed, rfl⟩ | ⟨unsatisfied, ⟨st1, picked, rfl⟩ |
        ⟨spkg, st1, picked, ⟨st2, called, rfl⟩ | ⟨st2, called, rfl⟩⟩⟩
      · simp [resolveMiss, listed]
      · simp [resolveMiss, unsatisfied, picked]
      · simp [resolveMiss, unsatisfied, picked, calls _ _ _ called]
      · simp [resolveMiss, unsatisfied, picked, calls _ _ _ called]
    rw [resolveMisses] at done ⊢
    cases first : resolveMiss handle preferred rem recurse miss st with
    | none => simp [first] at done
    | some next =>
      simp only [first] at done
      simp only [turn first]
      exact ih done

theorem resolvedeps_mono {fuel' : Nat} (more : fuel ≤ fuel')
    (done : resolvedeps handle localpkgs preferred rem fuel pkg st = some result) :
    resolvedeps handle localpkgs preferred rem fuel' pkg st = some result := by
  induction fuel generalizing fuel' pkg st result with
  | zero => cases done
  | succ fuel ih =>
    obtain ⟨fuel', rfl⟩ : ∃ n, fuel' = n + 1 := ⟨fuel' - 1, by omega⟩
    rw [resolvedeps] at done ⊢
    split_ifs at done ⊢ with listed
    · exact done
    · cases loop : resolveMisses handle preferred rem
          (resolvedeps handle localpkgs preferred rem fuel)
          (missingDeps handle localpkgs rem pkg) true
          { st with packages := st.packages ++ [pkg] } with
      | none => simp [loop] at done
      | some ended =>
        have loop' := resolveMisses_mono
          (fun _ _ _ called => ih (Nat.le_of_succ_le_succ more) called) loop
        simp only [loop] at done
        simp only [loop']
        exact done

variable (handle preferred) in
/-- The names a nested call can add: those of the preferred packages and of the
packages of the sync databases. -/
def candidateNames : List CStr :=
  ((preferred ++ handle.dbsSync.flatMap dbGetPkgcache).map Pkg.name).dedup

variable (handle preferred) in
/-- How many of them are not on the list. Every nested call that does not return at
once makes this smaller for the calls below it. -/
def unlisted (packages : List Pkg) : Nat :=
  ((candidateNames handle preferred).filter fun name => (pkgFind packages name).isNone).length

variable (handle preferred) in
theorem unlisted_sublist {packages' : List Pkg} (keeps : packages <+: packages') :
    ((candidateNames handle preferred).filter fun name => (pkgFind packages' name).isNone).Sublist
      ((candidateNames handle preferred).filter fun name => (pkgFind packages name).isNone) := by
  apply monotone_filter_right
  intro name absent
  simp only [isNone_iff_eq_none, pkgFind_none] at absent ⊢
  exact fun p mem => absent p (keeps.subset mem)

variable (handle preferred) in
theorem unlisted_le {packages' : List Pkg} (keeps : packages <+: packages') :
    unlisted handle preferred packages' ≤ unlisted handle preferred packages :=
  (unlisted_sublist handle preferred keeps).length_le

theorem unlisted_lt (fresh : pkgFind packages pkg.name = none)
    (candidate : pkg.name ∈ candidateNames handle preferred) :
    unlisted handle preferred (packages ++ [pkg]) < unlisted handle preferred packages := by
  have fewer := unlisted_sublist handle preferred (prefix_append packages [pkg])
  refine Nat.lt_of_le_of_ne fewer.length_le fun same => ?_
  have before : pkg.name ∈ (candidateNames handle preferred).filter
      fun name => (pkgFind packages name).isNone :=
    mem_filter.mpr ⟨candidate, by rw [fresh]; rfl⟩
  rw [← fewer.eq_of_length same, mem_filter, isNone_iff_eq_none, pkgFind_none] at before
  exact before.2 pkg (mem_append_right _ mem_cons_self) rfl

theorem pickSatisfier_some {missdep : Depend} {st' : Resolve} {spkg : Pkg}
    (picked : pickSatisfier handle preferred missdep st = (some spkg, st')) :
    spkg.name ∈ candidateNames handle preferred ∧ depcmp spkg missdep = true := by
  rw [candidateNames, mem_dedup]
  unfold pickSatisfier at picked
  split at picked
  · rename_i found
    cases picked
    obtain ⟨mem, satisfies⟩ := findDepSatisfier_some found
    exact ⟨mem_map_of_mem (mem_append_left _ mem), satisfies⟩
  · cases found : (resolvedep handle missdep handle.dbsSync st.packages false st.asked).1 with
    | error err => simp [found, Except.toOption] at picked
    | ok pkg =>
      simp only [found, Except.toOption, Prod.mk.injEq, Option.some.injEq] at picked
      obtain ⟨rfl, _⟩ := picked
      obtain ⟨⟨db, listed, there⟩, satisfies, _⟩ := resolvedep_ok found
      refine ⟨mem_map_of_mem (mem_append_right _ ?_), satisfies⟩
      exact mem_flatMap.mpr ⟨db, listed, there⟩

theorem resolveMiss_isSome
    (ends : ∀ spkg st1, spkg.name ∈ candidateNames handle preferred → st1.packages = st.packages →
      (recurse spkg st1).isSome = true) :
    (resolveMiss handle preferred rem recurse miss st).isSome = true := by
  unfold resolveMiss
  split_ifs
  · rfl
  · cases picked : pickSatisfier handle preferred miss.depend st with
    | mk choice st1 =>
      cases choice with
      | none => rfl
      | some spkg =>
        obtain ⟨⟨ok, st2⟩, called⟩ := isSome_iff_exists.mp
          (ends spkg st1 (pickSatisfier_some picked).1 (pickSatisfier_packages picked))
        cases ok with
        | true => simp [called]
        | false => simp [called]

theorem resolveMisses_isSome
    (calls : ∀ pkg st result, recurse pkg st = some result → Outcome pkg st result)
    (ends : ∀ spkg st1, spkg.name ∈ candidateNames handle preferred → st.packages <+: st1.packages →
      (recurse spkg st1).isSome = true) :
    (resolveMisses handle preferred rem recurse deps ok st).isSome = true := by
  induction deps generalizing ok st with
  | nil => rfl
  | cons miss deps ih =>
    have turn : (resolveMiss handle preferred rem recurse miss st).isSome = true := by
      apply resolveMiss_isSome
      intro spkg st1 candidate same
      exact ends spkg st1 candidate (by rw [same])
    obtain ⟨next, first⟩ := isSome_iff_exists.mp turn
    rw [resolveMisses]
    simp only [first]
    apply ih
    intro spkg st1 candidate keeps
    exact ends spkg st1 candidate ((resolveMiss_grows calls first).keeps.trans keeps)

theorem resolvedeps_isSome_succ
    (ends : ∀ spkg st1, spkg.name ∈ candidateNames handle preferred →
      st.packages ++ [pkg] <+: st1.packages → pkgFind st.packages pkg.name = none →
      (resolvedeps handle localpkgs preferred rem fuel spkg st1).isSome = true) :
    (resolvedeps handle localpkgs preferred rem (fuel + 1) pkg st).isSome = true := by
  rw [resolvedeps]
  split_ifs with listed
  · rfl
  · have fresh : pkgFind st.packages pkg.name = none := by
      simpa using listed
    have loop : (resolveMisses handle preferred rem
      (resolvedeps handle localpkgs preferred rem fuel)
        (missingDeps handle localpkgs rem pkg) true
        { st with packages := st.packages ++ [pkg] }).isSome = true := by
      apply resolveMisses_isSome fun _ _ _ called => resolvedeps_outcome called
      intro spkg st1 candidate keeps
      exact ends spkg st1 candidate keeps fresh
    obtain ⟨⟨ok, st'⟩, ended⟩ := isSome_iff_exists.mp loop
    cases ok with
    | true => simp [ended]
    | false => simp [ended]

theorem resolvedeps_isSome (candidate : pkg.name ∈ candidateNames handle preferred)
    (enough : unlisted handle preferred st.packages < fuel) :
    (resolvedeps handle localpkgs preferred rem fuel pkg st).isSome = true := by
  induction fuel generalizing pkg st with
  | zero => omega
  | succ fuel ih =>
    apply resolvedeps_isSome_succ
    intro spkg st1 next keeps fresh
    have less := unlisted_lt fresh candidate
    have fewer := unlisted_le handle preferred keeps
    exact ih next (by omega)

variable (handle localpkgs preferred rem) in
theorem resolvedeps_terminates (pkg : Pkg) (st : Resolve) :
    ∃ result, ∀ fuel, unlisted handle preferred st.packages + 2 ≤ fuel →
      resolvedeps handle localpkgs preferred rem fuel pkg st = some result := by
  have first : (resolvedeps handle localpkgs preferred rem
      (unlisted handle preferred st.packages + 2) pkg st).isSome = true := by
    apply resolvedeps_isSome_succ
    intro spkg st1 candidate keeps fresh
    apply resolvedeps_isSome candidate
    have fewer := unlisted_le handle preferred ((prefix_append st.packages [pkg]).trans keeps)
    omega
  obtain ⟨result, done⟩ := isSome_iff_exists.mp first
  exact ⟨result, fun fuel enough => resolvedeps_mono enough done⟩

end Recursion

/-- The search finishes on every graph of dependencies. A failure leaves the list as
it was; a success keeps it in front, lists the name that was asked for, and repeats
no name. -/
theorem resolvedeps_atomic (handle : Handle) (localpkgs preferred rem : List Pkg) (pkg : Pkg)
    (st : Resolve) : ∃ ok st', (∀ fuel, unlisted handle preferred st.packages + 2 ≤ fuel →
        resolvedeps handle localpkgs preferred rem fuel pkg st = some (ok, st')) ∧
      (ok = false → st'.packages = st.packages) ∧
      (ok = true → st.packages <+: st'.packages ∧ (∃ p ∈ st'.packages, p.name = pkg.name) ∧
        ((st.packages.map Pkg.name).Nodup → (st'.packages.map Pkg.name).Nodup)) := by
  obtain ⟨⟨ok, st'⟩, done⟩ := resolvedeps_terminates handle localpkgs preferred rem pkg st
  have outcome := resolvedeps_outcome (done _ le_rfl)
  have grows := outcome.grows
  refine ⟨ok, st', done, ?_, ?_⟩
  · rintro rfl
    cases outcome with
    | failed _ same => exact same
  · rintro rfl
    refine ⟨grows.keeps, ?_, grows.names⟩
    cases outcome with
    | listed found => exact pkgFind_isSome.mp found
    | added fresh more =>
      exact ⟨pkg, more.keeps.subset (mem_append_right _ mem_cons_self), rfl⟩

end Dulge
