import Dulge.Resolvedeps

/-! Does the search add everything that a package needs? A call that finds the name
of its package on the list returns 0 at once, whatever the listed package is. The
calls of a run are a relation here, so that what holds before each of them can be
said, and the packages a run adds are in order if none of its calls finds its name
taken. -/
namespace Dulge
open List

/-- What a dependency may rest on: the packages of the list, and the local packages
that are not going to be removed. -/
def atHand (handle : Handle) (rem packages : List Pkg) : Set Pkg :=
  {p | p ∈ packages ∨ p ∈ dbGetPkgcache handle.dbLocal ∧ ∀ q ∈ rem, q.name ≠ p.name}

def AddedSatisfied (handle : Handle) (rem packages packages' : List Pkg) : Prop :=
  ∃ added, packages' = packages ++ added ∧
    ∀ p ∈ added, ∀ dep ∈ p.depends, Satisfied handle (atHand handle rem packages') dep

variable {handle : Handle} {rem packages : List Pkg}

theorem atHand_mono {packages' : List Pkg} (keeps : packages <+: packages') :
    atHand handle rem packages ⊆ atHand handle rem packages' :=
  fun _ here => here.imp_left fun mem => keeps.subset mem

theorem satisfied_atHand_iff {dep : Depend} : Satisfied handle (atHand handle rem packages) dep ↔
      depSatisfied handle packages ((dbGetPkgcache handle.dbLocal).filter fun p =>
        (pkgFind rem p.name).isNone) dep = true := by
  rw [depSatisfied, Bool.or_eq_true, Bool.or_eq_true, findDepSatisfier_isSome,
    findDepSatisfier_isSome, Satisfied]
  simp only [atHand, Set.mem_ofPred_eq, mem_filter, Option.isNone_iff_eq_none, pkgFind_none,
    or_and_right, exists_or]

theorem AddedSatisfied.refl (handle : Handle) (rem packages : List Pkg) :
    AddedSatisfied handle rem packages packages :=
  ⟨[], (append_nil packages).symm, by simp⟩

theorem AddedSatisfied.trans {packages' packages'' : List Pkg}
    (first : AddedSatisfied handle rem packages packages')
    (second : AddedSatisfied handle rem packages' packages'') :
    AddedSatisfied handle rem packages packages'' := by
  obtain ⟨added, rfl, closed⟩ := first
  obtain ⟨later, rfl, closed'⟩ := second
  refine ⟨added ++ later, append_assoc _ _ _, ?_⟩
  intro p mem dep needs
  rcases mem_append.mp mem with old | new
  · exact (closed p old dep needs).mono (atHand_mono (prefix_append _ _))
  · exact closed' p new dep needs

section Closure

variable (handle : Handle) (localpkgs preferred rem : List Pkg)

/-- The calls below a call that are not undone: for `missdep` the search calls itself
with the last package, in the last state. -/
inductive Nested : Pkg → Resolve → Depend → Pkg → Resolve → Prop
  | here {pkg st before miss after fuel ok st1 spkg st2}
      (fresh : pkgFind st.packages pkg.name = none)
      (split : missingDeps handle localpkgs rem pkg = before ++ miss :: after)
      (loop : resolveMisses handle preferred rem (resolvedeps handle localpkgs preferred rem fuel)
        before true { st with packages := st.packages ++ [pkg] } = some (ok, st1))
      (unsatisfied : findDepSatisfier st1.packages miss.depend = none)
      (picked : pickSatisfier handle preferred miss.depend st1 = (some spkg, st2)) :
      Nested pkg st miss.depend spkg st2
  | deeper {pkg st missdep spkg st1 fuel st2 missdep' spkg' st3}
      (outer : Nested pkg st missdep spkg st1)
      (kept : resolvedeps handle localpkgs preferred rem fuel spkg st1 = some (true, st2))
      (inner : Nested spkg st1 missdep' spkg' st3) : Nested pkg st missdep' spkg' st3

variable {pkg spkg : Pkg} {st st1 st' : Resolve} {missdep : Depend} {miss : Depmissing}
  {recurse : Pkg → Resolve → Option (Bool × Resolve)}

theorem Nested.missing {handle localpkgs preferred rem}
    (nested : Nested handle localpkgs preferred rem pkg st missdep spkg st1) :
    missingDeps handle localpkgs rem pkg ≠ [] := by
  induction nested with
  | here fresh split => simp [split]
  | deeper outer kept inner ihOuter ihInner => exact ihOuter

/-- No call below finds the name of its package on the list, unless a local package
that stays satisfies the dependency it is made for. -/
def NamesFree (pkg : Pkg) (st : Resolve) : Prop :=
  ∀ missdep spkg st1, Nested handle localpkgs preferred rem pkg st missdep spkg st1 →
    pkgFind st1.packages spkg.name = none ∨
      ∃ p ∈ dbGetPkgcache handle.dbLocal, (∀ q ∈ rem, q.name ≠ p.name) ∧ depcmp p missdep = true

variable {handle localpkgs preferred rem}

theorem resolveLocally_true (packages : List Pkg)
    (found : resolveLocally handle rem miss st = (true, st')) :
    Satisfied handle (atHand handle rem packages) miss.depend := by
  unfold resolveLocally at found
  cases answer : (resolvedep handle miss.depend [handle.dbLocal] rem false st.asked).1 with
  | error err => simp [answer] at found
  | ok p =>
    obtain ⟨⟨db, listed, there⟩, satisfies, allowed⟩ := resolvedep_ok answer
    rw [mem_singleton.mp listed] at there
    exact .inl ⟨p, .inr ⟨there, allowed⟩, satisfies⟩

theorem Nested.open_dependency
    (nested : Nested handle localpkgs preferred rem pkg st missdep spkg st1) :
    (∀ p ∈ st1.packages, depcmp p missdep = false) ∧
      depcmpProvides missdep handle.assumeinstalled = false ∧ depcmp spkg missdep = true := by
  induction nested with
  | @here pkg st before miss after fuel ok st1 spkg st2 fresh split loop unsatisfied picked =>
    have missing : miss ∈ missingDeps handle localpkgs rem pkg := by
      rw [split]
      exact mem_append_right _ mem_cons_self
    refine ⟨?_, ?_, (pickSatisfier_some picked).2⟩
    · rw [pickSatisfier_packages picked]
      exact findDepSatisfier_none.mp unsatisfied
    · rcases mem_checkdeps.mp missing with ⟨_, _, dep, _, rfl, notSatisfied⟩ | ⟨reverse, _⟩
      · by_contra assumed
        exact notSatisfied (.inr (by simpa using assumed))
      · cases reverse
  | deeper outer kept inner ihOuter ihInner => exact ihInner

theorem Nested.satisfied_iff {st2 : Resolve} {fuel : Nat}
    (nested : Nested handle localpkgs preferred rem pkg st missdep spkg st1)
    (called : resolvedeps handle localpkgs preferred rem fuel spkg st1 = some (true, st2)) :
    Satisfied handle (atHand handle rem st2.packages) missdep ↔
      pkgFind st1.packages spkg.name = none ∨
        ∃ p ∈ dbGetPkgcache handle.dbLocal, (∀ q ∈ rem, q.name ≠ p.name) ∧
          depcmp p missdep = true := by
  obtain ⟨listed, assumed, satisfies⟩ := nested.open_dependency
  constructor
  · intro satisfied
    cases resolvedeps_outcome called with
    | added fresh _ => exact .inl fresh
    | listed _ =>
      rcases satisfied with ⟨p, mem | ⟨there, stays⟩, fits⟩ | provided
      · exact absurd fits (by simp [listed p mem])
      · exact .inr ⟨p, there, stays, fits⟩
      · exact absurd provided (by simp [assumed])
  · intro free
    rcases free with fresh | ⟨p, there, stays, fits⟩
    · cases resolvedeps_outcome called with
      | added _ more =>
        have mem := more.keeps.subset (mem_append_right _ mem_cons_self)
        exact .inl ⟨spkg, .inl mem, satisfies⟩
      | listed found => simp [fresh] at found
    · exact .inl ⟨p, .inr ⟨there, stays⟩, fits⟩

theorem resolveMiss_closed
    (calls : ∀ pkg st result, recurse pkg st = some result → Outcome pkg st result)
    (done : resolveMiss handle preferred rem recurse miss st = some (true, st'))
    (nested : ∀ spkg st1 st2, findDepSatisfier st.packages miss.depend = none →
      pickSatisfier handle preferred miss.depend st = (some spkg, st1) →
      recurse spkg st1 = some (true, st2) → AddedSatisfied handle rem st1.packages st2.packages ∧
      Satisfied handle (atHand handle rem st2.packages) miss.depend) :
    AddedSatisfied handle rem st.packages st'.packages ∧
      Satisfied handle (atHand handle rem st'.packages) miss.depend := by
  rcases resolveMiss_cases done with ⟨listed, same⟩ | ⟨unsatisfied, ⟨st1, picked, found⟩ |
    ⟨spkg, st1, picked, ⟨st2, called, same⟩ | ⟨st2, called, found⟩⟩⟩
  · cases same
    obtain ⟨p, mem, satisfies⟩ := findDepSatisfier_isSome.mp listed
    exact ⟨.refl _ _ _, .inl ⟨p, .inl mem, satisfies⟩⟩
  · have keeps := resolveLocally_packages handle rem miss st1
    rw [← found, pickSatisfier_packages picked] at keeps
    exact ⟨keeps ▸ .refl _ _ _, resolveLocally_true _ found.symm⟩
  · cases same
    obtain ⟨closed, satisfied⟩ := nested spkg st1 st' unsatisfied picked called
    exact ⟨pickSatisfier_packages picked ▸ closed, satisfied⟩
  · have keeps := resolveLocally_packages handle rem miss st2
    have undone : st2.packages = st1.packages := by
      cases calls _ _ _ called with
      | failed _ same => exact same
    rw [← found, undone, pickSatisfier_packages picked] at keeps
    exact ⟨keeps ▸ .refl _ _ _, resolveLocally_true _ found.symm⟩

theorem resolveMisses_false {deps : List Depmissing} {result : Bool × Resolve}
    (done : resolveMisses handle preferred rem recurse deps false st = some result) :
    result.1 = false := by
  induction deps generalizing st with
  | nil =>
    cases done
    rfl
  | cons miss deps ih =>
    rw [resolveMisses] at done
    cases turn : resolveMiss handle preferred rem recurse miss st with
    | none => simp [turn] at done
    | some next =>
      simp only [turn, Bool.false_and] at done
      exact ih done

theorem resolveMisses_snoc {deps : List Depmissing} {ok ok' ok'' : Bool} {st'' : Resolve}
    (loop : resolveMisses handle preferred rem recurse deps ok st = some (ok', st'))
    (turn : resolveMiss handle preferred rem recurse miss st' = some (ok'', st'')) :
    resolveMisses handle preferred rem recurse (deps ++ [miss]) ok st = some (ok' && ok'', st'') := by
  induction deps generalizing ok st with
  | nil =>
    cases loop
    simp [resolveMisses, turn]
  | cons first deps ih =>
    rw [cons_append, resolveMisses]
    rw [resolveMisses] at loop
    cases next : resolveMiss handle preferred rem recurse first st with
    | none => simp [next] at loop
    | some step =>
      simp only [next] at loop
      exact ih loop

/-- The loop of one call, from any turn on. The packages it adds are in order, and so
are the dependencies it goes through. -/
theorem resolveMisses_closed {fuel : Nat}
    (below : ∀ spkg st1 st2, resolvedeps handle localpkgs preferred rem fuel spkg st1 =
      some (true, st2) → NamesFree handle localpkgs preferred rem spkg st1 →
      AddedSatisfied handle rem st1.packages st2.packages)
    (fresh : pkgFind st.packages pkg.name = none)
    (free : NamesFree handle localpkgs preferred rem pkg st) {before after : List Depmissing}
    (split : missingDeps handle localpkgs rem pkg = before ++ after)
    (start : resolveMisses handle preferred rem (resolvedeps handle localpkgs preferred rem fuel)
      before true { st with packages := st.packages ++ [pkg] } = some (true, st1))
    (done : resolveMisses handle preferred rem (resolvedeps handle localpkgs preferred rem fuel)
      after true st1 = some (true, st')) :
    AddedSatisfied handle rem st1.packages st'.packages ∧
      ∀ miss ∈ after, Satisfied handle (atHand handle rem st'.packages) miss.depend := by
  have calls : ∀ spkg st result,
      resolvedeps handle localpkgs preferred rem fuel spkg st = some result →
        Outcome spkg st result := fun _ _ _ called => resolvedeps_outcome called
  induction after generalizing before st1 with
  | nil =>
    cases done
    exact ⟨.refl _ _ _, by simp⟩
  | cons miss after ih =>
    rw [resolveMisses] at done
    cases turn : resolveMiss handle preferred rem (resolvedeps handle localpkgs preferred rem fuel)
        miss st1 with
    | none => simp [turn] at done
    | some next =>
      obtain ⟨ok, st2⟩ := next
      simp only [turn, Bool.true_and] at done
      cases ok with
      | false => cases resolveMisses_false done
      | true =>
        obtain ⟨closed, satisfied⟩ := resolveMiss_closed calls turn (by
          intro spkg s s' unsatisfied picked called
          have nested : Nested handle localpkgs preferred rem pkg st miss.depend spkg s :=
            .here fresh split start unsatisfied picked
          refine ⟨below spkg s s' called ?_, ?_⟩
          · exact fun _ _ _ inner => free _ _ _ (nested.deeper called inner)
          · exact (nested.satisfied_iff called).mpr (free _ _ _ nested))
        obtain ⟨closed', satisfied'⟩ := ih (by rw [split, append_assoc]; rfl)
          (resolveMisses_snoc start turn) done
        refine ⟨closed.trans closed', ?_⟩
        intro other mem
        rcases mem_cons.mp mem with rfl | later
        · exact satisfied.mono (atHand_mono (resolveMisses_grows calls done).keeps)
        · exact satisfied' other later

/-- What `alpm_checkdeps` does not report for a package on its own is satisfied by
the package or by a local package that stays. -/
theorem not_missing_satisfied (versions : noDepVersion handle = false)
    (sublist : localpkgs.Sublist (dbGetPkgcache handle.dbLocal)) {packages : List Pkg}
    (mem : pkg ∈ packages) {dep : Depend} (needs : dep ∈ pkg.depends)
    (resolved : ∀ miss ∈ missingDeps handle localpkgs rem pkg,
      Satisfied handle (atHand handle rem packages) miss.depend) :
    Satisfied handle (atHand handle rem packages) dep := by
  have same : checkedDepend handle dep = dep := by
    simp [checkedDepend, versions]
  by_cases before : Satisfied handle (afterwards localpkgs rem [pkg]) dep
  · refine before.mono ?_
    rintro p (⟨there, stays, _⟩ | alone)
    · exact .inr ⟨sublist.subset there, stays⟩
    · rw [mem_singleton.mp alone]
      exact .inl mem
  · have missing : ⟨pkg.name, dep, none⟩ ∈ missingDeps handle localpkgs rem pkg := by
      refine mem_checkdeps.mpr (.inl ⟨pkg, mem_cons_self, dep, needs, ?_⟩)
      rw [same]
      exact ⟨rfl, before⟩
    exact resolved _ missing

end Closure

/-- The search adds a package with everything it needs, as long as no call below it
returns for a name that is listed already. -/
theorem resolvedeps_closed {handle : Handle} {localpkgs preferred rem : List Pkg} {fuel : Nat}
    {pkg : Pkg} {st st' : Resolve} (versions : noDepVersion handle = false)
    (sublist : localpkgs.Sublist (dbGetPkgcache handle.dbLocal))
    (free : NamesFree handle localpkgs preferred rem pkg st)
    (done : resolvedeps handle localpkgs preferred rem fuel pkg st = some (true, st')) :
    AddedSatisfied handle rem st.packages st'.packages := by
  induction fuel generalizing pkg st st' with
  | zero => cases done
  | succ fuel ih =>
    rw [resolvedeps] at done
    split_ifs at done with listed
    · cases done
      exact .refl _ _ _
    · have fresh : pkgFind st.packages pkg.name = none := by
        simpa using listed
      split at done
      · cases done
      · rename_i ended loop
        cases done
        obtain ⟨closed, satisfied⟩ := resolveMisses_closed
          (fun _ _ _ called free => ih free called) fresh free (nil_append _).symm rfl loop
        obtain ⟨added, grown, others⟩ := closed
        refine ⟨pkg :: added, by simpa using grown, ?_⟩
        intro p member dep needs
        rcases mem_cons.mp member with rfl | later
        · apply not_missing_satisfied versions sublist _ needs satisfied
          simp [grown]
        · exact others p later dep needs
      · cases done

def oldFoo : Pkg := Pkg.bare 0 (cstr "foo") (cstr "1")

def oldFooUser : Pkg := (Pkg.bare 1 (cstr "app") (cstr "1")).needing ["foo<2"]

def newFoo : Pkg := { Pkg.bare 2 (cstr "foo") (cstr "2") with origin := .file }

/-- A package file that needs `app` and a newer `foo` than `app` allows. -/
def newFooUser : Pkg :=
  { (Pkg.bare 3 (cstr "bar") (cstr "1")).needing ["app", "foo>=2"] with origin := .file }

/-- Nothing is installed, and the repository has the old `foo` and the package that
needs it. -/
def oldFooHandle : Handle :=
  Handle.quiet (Db.populate []) [Db.populate [oldFooUser, oldFoo]] TransFlags.none

theorem resolvedeps_closed_app : AddedSatisfied oldFooHandle [] [] [oldFooUser, oldFoo] := by
  have missing : missingDeps oldFooHandle [] [] oldFooUser =
      [⟨cstr "app", depFromString (cstr "foo<2"), none⟩] := by decide +kernel
  have pick : pickSatisfier oldFooHandle [] (depFromString (cstr "foo<2")) ⟨[oldFooUser], [], 0⟩ =
      (some oldFoo, ⟨[oldFooUser], [], 0⟩) := by decide +kernel
  have free : NamesFree oldFooHandle [] [] [] oldFooUser ⟨[], [], 0⟩ := by
    intro missdep spkg st1 nested
    have only : spkg = oldFoo ∧ st1 = ⟨[oldFooUser], [], 0⟩ := by
      generalize start : (⟨[], [], 0⟩ : Resolve) = st at nested
      generalize first : oldFooUser = pkg at nested
      induction nested with
      | @here pkg st before miss after fuel ok st1 spkg st2 fresh split loop unsatisfied picked =>
        subst start first
        rw [missing] at split
        cases before with
        | nil =>
          cases split
          cases loop
          cases pick.symm.trans picked
          exact ⟨rfl, rfl⟩
        | cons other before => simp at split
      | deeper outer kept inner ihOuter ihInner =>
        obtain ⟨rfl, rfl⟩ := ihOuter start first
        exact absurd (by decide +kernel) inner.missing
    rw [only.1, only.2]
    exact .inl (by decide +kernel)
  have done : resolvedeps oldFooHandle [] [] [] 2 oldFooUser ⟨[], [], 0⟩ =
      some (true, ⟨[oldFooUser, oldFoo], [], 0⟩) := by decide +kernel
  exact resolvedeps_closed rfl (nil_sublist _) free done

/-- The file of the new `foo` is preferred for `foo>=2`, but `app` has brought the old
one, so the call for the new one returns at once and the dependency stays open. -/
theorem resolvedeps_not_closed : noDepVersion oldFooHandle = false ∧ (∀ fuel, 3 ≤ fuel →
        resolvedeps oldFooHandle [] [newFooUser, newFoo] [] fuel newFooUser ⟨[], [], 0⟩ =
          some (true, ⟨[newFooUser, oldFooUser, oldFoo], [], 0⟩)) ∧
      ¬ AddedSatisfied oldFooHandle [] [] [newFooUser, oldFooUser, oldFoo] := by
  refine ⟨rfl, ?_, ?_⟩
  · intro fuel enough
    apply resolvedeps_mono enough
    decide +kernel
  · rintro ⟨added, rfl, closed⟩
    have satisfied := closed newFooUser mem_cons_self (depFromString (cstr "foo>=2"))
      (by decide +kernel)
    rw [satisfied_atHand_iff] at satisfied
    exact absurd satisfied (by decide +kernel)

end Dulge
