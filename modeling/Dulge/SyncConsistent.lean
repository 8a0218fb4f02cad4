import Dulge.ResolvedepsClosed
import Dulge.SyncStages

/-! What a prepared transaction promises. The targets that were asked for are still
there or set aside, as long as no other package has taken the name of one when its
turn to be resolved comes. The system it leads to is free of conflicts with the
targets, as long as every conflicting package can be loaded, and has no missing
dependencies in any case. -/
namespace Dulge
open List

def NamesOpen (handle : Handle) (fuel : Nat) (trans : Trans) : Prop :=
  ∀ before target after, trans.add = before ++ target :: after → ∀ unresolvable st,
    resolveTargets handle (fakeLocal handle trans) trans.add trans.elected fuel before []
      ⟨[], [], trans.asked⟩ = some (unresolvable, st) →
    ∀ q ∈ st.packages, q.name = target.name → q = target

section Kept

variable {handle : Handle} {fuel : Nat} {trans trans' : Trans}

theorem resolveTargets_names {localpkgs preferred rem targets unresolvable : List Pkg} {asked : Nat}
    {st : Resolve} (done : resolveTargets handle localpkgs preferred rem fuel targets []
      ⟨[], [], asked⟩ = some (unresolvable, st)) : (st.packages.map Pkg.name).Nodup :=
  (resolveTargets_grows done).1.names nodup_nil

theorem inner_kept (resolved : Trans) {settled : Trans} (names : (resolved.add.map Pkg.name).Nodup)
    (inner : (if handle.transFlags.noconflicts then (none, resolved) else syncInner handle resolved) =
      (none, settled)) (p : Pkg) :
    p ∈ settled.add ∨ p ∈ settled.unresolvable ↔ p ∈ resolved.add ∨ p ∈ resolved.unresolvable := by
  split_ifs at inner with noconflicts
  · cases inner
    exact Iff.rfl
  · exact (syncInner_ok names inner).1.kept p

end Kept

/-- A prepared transaction still has every target that was asked for, or has set it
aside, if and only if no target finds its name taken. -/
theorem syncPrepare_targets_iff {handle : Handle} {fuel : Nat} {trans trans' : Trans}
    (names : (trans.add.map Pkg.name).Nodup)
    (done : syncPrepare handle fuel trans = some (none, trans')) :
    (∀ p ∈ trans.add, p ∈ trans'.add ∨ p ∈ trans'.unresolvable) ↔
      handle.transFlags.nodeps = true ∨ NamesOpen handle fuel trans := by
  obtain ⟨settled, targets, finish⟩ := syncPrepare_ok done
  obtain ⟨resolved, resolve, inner⟩ := syncTargets_ok targets
  obtain ⟨add, unresolvable⟩ := syncFinish_keeps finish
  rw [add, unresolvable]
  cases deps : handle.transFlags.nodeps with
  | true =>
    unfold syncResolve at resolve
    rw [if_pos deps] at resolve
    cases resolve
    refine iff_of_true (fun p member => ?_) (.inl rfl)
    exact (inner_kept { trans with data := [] } names inner p).mpr (.inl member)
  | false =>
    obtain ⟨given, st, loop, packages, aside⟩ := syncResolve_ok deps resolve
    have distinct : (resolved.add.map Pkg.name).Nodup := by
      rw [packages]
      exact resolveTargets_names loop
    simp only [inner_kept resolved distinct inner, packages, aside, Bool.false_eq_true, false_or]
    exact resolveTargets_targets names nodup_nil loop

def Trans.start (add : List Pkg) : Trans where
  add := add
  remove := []
  unresolvable := []
  removes := fun _ => []
  reason := Pkg.reason
  oldpkg := fun _ => none
  downloadSize := fun _ => 0
  data := []
  asked := 0
  dups := 0

def shown (result : Option SyncError × Trans) : Option SyncError × List Pkg × List Pkg × List Pkg :=
  (result.1, result.2.add, result.2.remove, result.2.unresolvable)

theorem shown_ok {run : Option (Option SyncError × Trans)} {add remove unresolvable : List Pkg}
    (computed : run.map shown = some (none, add, remove, unresolvable)) :
    ∃ trans', run = some (none, trans') ∧ trans'.add = add ∧ trans'.remove = remove ∧
      trans'.unresolvable = unresolvable := by
  obtain ⟨⟨err, trans'⟩, ran, same⟩ := Option.map_eq_some_iff.mp computed
  simp only [shown, Prod.mk.injEq] at same
  obtain ⟨rfl, rfl, rfl, rfl⟩ := same
  exact ⟨trans', ran, rfl, rfl, rfl⟩

/-- With the old `foo` nothing takes the name of a target. -/
theorem syncPrepare_targets_iff_app :
    ∃ trans', syncPrepare oldFooHandle 4 (Trans.start [oldFooUser]) = some (none, trans') ∧
      trans'.add = [oldFooUser, oldFoo] ∧ NamesOpen oldFooHandle 4 (Trans.start [oldFooUser]) := by
  have computed : (syncPrepare oldFooHandle 4 (Trans.start [oldFooUser])).map shown =
      some (none, [oldFooUser, oldFoo], [], []) := by decide +kernel
  obtain ⟨trans', done, add, _⟩ := shown_ok computed
  have names : ((Trans.start [oldFooUser]).add.map Pkg.name).Nodup := nodup_singleton _
  have kept : ∀ p ∈ (Trans.start [oldFooUser]).add, p ∈ trans'.add ∨ p ∈ trans'.unresolvable := by
    intro p member
    rw [add, mem_singleton.mp member]
    exact .inl mem_cons_self
  refine ⟨trans', done, add, ?_⟩
  exact ((syncPrepare_targets_iff names done).mp kept).resolve_left Bool.false_ne_true

/-- `app` brings the old `foo`, and the file of the new one that was asked for is
gone without a word. -/
theorem syncPrepare_drops_target : ((Trans.start [oldFooUser, newFoo]).add.map Pkg.name).Nodup ∧
      ∃ trans', (∀ fuel, 4 ≤ fuel →
          syncPrepare oldFooHandle fuel (Trans.start [oldFooUser, newFoo]) = some (none, trans')) ∧
        newFoo ∈ (Trans.start [oldFooUser, newFoo]).add ∧
        newFoo ∉ trans'.add ∧ newFoo ∉ trans'.unresolvable := by
  obtain ⟨result, finishes⟩ :=
    syncPrepare_terminates oldFooHandle (Trans.start [oldFooUser, newFoo])
  have bound : unlisted oldFooHandle (Trans.start [oldFooUser, newFoo]).add [] + 2 = 4 := by
    decide +kernel
  rw [bound] at finishes
  have computed : (syncPrepare oldFooHandle 4 (Trans.start [oldFooUser, newFoo])).map shown =
      some (none, [oldFooUser, oldFoo], [], []) := by decide +kernel
  obtain ⟨trans', done, add, _, unresolvable⟩ := shown_ok computed
  cases (finishes 4 le_rfl).symm.trans done
  refine ⟨by decide +kernel, trans', finishes, by decide +kernel, ?_, ?_⟩
  · rw [add]
    decide +kernel
  · rw [unresolvable]
    exact not_mem_nil

/-- Neither among the targets nor between them and the packages that stay is there a
conflict, and if the local packages have what they need, then so does everything
that is there afterwards. -/
structure Consistent (handle : Handle) (trans : Trans) : Prop where
  targets : ∀ p ∈ trans.add,
    ∀ q ∈ afterwards (dbGetPkgcache handle.dbLocal) trans.remove trans.add, ¬ Clash p q
  others : ∀ q ∈ afterwards (dbGetPkgcache handle.dbLocal) trans.remove trans.add,
    ∀ p ∈ trans.add, ¬ Clash q p
  closed : Closed handle {p | p ∈ dbGetPkgcache handle.dbLocal} →
    Closed handle (afterwards (dbGetPkgcache handle.dbLocal) trans.remove trans.add)

/-- The conflicts that are left when the target list is settled can be seen: targets
in conflict can both be loaded, and a local package that is not elected for removal
and conflicts with a target does so with one such that both can be loaded. -/
structure Visible (handle : Handle) (trans : Trans) : Prop where
  inner : ∀ p ∈ trans.add, ∀ q ∈ trans.add, Clash p q → BothLoad handle p q
  outer : ∀ q ∈ dbGetPkgcache handle.dbLocal, (∀ t ∈ trans.add, q.name ≠ t.name) →
    isElected trans q.name = false → (∃ p ∈ trans.add, Clash p q ∨ Clash q p) →
      ∃ p ∈ trans.add, (Clash p q ∨ Clash q p) ∧ BothLoad handle p q

section Conflicts

variable {handle : Handle} {settled trans' : Trans}

theorem syncInner_clear {resolved : Trans} (memory : ∀ n, handle.memory n = true)
    (names : (resolved.add.map Pkg.name).Nodup) (inner : syncInner handle resolved = (none, settled))
    {p q : Pkg} (one : p ∈ settled.add) (two : q ∈ settled.add) (clash : Clash p q) :
    ¬ BothLoad handle p q := by
  intro both
  obtain ⟨dropped, apart⟩ := syncInner_ok names inner
  obtain ⟨c, mem, name1, name2⟩ := innerconflicts_recorded memory (dropped.add.subset one)
    (dropped.add.subset two) clash both resolved.dups
  exact apart c mem ⟨⟨p, one, name1.symm⟩, q, two, name2.symm⟩

theorem syncFinish_removes (conflicts : handle.transFlags.noconflicts = false)
    (finish : syncFinish handle settled = (none, trans')) (name : CStr) :
    (∃ q ∈ trans'.remove, q.name = name) ↔ isElected settled name = true ∨
      ∃ c ∈ (outerconflicts handle handle.dbLocal settled.add settled.dups).conflicts,
        name = c.package2.name := by
  obtain ⟨elected, outer, _, _, names, _⟩ := syncFinish_ok finish
  rw [if_neg (by simp [conflicts])] at outer
  obtain ⟨elects, settles, only⟩ := syncOuter_ok outer
  rw [names]
  constructor
  · exact only name
  · rintro (before | ⟨c, mem, rfl⟩)
    · exact elects.isElected before
    · exact settles c mem

theorem Visible.no_clash (visible : Visible handle settled) (memory : ∀ n, handle.memory n = true)
    (conflicts : handle.transFlags.noconflicts = false)
    (clear : ∀ p ∈ settled.add, ∀ q ∈ settled.add, Clash p q → ¬ BothLoad handle p q)
    (finish : syncFinish handle settled = (none, trans')) {p q : Pkg} (target : p ∈ settled.add)
    (stays : q ∈ afterwards (dbGetPkgcache handle.dbLocal) trans'.remove settled.add) :
    ¬ (Clash p q ∨ Clash q p) := by
  intro clash
  rcases stays with ⟨there, notRemoved, notReplaced⟩ | new
  · have goes := syncFinish_removes conflicts finish q.name
    have gone : ¬ ∃ r ∈ trans'.remove, r.name = q.name := by
      rintro ⟨r, removed, same⟩
      exact notRemoved r removed same
    have kept : ∀ t ∈ settled.add, q.name ≠ t.name :=
      fun t there same => notReplaced t there same.symm
    rw [goes, not_or] at gone
    obtain ⟨r, target', clash', both⟩ :=
      visible.outer q there kept (Bool.eq_false_iff.mpr gone.1) ⟨p, target, clash⟩
    obtain ⟨c, mem, _, named⟩ :=
      outerconflicts_recorded memory target' there kept clash' both settled.dups
    exact gone.2 ⟨c, mem, named.symm⟩
  · rcases clash with forward | backward
    · exact clear p target q new forward (visible.inner p target q new forward)
    · exact clear q new p target backward (visible.inner q new p target backward)

theorem Consistent.visible (consistent : Consistent handle trans')
    (conflicts : handle.transFlags.noconflicts = false)
    (finish : syncFinish handle settled = (none, trans')) : Visible handle settled := by
  have same : trans'.add = settled.add := (syncFinish_keeps finish).1
  constructor
  · intro p one q two clash
    rw [← same] at one two
    exact absurd clash (consistent.targets p one q (.inr two))
  · intro q there kept notElected ⟨p, target, clash⟩
    by_cases goes : ∃ r ∈ trans'.remove, r.name = q.name
    · rcases (syncFinish_removes conflicts finish q.name).mp goes with before | ⟨c, mem, named⟩
      · exact absurd (notElected.symm.trans before) Bool.false_ne_true
      · have entry := outerconflicts_entry mem
        have this : c.package2 = q := inj_on_of_nodup_map
          (dbGetPkgcache_names handle.dbLocal) entry.there there named.symm
        rw [← this]
        exact ⟨c.package1, entry.target, entry.clash, entry.both⟩
    · have stays : q ∈ afterwards (dbGetPkgcache handle.dbLocal) trans'.remove trans'.add := by
        refine .inl ⟨there, fun r removed same => goes ⟨r, removed, same⟩, ?_⟩
        rw [same]
        exact fun t there same => kept t there same.symm
      rw [← same] at target
      rcases clash with forward | backward
      · exact absurd forward (consistent.targets p target q stays)
      · exact absurd backward (consistent.others q stays p target)

end Conflicts

/-- A prepared transaction leads to a consistent system if and only if the conflicts
that were left when its target list was settled could be seen. -/
theorem syncPrepare_consistent_iff {handle : Handle} {fuel : Nat} {trans trans' : Trans}
    (deps : handle.transFlags.nodeps = false) (versions : handle.transFlags.nodepversion = false)
    (conflicts : handle.transFlags.noconflicts = false) (memory : ∀ n, handle.memory n = true)
    (done : syncPrepare handle fuel trans = some (none, trans')) :
    ∃ settled, syncTargets handle fuel trans = some (none, settled) ∧
      (Consistent handle trans' ↔ Visible handle settled) := by
  obtain ⟨settled, targets, finish⟩ := syncPrepare_ok done
  obtain ⟨resolved, resolve, inner⟩ := syncTargets_ok targets
  obtain ⟨unresolvable, st, loop, packages, _⟩ := syncResolve_ok deps resolve
  rw [if_neg (by simp [conflicts])] at inner
  have names : (resolved.add.map Pkg.name).Nodup := by
    rw [packages]
    exact resolveTargets_names loop
  have same : trans'.add = settled.add := (syncFinish_keeps finish).1
  refine ⟨settled, targets, fun consistent => consistent.visible conflicts finish, ?_⟩
  intro visible
  have clear : ∀ p ∈ settled.add, ∀ q ∈ settled.add, Clash p q → ¬ BothLoad handle p q :=
    fun p one q two clash => syncInner_clear memory names inner one two clash
  obtain ⟨_, _, _, _, _, empty⟩ := syncFinish_ok finish
  constructor
  · rw [same]
    intro p target q stays clash
    exact visible.no_clash memory conflicts clear finish target stays (.inl clash)
  · rw [same]
    intro q stays p target clash
    exact visible.no_clash memory conflicts clear finish target stays (.inr clash)
  · intro closed
    exact checkdeps_closed (by rw [noDepVersion_eq, versions]) closed (empty deps)

def newLib : Pkg := Pkg.bare 0 (cstr "newlib") (cstr "1")

def heldLib : Pkg :=
  { Pkg.bare 1 (cstr "heldlib") (cstr "1") with
    origin := .localdb
    conflicts := [depFromString (cstr "newlib")] }

def agreeingHandle : Handle :=
  { Handle.quiet (Db.populate [heldLib]) [Db.populate [newLib]] TransFlags.none with
    answers := fun _ => 1 }

/-- The installed package is elected, and the system is consistent. -/
theorem syncPrepare_consistent_iff_removal :
    ∃ trans', syncPrepare agreeingHandle 3 (Trans.start [newLib]) = some (none, trans') ∧
      trans'.remove = [heldLib] ∧ Consistent agreeingHandle trans' := by
  have computed : (syncPrepare agreeingHandle 3 (Trans.start [newLib])).map shown =
      some (none, [newLib], [heldLib], []) := by decide +kernel
  obtain ⟨trans', done, _, remove, _⟩ := shown_ok computed
  obtain ⟨settled, _, consistent⟩ := syncPrepare_consistent_iff rfl rfl rfl (fun _ => rfl) done
  have both : ∀ p q, BothLoad agreeingHandle p q := by
    intro p q
    exact ⟨Bool.or_true _, Bool.or_true _⟩
  refine ⟨trans', done, remove, consistent.mpr ⟨fun p _ q _ _ => both p q, ?_⟩⟩
  intro q _ _ _ clashes
  obtain ⟨p, target, clash⟩ := clashes
  exact ⟨p, target, clash, both p q⟩

/-- If the entry of the installed package cannot be read to its end, its conflict is
not recorded, nobody is asked, and both packages are there afterwards. -/
theorem syncPrepare_not_consistent : let handle := { agreeingHandle with loads := fun _ => false }
    handle.transFlags = TransFlags.none ∧ (∀ n, handle.memory n = true) ∧
      ∃ trans', (∀ fuel, 3 ≤ fuel →
          syncPrepare handle fuel (Trans.start [newLib]) = some (none, trans')) ∧
        ¬ Consistent handle trans' := by
  intro handle
  obtain ⟨result, finishes⟩ := syncPrepare_terminates handle (Trans.start [newLib])
  have bound : unlisted handle (Trans.start [newLib]).add [] + 2 = 3 := by decide +kernel
  rw [bound] at finishes
  have computed : (syncPrepare handle 3 (Trans.start [newLib])).map shown =
      some (none, [newLib], [], []) := by decide +kernel
  obtain ⟨trans', done, add, remove, _⟩ := shown_ok computed
  cases (finishes 3 le_rfl).symm.trans done
  refine ⟨rfl, fun _ => rfl, trans', finishes, fun consistent => ?_⟩
  have stays : heldLib ∈ afterwards (dbGetPkgcache handle.dbLocal) trans'.remove trans'.add := by
    rw [add, remove]
    refine .inl ⟨by decide +kernel, by simp, ?_⟩
    intro t member
    rw [mem_singleton.mp member]
    decide +kernel
  apply consistent.others heldLib stays newLib
  · rw [add]
    exact mem_cons_self
  · exact ⟨by decide +kernel, depFromString (cstr "newlib"), mem_cons_self, by decide +kernel⟩

end Dulge
