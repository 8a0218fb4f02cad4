import Dulge.SyncPrepare

/-! What each stage of the preparation does to the transaction. The resolution only
adds packages, the conflicts between targets only move targets aside, the conflicts
with the local database only elect local packages for removal, and the stages behind
them leave the targets alone. -/
namespace Dulge
open Loop List

section Targets

variable {handle : Handle} {localpkgs preferred rem : List Pkg} {fuel : Nat}

theorem resolveTargets_append {before after unresolvable : List Pkg} {st : Resolve}
    {result : List Pkg × Resolve} :
    resolveTargets handle localpkgs preferred rem fuel (before ++ after) unresolvable st =
      some result ↔
      ∃ unresolvable1 st1,
        resolveTargets handle localpkgs preferred rem fuel before unresolvable st =
          some (unresolvable1, st1) ∧
        resolveTargets handle localpkgs preferred rem fuel after unresolvable1 st1 = some result := by
  induction before generalizing unresolvable st with
  | nil => simp [resolveTargets]
  | cons pkg before ih =>
    rw [cons_append, resolveTargets, resolveTargets]
    cases called : resolvedeps handle localpkgs preferred rem fuel pkg st with
    | none => simp
    | some answer =>
      obtain ⟨ok, st1⟩ := answer
      cases ok with
      | true => exact ih
      | false => exact ih

theorem resolveTargets_grows {targets unresolvable unresolvable' : List Pkg} {st st' : Resolve}
    (done : resolveTargets handle localpkgs preferred rem fuel targets unresolvable st =
      some (unresolvable', st')) : Grows st st' ∧ unresolvable <+: unresolvable' ∧
      ∀ p ∈ unresolvable', p ∈ unresolvable ∨ p ∈ targets := by
  induction targets generalizing unresolvable st with
  | nil =>
    cases done
    exact ⟨Grows.refl _, prefix_rfl, fun p listed => .inl listed⟩
  | cons pkg targets ih =>
    rw [resolveTargets] at done
    cases called : resolvedeps handle localpkgs preferred rem fuel pkg st with
    | none => simp [called] at done
    | some answer =>
      obtain ⟨ok, st1⟩ := answer
      have first : Grows st st1 := (resolvedeps_outcome called).grows
      simp only [called] at done
      cases ok with
      | true =>
        obtain ⟨grows, keeps, only⟩ := ih done
        refine ⟨first.trans grows, keeps, fun p listed => ?_⟩
        exact (only p listed).imp_right (mem_cons_of_mem pkg)
      | false =>
        obtain ⟨grows, keeps, only⟩ := ih done
        refine ⟨first.trans grows, (prefix_append _ _).trans keeps, fun p listed => ?_⟩
        rcases only p listed with old | later
        · rcases mem_append.mp old with before | last
          · exact .inl before
          · rw [mem_singleton.mp last]
            exact .inr mem_cons_self
        · exact .inr (mem_cons_of_mem pkg later)

variable (handle localpkgs preferred rem) in
theorem resolveTargets_terminates (targets unresolvable : List Pkg) (st : Resolve) :
    ∃ result, ∀ fuel, unlisted handle preferred st.packages + 2 ≤ fuel →
      resolveTargets handle localpkgs preferred rem fuel targets unresolvable st = some result := by
  induction targets generalizing unresolvable st with
  | nil => exact ⟨_, fun _ _ => rfl⟩
  | cons pkg targets ih =>
    obtain ⟨⟨ok, st1⟩, called⟩ := resolvedeps_terminates handle localpkgs preferred rem pkg st
    have keeps := (resolvedeps_outcome (called _ le_rfl)).grows.keeps
    have fewer : unlisted handle preferred st1.packages ≤ unlisted handle preferred st.packages :=
      unlisted_le handle preferred keeps
    cases ok with
    | true =>
      obtain ⟨result, rest⟩ := ih unresolvable st1
      refine ⟨result, fun fuel enough => ?_⟩
      rw [resolveTargets, called fuel enough]
      exact rest fuel (by omega)
    | false =>
      obtain ⟨result, rest⟩ := ih (unresolvable ++ [pkg]) st1
      refine ⟨result, fun fuel enough => ?_⟩
      rw [resolveTargets, called fuel enough]
      exact rest fuel (by omega)

/-- What becomes of one target: it is on the list or unresolvable, unless its name
was taken by another package when its turn came. -/
theorem resolveTargets_target {before after unresolvable' : List Pkg} {pkg : Pkg} {st st' : Resolve}
    (names : ((before ++ pkg :: after).map Pkg.name).Nodup) (start : (st.packages.map Pkg.name).Nodup)
    (done : resolveTargets handle localpkgs preferred rem fuel (before ++ pkg :: after) [] st =
      some (unresolvable', st')) : (pkg ∈ st'.packages ∨ pkg ∈ unresolvable') ↔ ∀ unresolvable1 st1,
      resolveTargets handle localpkgs preferred rem fuel before [] st = some (unresolvable1, st1) →
        ∀ q ∈ st1.packages, q.name = pkg.name → q = pkg := by
  obtain ⟨unresolvable1, st1, first, rest⟩ := resolveTargets_append.mp done
  have reached : (∀ u s, resolveTargets handle localpkgs preferred rem fuel before [] st =
    some (u, s) →
      ∀ q ∈ s.packages, q.name = pkg.name → q = pkg) ↔
        ∀ q ∈ st1.packages, q.name = pkg.name → q = pkg := by
    constructor
    · exact fun all => all unresolvable1 st1 first
    · intro here u s again
      cases first.symm.trans again
      exact here
  have once : pkg ∉ before ∧ pkg ∉ after := by
    have apart := (nodup_cons.mp (nodup_middle.mp names.of_map)).1
    simpa using apart
  have final : (st'.packages.map Pkg.name).Nodup := (resolveTargets_grows done).1.names start
  rw [reached]
  rw [resolveTargets] at rest
  cases called : resolvedeps handle localpkgs preferred rem fuel pkg st1 with
  | none => simp [called] at rest
  | some answer =>
    simp only [called] at rest
    cases resolvedeps_outcome called with
    | listed found =>
      obtain ⟨grows, _, only⟩ := resolveTargets_grows rest
      constructor
      · intro somewhere q mem same
        rcases somewhere with there | given
        · exact inj_on_of_nodup_map final (grows.keeps.subset mem) there same
        · exfalso
          rcases only pkg given with early | late
          · rcases (resolveTargets_grows first).2.2 pkg early with none | here
            · cases none
            · exact once.1 here
          · exact once.2 late
      · intro only
        obtain ⟨q, mem, same⟩ := pkgFind_isSome.mp found
        rw [only q mem same] at mem
        exact .inl (grows.keeps.subset mem)
    | added fresh more =>
      have mem := more.keeps.subset (mem_append_right _ mem_cons_self)
      have kept := (resolveTargets_grows rest).1.keeps.subset mem
      refine iff_of_true (.inl kept) fun q listed same => ?_
      exact absurd same (pkgFind_none.mp fresh q listed)
    | failed fresh same =>
      have given := (resolveTargets_grows rest).2.1.subset
        (mem_append_right unresolvable1 mem_cons_self)
      refine iff_of_true (.inr given) fun q listed same => ?_
      exact absurd same (pkgFind_none.mp fresh q listed)

theorem resolveTargets_targets {targets unresolvable' : List Pkg} {st st' : Resolve}
    (names : (targets.map Pkg.name).Nodup) (start : (st.packages.map Pkg.name).Nodup)
    (done : resolveTargets handle localpkgs preferred rem fuel targets [] st =
      some (unresolvable', st')) : (∀ pkg ∈ targets, pkg ∈ st'.packages ∨ pkg ∈ unresolvable') ↔
      ∀ before pkg after, targets = before ++ pkg :: after → ∀ unresolvable1 st1,
        resolveTargets handle localpkgs preferred rem fuel before [] st = some (unresolvable1, st1) →
          ∀ q ∈ st1.packages, q.name = pkg.name → q = pkg := by
  constructor
  · intro kept before pkg after split
    subst split
    apply (resolveTargets_target names start done).mp
    exact kept pkg (mem_append_right _ mem_cons_self)
  · intro free pkg mem
    obtain ⟨before, after, rfl⟩ := append_of_mem mem
    exact (resolveTargets_target names start done).mpr (free before pkg after rfl)

end Targets

structure Dropped (trans trans' : Trans) : Prop where
  add : trans'.add.Sublist trans.add
  kept : ∀ p, p ∈ trans'.add ∨ p ∈ trans'.unresolvable ↔ p ∈ trans.add ∨ p ∈ trans.unresolvable

theorem Dropped.refl (trans : Trans) : Dropped trans trans :=
  ⟨List.Sublist.refl _, fun _ => Iff.rfl⟩

theorem Dropped.trans {trans trans' trans'' : Trans} (first : Dropped trans trans')
    (second : Dropped trans' trans'') : Dropped trans trans'' where
  add := second.add.trans first.add
  kept := fun p => (second.kept p).trans (first.kept p)

theorem dropTarget_dropped {trans : Trans} (names : (trans.add.map Pkg.name).Nodup) {rsync : Pkg}
    (mem : rsync ∈ trans.add) : Dropped trans (dropTarget rsync trans) where
  add := listRemove_sublist pkgCmp trans.add rsync
  kept := by
    intro p
    simp only [dropTarget, mem_listRemove names, mem_append, mem_singleton]
    constructor
    · rintro (⟨there, _⟩ | given | rfl)
      · exact .inl there
      · exact .inr given
      · exact .inl mem
    · rintro (there | given)
      · by_cases same : p.name = rsync.name
        · exact .inr (.inr (inj_on_of_nodup_map names there mem same))
        · exact .inl ⟨there, same⟩
      · exact .inr (.inl given)

structure Elects (trans trans' : Trans) : Prop where
  add : trans'.add = trans.add
  remove : trans'.remove = trans.remove
  unresolvable : trans'.unresolvable = trans.unresolvable
  removes : ∀ p, trans.removes p ⊆ trans'.removes p

theorem Elects.trans {trans trans' trans'' : Trans} (first : Elects trans trans')
    (second : Elects trans' trans'') : Elects trans trans'' where
  add := second.add.trans first.add
  remove := second.remove.trans first.remove
  unresolvable := second.unresolvable.trans first.unresolvable
  removes := fun p _ listed => second.removes p (first.removes p listed)

section Stages

variable {handle : Handle} {trans trans' : Trans}

def Apart (conflict : Conflict) (add : List Pkg) : Prop :=
  ¬ ((∃ p ∈ add, p.name = conflict.package1.name) ∧ ∃ p ∈ add, p.name = conflict.package2.name)

theorem Apart.of_sublist {conflict : Conflict} {add add' : List Pkg} (fewer : add'.Sublist add)
    (apart : Apart conflict add) : Apart conflict add' := by
  rintro ⟨⟨p, one, name1⟩, q, two, name2⟩
  exact apart ⟨⟨p, fewer.subset one, name1⟩, q, fewer.subset two, name2⟩

theorem innerTurn_ok {conflict : Conflict} (names : (trans.add.map Pkg.name).Nodup)
    (done : innerTurn handle conflict trans = (none, trans')) :
    Dropped trans trans' ∧ Apart conflict trans'.add := by
  have drops : ∀ {rsync : Pkg}, rsync ∈ trans.add →
      (rsync.name = conflict.package1.name ∨ rsync.name = conflict.package2.name) →
      Dropped trans (dropTarget rsync trans) ∧ Apart conflict (dropTarget rsync trans).add := by
    intro rsync mem named
    refine ⟨dropTarget_dropped names mem, ?_⟩
    rintro ⟨⟨p, one, name1⟩, q, two, name2⟩
    rcases named with same | same
    · exact ((mem_listRemove names rsync p).mp one).2 (name1.trans same.symm)
    · exact ((mem_listRemove names rsync q).mp two).2 (name2.trans same.symm)
  unfold innerTurn at done
  simp only at done
  split at done
  · rename_i sync1 sync2 found1 found2
    obtain ⟨there1, name1⟩ := pkgFind_some found1
    obtain ⟨there2, name2⟩ := pkgFind_some found2
    split_ifs at done with provides1 provides2
    · cases done
      exact drops there2 (.inr name2)
    · cases done
      exact drops there1 (.inl name1)
    · simp [reportConflict] at done
  · rename_i missing
    cases done
    refine ⟨Dropped.refl _, ?_⟩
    rintro ⟨one, two⟩
    obtain ⟨sync1, found1⟩ := Option.isSome_iff_exists.mp (pkgFind_isSome.mpr one)
    obtain ⟨sync2, found2⟩ := Option.isSome_iff_exists.mp (pkgFind_isSome.mpr two)
    exact missing sync1 sync2 found1 found2

theorem syncInner_ok (names : (trans.add.map Pkg.name).Nodup)
    (done : syncInner handle trans = (none, trans')) : Dropped trans trans' ∧
      ∀ c ∈ (innerconflicts handle trans.add trans.dups).conflicts, Apart c trans'.add := by
  have step : ∀ c s s', innerTurn handle c s = (none, s') → Dropped trans s → Dropped trans s' := by
    intro c s s' turn dropped
    exact dropped.trans (innerTurn_ok ((dropped.add.map Pkg.name).nodup names) turn).1
  have start : Dropped trans { trans with
      dups := (innerconflicts handle trans.add trans.dups).dups } :=
    ⟨List.Sublist.refl _, fun _ => Iff.rfl⟩
  refine ⟨each_keeps (Dropped trans) done (fun c _ => step c) start, ?_⟩
  intro c mem
  refine (each_reaches (Dropped trans) (fun s => Dropped trans s ∧ Apart c s.add) done mem
    (fun c _ => step c) ?_ ?_ start).2
  · intro d _ s s' turn held
    have more := (innerTurn_ok ((held.1.add.map Pkg.name).nodup names) turn).1
    exact ⟨held.1.trans more, held.2.of_sublist more.add⟩
  · intro s s' turn dropped
    have reached := innerTurn_ok ((dropped.add.map Pkg.name).nodup names) turn
    exact ⟨dropped.trans reached.1, reached.2⟩

theorem isElected_iff {name : CStr} :
    isElected trans name = true ↔ ∃ q ∈ trans.elected, q.name = name := by
  simp only [isElected, Trans.elected, Bool.or_eq_true, any_eq_true, pkgFind_isSome,
    mem_append, mem_flatMap]
  constructor
  · rintro (⟨q, listed, same⟩ | ⟨spkg, target, q, listed, same⟩)
    · exact ⟨q, .inl listed, same⟩
    · exact ⟨q, .inr ⟨spkg, target, listed⟩, same⟩
  · rintro ⟨q, listed | ⟨spkg, target, listed⟩, same⟩
    · exact .inl ⟨q, listed, same⟩
    · exact .inr ⟨spkg, target, q, listed, same⟩

theorem Elects.isElected {name : CStr} (elects : Elects trans trans')
    (before : isElected trans name = true) : Dulge.isElected trans' name = true := by
  obtain ⟨q, listed, same⟩ := isElected_iff.mp before
  refine isElected_iff.mpr ⟨q, ?_, same⟩
  unfold Trans.elected at listed ⊢
  rw [elects.add, elects.remove]
  rcases mem_append.mp listed with removed | chosen
  · exact mem_append_left _ removed
  · obtain ⟨spkg, target, mem⟩ := mem_flatMap.mp chosen
    exact mem_append_right _ (mem_flatMap.mpr ⟨spkg, target, elects.removes spkg mem⟩)

theorem mem_electRemoval {sync found p q : Pkg} :
    q ∈ (electRemoval sync found trans).removes p ↔ q ∈ trans.removes p ∨ p = sync ∧ q = found := by
  unfold electRemoval
  by_cases same : p = sync
  · simp [same]
  · simp [same]

theorem electRemoval_ok {sync : Pkg} (mem : sync ∈ trans.add) (found : Pkg) :
    Elects trans (electRemoval sync found trans) ∧
      ∀ name, isElected (electRemoval sync found trans) name = true ↔
        isElected trans name = true ∨ name = found.name := by
  have elects : Elects trans (electRemoval sync found trans) :=
    ⟨rfl, rfl, rfl, fun p q listed => mem_electRemoval.mpr (.inl listed)⟩
  refine ⟨elects, fun name => ⟨?_, ?_⟩⟩
  · intro elected
    obtain ⟨q, listed, same⟩ := isElected_iff.mp elected
    rcases mem_append.mp listed with removed | chosen
    · exact .inl (isElected_iff.mpr ⟨q, mem_append_left _ removed, same⟩)
    · obtain ⟨spkg, target, chosen⟩ := mem_flatMap.mp chosen
      rcases mem_electRemoval.mp chosen with before | ⟨_, rfl⟩
      · exact .inl (isElected_iff.mpr
          ⟨q, mem_append_right _ (mem_flatMap.mpr ⟨spkg, target, before⟩), same⟩)
      · exact .inr same.symm
  · intro either
    rcases either with before | rfl
    · exact elects.isElected before
    · refine isElected_iff.mpr ⟨found, mem_append_right _ (mem_flatMap.mpr ?_), rfl⟩
      exact ⟨sync, mem, mem_electRemoval.mpr (.inr ⟨rfl, rfl⟩)⟩

theorem outerTurn_ok {conflict : Conflict} (done : outerTurn handle conflict trans = (none, trans')) :
    Elects trans trans' ∧ isElected trans' conflict.package2.name = true ∧
      ∀ name, isElected trans' name = true →
        isElected trans name = true ∨ name = conflict.package2.name := by
  unfold outerTurn at done
  simp only at done
  split_ifs at done with already agreed
  · cases done
    exact ⟨⟨rfl, rfl, rfl, fun _ => List.Subset.refl _⟩, already, fun _ elected => .inl elected⟩
  · split at done
    · rename_i sync found target there
      cases done
      have named : found.name = conflict.package2.name := by
        rw [dbGetPkgfromcache_eq] at there
        exact (pkgFind_some there).2
      have mem : sync ∈ trans.add := (pkgFind_some target).1
      obtain ⟨elects, only⟩ := electRemoval_ok
        (show sync ∈ { trans with asked := trans.asked + 1 }.add from mem) found
      refine ⟨⟨elects.add, elects.remove, elects.unresolvable, elects.removes⟩, ?_, ?_⟩
      · rw [only, named]
        exact .inr rfl
      · intro name elected
        rw [only, named] at elected
        exact elected
    · simp at done
  · simp [reportConflict] at done

theorem syncOuter_ok (done : syncOuter handle trans = (none, trans')) : Elects trans trans' ∧
      (∀ c ∈ (outerconflicts handle handle.dbLocal trans.add trans.dups).conflicts,
        isElected trans' c.package2.name = true) ∧
      ∀ name, isElected trans' name = true → isElected trans name = true ∨
        ∃ c ∈ (outerconflicts handle handle.dbLocal trans.add trans.dups).conflicts,
          name = c.package2.name := by
  have start : Elects trans { trans with
      dups := (outerconflicts handle handle.dbLocal trans.add trans.dups).dups } :=
    ⟨rfl, rfl, rfl, fun _ => List.Subset.refl _⟩
  refine ⟨each_keeps (Elects trans) done ?_ start, ?_, ?_⟩
  · intro c _ s s' turn elects
    exact elects.trans (outerTurn_ok turn).1
  · intro c mem
    apply each_reaches (fun _ => True) (fun s => isElected s c.package2.name = true) done mem
    · exact fun _ _ _ _ _ held => held
    · intro d _ s s' turn elected
      exact (outerTurn_ok turn).1.isElected elected
    · intro s s' turn _
      exact (outerTurn_ok turn).2.1
    · exact trivial
  · apply each_keeps (fun s => ∀ name, isElected s name = true → isElected trans name = true ∨
      ∃ c ∈ (outerconflicts handle handle.dbLocal trans.add trans.dups).conflicts,
        name = c.package2.name) done
    · intro c mem s s' turn held name elected
      rcases (outerTurn_ok turn).2.2 name elected with before | named
      · exact held name before
      · exact .inr ⟨c, mem, named⟩
    · exact fun name elected => .inl elected

theorem removeTurn_ok {rpkg : Pkg} (done : removeTurn handle rpkg trans = (none, trans')) :
    trans'.add = trans.add ∧ trans'.unresolvable = trans.unresolvable ∧
      ∀ name, (∃ q ∈ trans'.remove, q.name = name) ↔
        (∃ q ∈ trans.remove, q.name = name) ∨ rpkg.name = name := by
  unfold removeTurn at done
  split_ifs at done with already failed
  · cases done
    refine ⟨rfl, rfl, fun name => ⟨.inl, ?_⟩⟩
    rintro (before | rfl)
    · exact before
    · exact pkgFind_isSome.mp already
  · cases done
  · cases done
    refine ⟨rfl, rfl, fun name => ?_⟩
    simp

theorem syncRemove_ok (done : syncRemove handle trans = (none, trans')) :
    trans'.add = trans.add ∧ trans'.unresolvable = trans.unresolvable ∧
      ∀ name, (∃ q ∈ trans'.remove, q.name = name) ↔ isElected trans name = true := by
  unfold syncRemove at done
  have run : ∀ (rpkgs : List Pkg) (s : Trans), each (removeTurn handle) rpkgs s = (none, trans') →
      trans'.add = s.add ∧ trans'.unresolvable = s.unresolvable ∧
        ∀ name, (∃ q ∈ trans'.remove, q.name = name) ↔ ∃ q ∈ s.remove ++ rpkgs, q.name = name := by
    intro rpkgs
    induction rpkgs with
    | nil =>
      intro s done
      cases done
      exact ⟨rfl, rfl, fun name => by rw [append_nil]⟩
    | cons rpkg rpkgs ih =>
      intro s done
      obtain ⟨mid, turn, rest⟩ := each_cons_ok.mp done
      obtain ⟨add, unresolvable, names⟩ := removeTurn_ok turn
      obtain ⟨add', unresolvable', names'⟩ := ih mid rest
      refine ⟨add'.trans add, unresolvable'.trans unresolvable, fun name => ?_⟩
      rw [names']
      simp only [mem_append, or_and_right, exists_or, names, mem_cons, exists_eq_left, or_assoc]
  obtain ⟨add, unresolvable, names⟩ := run _ trans done
  exact ⟨add, unresolvable, fun name => (names name).trans isElected_iff.symm⟩

theorem syncCheckdeps_ok (done : syncCheckdeps handle trans = (none, trans')) :
    trans' = trans ∧ (handle.transFlags.nodeps = false →
      checkdeps handle (dbGetPkgcache handle.dbLocal) trans.remove trans.add true = []) := by
  unfold syncCheckdeps at done
  split_ifs at done with nodeps
  · cases done
    exact ⟨rfl, fun deps => absurd (nodeps.symm.trans deps) Bool.noConfusion⟩
  · split at done
    · rename_i empty
      cases done
      exact ⟨rfl, fun _ => empty⟩
    · cases done

theorem sizeTurn_ok {spkg : Pkg} (done : sizeTurn handle spkg trans = (none, trans')) :
    trans'.add = trans.add ∧ trans'.remove = trans.remove ∧
      trans'.unresolvable = trans.unresolvable := by
  unfold sizeTurn at done
  split at done
  · cases done
  · simp only at done
    split at done
    · cases done
      exact ⟨rfl, rfl, rfl⟩
    · obtain ⟨_, rfl⟩ := Prod.mk.inj done
      exact ⟨rfl, rfl, rfl⟩

theorem syncSizes_ok (done : syncSizes handle trans = (none, trans')) :
    trans'.add = trans.add ∧ trans'.remove = trans.remove ∧
      trans'.unresolvable = trans.unresolvable := by
  apply each_keeps (fun s => s.add = trans.add ∧ s.remove = trans.remove ∧
    s.unresolvable = trans.unresolvable) done
  · intro spkg _ s s' turn held
    obtain ⟨add, remove, unresolvable⟩ := sizeTurn_ok turn
    exact ⟨add.trans held.1, remove.trans held.2.1, unresolvable.trans held.2.2⟩
  · exact ⟨rfl, rfl, rfl⟩

theorem syncFinish_ok (done : syncFinish handle trans = (none, trans')) :
    ∃ elected, (if handle.transFlags.noconflicts then (none, trans) else syncOuter handle trans) =
        (none, elected) ∧ trans'.add = elected.add ∧ trans'.unresolvable = elected.unresolvable ∧
      (∀ name, (∃ q ∈ trans'.remove, q.name = name) ↔ isElected elected name = true) ∧
      (handle.transFlags.nodeps = false →
        checkdeps handle (dbGetPkgcache handle.dbLocal) trans'.remove trans'.add true = []) := by
  obtain ⟨elected, outer, rest⟩ := andThen_ok.mp done
  obtain ⟨removed, remove, rest⟩ := andThen_ok.mp rest
  obtain ⟨checked, check, sizes⟩ := andThen_ok.mp rest
  obtain ⟨add, unresolvable, names⟩ := syncRemove_ok remove
  obtain ⟨rfl, empty⟩ := syncCheckdeps_ok check
  obtain ⟨add', remove', unresolvable'⟩ := syncSizes_ok sizes
  refine ⟨elected, outer, add'.trans add, unresolvable'.trans unresolvable, ?_, ?_⟩
  · rw [remove']
    exact names
  · rw [remove', add']
    exact empty

theorem syncFinish_keeps (done : syncFinish handle trans = (none, trans')) :
    trans'.add = trans.add ∧ trans'.unresolvable = trans.unresolvable := by
  obtain ⟨elected, outer, add, unresolvable, _⟩ := syncFinish_ok done
  rw [add, unresolvable]
  split_ifs at outer with noconflicts
  · cases outer
    exact ⟨rfl, rfl⟩
  · have elects := (syncOuter_ok outer).1
    exact ⟨elects.add, elects.unresolvable⟩

theorem acceptResolved_ok {unresolvable : List Pkg} {st : Resolve}
    (done : acceptResolved handle unresolvable st trans = (none, trans')) :
    trans'.add = st.packages ∧ trans'.unresolvable = unresolvable := by
  unfold acceptResolved at done
  simp only at done
  split_ifs at done with refused ask
  · cases done
  · split at done
    · cases done
    · cases done
    · cases done
      exact ⟨rfl, rfl⟩
  · split at done
    · cases done
    · cases done
    · cases done
      exact ⟨rfl, rfl⟩

theorem syncResolve_ok {fuel : Nat} (deps : handle.transFlags.nodeps = false)
    (done : syncResolve handle fuel trans = some (none, trans')) :
    ∃ unresolvable st, resolveTargets handle (fakeLocal handle trans) trans.add trans.elected fuel
        trans.add [] ⟨[], [], trans.asked⟩ = some (unresolvable, st) ∧
      trans'.add = st.packages ∧ trans'.unresolvable = unresolvable := by
  unfold syncResolve at done
  rw [if_neg (by simp [deps])] at done
  split at done
  · cases done
  · rename_i unresolvable st loop
    exact ⟨unresolvable, st, loop, acceptResolved_ok (Option.some.inj done)⟩

theorem syncTargets_ok {fuel : Nat} (done : syncTargets handle fuel trans = some (none, trans')) :
    ∃ resolved, syncResolve handle fuel { trans with data := [] } = some (none, resolved) ∧
      (if handle.transFlags.noconflicts then (none, resolved) else syncInner handle resolved) =
        (none, trans') := by
  unfold syncTargets at done
  simp only at done
  split at done
  · cases done
  · obtain ⟨result, resolve, rest⟩ := Option.map_eq_some_iff.mp done
    obtain ⟨resolved, rfl, inner⟩ := proceed_ok.mp rest
    exact ⟨resolved, resolve, inner⟩

theorem syncPrepare_ok {fuel : Nat} (done : syncPrepare handle fuel trans = some (none, trans')) :
    ∃ settled, syncTargets handle fuel trans = some (none, settled) ∧
      syncFinish handle settled = (none, trans') := by
  obtain ⟨result, targets, rest⟩ := Option.map_eq_some_iff.mp done
  obtain ⟨settled, rfl, finish⟩ := proceed_ok.mp rest
  exact ⟨settled, targets, finish⟩

theorem syncResolve_terminates (handle : Handle) (trans : Trans) :
    ∃ result, ∀ fuel, unlisted handle trans.add [] + 2 ≤ fuel →
      syncResolve handle fuel trans = some result := by
  unfold syncResolve
  split_ifs
  · exact ⟨_, fun _ _ => rfl⟩
  · obtain ⟨⟨unresolvable, st⟩, loop⟩ := resolveTargets_terminates handle (fakeLocal handle trans)
      trans.add trans.elected trans.add [] ⟨[], [], trans.asked⟩
    refine ⟨acceptResolved handle unresolvable st trans, fun fuel enough => ?_⟩
    simp only [loop fuel enough]

theorem syncPrepare_terminates (handle : Handle) (trans : Trans) :
    ∃ result, ∀ fuel, unlisted handle trans.add [] + 2 ≤ fuel →
      syncPrepare handle fuel trans = some result := by
  have map : ∀ {α β : Type} (f : α → β) {x : Nat → Option α} {bound : Nat},
      (∃ result, ∀ fuel, bound ≤ fuel → x fuel = some result) →
        ∃ result, ∀ fuel, bound ≤ fuel → (x fuel).map f = some result := by
    intro α β f x bound finishes
    obtain ⟨result, finishes⟩ := finishes
    exact ⟨f result, fun fuel enough => by rw [finishes fuel enough, Option.map_some]⟩
  unfold syncPrepare
  apply map
  unfold syncTargets
  simp only
  split
  · exact ⟨_, fun _ _ => rfl⟩
  · exact map _ (syncResolve_terminates handle { trans with data := [] })

end Stages

end Dulge
