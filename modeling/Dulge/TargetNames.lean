import Dulge.RemovePrepare
import Dulge.Sortbydeps
import Dulge.Sysupgrade
import Dulge.Transaction

/-! The calls that collect the targets of a transaction and the one that prepares it, on the whole
target list: `alpm_add_pkg`, `alpm_sync_sysupgrade` and `alpm_trans_prepare`. -/

namespace Dulge

open Loop Machine List Option

structure TargetWorld extends UpgradeFields where
  arch : Pkg → Option CStr
  architectures : List CStr
  /-- `ALPM_TRANS_FLAG_NEEDED` -/
  needed : Bool

structure Session where
  trans : Trans
  prepared : Bool

inductive PrepareFailure where
  | notInitialized
  | invalidArch (data : List CStr)
  | removal (error : RemoveError)
  | sync (error : SyncError)

section Calls

variable (handle : Handle) (world : TargetWorld)

/-- `alpm_add_pkg`; `ours` says that the package belongs to the handle. -/
def Session.addPkg (pkg : Option Pkg) (ours : Bool) (session : Session) :
    Option TransErrno × Session :=
  match pkg with
  | none => (some .wrongArgs, session)
  | some pkg =>
    if pkg.origin = .localdb then (some .wrongArgs, session)
    else if !ours then (some .wrongArgs, session)
    else if session.prepared then (some .transNotInitialized, session)
    else
      let trans := session.trans
      match pkgFind trans.add pkg.name with
      | some dup => (if dup.addr = pkg.addr then none else some .transDupTarget, session)
      | none =>
        if upToDate handle.dbLocal pkg && world.needed then (none, session)
        else
          (none, { session with trans := { trans with
            reason := Function.update trans.reason pkg .explicit
            add := trans.add ++ [pkg] } })

def Session.syncSysupgrade (enableDowngrade : Bool) (session : Session) :
    Option TransErrno × Session :=
  if session.prepared then (some .transNotInitialized, session)
  else
    (none, { session with
      trans := (sysupgrade handle world.toUpgradeFields enableDowngrade session.trans).trans })

/-- `check_arch`: the packages of a foreign architecture -/
def checkArch (pkgs : List Pkg) : List CStr :=
  if world.architectures = [] then []
  else
    pkgs.filterMap fun pkg =>
      match world.arch pkg with
      | none => none
      | some pkgarch =>
        if strcmp pkgarch (cstr "any") = 0 then none
        else if world.architectures.any fun arch => strcmp pkgarch arch = 0 then none
        else some (pkg.name ++ cstr "-" ++ pkg.version ++ cstr "-" ++ pkgarch)

def prepareTargets (fuel : Nat) (trans : Trans) : Option (Option PrepareFailure × Trans) :=
  if trans.add = [] then
    (removePrepare handle fuel trans.remove trans.dups).map fun removal =>
      (removal.error.map .removal, { trans with remove := removal.remove, dups := removal.dups })
  else (syncPrepare handle fuel trans).map fun synced => (synced.1.map .sync, synced.2)

def sortList (fuel : Nat) (list ignore : List Pkg) (reverse : Bool) : Option (List Pkg) :=
  if list = [] then some [] else sortbydeps handle fuel list ignore reverse

def sortTargets (fuel : Nat) (trans : Trans) : Option Trans :=
  if handle.transFlags.nodeps then some trans
  else
    (sortList handle fuel trans.add trans.remove false).bind fun add =>
      (sortList handle fuel trans.remove [] true).map fun remove =>
        { trans with add := add, remove := remove }

/-- `alpm_trans_prepare`; `none` where the fuel is not enough. -/
def Session.transPrepare (fuel : Nat) (session : Session) :
    Option (Option PrepareFailure × Session) :=
  if session.prepared then some (some .notInitialized, session)
  else if session.trans.add = [] ∧ session.trans.remove = [] then some (none, session)
  else if checkArch world session.trans.add ≠ [] then
    some (some (.invalidArch (checkArch world session.trans.add)), session)
  else
    match prepareTargets handle fuel session.trans with
    | none => none
    | some (some error, trans) => some (some error, { session with trans := trans })
    | some (none, trans) =>
      (sortTargets handle fuel trans).map fun sorted => (none, ⟨sorted, true⟩)

end Calls

/-! ### Distinct names -/

def Trans.DistinctNames (trans : Trans) : Prop := (trans.add.map Pkg.name).Nodup

theorem distinctNames_append {add more : List Pkg} (distinct : (add.map Pkg.name).Nodup)
    (among : (more.map Pkg.name).Nodup) (fresh : ∀ pkg ∈ more, pkgFind add pkg.name = none) :
    ((add ++ more).map Pkg.name).Nodup := by
  rw [map_append, nodup_append]
  refine ⟨distinct, among, ?_⟩
  rintro name old other new rfl
  obtain ⟨pkg, mem, rfl⟩ := mem_map.mp old
  obtain ⟨added, listed, same⟩ := mem_map.mp new
  exact pkgFind_none.mp (fresh added listed) pkg mem same.symm

section Upgrading

variable {handle : Handle} {fields : UpgradeFields} {enableDowngrade : Bool} {lpkg : Pkg}

theorem checkReplacers_fresh (sdb : Db) (index : Nat) (st : Upgrade) :
    ((checkReplacers handle fields lpkg sdb index st).2.map Pkg.name).Nodup ∧
      ∀ pkg ∈ (checkReplacers handle fields lpkg sdb index st).2,
        pkgFind st.trans.add pkg.name = none := by
  have answered : Answered handle fields index (st, []) _
      (checkReplacers handle fields lpkg sdb index st) :=
    checkReplacers_answered sdb st
  rw [answered.replacers, nil_append]
  refine ⟨?_, ?_⟩
  · have listed : (((((offers handle fields lpkg sdb).zipIdx st.trans.asked).filter
        (enters handle st.trans.add)).map Prod.fst).map Pkg.name).Sublist
          ((dbGetPkgcache sdb).map Pkg.name) := by
      apply List.Sublist.map
      refine (filter_sublist.map Prod.fst).trans ?_
      rw [zipIdx_map_fst]
      exact filter_sublist
    exact listed.nodup (dbGetPkgcache_names sdb)
  · intro pkg mem
    obtain ⟨offer, kept, rfl⟩ := mem_map.mp mem
    have entered := (mem_filter.mp kept).2
    simp only [enters, Bool.and_eq_true, isNone_iff_eq_none] at entered
    exact entered.2

theorem upgradeFromDbs_distinct (dbs : List (Db × Nat)) {st : Upgrade}
    (distinct : st.trans.DistinctNames) (fresh : pkgFind st.trans.add lpkg.name = none) :
    (upgradeFromDbs handle fields enableDowngrade lpkg dbs st).trans.DistinctNames := by
  induction dbs generalizing st with
  | nil => exact distinct
  | cons entry dbs ih =>
    obtain ⟨sdb, index⟩ := entry
    have answered : Answered handle fields index (st, []) _
        (checkReplacers handle fields lpkg sdb index st) := checkReplacers_answered sdb st
    obtain ⟨among, new⟩ : ((checkReplacers handle fields lpkg sdb index st).2.map Pkg.name).Nodup ∧
        _ :=
      checkReplacers_fresh sdb index st
    rw [upgradeFromDbs]
    generalize checkReplacers handle fields lpkg sdb index st = checked at answered among new ⊢
    have add := answered.add
    dsimp only at add ⊢
    split
    · exact ih distinct fresh
    · split
      · rw [Trans.DistinctNames, add]
        exact distinctNames_append distinct among new
      · split
        · apply ih
          · rw [Trans.DistinctNames, add]
            exact distinct
          · rw [add]
            exact fresh
        · rename_i spkg found
          have named : spkg.name = lpkg.name := by
            rw [dbGetPkgfromcache_eq] at found
            exact (pkgFind_some found).2
          split
          · rw [Trans.DistinctNames, add]
            refine distinctNames_append distinct (nodup_singleton spkg.name) ?_
            intro pkg mem
            rw [mem_singleton.mp mem, named]
            exact fresh
          · rw [Trans.DistinctNames, add]
            exact distinct

theorem handleLocal_distinct {trans : Trans} (distinct : trans.DistinctNames) :
    (handleLocal handle fields enableDowngrade lpkg trans).trans.DistinctNames := by
  unfold handleLocal
  split
  · exact distinct
  · split
    · exact distinct
    · rename_i fresh
      exact upgradeFromDbs_distinct _ distinct (by simpa using fresh)

theorem sysupgrade_distinct {trans : Trans} (distinct : trans.DistinctNames) :
    (sysupgrade handle fields enableDowngrade trans).trans.DistinctNames := by
  have keeps : ∀ (st : Upgrade) (lpkg : Pkg), st.trans.DistinctNames → True →
      (upgradeTurn handle fields enableDowngrade st lpkg).trans.DistinctNames :=
    fun st lpkg distinct _ => handleLocal_distinct distinct
  have start : (⟨trans, []⟩ : Upgrade).trans.DistinctNames := distinct
  exact (everyState_of_everyStep keeps start (fun _ _ _ _ => trivial)).last

end Upgrading

section Preparing

variable {handle : Handle}

theorem preserves_of_add {ε : Type} {stage : Stage ε Trans}
    (same : ∀ trans, (stage trans).2.add = trans.add) : stage.Preserves Trans.DistinctNames := by
  intro trans distinct
  rw [Trans.DistinctNames, same]
  exact distinct

theorem innerTurn_preserves (conflict : Conflict) :
    (innerTurn handle conflict).Preserves Trans.DistinctNames := by
  have drops : ∀ (rsync : Pkg) (trans : Trans), trans.DistinctNames →
      (dropTarget rsync trans).DistinctNames := by
    intro rsync trans distinct
    exact ((listRemove_sublist pkgCmp trans.add rsync).map Pkg.name).nodup distinct
  intro trans distinct
  unfold innerTurn
  dsimp only
  split
  · split_ifs
    · exact drops _ trans distinct
    · exact drops _ trans distinct
    · exact distinct
  · exact distinct

theorem syncInner_preserves : (syncInner handle).Preserves Trans.DistinctNames := by
  intro trans distinct
  exact each_preserves innerTurn_preserves _ distinct

theorem syncFinish_preserves : (syncFinish handle).Preserves Trans.DistinctNames := by
  have outer : (syncOuter handle).Preserves Trans.DistinctNames := by
    intro trans distinct
    refine each_preserves (fun conflict => preserves_of_add ?_) _ distinct
    intro trans
    unfold outerTurn
    dsimp only
    split_ifs
    · rfl
    · split
      · rfl
      · rfl
    · rfl
  have remove : (syncRemove handle).Preserves Trans.DistinctNames := by
    intro trans distinct
    refine each_preserves (fun rpkg => preserves_of_add ?_) trans distinct
    intro trans
    unfold removeTurn
    split_ifs <;> rfl
  have deps : (syncCheckdeps handle).Preserves Trans.DistinctNames := by
    apply preserves_of_add
    intro trans
    unfold syncCheckdeps
    split
    · rfl
    · split <;> rfl
  have sizes : (syncSizes handle).Preserves Trans.DistinctNames := by
    intro trans distinct
    refine each_preserves (fun spkg => preserves_of_add ?_) trans distinct
    intro trans
    unfold sizeTurn
    split
    · rfl
    · dsimp only
      split <;> rfl
  refine Stage.Preserves.andThen ?_ (remove.andThen (deps.andThen sizes))
  intro trans distinct
  dsimp only
  split
  · exact distinct
  · exact outer trans distinct

variable {trans : Trans} {fuel : Nat}

theorem acceptResolved_distinct {unresolvable : List Pkg} {st : Resolve}
    (distinct : trans.DistinctNames) (names : (st.packages.map Pkg.name).Nodup) :
    (acceptResolved handle unresolvable st trans).2.DistinctNames := by
  unfold acceptResolved
  dsimp only
  split
  · exact distinct
  · have plain : ∀ ask : Prop, ∀ _ : Decidable ask, (if ask then
          { trans with data := [], asked := st.asked + 1 }
        else { trans with data := st.data.map .missing, asked := st.asked }).DistinctNames := by
      intro ask _
      split <;> exact distinct
    split
    · exact plain _ _
    · exact plain _ _
    · exact names

theorem syncPrepare_distinct {result : Option SyncError × Trans} (distinct : trans.DistinctNames)
    (done : syncPrepare handle fuel trans = some result) : result.2.DistinctNames := by
  obtain ⟨settled, targets, rfl⟩ := map_eq_some_iff.mp done
  refine proceed_preserves ?_ syncFinish_preserves
  unfold syncTargets at targets
  dsimp only at targets
  split at targets
  · cases targets
    exact distinct
  · obtain ⟨resolved, resolves, rfl⟩ := map_eq_some_iff.mp targets
    refine proceed_preserves ?_ ?_
    · unfold syncResolve at resolves
      split at resolves
      · cases resolves
        exact distinct
      · split at resolves
        · cases resolves
        · rename_i unresolvable st loop
          cases resolves
          exact acceptResolved_distinct distinct (resolveTargets_names loop)
    · intro trans distinct
      dsimp only
      split
      · exact distinct
      · exact syncInner_preserves trans distinct

theorem sortbydeps_perm {targets ignore result : List Pkg} {reverse : Bool}
    (names : (targets.map Pkg.name).Nodup)
    (done : sortbydeps handle fuel targets ignore reverse = some result) : result.Perm targets := by
  by_cases empty : targets = []
  · subst empty
    cases done
    exact .nil
  · obtain ⟨sorted, finishes, perm, _⟩ := sortbydeps_order handle ignore reverse empty names
    have more : sortbydeps handle (max fuel (2 * (depGraphInit handle targets ignore).length)) targets
        ignore reverse = some result := by
      have nonempty : targets.isEmpty = false := by simpa using empty
      simp only [sortbydeps, nonempty, Bool.false_eq_true, if_false] at done ⊢
      obtain ⟨final, ran, shown⟩ := map_eq_some_iff.mp done
      rw [DepthFirst.run_mono ran (le_max_left _ _), map_some, shown]
    rw [finishes _ (le_max_right _ _)] at more
    cases more
    exact perm

theorem sortTargets_distinct {sorted : Trans} (distinct : trans.DistinctNames)
    (done : sortTargets handle fuel trans = some sorted) : sorted.DistinctNames := by
  unfold sortTargets at done
  split at done
  · cases done
    exact distinct
  · obtain ⟨add, sortedAdd, rest⟩ := bind_eq_some_iff.mp done
    obtain ⟨remove, _, rfl⟩ := map_eq_some_iff.mp rest
    unfold sortList at sortedAdd
    split at sortedAdd
    · cases sortedAdd
      exact nodup_nil
    · exact ((sortbydeps_perm distinct sortedAdd).map Pkg.name).nodup_iff.mpr distinct

theorem prepareTargets_distinct {result : Option PrepareFailure × Trans}
    (distinct : trans.DistinctNames) (done : prepareTargets handle fuel trans = some result) :
    result.2.DistinctNames := by
  unfold prepareTargets at done
  split at done
  · obtain ⟨removal, _, rfl⟩ := map_eq_some_iff.mp done
    exact distinct
  · obtain ⟨synced, prepared, rfl⟩ := map_eq_some_iff.mp done
    exact syncPrepare_distinct distinct prepared

end Preparing

/-! ### Runs of calls -/

inductive TargetCall where
  | addPkg (pkg : Option Pkg) (ours : Bool)
  | syncSysupgrade (enableDowngrade : Bool)

def TargetCall.perform (handle : Handle) (world : TargetWorld) (session : Session) :
    TargetCall → Session
  | .addPkg pkg ours => (session.addPkg handle world pkg ours).2
  | .syncSysupgrade enableDowngrade => (session.syncSysupgrade handle world enableDowngrade).2

section Runs

variable {handle : Handle} {world : TargetWorld}

variable {session : Session}

theorem addPkg_distinct (distinct : session.trans.DistinctNames) (pkg : Option Pkg) (ours : Bool) :
    (session.addPkg handle world pkg ours).2.trans.DistinctNames := by
  unfold Session.addPkg
  split
  · exact distinct
  · rename_i pkg
    have added : pkgFind session.trans.add pkg.name = none →
        ((session.trans.add ++ [pkg]).map Pkg.name).Nodup := by
      intro fresh
      refine distinctNames_append distinct (nodup_singleton pkg.name) ?_
      intro other mem
      rw [mem_singleton.mp mem]
      exact fresh
    split
    · exact distinct
    · split
      · exact distinct
      · split
        · exact distinct
        · dsimp only
          split
          · exact distinct
          · rename_i fresh
            split
            · exact distinct
            · exact added fresh

theorem TargetCall.perform_distinct (distinct : session.trans.DistinctNames) (call : TargetCall) :
    (call.perform handle world session).trans.DistinctNames := by
  cases call with
  | addPkg pkg ours => exact addPkg_distinct distinct pkg ours
  | syncSysupgrade enableDowngrade =>
    simp only [TargetCall.perform, Session.syncSysupgrade]
    split
    · exact distinct
    · exact sysupgrade_distinct distinct

theorem transPrepare_distinct {fuel : Nat} {result : Option PrepareFailure × Session}
    (distinct : session.trans.DistinctNames)
    (done : session.transPrepare handle world fuel = some result) :
    result.2.trans.DistinctNames := by
  unfold Session.transPrepare at done
  split_ifs at done
  · cases done
    exact distinct
  · cases done
    exact distinct
  · cases done
    exact distinct
  · split at done
    · cases done
    · rename_i error trans failed
      cases done
      exact prepareTargets_distinct distinct failed
    · rename_i trans prepared
      obtain ⟨sorted, sorts, rfl⟩ := map_eq_some_iff.mp done
      exact sortTargets_distinct (prepareTargets_distinct distinct prepared) sorts

theorem transPrepare_terminates (handle : Handle) (world : TargetWorld)
    (targets : session.trans.add ≠ []) :
    ∃ bound, ∀ fuel, bound ≤ fuel → (session.transPrepare handle world fuel).isSome = true := by
  obtain ⟨result, finishes⟩ := syncPrepare_terminates handle session.trans
  have sorts : ∀ (list ignore : List Pkg) (reverse : Bool), ∃ bound, ∀ fuel, bound ≤ fuel →
      (sortList handle fuel list ignore reverse).isSome = true := by
    intro list ignore reverse
    by_cases empty : list = []
    · exact ⟨0, fun fuel _ => by simp [sortList, empty]⟩
    · obtain ⟨final, _, ends⟩ := sort_finishes handle ignore empty
      refine ⟨2 * (depGraphInit handle list ignore).length, fun fuel enough => ?_⟩
      simp [sortList, sortbydeps, empty, ends fuel enough]
  obtain ⟨boundAdd, sortsAdd⟩ := sorts result.2.add result.2.remove false
  obtain ⟨boundRemove, sortsRemove⟩ := sorts result.2.remove [] true
  refine ⟨unlisted handle session.trans.add [] + 2 + boundAdd + boundRemove, fun fuel enough => ?_⟩
  have prepared : prepareTargets handle fuel session.trans = some (result.1.map .sync, result.2) := by
    rw [prepareTargets, if_neg targets, finishes fuel (by omega), map_some]
  obtain ⟨add, sortedAdd⟩ := isSome_iff_exists.mp (sortsAdd fuel (by omega))
  obtain ⟨remove, sortedRemove⟩ := isSome_iff_exists.mp (sortsRemove fuel (by omega))
  unfold Session.transPrepare
  rw [prepared]
  split_ifs
  · rfl
  · rfl
  · rfl
  · cases failed : result.1 with
    | some error => rfl
    | none =>
      simp only [map_none, isSome_map]
      unfold sortTargets
      split
      · rfl
      · rw [sortedAdd, bind_some, sortedRemove]
        rfl

end Runs

/-- Whatever calls add targets to a transaction that has none, and whatever is answered, after each of
them and after the preparation no two targets have one name; and with a target the preparation
returns. -/
theorem targets_distinct_names (handle : Handle) (world : TargetWorld) (session : Session)
    (fresh : session.trans.add = []) (calls : List TargetCall) :
    EveryState (TargetCall.perform handle world)
      (fun session => (session.trans.add.map Pkg.name).Nodup)
        session calls ∧ (∀ fuel result,
        (run (TargetCall.perform handle world) session calls).transPrepare handle world fuel =
          some result →
          (result.2.trans.add.map Pkg.name).Nodup) ∧
      ((run (TargetCall.perform handle world) session calls).trans.add ≠ [] →
        ∃ bound, ∀ fuel, bound ≤ fuel →
          ((run (TargetCall.perform handle world) session calls).transPrepare handle world
            fuel).isSome =
            true) := by
  have every : EveryState (TargetCall.perform handle world)
    (fun session => session.trans.DistinctNames)
      session calls := by
    have keeps : ∀ (session : Session) (call : TargetCall), session.trans.DistinctNames → True →
        (call.perform handle world session).trans.DistinctNames :=
      fun session call distinct _ => call.perform_distinct distinct
    have start : session.trans.DistinctNames := by
      rw [Trans.DistinctNames, fresh]
      exact nodup_nil
    exact everyState_of_everyStep keeps start fun _ _ _ _ => trivial
  refine ⟨every, ?_, transPrepare_terminates handle world⟩
  intro fuel result done
  exact transPrepare_distinct every.last done

/-- A package that is added by name and upgraded as well is one target. -/
theorem targets_distinct_names_upgrade : let old := Pkg.bare 0 (cstr "a") (cstr "1")
    let new := Pkg.bare 1 (cstr "a") (cstr "2")
    let other := Pkg.bare 2 (cstr "c") (cstr "1")
    let handle := Handle.quiet (Db.populate [old]) [Db.populate [new, other]] TransFlags.none
    let world : TargetWorld := ⟨⟨fun _ => [], fun _ => some 0⟩, fun _ => none, [], false⟩
    let calls : List TargetCall :=
      [.addPkg (some other) true, .syncSysupgrade false, .addPkg (some new) true]
    (run (TargetCall.perform handle world) ⟨.start [], false⟩ calls).trans.add = [other, new] ∧
      ∃ bound, ∀ fuel, bound ≤ fuel → ((run (TargetCall.perform handle world) ⟨.start [], false⟩
        calls).transPrepare handle world fuel).isSome = true := by
  intro old new other handle world calls
  have computed : (run (TargetCall.perform handle world) ⟨.start [], false⟩ calls).trans.add =
      [other, new] := by decide +kernel
  obtain ⟨_, _, returns⟩ := targets_distinct_names handle world ⟨.start [], false⟩ rfl calls
  refine ⟨computed, returns ?_⟩
  rw [computed]
  exact cons_ne_nil _ _

end Dulge
