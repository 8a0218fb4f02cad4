import Dulge.SyncConsistent
import Dulge.Lib.Run

/-! `alpm_sync_sysupgrade`: for each local package the sync packages that replace it, or else
the sync package of its name. -/

namespace Dulge

open Machine List

/-- The fields of packages that only a system upgrade reads: what they replace, and the place of
the database they come from among the sync databases. -/
structure UpgradeFields where
  replaces : Pkg → List Depend
  originDb : Pkg → Option Nat

inductive UpgradeEvent where
  | ignoringReplacement (lpkg spkg : Pkg)
  | cannotReplace (lpkg spkg : Pkg)
  /-- The local package goes to the `removes` list of a package that is a target already. -/
  | appending (lpkg tpkg : Pkg)
  /-- The sync package becomes a target that removes the local one. -/
  | replacing (lpkg spkg : Pkg)
  | ignoringUpgrade (lpkg spkg : Pkg)
  | ignoringDowngrade (lpkg spkg : Pkg)
  | localNewer (lpkg spkg : Pkg)
  /-- The sync package becomes a target as the upgrade of the local one, or as its downgrade. -/
  | upgrading (lpkg spkg : Pkg)
  | downgrading (lpkg spkg : Pkg)
  deriving DecidableEq

/-- The local package has gone to a `removes` list. -/
def UpgradeEvent.replaces : UpgradeEvent → Bool
  | .appending _ _ | .replacing _ _ => true
  | _ => false

def UpgradeEvent.upgrades : UpgradeEvent → Bool
  | .upgrading _ _ | .downgrading _ _ => true
  | _ => false

structure Upgrade where
  trans : Trans
  log : List UpgradeEvent

section Model

variable (handle : Handle) (fields : UpgradeFields) (enableDowngrade : Bool) (lpkg : Pkg)

/-- `alpm_pkg_should_ignore` on either package -/
def ignoresPair (spkg : Pkg) : Bool := pkgShouldIgnore handle spkg || pkgShouldIgnore handle lpkg

def checkLiteral (spkg : Pkg) : Bool × List UpgradeEvent :=
  let cmp := pkgVercmp (some spkg.version) (some lpkg.version)
  if 0 < cmp then
    if ignoresPair handle lpkg spkg then (false, [.ignoringUpgrade lpkg spkg])
    else (true, [.upgrading lpkg spkg])
  else if cmp < 0 then
    if enableDowngrade then
      if ignoresPair handle lpkg spkg then (false, [.ignoringDowngrade lpkg spkg])
      else (true, [.downgrading lpkg spkg])
    else (false, [.localNewer lpkg spkg])
  else (false, [])

def acceptReplacer (index : Nat) (st : Upgrade × List Pkg) (spkg : Pkg) : Upgrade × List Pkg :=
  let trans := st.1.trans
  match pkgFind trans.add spkg.name with
  | some tpkg =>
    if fields.originDb tpkg ≠ some index then
      (⟨trans, st.1.log ++ [.cannotReplace lpkg spkg]⟩, st.2)
    else
      (⟨{ trans with
          removes := Function.update trans.removes tpkg (trans.removes tpkg ++ [lpkg])
          reason := if trans.reason lpkg = .explicit then Function.update trans.reason tpkg .explicit
            else trans.reason },
        st.1.log ++ [.appending lpkg tpkg]⟩, st.2)
  | none =>
    (⟨{ trans with
        removes := Function.update trans.removes spkg [lpkg]
        reason := Function.update trans.reason spkg (trans.reason lpkg) },
      st.1.log ++ [.replacing lpkg spkg]⟩, st.2 ++ [spkg])

/-- The sync package names the local one in its `replaces` list. -/
def replacesLiterally (spkg : Pkg) : Bool := (fields.replaces spkg).any (depcmpLiteral lpkg)

/-- One turn of the loop of `check_replacers`. -/
def replacerTurn (index : Nat) (st : Upgrade × List Pkg) (spkg : Pkg) : Upgrade × List Pkg :=
  if ¬ replacesLiterally fields lpkg spkg then st
  else if ignoresPair handle lpkg spkg then
    (⟨st.1.trans, st.1.log ++ [.ignoringReplacement lpkg spkg]⟩, st.2)
  else
    let replace := handle.answers st.1.trans.asked ≠ 0
    let st := (⟨{ st.1.trans with asked := st.1.trans.asked + 1 }, st.1.log⟩, st.2)
    if ¬ replace then st else acceptReplacer fields lpkg index st spkg

/-- `check_replacers` for the sync database at `index` -/
def checkReplacers (sdb : Db) (index : Nat) (st : Upgrade) : Upgrade × List Pkg :=
  (dbGetPkgcache sdb).foldl (replacerTurn handle fields lpkg index) (st, [])

def upgradeFromDbs : List (Db × Nat) → Upgrade → Upgrade
  | [], st => st
  | (sdb, index) :: dbs, st =>
    if ¬ sdb.usageUpgrade then upgradeFromDbs dbs st
    else
      let checked := checkReplacers handle fields lpkg sdb index st
      if checked.2 ≠ [] then
        { checked.1 with trans := { checked.1.trans with add := checked.1.trans.add ++ checked.2 } }
      else
        match dbGetPkgfromcache sdb lpkg.name with
        | none => upgradeFromDbs dbs checked.1
        | some spkg =>
          let literal := checkLiteral handle enableDowngrade lpkg spkg
          let st := { checked.1 with log := checked.1.log ++ literal.2 }
          if literal.1 then { st with trans := { st.trans with add := st.trans.add ++ [spkg] } }
          else st

/-- What `alpm_sync_sysupgrade` does about one local package. -/
def handleLocal (trans : Trans) : Upgrade :=
  if (pkgFind trans.remove lpkg.name).isSome then ⟨trans, []⟩
  else if (pkgFind trans.add lpkg.name).isSome then ⟨trans, []⟩
  else upgradeFromDbs handle fields enableDowngrade lpkg handle.dbsSync.zipIdx ⟨trans, []⟩

end Model

def upgradeTurn (handle : Handle) (fields : UpgradeFields) (enableDowngrade : Bool) (st : Upgrade)
    (lpkg : Pkg) : Upgrade :=
  let handled := handleLocal handle fields enableDowngrade lpkg st.trans
  ⟨handled.trans, st.log ++ handled.log⟩

/-- `alpm_sync_sysupgrade` on an initialized transaction -/
def sysupgrade (handle : Handle) (fields : UpgradeFields) (enableDowngrade : Bool) (trans : Trans) :
    Upgrade :=
  run (upgradeTurn handle fields enableDowngrade) ⟨trans, []⟩ (dbGetPkgcache handle.dbLocal)

/-! ### What is asked and answered -/

section Offers

variable (handle : Handle) (fields : UpgradeFields) (lpkg : Pkg)

def offered (spkg : Pkg) : Bool :=
  replacesLiterally fields lpkg spkg && !ignoresPair handle lpkg spkg

def offers (sdb : Db) : List Pkg := (dbGetPkgcache sdb).filter (offered handle fields lpkg)

/-- The offer, with the number of its question, is accepted for a package that is a target
already and comes from the same database. -/
def joins (add : List Pkg) (index : Nat) (offer : Pkg × Nat) : Bool :=
  handle.answers offer.2 ≠ 0 &&
    (pkgFind add offer.1.name).any fun tpkg => fields.originDb tpkg = some index

def enters (add : List Pkg) (offer : Pkg × Nat) : Bool :=
  handle.answers offer.2 ≠ 0 && (pkgFind add offer.1.name).isNone

end Offers

section Replacers

variable {handle : Handle} {fields : UpgradeFields} {lpkg : Pkg} {index : Nat}

structure Answered (handle : Handle) (fields : UpgradeFields) (index : Nat)
    (st : Upgrade × List Pkg) (numbered : List (Pkg × Nat)) (result : Upgrade × List Pkg) : Prop where
  add : result.1.trans.add = st.1.trans.add
  asked : result.1.trans.asked = st.1.trans.asked + numbered.length
  replacers : result.2 = st.2 ++ (numbered.filter (enters handle st.1.trans.add)).map Prod.fst
  replaces : result.1.log.any UpgradeEvent.replaces = (st.1.log.any UpgradeEvent.replaces ||
    numbered.any fun offer =>
      joins handle fields st.1.trans.add index offer || enters handle st.1.trans.add offer)
  upgrades : result.1.log.any UpgradeEvent.upgrades = st.1.log.any UpgradeEvent.upgrades

theorem Answered.trans {st mid result : Upgrade × List Pkg} {first second : List (Pkg × Nat)}
    (one : Answered handle fields index st first mid)
    (two : Answered handle fields index mid second result) :
    Answered handle fields index st (first ++ second) result where
  add := two.add.trans one.add
  asked := by rw [two.asked, one.asked, length_append, Nat.add_assoc]
  replacers := by
    rw [two.replacers, one.replacers, one.add, filter_append, map_append, append_assoc]
  replaces := by rw [two.replaces, one.replaces, one.add, any_append, Bool.or_assoc]
  upgrades := two.upgrades.trans one.upgrades

theorem acceptReplacer_answered (st : Upgrade × List Pkg) (spkg : Pkg)
    (yes : handle.answers st.1.trans.asked ≠ 0) :
    Answered handle fields index st [(spkg, st.1.trans.asked)] (acceptReplacer fields lpkg index
        (⟨{ st.1.trans with asked := st.1.trans.asked + 1 }, st.1.log⟩, st.2) spkg) := by
  unfold acceptReplacer
  dsimp only
  split
  · rename_i tpkg found
    split
    · rename_i foreign
      constructor <;> simp [joins, enters, found, foreign, UpgradeEvent.replaces,
        UpgradeEvent.upgrades]
    · rename_i own
      have own : fields.originDb tpkg = some index := not_not.mp own
      constructor <;> simp [joins, enters, found, own, yes, UpgradeEvent.replaces,
        UpgradeEvent.upgrades]
  · rename_i fresh
    constructor <;> simp [joins, enters, fresh, yes, UpgradeEvent.replaces, UpgradeEvent.upgrades]

theorem replacerTurn_answered (st : Upgrade × List Pkg) (spkg : Pkg) :
    Answered handle fields index st
      (([spkg].filter (offered handle fields lpkg)).zipIdx st.1.trans.asked)
      (replacerTurn handle fields lpkg index st spkg) := by
  unfold replacerTurn
  by_cases literal : replacesLiterally fields lpkg spkg = true
  · rw [if_neg (not_not.mpr literal)]
    by_cases ignored : ignoresPair handle lpkg spkg = true
    · rw [if_pos ignored]
      constructor <;> simp [offered, ignored, UpgradeEvent.replaces, UpgradeEvent.upgrades]
    · rw [if_neg ignored]
      have asked : [spkg].filter (offered handle fields lpkg) = [spkg] := by
        simp [offered, literal, ignored]
      rw [asked, zipIdx_singleton]
      dsimp only
      by_cases yes : handle.answers st.1.trans.asked ≠ 0
      · rw [if_neg (not_not.mpr yes)]
        exact acceptReplacer_answered st spkg yes
      · rw [if_pos yes]
        have no : handle.answers st.1.trans.asked = 0 := not_not.mp yes
        constructor <;> simp [joins, enters, no]
  · rw [if_pos literal]
    constructor <;> simp [offered, literal]

theorem replacerFold_answered (pkgs : List Pkg) (st : Upgrade × List Pkg) :
    Answered handle fields index st
      ((pkgs.filter (offered handle fields lpkg)).zipIdx st.1.trans.asked)
      (pkgs.foldl (replacerTurn handle fields lpkg index) st) := by
  induction pkgs generalizing st with
  | nil => constructor <;> simp
  | cons spkg pkgs ih =>
    have first : Answered handle fields index st _ (replacerTurn handle fields lpkg index st spkg) :=
      replacerTurn_answered st spkg
    have rest := ih (replacerTurn handle fields lpkg index st spkg)
    rw [first.asked, length_zipIdx] at rest
    have split : (spkg :: pkgs).filter (offered handle fields lpkg) =
        [spkg].filter (offered handle fields lpkg) ++ pkgs.filter (offered handle fields lpkg) := by
      rw [← filter_append, singleton_append]
    rw [split, zipIdx_append]
    exact first.trans rest

theorem checkReplacers_answered (sdb : Db) (st : Upgrade) :
    Answered handle fields index (st, []) ((offers handle fields lpkg sdb).zipIdx st.trans.asked)
      (checkReplacers handle fields lpkg sdb index st) :=
  replacerFold_answered (dbGetPkgcache sdb) (st, [])

theorem checkReplacers_eq_nil (sdb : Db) (st : Upgrade) :
    (checkReplacers handle fields lpkg sdb index st).2 = [] ↔
      ((offers handle fields lpkg sdb).zipIdx st.trans.asked).any (enters handle st.trans.add) =
        false := by
  rw [(checkReplacers_answered sdb st).replacers]
  simp [filter_eq_nil_iff]

end Replacers

/-! ### Replaced and upgraded -/

structure Visit where
  sdb : Db
  index : Nat
  offers : List (Pkg × Nat)

section Visits

variable (handle : Handle) (fields : UpgradeFields) (enableDowngrade : Bool) (lpkg : Pkg)

/-- The databases for upgrades in their order, as long as the search goes on; questions are
counted through. -/
def visits : Nat → List (Db × Nat) → List Visit
  | _, [] => []
  | asked, (sdb, index) :: dbs =>
    if sdb.usageUpgrade then
      ⟨sdb, index, (offers handle fields lpkg sdb).zipIdx asked⟩ ::
        visits (asked + (offers handle fields lpkg sdb).length) dbs
    else visits asked dbs

def Visit.enters (add : List Pkg) (visit : Visit) : Bool := visit.offers.any (Dulge.enters handle add)

def Visit.joins (add : List Pkg) (visit : Visit) : Bool :=
  visit.offers.any (Dulge.joins handle fields add visit.index)

def Visit.passed (add : List Pkg) (visit : Visit) : Prop :=
  visit.enters handle add = false ∧ dbGetPkgfromcache visit.sdb lpkg.name = none

/-- The search ends at a package of the local one's name that is taken as its upgrade, and no new
replacer was found. -/
def Visit.upgraded (add : List Pkg) (visit : Visit) : Prop :=
  visit.enters handle add = false ∧
    ∃ spkg, dbGetPkgfromcache visit.sdb lpkg.name = some spkg ∧
      (checkLiteral handle enableDowngrade lpkg spkg).1 = true

/-- The local package has the name of no target and of no removal, the search ends with its upgrade,
and up to there an offer was accepted that is a target already. -/
def Overlooked (trans : Trans) : Prop :=
  pkgFind trans.remove lpkg.name = none ∧ pkgFind trans.add lpkg.name = none ∧
    ∃ front visit back, visits handle fields lpkg trans.asked handle.dbsSync.zipIdx =
        front ++ visit :: back ∧
      (∀ earlier ∈ front, earlier.passed handle lpkg trans.add) ∧
      visit.upgraded handle enableDowngrade lpkg trans.add ∧
      ∃ searched ∈ front ++ [visit], searched.joins handle fields trans.add = true

end Visits

section Handling

variable {handle : Handle} {fields : UpgradeFields} {enableDowngrade : Bool} {lpkg : Pkg}

theorem any_or {α : Type} (list : List α) (left right : α → Bool) :
    (list.any fun x => left x || right x) = (list.any left || list.any right) := by
  induction list with
  | nil => rfl
  | cons x list ih =>
    rw [any_cons, any_cons, any_cons, ih]
    ac_rfl

theorem checkLiteral_log (handle : Handle) (enableDowngrade : Bool) (lpkg spkg : Pkg) :
    (checkLiteral handle enableDowngrade lpkg spkg).2.any UpgradeEvent.upgrades =
        (checkLiteral handle enableDowngrade lpkg spkg).1 ∧
      (checkLiteral handle enableDowngrade lpkg spkg).2.any UpgradeEvent.replaces = false := by
  unfold checkLiteral
  dsimp only
  split_ifs <;> simp [UpgradeEvent.upgrades, UpgradeEvent.replaces]

def BothDone (log : List UpgradeEvent) : Prop :=
  log.any UpgradeEvent.replaces = true ∧ log.any UpgradeEvent.upgrades = true

/-- Up to the database where the search ends with the upgrade, there was a replacement: `before` is
whether there was one already. -/
def EndsUpgraded (handle : Handle) (fields : UpgradeFields) (enableDowngrade : Bool) (lpkg : Pkg)
    (add : List Pkg) (before : Bool) (visited : List Visit) : Prop :=
  ∃ front visit back, visited = front ++ visit :: back ∧
    (∀ earlier ∈ front, earlier.passed handle lpkg add) ∧
    visit.upgraded handle enableDowngrade lpkg add ∧
    (before = true ∨ ∃ searched ∈ front ++ [visit], searched.joins handle fields add = true)

theorem endsUpgraded_cons {add : List Pkg} {before : Bool} {visit : Visit} {visited : List Visit} :
    EndsUpgraded handle fields enableDowngrade lpkg add before (visit :: visited) ↔
      visit.upgraded handle enableDowngrade lpkg add ∧
          (before || visit.joins handle fields add) = true ∨ visit.passed handle lpkg add ∧
          EndsUpgraded handle fields enableDowngrade lpkg add
            (before || visit.joins handle fields add)
            visited := by
  constructor
  · rintro ⟨front, stop, back, split, passed, upgraded, replaced⟩
    cases front with
    | nil =>
      cases split
      exact .inl ⟨upgraded, by simpa using replaced⟩
    | cons first front =>
      cases split
      refine .inr ⟨passed visit mem_cons_self, front, stop, back, rfl, ?_, upgraded, ?_⟩
      · exact fun earlier mem => passed earlier (mem_cons_of_mem visit mem)
      · rcases replaced with already | ⟨searched, mem, joined⟩
        · exact .inl (by simp [already])
        · rcases mem_cons.mp mem with rfl | later
          · exact .inl (by simp [joined])
          · exact .inr ⟨searched, later, joined⟩
  · rintro (⟨upgraded, replaced⟩ | ⟨passed, front, stop, back, rfl, earlier, upgraded, replaced⟩)
    · exact ⟨[], visit, visited, rfl, by simp, upgraded, by simpa using replaced⟩
    · refine ⟨visit :: front, stop, back, rfl, ?_, upgraded, ?_⟩
      · exact forall_mem_cons.mpr ⟨passed, earlier⟩
      · rcases replaced with already | ⟨searched, mem, joined⟩
        · rw [Bool.or_eq_true] at already
          rcases already with already | joined
          · exact .inl already
          · exact .inr ⟨visit, by simp, joined⟩
        · exact .inr ⟨searched, mem_cons_of_mem visit mem, joined⟩

theorem bothDone_literal {log : List UpgradeEvent} (fresh : log.any UpgradeEvent.upgrades = false)
    (spkg : Pkg) : BothDone (log ++ (checkLiteral handle enableDowngrade lpkg spkg).2) ↔
      (checkLiteral handle enableDowngrade lpkg spkg).1 = true ∧
        log.any UpgradeEvent.replaces = true := by
  obtain ⟨logged, silent⟩ := checkLiteral_log handle enableDowngrade lpkg spkg
  rw [BothDone, any_append, any_append, logged, silent, fresh, Bool.or_false,
    Bool.false_or, and_comm]

theorem upgradeFromDbs_bothDone (dbs : List (Db × Nat)) (st : Upgrade)
    (fresh : st.log.any UpgradeEvent.upgrades = false) :
    BothDone (upgradeFromDbs handle fields enableDowngrade lpkg dbs st).log ↔
      EndsUpgraded handle fields enableDowngrade lpkg st.trans.add (st.log.any UpgradeEvent.replaces)
        (visits handle fields lpkg st.trans.asked dbs) := by
  induction dbs generalizing st with
  | nil => simp [upgradeFromDbs, visits, BothDone, fresh, EndsUpgraded]
  | cons entry dbs ih =>
    obtain ⟨sdb, index⟩ := entry
    rw [upgradeFromDbs, visits]
    by_cases enabled : sdb.usageUpgrade = true
    · have answered : Answered handle fields index (st, []) _
          (checkReplacers handle fields lpkg sdb index st) := checkReplacers_answered sdb st
      have entered : (checkReplacers handle fields lpkg sdb index st).2 = [] ↔ _ :=
        checkReplacers_eq_nil sdb st
      rw [if_neg (not_not.mpr enabled), if_pos enabled, endsUpgraded_cons]
      generalize checkReplacers handle fields lpkg sdb index st = checked at answered entered ⊢
      have upgrades := answered.upgrades.trans fresh
      dsimp only
      by_cases replacers : checked.2 = []
      · have plain := entered.mp replacers
        -- without a new target, only offers that were targets already count
        have replaces : checked.1.log.any UpgradeEvent.replaces = (st.log.any UpgradeEvent.replaces ||
            ((offers handle fields lpkg sdb).zipIdx st.trans.asked).any
              (joins handle fields st.trans.add index)) := by
          rw [answered.replaces, any_or, plain, Bool.or_false]
        rw [if_neg (not_not.mpr replacers)]
        simp only [Visit.upgraded, Visit.passed, Visit.enters, Visit.joins, plain, true_and]
        cases literal : dbGetPkgfromcache sdb lpkg.name with
        | none =>
          have next := ih checked.1 upgrades
          rw [answered.add, answered.asked, length_zipIdx, replaces] at next
          simp [next]
        | some spkg =>
          dsimp only
          rw [apply_ite Upgrade.log, ite_self, bothDone_literal upgrades, replaces]
          simp
      · have news : ((offers handle fields lpkg sdb).zipIdx st.trans.asked).any
            (enters handle st.trans.add) = true := by
          rw [← Bool.not_eq_false]
          exact fun plain => replacers (entered.mpr plain)
        rw [if_pos replacers]
        simp only [Visit.upgraded, Visit.passed, Visit.enters, news]
        simp [BothDone, upgrades]
    · rw [if_pos enabled, if_neg enabled]
      exact ih st fresh

theorem handleLocal_bothDone (trans : Trans) :
    BothDone (handleLocal handle fields enableDowngrade lpkg trans).log ↔
      Overlooked handle fields enableDowngrade lpkg trans := by
  unfold handleLocal Overlooked
  cases removed : pkgFind trans.remove lpkg.name with
  | some pkg => simp [BothDone]
  | none =>
    cases target : pkgFind trans.add lpkg.name with
    | some pkg => simp [BothDone]
    | none =>
      have search : BothDone (upgradeFromDbs handle fields enableDowngrade lpkg handle.dbsSync.zipIdx
          ⟨trans, []⟩).log ↔ _ := upgradeFromDbs_bothDone handle.dbsSync.zipIdx ⟨trans, []⟩ rfl
      simpa [EndsUpgraded] using search

end Handling

/-- In a system upgrade no local package is both replaced and upgraded exactly when no replacer that
is a target already is overlooked for any of them. -/
theorem sysupgrade_replaced_or_upgraded_iff (handle : Handle) (fields : UpgradeFields)
    (enableDowngrade : Bool) (trans : Trans) : EveryStep (upgradeTurn handle fields enableDowngrade)
        (fun st lpkg => ¬ BothDone (handleLocal handle fields enableDowngrade lpkg st.trans).log)
        ⟨trans, []⟩ (dbGetPkgcache handle.dbLocal) ↔
      EveryStep (upgradeTurn handle fields enableDowngrade)
        (fun st lpkg => ¬ Overlooked handle fields enableDowngrade lpkg st.trans)
        ⟨trans, []⟩ (dbGetPkgcache handle.dbLocal) := by
  simp only [handleLocal_bothDone]

/-- `new` replaces both `a` and `b`, and `b` is still shipped. It becomes a target for `a`, so that
nothing is new when it is accepted for `b`. -/
theorem sysupgrade_replaces_and_upgrades : let a := Pkg.bare 0 (cstr "a") (cstr "1")
    let b := Pkg.bare 1 (cstr "b") (cstr "1")
    let new := Pkg.bare 2 (cstr "new") (cstr "1")
    let b2 := Pkg.bare 3 (cstr "b") (cstr "2")
    let handle := { Handle.quiet (Db.populate [a, b]) [Db.populate [new, b2]] TransFlags.none with
      answers := fun _ => 1 }
    let fields : UpgradeFields :=
      ⟨fun pkg => if pkg = new then [depFromString (cstr "a"), depFromString (cstr "b")] else [],
        fun _ => some 0⟩
    (sysupgrade handle fields false (.start [])).log =
        [.replacing a new, .appending b new, .upgrading b b2] ∧
      (sysupgrade handle fields false (.start [])).trans.add = [new, b2] ∧
      (sysupgrade handle fields false (.start [])).trans.removes new = [a, b] := by
  decide +kernel

end Dulge
