import Dulge.Database

/-! The group cache of a database (db.c): `load_grpcache` sorts the packages of the cache under the
groups they name. The loop over the groups takes only a group that does not hold the package yet,
so a name that a package repeats opens a second group of that name. -/

namespace Dulge
open List

/-- `alpm_group_t` -/
structure Group where
  name : CStr
  packages : List Pkg
  deriving DecidableEq

def Group.add (grp : Group) (pkg : Pkg) : Group :=
  { grp with packages := grp.packages ++ [pkg] }

/-- `db->grpcache` and the bit `DB_STATUS_GRPCACHE`. -/
structure GroupCache where
  groups : List Group
  loaded : Bool

def GroupCache.empty : GroupCache := ⟨[], false⟩

/-- The search for a group with this name, which puts the package into it. The names of a package
cache are distinct, so equal packages of it are one package. -/
def addToGroup (pkg : Pkg) (grpname : CStr) : List Group → Option (List Group)
  | [] => none
  | grp :: rest =>
    if strcmp grp.name grpname = 0 ∧ pkg ∉ grp.packages then
      some (grp.add pkg :: rest)
    else (addToGroup pkg grpname rest).map (grp :: ·)

def freeGroupcache (cache : GroupCache) : GroupCache :=
  if cache.loaded then .empty else cache

section Load

-- `memory n` says whether `_alpm_group_new` succeeds with `n` groups in the cache
variable (memory : Nat → Bool)

/-- One name of one package; an error carries the groups there are when the allocation fails. -/
def addGroup (pkg : Pkg) (groups : List Group) (grpname : CStr) : Except (List Group) (List Group) :=
  match addToGroup pkg grpname groups with
  | some groups => .ok groups
  | none =>
    if memory groups.length then .ok (groups ++ [⟨grpname, [pkg]⟩])
    else .error groups

/-- `load_grpcache`. A failure frees nothing: the bit that `free_groupcache` asks for is set at the
end only. -/
def loadGrpcache (db : Db) (cache : GroupCache) : Int × GroupCache :=
  let groups := (dbGetPkgcache db).foldlM
    (fun groups pkg => pkg.groups.foldlM (addGroup memory pkg) groups) cache.groups
  match groups with
  | .ok groups => (0, ⟨groups, true⟩)
  | .error groups => (-1, freeGroupcache ⟨groups, cache.loaded⟩)

/-- `_alpm_db_get_groupcache` of a valid database -/
def dbGetGroupcache (db : Db) (cache : GroupCache) : GroupCache :=
  if cache.loaded then cache else (loadGrpcache memory db cache).2

end Load

/-! ### The loops as one pass over the entries -/

def entries (pkgs : List Pkg) : List (Pkg × CStr) :=
  pkgs.flatMap fun pkg => pkg.groups.map (pkg, ·)

variable {pkgs : List Pkg} {pkg : Pkg} {name : CStr}
  {groups groups' final before after : List Group} {memory : Nat → Bool}
  {rest seen : List (Pkg × CStr)} {grp : Group}

theorem mem_entries : (pkg, name) ∈ entries pkgs ↔ pkg ∈ pkgs ∧ name ∈ pkg.groups := by
  simp [entries]

inductive Enters (pkg : Pkg) (name : CStr) : List Group → List Group → Prop where
  | member {before after : List Group} {grp : Group} (same : grp.name = name)
      (fresh : pkg ∉ grp.packages) :
      Enters pkg name (before ++ grp :: after)
        (before ++ grp.add pkg :: after)
  | opened {groups : List Group} (held : ∀ grp ∈ groups, grp.name = name → pkg ∈ grp.packages) :
      Enters pkg name groups (groups ++ [⟨name, [pkg]⟩])

theorem addToGroup_some (found : addToGroup pkg name groups = some groups') :
    ∃ before grp after, groups = before ++ grp :: after ∧ grp.name = name ∧ pkg ∉ grp.packages ∧
      groups' = before ++ grp.add pkg :: after := by
  induction groups generalizing groups' with
  | nil => cases found
  | cons first rest ih =>
    unfold addToGroup at found
    split at found
    next takes =>
      cases found
      exact ⟨[], first, rest, rfl, strcmp_eq_zero.mp takes.1, takes.2, rfl⟩
    next =>
      obtain ⟨later, reached, rfl⟩ := Option.map_eq_some_iff.mp found
      obtain ⟨before, grp, after, rfl, same, fresh, rfl⟩ := ih reached
      exact ⟨first :: before, grp, after, rfl, same, fresh, rfl⟩

theorem addToGroup_none (missing : addToGroup pkg name groups = none) :
    ∀ grp ∈ groups, grp.name = name → pkg ∈ grp.packages := by
  induction groups with
  | nil => exact fun _ mem => nomatch mem
  | cons first rest ih =>
    unfold addToGroup at missing
    split at missing
    next => cases missing
    next refused =>
      intro grp mem same
      rcases mem_cons.mp mem with rfl | later
      · by_contra fresh
        exact refused ⟨strcmp_eq_zero.mpr same, fresh⟩
      · exact ih (Option.map_eq_none_iff.mp missing) grp later same

theorem addGroup_enters (done : addGroup memory pkg groups name = .ok groups') :
    Enters pkg name groups groups' := by
  unfold addGroup at done
  split at done
  next found =>
    cases done
    obtain ⟨before, grp, after, rfl, same, fresh, rfl⟩ := addToGroup_some found
    exact .member same fresh
  next missing =>
    split at done
    · cases done
      exact .opened (addToGroup_none missing)
    · cases done

inductive EntersAll : List (Pkg × CStr) → List Group → List Group → Prop where
  | nil {groups : List Group} : EntersAll [] groups groups
  | cons {pkg : Pkg} {name : CStr} {rest : List (Pkg × CStr)} {groups next final : List Group}
      (first : Enters pkg name groups next) (later : EntersAll rest next final) :
      EntersAll ((pkg, name) :: rest) groups final

theorem EntersAll.append {front back : List (Pkg × CStr)} {middle : List Group}
    (first : EntersAll front groups middle) (later : EntersAll back middle final) :
    EntersAll (front ++ back) groups final := by
  induction first with
  | nil => exact later
  | cons enters _ ih => exact .cons enters (ih later)

theorem foldlM_entersAll {names : List CStr}
    (done : names.foldlM (addGroup memory pkg) groups = .ok final) :
    EntersAll (names.map (pkg, ·)) groups final := by
  induction names generalizing groups with
  | nil =>
    cases done
    exact .nil
  | cons name rest ih =>
    rw [foldlM_cons] at done
    cases step : addGroup memory pkg groups name with
    | error left =>
      rw [step] at done
      cases done
    | ok next =>
      rw [step] at done
      exact .cons (addGroup_enters step) (ih done)

theorem foldlM_entersAll_entries
    (done : pkgs.foldlM (fun groups pkg => pkg.groups.foldlM (addGroup memory pkg) groups) groups =
      .ok final) : EntersAll (entries pkgs) groups final := by
  induction pkgs generalizing groups with
  | nil =>
    cases done
    exact .nil
  | cons pkg rest ih =>
    rw [foldlM_cons] at done
    cases step : pkg.groups.foldlM (addGroup memory pkg) groups with
    | error left =>
      rw [step] at done
      cases done
    | ok next =>
      rw [step] at done
      exact (foldlM_entersAll step).append (ih done)

theorem loadGrpcache_entersAll {db : Db} {cache : GroupCache}
    (done : (loadGrpcache memory db cache).1 = 0) :
    EntersAll (entries (dbGetPkgcache db)) cache.groups (loadGrpcache memory db cache).2.groups := by
  simp only [loadGrpcache] at done ⊢
  split
  next groups run => exact foldlM_entersAll_entries run
  next groups run => simp [run] at done

/-! ### A repeated entry opens a second group -/

theorem Enters.names (enters : Enters pkg name groups groups') :
    groups.map Group.name <+: groups'.map Group.name := by
  cases enters with
  | member => simp [Group.add]
  | opened => simp

theorem EntersAll.names (run : EntersAll rest groups final) :
    groups.map Group.name <+: final.map Group.name := by
  induction run with
  | nil => exact prefix_rfl
  | cons first _ ih => exact first.names.trans ih

def Held (groups : List Group) (pkg : Pkg) (name : CStr) : Prop :=
  ∃ grp ∈ groups, grp.name = name ∧ pkg ∈ grp.packages

theorem Enters.held (enters : Enters pkg name groups groups') : Held groups' pkg name := by
  cases enters with
  | member same _ =>
    exact ⟨_, mem_append_right _ mem_cons_self, same, mem_append_right _ mem_cons_self⟩
  | opened _ =>
    exact ⟨_, mem_append_right _ mem_cons_self, rfl, mem_cons_self⟩

theorem Enters.keeps_held (enters : Enters pkg name groups groups') {other : Pkg} {called : CStr}
    (held : Held groups other called) : Held groups' other called := by
  obtain ⟨grp, mem, same, inside⟩ := held
  cases enters with
  | @member before after taken =>
    rcases mem_append.mp mem with early | late
    · exact ⟨grp, mem_append_left _ early, same, inside⟩
    · rcases mem_cons.mp late with rfl | late
      · exact ⟨_, mem_append_right _ mem_cons_self, same, mem_append_left _ inside⟩
      · exact ⟨grp, by simp [late], same, inside⟩
  | opened => exact ⟨grp, mem_append_left _ mem, same, inside⟩

theorem Enters.not_nodup (enters : Enters pkg name groups groups') (held : Held groups pkg name) :
    ¬ (groups'.map Group.name).Nodup := by
  intro distinct
  obtain ⟨grp, mem, same, inside⟩ := held
  have before := distinct.sublist enters.names.sublist
  cases enters with
  | @member front back taken called fresh =>
    have one : grp = taken :=
      inj_on_of_nodup_map before mem (by simp) (same.trans called.symm)
    exact fresh (one ▸ inside)
  | opened =>
    rw [map_append, nodup_append] at distinct
    exact distinct.2.2 _ (mem_map_of_mem mem) _ (mem_singleton.mpr rfl) same

theorem EntersAll.not_nodup_of_held (run : EntersAll rest groups final) (due : (pkg, name) ∈ rest)
    (held : Held groups pkg name) : ¬ (final.map Group.name).Nodup := by
  induction run with
  | nil => cases due
  | cons first later ih =>
    rcases mem_cons.mp due with here | due
    · cases here
      exact fun distinct => first.not_nodup held (distinct.sublist later.names.sublist)
    · exact ih due (first.keeps_held held)

theorem EntersAll.nodup (run : EntersAll rest groups final)
    (distinct : (final.map Group.name).Nodup) : rest.Nodup := by
  induction run with
  | nil => exact nodup_nil
  | cons first later ih =>
    exact nodup_cons.mpr
      ⟨fun again => later.not_nodup_of_held again first.held distinct, ih distinct⟩

/-! ### Distinct entries are indexed -/

structure Indexes (seen : List (Pkg × CStr)) (groups : List Group) : Prop where
  distinct : (groups.map Group.name).Nodup
  listed : ∀ grp ∈ groups, grp.packages = (seen.filter (·.2 = grp.name)).map Prod.fst
  total : ∀ entry ∈ seen, ∃ grp ∈ groups, grp.name = entry.2

theorem Indexes.mem_iff (indexes : Indexes seen groups) (mem : grp ∈ groups) :
    pkg ∈ grp.packages ↔ (pkg, grp.name) ∈ seen := by
  simp [indexes.listed grp mem]

theorem filter_concat_ne {called : CStr} (other : name ≠ called) :
    (seen ++ [(pkg, name)]).filter (·.2 = called) = seen.filter (·.2 = called) := by
  simp [other]

theorem filter_concat_eq (seen : List (Pkg × CStr)) (pkg : Pkg) (name : CStr) :
    ((seen ++ [(pkg, name)]).filter (·.2 = name)).map Prod.fst =
      (seen.filter (·.2 = name)).map Prod.fst ++ [pkg] := by
  simp

theorem name_ne_of_others {taken : Group}
    (distinct : ((before ++ taken :: after).map Group.name).Nodup) (other : grp ∈ before ++ after) :
    taken.name ≠ grp.name := by
  intro same
  rw [map_append, map_cons, nodup_middle, nodup_cons] at distinct
  apply distinct.1
  rw [same, ← map_append]
  exact mem_map_of_mem other

theorem Indexes.add {taken : Group} (indexes : Indexes seen (before ++ taken :: after)) (pkg : Pkg) :
    Indexes (seen ++ [(pkg, taken.name)]) (before ++ taken.add pkg :: after) := by
  have names : (before ++ taken.add pkg :: after).map Group.name =
      (before ++ taken :: after).map Group.name := by simp [Group.add]
  have middle : taken ∈ before ++ taken :: after := by simp
  refine ⟨names ▸ indexes.distinct, ?_, ?_⟩
  · intro grp mem
    by_cases this : grp = taken.add pkg
    · subst this
      rw [show (taken.add pkg).name = taken.name from rfl, filter_concat_eq,
        ← indexes.listed taken middle]
      rfl
    · have old : grp ∈ before ++ after := by simpa [this] using mem
      rw [filter_concat_ne (name_ne_of_others indexes.distinct old),
        indexes.listed grp (((sublist_cons_self taken after).append_left before).subset old)]
  · intro entry mem
    have held : entry.2 ∈ (before ++ taken :: after).map Group.name := by
      rcases mem_append.mp mem with old | new
      · obtain ⟨grp, there, called⟩ := indexes.total entry old
        exact called ▸ mem_map_of_mem there
      · rw [mem_singleton.mp new]
        exact mem_map_of_mem middle
    rw [← names] at held
    exact mem_map.mp held

theorem Indexes.addGroup (indexes : Indexes seen groups) (absent : ∀ grp ∈ groups, grp.name ≠ name)
    (pkg : Pkg) : Indexes (seen ++ [(pkg, name)]) (groups ++ [⟨name, [pkg]⟩]) := by
  have unseen : seen.filter (·.2 = name) = [] := by
    rw [filter_eq_nil_iff]
    intro entry mem called
    obtain ⟨grp, there, same⟩ := indexes.total entry mem
    exact absent grp there (same.trans (of_decide_eq_true called))
  refine ⟨?_, ?_, ?_⟩
  · rw [map_append, nodup_append]
    refine ⟨indexes.distinct, nodup_singleton _, ?_⟩
    intro called mem other new
    obtain ⟨grp, there, rfl⟩ := mem_map.mp mem
    rw [mem_singleton.mp new]
    exact absent grp there
  · intro grp mem
    rcases mem_append.mp mem with old | new
    · rw [filter_concat_ne (absent grp old).symm, indexes.listed grp old]
    · rw [mem_singleton.mp new, filter_concat_eq, unseen]
      rfl
  · intro entry mem
    rcases mem_append.mp mem with old | new
    · obtain ⟨grp, there, called⟩ := indexes.total entry old
      exact ⟨grp, mem_append_left _ there, called⟩
    · rw [mem_singleton.mp new]
      exact ⟨_, mem_append_right _ mem_cons_self, rfl⟩

theorem Indexes.enters (indexes : Indexes seen groups) (fresh : (pkg, name) ∉ seen)
    (enters : Enters pkg name groups groups') : Indexes (seen ++ [(pkg, name)]) groups' := by
  cases enters with
  | member same =>
    subst same
    exact indexes.add pkg
  | opened held =>
    -- a group of this name would hold the package, and the entry would not be new
    refine indexes.addGroup ?_ pkg
    intro grp mem same
    apply fresh
    rw [← same]
    exact (indexes.mem_iff mem).mp (held grp mem same)

theorem Indexes.entersAll (indexes : Indexes seen groups) (distinct : (seen ++ rest).Nodup)
    (run : EntersAll rest groups final) : Indexes (seen ++ rest) final := by
  induction run generalizing seen with
  | nil => rwa [append_nil]
  | cons first later ih =>
    rw [append_cons] at distinct ⊢
    refine ih (indexes.enters ?_ first) distinct
    intro early
    have once := (nodup_append.mp distinct).1
    exact (nodup_append.mp once).2.2 _ early _ mem_cons_self rfl

/-! ### The cache as an index -/

structure Faithful (pkgs : List Pkg) (groups : List Group) : Prop where
  distinct : (groups.map Group.name).Nodup
  members : ∀ grp ∈ groups, grp.packages = pkgs.filter (grp.name ∈ ·.groups)
  once : ∀ grp ∈ groups, grp.packages.Nodup
  total : ∀ pkg ∈ pkgs, ∀ name ∈ pkg.groups, ∃ grp ∈ groups, grp.name = name

theorem filter_entries (each : ∀ pkg ∈ pkgs, pkg.groups.Nodup) (name : CStr) :
    ((entries pkgs).filter (·.2 = name)).map Prod.fst = pkgs.filter (name ∈ ·.groups) := by
  induction pkgs with
  | nil => rfl
  | cons pkg rest ih =>
    have tail := ih fun other mem => each other (mem_cons_of_mem _ mem)
    have here : ((pkg.groups.map (pkg, ·)).filter (·.2 = name)).map Prod.fst =
        if name ∈ pkg.groups then [pkg] else [] := by
      have named : (fun entry : Pkg × CStr => decide (entry.2 = name)) ∘ (pkg, ·) =
          fun called => decide (called = name) := rfl
      rw [filter_map, map_map, named, filter_eq, map_replicate, (each pkg mem_cons_self).count]
      split <;> rfl
    rw [show entries (pkg :: rest) = pkg.groups.map (pkg, ·) ++ entries rest from rfl,
      filter_append, map_append, tail, here, filter_cons]
    split
    · simp [*]
    · simp [*]

theorem entries_nodup_iff (distinct : pkgs.Nodup) :
    (entries pkgs).Nodup ↔ ∀ pkg ∈ pkgs, pkg.groups.Nodup := by
  have apart : pkgs.Pairwise (Function.onFun List.Disjoint fun pkg => pkg.groups.map (pkg, ·)) := by
    refine distinct.imp ?_
    intro left right other entry here there
    obtain ⟨_, _, rfl⟩ := mem_map.mp here
    obtain ⟨_, _, same⟩ := mem_map.mp there
    exact other (congrArg Prod.fst same).symm
  have single (pkg : Pkg) : (pkg.groups.map (pkg, ·)).Nodup ↔ pkg.groups.Nodup :=
    nodup_map_iff fun _ _ same => congrArg Prod.snd same
  rw [entries, nodup_flatMap, and_iff_left apart]
  exact forall₂_congr fun pkg _ => single pkg

theorem dbGetPkgcache_nodup (db : Db) : (dbGetPkgcache db).Nodup :=
  (dbGetPkgcache_names db).of_map

/-- No group is empty, and every member belongs where it is. A failed load leaves no more than
this. -/
def Placed (all : List (Pkg × CStr)) (groups : List Group) : Prop :=
  ∀ grp ∈ groups, grp.packages ≠ [] ∧ ∀ pkg ∈ grp.packages, (pkg, grp.name) ∈ all

/-! ### What the calls of `_alpm_db_get_groupcache` leave -/

/-- The groups there are at the end of a loop, also of one that fails. -/
def reached : Except (List Group) (List Group) → List Group
  | .ok groups => groups
  | .error groups => groups

theorem reached_foldlM {α : Type} {step : List Group → α → Except (List Group) (List Group)}
    {items : List α} {kept : List Group → Prop}
    (keeps : ∀ item ∈ items, ∀ groups, kept groups → kept (reached (step groups item)))
    (start : kept groups) : kept (reached (items.foldlM step groups)) := by
  induction items generalizing groups with
  | nil => exact start
  | cons item rest ih =>
    rw [forall_mem_cons] at keeps
    have next := keeps.1 groups start
    rw [foldlM_cons]
    cases result : step groups item with
    | error left =>
      rw [result] at next
      exact next
    | ok later =>
      rw [result] at next
      exact ih keeps.2 next

theorem addGroup_placed {all : List (Pkg × CStr)} (belongs : (pkg, name) ∈ all)
    (placed : Placed all groups) : Placed all (reached (addGroup memory pkg groups name)) := by
  unfold addGroup
  cases found : addToGroup pkg name groups with
  | some groups' =>
    obtain ⟨before, grp, after, rfl, rfl, -, rfl⟩ := addToGroup_some found
    obtain ⟨early, ⟨some, old⟩, late⟩ := forall_mem_append.mp placed |>.imp_right forall_mem_cons.mp
    refine forall_mem_append.mpr ⟨early, forall_mem_cons.mpr ⟨?_, late⟩⟩
    exact ⟨append_ne_nil_of_left_ne_nil some _,
      forall_mem_append.mpr ⟨old, forall_mem_singleton.mpr belongs⟩⟩
  | none =>
    dsimp only
    split
    · refine forall_mem_append.mpr ⟨placed, forall_mem_singleton.mpr ?_⟩
      exact ⟨cons_ne_nil _ _, forall_mem_singleton.mpr belongs⟩
    · exact placed

/-- However often the cache is asked for, and whichever allocations fail. -/
theorem dbGetGroupcache_placed (db : Db) (calls : List (Nat → Bool)) {cache : GroupCache}
    (placed : Placed (entries (dbGetPkgcache db)) cache.groups) :
    Placed (entries (dbGetPkgcache db))
      (calls.foldl (fun cache memory => dbGetGroupcache memory db cache) cache).groups := by
  induction calls generalizing cache with
  | nil => exact placed
  | cons memory later ih =>
    refine ih ?_
    have loaded : Placed (entries (dbGetPkgcache db)) (reached ((dbGetPkgcache db).foldlM
        (fun groups pkg => pkg.groups.foldlM (addGroup memory pkg) groups) cache.groups)) :=
      reached_foldlM (fun pkg inside _ => reached_foldlM fun name named _ =>
        addGroup_placed (mem_entries.mpr ⟨inside, named⟩)) placed
    simp only [dbGetGroupcache, loadGrpcache]
    split
    next => exact placed
    next unloaded =>
      split
      next run =>
        rw [run] at loaded
        exact loaded
      next run =>
        rw [run] at loaded
        dsimp only [freeGroupcache]
        rw [if_neg unloaded]
        exact loaded

theorem loadGrpcache_faithful_iff (memory : Nat → Bool) (db : Db) (cache : GroupCache)
    (left : Placed (entries (dbGetPkgcache db)) cache.groups)
    (done : (loadGrpcache memory db cache).1 = 0) :
    Faithful (dbGetPkgcache db) (loadGrpcache memory db cache).2.groups ↔
      cache.groups = [] ∧ ∀ pkg ∈ dbGetPkgcache db, pkg.groups.Nodup := by
  have run := loadGrpcache_entersAll done
  rw [← entries_nodup_iff (dbGetPkgcache_nodup db)]
  constructor
  · intro faithful
    refine ⟨?_, run.nodup faithful.distinct⟩
    rw [eq_nil_iff_forall_not_mem]
    intro grp member
    obtain ⟨pkg, inside⟩ := exists_mem_of_ne_nil _ (left grp member).1
    exact run.not_nodup_of_held ((left grp member).2 pkg inside) ⟨grp, member, rfl, inside⟩
      faithful.distinct
  · rintro ⟨fresh, distinct⟩
    have start : Indexes [] cache.groups := ⟨by simp [fresh], by simp [fresh], by simp⟩
    have indexes := start.entersAll distinct run
    have each := (entries_nodup_iff (dbGetPkgcache_nodup db)).mp distinct
    have members (grp : Group) (member : grp ∈ (loadGrpcache memory db cache).2.groups) :
        grp.packages = (dbGetPkgcache db).filter (grp.name ∈ ·.groups) :=
      (indexes.listed grp member).trans (filter_entries each grp.name)
    refine ⟨indexes.distinct, members, ?_, ?_⟩
    · intro grp member
      rw [members grp member]
      exact (dbGetPkgcache_nodup db).filter _
    · intro pkg inside name named
      exact indexes.total (pkg, name) (mem_entries.mpr ⟨inside, named⟩)

/-- The packages `gcc` and `make`, which name their groups. -/
def developers (gcc make : List CStr) : Db :=
  .populate [{ Pkg.bare 0 (cstr "gcc") (cstr "1") with groups := gcc },
    { Pkg.bare 1 (cstr "make") (cstr "1") with groups := make }]

theorem loadGrpcache_faithful_devel :
    Faithful (dbGetPkgcache (developers [cstr "devel"] [cstr "devel", cstr "build"]))
      (loadGrpcache (fun _ => true) (developers [cstr "devel"] [cstr "devel", cstr "build"])
        .empty).2.groups :=
  (loadGrpcache_faithful_iff _ _ .empty (fun _ member => nomatch member) (by decide +kernel)).mpr
    ⟨rfl, by decide +kernel⟩

/-- A package that names its group twice is the only member of a second group of that name. -/
theorem loadGrpcache_second_group :
    (loadGrpcache (fun _ => true) (developers [cstr "devel", cstr "devel"] [cstr "devel"])
        .empty).2.groups.map (fun grp => (grp.name, grp.packages.map Pkg.name)) =
      [(cstr "devel", [cstr "gcc", cstr "make"]), (cstr "devel", [cstr "gcc"])] ∧
    ¬ Faithful (dbGetPkgcache (developers [cstr "devel", cstr "devel"] [cstr "devel"]))
      (loadGrpcache (fun _ => true) (developers [cstr "devel", cstr "devel"] [cstr "devel"])
        .empty).2.groups := by
  refine ⟨by decide +kernel, fun faithful => ?_⟩
  have distinct := faithful.distinct
  revert distinct
  decide +kernel

end Dulge
