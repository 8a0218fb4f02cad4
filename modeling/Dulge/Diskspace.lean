import Dulge.AlpmList
import Dulge.Filelist

/-! The mount points of `diskspace.c`, and the one that a file is charged to. -/

namespace Dulge
open Comparator List

/-- `alpm_mountpoint_t`, as far as the matching reads it. Of an empty directory the matching would
read a byte before the first one. -/
structure MountPoint where
  mountDir : CStr
  mountDirLen : Nat
  len_eq : mountDirLen = mountDir.length
  nonempty : mountDir ≠ []
  deriving DecidableEq

def MountPoint.new (mountDir : { dir : CStr // dir ≠ [] }) : MountPoint :=
  ⟨mountDir.val, mountDir.val.length, rfl, mountDir.property⟩

def mountPointCmp (mp1 mp2 : MountPoint) : Int := -strcmp mp1.mountDir mp2.mountDir

/-- `mount_point_list`, from the directories that `getmntent` reports -/
def mountPointList (dirs : List { dir : CStr // dir ≠ [] }) : List MountPoint :=
  let mountPoints := dirs.map MountPoint.new
  listMsort mountPointCmp mountPoints.length mountPoints

/-- The test of `match_mount_point` for one mount point. -/
def mountPointMatches (realPath : CStr) (data : MountPoint) : Bool :=
  if strncmp data.mountDir realPath data.mountDirLen = 0 then
    if data.mountDir[data.mountDirLen - 1]? = some slash then true
    else if realPath.length ≥ data.mountDirLen then
      -- past the last byte stands the terminator
      match realPath[data.mountDirLen]? with
      | some next => next = slash
      | none => true
    else false
  else false

def matchMountPoint (mountPoints : List MountPoint) (realPath : CStr) : Option MountPoint :=
  mountPoints.find? (mountPointMatches realPath)

theorem mountPointCmp_lawful : Lawful mountPointCmp where
  swap a b := by
    rw [mountPointCmp, mountPointCmp, strcmp_swap a.mountDir b.mountDir]
    omega
  trans {a b c} ab bc := by
    rw [mountPointCmp, ← strcmp_swap] at ab bc ⊢
    exact strcmp_trans bc ab

theorem mountPointList_sorted (dirs : List { dir : CStr // dir ≠ [] }) :
    Sorted mountPointCmp (mountPointList dirs) := listMsort_sorted mountPointCmp_lawful _

def PathPrefix (dir path : CStr) : Prop :=
  dir = path ∨ dir <+: path ∧ (dir.getLast? = some slash ∨ ∃ rest, path = dir ++ slash :: rest)

theorem PathPrefix.of_append {dir rest : CStr} :
    PathPrefix dir (dir ++ rest) ↔ dir.getLast? = some slash ∨ rest = [] ∨
      rest.head? = some slash := by
  constructor
  · rintro (same | ⟨-, ends | ⟨more, goes⟩⟩)
    · exact .inr (.inl (append_right_eq_self.mp same.symm))
    · exact .inl ends
    · rw [append_cancel_left goes]
      exact .inr (.inr rfl)
  · rintro (ends | rfl | starts)
    · exact .inr ⟨prefix_append dir rest, .inl ends⟩
    · exact .inl (append_nil dir).symm
    · obtain ⟨more, rfl⟩ := List.head?_eq_some_iff.mp starts
      exact .inr ⟨prefix_append dir _, .inr ⟨more, rfl⟩⟩

theorem PathPrefix.isPrefix {dir path : CStr} (below : PathPrefix dir path) : dir <+: path := by
  rcases below with rfl | ⟨starts, -⟩
  · exact prefix_refl dir
  · exact starts

theorem mountPointMatches_iff (data : MountPoint) (realPath : CStr) :
    mountPointMatches realPath data = true ↔ PathPrefix data.mountDir realPath := by
  have last : data.mountDir[data.mountDirLen - 1]? = data.mountDir.getLast? := by
    rw [data.len_eq, List.getLast?_eq_getElem?]
  rw [mountPointMatches, last, data.len_eq]
  by_cases starts : data.mountDir <+: realPath
  · obtain ⟨rest, rfl⟩ := starts
    rw [if_pos (strncmp_length_eq_zero.mpr (prefix_append _ rest)), PathPrefix.of_append]
    by_cases ends : data.mountDir.getLast? = some slash
    · exact iff_of_true (if_pos ends) (.inl ends)
    · rw [if_neg ends, if_pos (by simp), List.getElem?_append_right (Nat.le_refl _), Nat.sub_self]
      cases rest with
      | nil => simp
      | cons next rest => simp [ends]
  · rw [if_neg (fun same => starts (strncmp_length_eq_zero.mp same))]
    exact iff_of_false Bool.false_ne_true fun below => starts below.isPrefix

theorem length_le_of_prefix_of_strcmp {a b path : CStr} (ha : a <+: path) (hb : b <+: path)
    (le : strcmp b a ≤ 0) : b.length ≤ a.length := by
  rcases List.prefix_or_prefix_of_prefix ha hb with below | below
  · have back := strcmp_of_prefix below
    rw [strcmp_swap] at back
    have same : b = a := strcmp_eq_zero.mp (by omega)
    rw [same]
  · exact below.length_le

theorem matchMountPoint_innermost {mountPoints : List MountPoint}
    (sorted : Sorted mountPointCmp mountPoints) (realPath : CStr) :
    (∀ mp, matchMountPoint mountPoints realPath = some mp →
      mp ∈ mountPoints ∧ PathPrefix mp.mountDir realPath ∧
        ∀ other ∈ mountPoints, PathPrefix other.mountDir realPath →
          other.mountDir.length ≤ mp.mountDir.length) ∧
    (matchMountPoint mountPoints realPath = none ↔
      ∀ mp ∈ mountPoints, ¬ PathPrefix mp.mountDir realPath) := by
  constructor
  · intro mp found
    obtain ⟨hit, before, after, rfl, missed⟩ := List.find?_eq_some_iff_append.mp found
    have below := (mountPointMatches_iff mp realPath).mp hit
    refine ⟨by simp, below, ?_⟩
    intro other member otherBelow
    -- what stands before `mp` does not match; what stands behind it compares as not greater
    rcases mem_append.mp member with early | late
    · have none := missed other early
      rw [(mountPointMatches_iff other realPath).mpr otherBelow] at none
      cases none
    · rcases mem_cons.mp late with rfl | later
      · exact Nat.le_refl _
      · have behind := rel_of_pairwise_cons (pairwise_append.mp sorted).2.1 later
        apply length_le_of_prefix_of_strcmp below.isPrefix otherBelow.isPrefix
        rw [strcmp_swap]
        exact behind
  · rw [matchMountPoint, List.find?_eq_none]
    exact forall₂_congr fun mp _ => not_congr (mountPointMatches_iff mp realPath)

/-- The mount points of a file system with a home of its own, as `getmntent` reports them. -/
def homeMounts : List MountPoint :=
  mountPointList [⟨cstr "/", by decide⟩, ⟨cstr "/boot", by decide⟩, ⟨cstr "/home", by decide⟩]

theorem matchMountPoint_homeMounts : Sorted mountPointCmp homeMounts ∧
    matchMountPoint homeMounts (cstr "/homes/a") = some (.new ⟨cstr "/", by decide⟩) ∧
      ∀ other ∈ homeMounts, PathPrefix other.mountDir (cstr "/homes/a") →
        other.mountDir.length ≤ 1 := by
  have found : matchMountPoint homeMounts (cstr "/homes/a") = some (.new ⟨cstr "/", by decide⟩) := by
    decide +kernel
  have sorted : Sorted mountPointCmp homeMounts := mountPointList_sorted _
  exact ⟨sorted, found, ((matchMountPoint_innermost sorted (cstr "/homes/a")).1 _ found).2.2⟩

end Dulge
