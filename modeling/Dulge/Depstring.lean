import Dulge.Package

/-! Dependencies as text: `alpm_dep_from_string` and `alpm_dep_compute_string`. -/
namespace Dulge

/-- The text before the first `": "`, and the description behind it. -/
def splitDesc : CStr → CStr × Option CStr
  | [] => ([], none)
  | [c] => ([c], none)
  | c :: d :: rest =>
    if c = 58 ∧ d = 32 then ([], some rest)
    else
      let tail := splitDesc (d :: rest)
      (c :: tail.1, tail.2)

/-- `memchr`, as the text before and after the byte it finds. -/
def memchr (c : UInt8) (s : CStr) : Option (CStr × CStr) :=
  match s.dropWhile (· ≠ c) with
  | [] => none
  | _ :: rest => some (s.takeWhile (· ≠ c), rest)

/-- What `memchr` finds is the first place of the byte. -/
theorem memchr_some {c : UInt8} {s : CStr} {parts : CStr × CStr} (found : memchr c s = some parts) :
    s = parts.1 ++ c :: parts.2 ∧ c ∉ parts.1 := by
  unfold memchr at found
  split at found
  · cases found
  · rename_i d rest shape
    cases found
    have stops : d = c := by
      have := List.head_dropWhile_not (l := s) (fun x => decide (x ≠ c)) (by rw [shape]; simp)
      simp only [shape, List.head_cons] at this
      simpa using this
    refine ⟨?_, ?_⟩
    · calc s = s.takeWhile (· ≠ c) ++ s.dropWhile (· ≠ c) := List.takeWhile_append_dropWhile.symm
        _ = s.takeWhile (· ≠ c) ++ c :: rest := by rw [shape, stops]
    · intro mem
      simpa using List.mem_takeWhile_imp mem

theorem memchr_isSome {c : UInt8} {s : CStr} : (memchr c s).isSome = true ↔ c ∈ s := by
  constructor
  · intro found
    obtain ⟨parts, found⟩ := Option.isSome_iff_exists.mp found
    rw [(memchr_some found).1]
    simp
  · intro mem
    unfold memchr
    split
    · rename_i empty
      rw [List.dropWhile_eq_nil_iff] at empty
      simpa using empty c mem
    · rfl

theorem memchr_append {c : UInt8} {front : CStr} (absent : c ∉ front) (rest : CStr) :
    memchr c (front ++ c :: rest) = some (front, rest) := by
  have passes := decide_ne_of_not_mem absent
  unfold memchr
  rw [List.dropWhile_append_of_pos passes, List.takeWhile_append_of_pos passes]
  simp

theorem memchr_eq_none {c : UInt8} {s : CStr} (absent : c ∉ s) : memchr c s = none := by
  rw [← Option.not_isSome_iff_eq_none, memchr_isSome]
  exact absent

def depComparator (strict orEqual : Depmod) (desc : Option CStr) (parts : CStr × CStr) : Depend :=
  match parts.2 with
  | 61 :: version => .new parts.1 orEqual (some version) desc
  | version => .new parts.1 strict (some version) desc

/-- `alpm_dep_from_string`. The byte behind the text is never an equality sign, so
looking at it and looking at the end of the text agree. -/
def depFromString (depstring : CStr) : Depend :=
  let (text, desc) := splitDesc depstring
  match memchr 60 text with
  | some parts => depComparator .lt .le desc parts
  | none =>
    match memchr 62 text with
    | some parts => depComparator .gt .ge desc parts
    | none =>
      match memchr 61 text with
      | some parts => .new parts.1 .eq (some parts.2) desc
      | none => .new text .any none desc

def Depmod.opr : Depmod → CStr
  | .any => []
  | .ge => [62, 61]
  | .le => [60, 61]
  | .eq => [61]
  | .lt => [60]
  | .gt => [62]

def depComputeString (dep : Depend) : CStr :=
  let ver := if dep.mod = .any then [] else dep.version.getD []
  let desc := match dep.desc with
    | none => []
    | some desc => 58 :: 32 :: desc
  dep.name ++ dep.mod.opr ++ ver ++ desc

example : depComputeString (depFromString (cstr "foo>=1:2-3: for bar")) =
  cstr "foo>=1:2-3: for bar" := by
  decide

def Pkg.needing (pkg : Pkg) (depends : List String) : Pkg :=
  { pkg with depends := depends.map fun text => depFromString (cstr text) }

end Dulge
