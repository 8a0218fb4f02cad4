import Dulge.EntryName

/-! A dependency made from a text is written as that text, and a dependency whose text shows
its operator first is made from it again. -/

namespace Dulge
open List Option

def descPart : Option CStr → CStr
  | none => []
  | some desc => 58 :: 32 :: desc

theorem splitDesc_join (text : CStr) : (splitDesc text).1 ++ descPart (splitDesc text).2 = text := by
  induction text using splitDesc.induct with
  | case1 => rfl
  | case2 c => rfl
  | case3 c d rest delimiter =>
    rw [splitDesc, if_pos delimiter, delimiter.1, delimiter.2]
    rfl
  | case4 c d rest other ih =>
    rw [splitDesc, if_neg other]
    exact congrArg (c :: ·) ih

theorem depComputeString_new (name : CStr) (mod : Depmod) (version : CStr) (desc : Option CStr)
    (compared : mod ≠ .any) : depComputeString (.new name mod (some version) desc)
      = name ++ mod.opr ++ version ++ descPart desc := by
  unfold depComputeString Depend.new
  dsimp only
  rw [if_neg compared, getD_some]
  cases desc <;> rfl

theorem depComputeString_comparator {strict orEqual : Depmod} {c : UInt8} (desc : Option CStr)
    {parts : CStr × CStr} (plain : strict.opr = [c]) (equal : orEqual.opr = [c, 61])
    (compared : strict ≠ .any ∧ orEqual ≠ .any) :
    depComputeString (depComparator strict orEqual desc parts)
      = parts.1 ++ c :: parts.2 ++ descPart desc := by
  obtain ⟨name, version⟩ := parts
  unfold depComparator
  dsimp only
  split
  · rw [depComputeString_new _ _ _ _ compared.2, equal]
    simp
  · rw [depComputeString_new _ _ _ _ compared.1, plain]
    simp

theorem depComputeString_depFromString (text : CStr) :
    depComputeString (depFromString text) = text := by
  have joined := splitDesc_join text
  unfold depFromString
  dsimp only
  split
  · rename_i parts below
    rw [depComputeString_comparator _ rfl rfl (by decide), ← (memchr_some below).1, joined]
  · split
    · rename_i parts above
      rw [depComputeString_comparator _ rfl rfl (by decide), ← (memchr_some above).1, joined]
    · split
      · rename_i parts equal
        have split := (memchr_some equal).1
        rw [depComputeString_new _ _ _ _ (by decide)]
        rw [split] at joined
        simpa [Depmod.opr] using joined
      · unfold depComputeString Depend.new
        dsimp only
        rw [if_pos rfl, append_nil]
        revert joined
        cases (splitDesc text).2 <;> simp [descPart, Depmod.opr]

/-- The delimiter that `strstr` finds is the one in front of the description: it cannot begin
at the last byte of the text, as a colon is no space. -/
theorem splitDesc_append (text : CStr) (desc : Option CStr) (plain : ¬ [58, 32] <:+: text) :
    splitDesc (text ++ descPart desc) = (text, desc) := by
  induction text using splitDesc.induct with
  | case1 =>
    cases desc with
    | none => rfl
    | some desc => simp [descPart, splitDesc]
  | case2 c =>
    cases desc with
    | none => rfl
    | some desc => simp [descPart, splitDesc]
  | case3 c d rest delimiter =>
    obtain ⟨rfl, rfl⟩ := delimiter
    exact absurd (prefix_append [58, 32] rest).isInfix plain
  | case4 c d rest other ih =>
    have inner := ih fun inside => plain (inside.trans (suffix_cons c _).isInfix)
    simp only [cons_append] at inner ⊢
    rw [splitDesc, if_neg other, inner]

theorem Depend.eq_new (dep : Depend) : dep = .new dep.name dep.mod dep.version dep.desc := by
  obtain ⟨name, version, desc, nameHash, mod, hashed⟩ := dep
  subst hashed
  rfl

/-- A dependency whose text reads as it was meant: its operator is the one that the parser
takes first, and no description begins inside it. -/
structure Legible (dep : Depend) : Prop where
  name : 60 ∉ dep.name ∧ 62 ∉ dep.name ∧ 61 ∉ dep.name
  versioned : dep.version.isSome ↔ dep.mod ≠ .any
  undescribed : ¬ [58, 32] <:+: dep.name ++ dep.mod.opr ++ dep.version.getD []
  strict : dep.mod = .lt ∨ dep.mod = .gt → (dep.version.getD []).head? ≠ some 61
  below : dep.mod = .gt ∨ dep.mod = .ge → 60 ∉ dep.version.getD []
  neither : dep.mod = .eq → 60 ∉ dep.version.getD [] ∧ 62 ∉ dep.version.getD []

theorem depComparator_strict {strict orEqual : Depmod} {desc : Option CStr} {name version : CStr}
    (plain : version.head? ≠ some 61) :
    depComparator strict orEqual desc (name, version) = .new name strict (some version) desc := by
  unfold depComparator
  split
  · rename_i rest shape
    have shape : version = 61 :: rest := shape
    rw [shape] at plain
    exact absurd rfl plain
  · rfl

theorem Legible.depComputeString_eq {dep : Depend} (legible : Legible dep) :
    depComputeString dep = (dep.name ++ dep.mod.opr ++ dep.version.getD []) ++ descPart dep.desc := by
  have unversioned : dep.mod = .any → dep.version.getD [] = [] := by
    intro any
    cases version : dep.version with
    | none => rfl
    | some text => exact absurd any (legible.versioned.mp (by simp [version]))
  unfold depComputeString descPart
  dsimp only
  cases dep.desc with
  | none =>
    split
    · rename_i any
      rw [unversioned any]
    · rfl
  | some desc =>
    split
    · rename_i any
      rw [unversioned any]
    · rfl

/-- A legible dependency with an operator is found at it: the bytes that the parser looks for
before its own are in neither the name nor the version. -/
theorem Legible.depFromString_eq {dep : Depend} (legible : Legible dep) :
    depFromString (depComputeString dep) = .new dep.name dep.mod dep.version dep.desc := by
  rw [legible.depComputeString_eq]
  obtain ⟨⟨nameLt, nameGt, nameEq⟩, versioned, undescribed, strict, below, neither⟩ := legible
  have cut := splitDesc_append _ dep.desc undescribed
  unfold depFromString
  rw [cut]
  obtain ⟨name, version, desc, nameHash, mod, hashed⟩ := dep
  dsimp only at *
  cases mod with
  | any =>
    have none : version = none := by simpa using versioned
    subst none
    simp [Depmod.opr, memchr_eq_none nameLt, memchr_eq_none nameGt, memchr_eq_none nameEq]
  | eq =>
    obtain ⟨text, rfl⟩ := isSome_iff_exists.mp (versioned.mpr (by decide))
    obtain ⟨noLt, noGt⟩ := neither rfl
    simp only [Depmod.opr, getD_some, append_assoc, singleton_append] at *
    have noLt : 60 ∉ name ++ 61 :: text := by simp [nameLt, noLt]
    have noGt : 62 ∉ name ++ 61 :: text := by simp [nameGt, noGt]
    simp only [memchr_eq_none noLt, memchr_eq_none noGt, memchr_append nameEq]
  | ge =>
    obtain ⟨text, rfl⟩ := isSome_iff_exists.mp (versioned.mpr (by decide))
    have noLt : 60 ∉ name ++ 62 :: 61 :: text := by simpa [nameLt] using below (.inr rfl)
    simp only [Depmod.opr, getD_some, append_assoc, cons_append, nil_append,
      memchr_eq_none noLt, memchr_append nameGt]
    rfl
  | le =>
    obtain ⟨text, rfl⟩ := isSome_iff_exists.mp (versioned.mpr (by decide))
    simp only [Depmod.opr, getD_some, append_assoc, cons_append, nil_append, memchr_append nameLt]
    rfl
  | lt =>
    obtain ⟨text, rfl⟩ := isSome_iff_exists.mp (versioned.mpr (by decide))
    simp only [Depmod.opr, getD_some, append_assoc, cons_append, nil_append, memchr_append nameLt]
    exact depComparator_strict (strict (.inl rfl))
  | gt =>
    obtain ⟨text, rfl⟩ := isSome_iff_exists.mp (versioned.mpr (by decide))
    have noLt : 60 ∉ name ++ 62 :: text := by simpa [nameLt] using below (.inl rfl)
    simp only [Depmod.opr, getD_some, append_assoc, cons_append, nil_append,
      memchr_eq_none noLt, memchr_append nameGt]
    exact depComparator_strict (strict (.inr rfl))

/-- Texts and legible dependencies stand for each other. -/
theorem depString_roundTrip : (∀ text, depComputeString (depFromString text) = text) ∧
      ∀ dep, Legible dep → depFromString (depComputeString dep) = dep := by
  refine ⟨depComputeString_depFromString, ?_⟩
  intro dep legible
  rw [legible.depFromString_eq]
  exact dep.eq_new.symm

/-- A version may start with an equality sign where the operator is one, and a colon may end
the text in front of the description. -/
theorem depString_roundTrip_colon :
    depFromString
      (depComputeString (.new (cstr "foo") .eq (some (cstr "=1:")) (some (cstr "x: y")))) =
      .new (cstr "foo") .eq (some (cstr "=1:")) (some (cstr "x: y")) :=
  depString_roundTrip.2 _
    { name := by decide
      versioned := by decide
      undescribed := by decide
      strict := by decide
      below := by decide
      neither := by decide }

end Dulge
