import Mathlib.Data.List.Basic
import Mathlib.Logic.Function.Basic

/-! Path lookup in a map of files, directories and symbolic links. A lookup goes from a directory
through the steps of a path; the places that it looks at on its way are what its result depends
on. -/

namespace Links
open List

variable {ν κ : Type*}

inductive PathStep (ν : Type*) where
  | stay | up
  | name (n : ν)
  deriving DecidableEq

structure Target (ν : Type*) where
  absolute : Bool
  steps : List (PathStep ν)
  deriving DecidableEq

inductive Inode (κ ν : Type*) where
  | file (content : κ)
  | directory
  | link (target : Target ν)
  deriving DecidableEq

structure Walked (ν : Type*) where
  way : List (List ν)
  found : Option (List ν)
  deriving DecidableEq

def Walked.after (walked : Walked ν) (key : List ν) : Walked ν := ⟨key :: walked.way, walked.found⟩

/-- What a lookup does at a place: it stops there, goes on inside a directory or follows a link. -/
inductive Turn (ν : Type*) where
  | stop | enter
  | jump (target : Target ν)

/-- A link is not followed if it is the last step and links at the end are not to be followed. -/
def turn (node : Option (Inode κ ν)) (last follow : Bool) : Turn ν :=
  match node with
  | some .directory => .enter
  | some (.link target) => if last && !follow then .stop else .jump target
  | _ => .stop

/-- The lookup as far as it does not follow a link; `jump` follows one. The last step may end at
a place where nothing is. -/
def walkSteps (fs : List ν → Option (Inode κ ν)) (follow : Bool)
    (jump : List ν → List (PathStep ν) → Walked ν) : List ν → List (PathStep ν) → Walked ν
  | dir, [] => ⟨[], some dir⟩
  | dir, .stay :: rest => walkSteps fs follow jump dir rest
  | dir, .up :: rest => walkSteps fs follow jump dir.dropLast rest
  | dir, .name n :: rest =>
    match turn (fs (dir ++ [n])) rest.isEmpty follow with
    | .stop => ⟨[dir ++ [n]], if rest.isEmpty then some (dir ++ [n]) else none⟩
    | .enter => (walkSteps fs follow jump (dir ++ [n]) rest).after (dir ++ [n])
    | .jump target =>
      (jump (if target.absolute then [] else dir) (target.steps ++ rest)).after (dir ++ [n])

def walk (fs : List ν → Option (Inode κ ν)) (follow : Bool) :
    Nat → List ν → List (PathStep ν) → Walked ν
  | 0 => walkSteps fs follow fun _ _ => ⟨[], none⟩
  | links + 1 => walkSteps fs follow (walk fs follow links)

section Walk

variable {fs fs' : List ν → Option (Inode κ ν)} {follow : Bool}

variable (links : Nat) (dir : List ν) (todo : List (PathStep ν))

theorem walk_nil : walk fs follow links dir [] = ⟨[], some dir⟩ := by
  cases links <;> rfl

theorem walk_stay (rest : List (PathStep ν)) :
    walk fs follow links dir (.stay :: rest) = walk fs follow links dir rest := by
  cases links <;> rfl

theorem walk_up (rest : List (PathStep ν)) :
    walk fs follow links dir (.up :: rest) = walk fs follow links dir.dropLast rest := by
  cases links <;> rfl

section Name

variable {dir : List ν} {n : ν} {rest : List (PathStep ν)} {target : Target ν}

theorem walk_stop (links : Nat) (choice : turn (fs (dir ++ [n])) rest.isEmpty follow = .stop) :
    walk fs follow links dir (.name n :: rest) =
      ⟨[dir ++ [n]], if rest.isEmpty then some (dir ++ [n]) else none⟩ := by
  cases links <;> simp only [walk, walkSteps, choice]

theorem walk_enter (links : Nat) (choice : turn (fs (dir ++ [n])) rest.isEmpty follow = .enter) :
    walk fs follow links dir (.name n :: rest) =
      (walk fs follow links (dir ++ [n]) rest).after (dir ++ [n]) := by
  cases links <;> simp only [walk, walkSteps, choice]

theorem walk_lost (choice : turn (fs (dir ++ [n])) rest.isEmpty follow = .jump target) :
    walk fs follow 0 dir (.name n :: rest) = ⟨[dir ++ [n]], none⟩ := by
  simp only [walk, walkSteps, choice]
  rfl

theorem walk_jump (links : Nat)
    (choice : turn (fs (dir ++ [n])) rest.isEmpty follow = .jump target) :
    walk fs follow (links + 1) dir (.name n :: rest) =
      (walk fs follow links (if target.absolute then [] else dir) (target.steps ++ rest)).after
        (dir ++ [n]) := by
  simp only [walk, walkSteps, choice]

end Name

/-- Induction over a lookup: what holds of its result if it ends, goes on or follows a link. -/
theorem walk_induction (fs : List ν → Option (Inode κ ν)) (follow : Bool)
    {P : Nat → List ν → List (PathStep ν) → Walked ν → Prop}
    (nil : ∀ links dir, P links dir [] ⟨[], some dir⟩)
    (stay : ∀ links dir rest w, P links dir rest w → P links dir (.stay :: rest) w)
    (up : ∀ links dir rest w, P links dir.dropLast rest w → P links dir (.up :: rest) w)
    (stop : ∀ links dir n rest, turn (fs (dir ++ [n])) rest.isEmpty follow = .stop →
      P links dir (.name n :: rest)
        ⟨[dir ++ [n]], if rest.isEmpty then some (dir ++ [n]) else none⟩)
    (enter : ∀ links dir n rest w, turn (fs (dir ++ [n])) rest.isEmpty follow = .enter →
      P links (dir ++ [n]) rest w → P links dir (.name n :: rest) (w.after (dir ++ [n])))
    (lost : ∀ dir n rest target, turn (fs (dir ++ [n])) rest.isEmpty follow = .jump target →
      P 0 dir (.name n :: rest) ⟨[dir ++ [n]], none⟩) (jump : ∀ links dir n rest target w,
      turn (fs (dir ++ [n])) rest.isEmpty follow = .jump target →
      P links (if target.absolute then [] else dir) (target.steps ++ rest) w →
      P (links + 1) dir (.name n :: rest) (w.after (dir ++ [n])))
    (links : Nat) (dir : List ν) (todo : List (PathStep ν)) :
    P links dir todo (walk fs follow links dir todo) := by
  have steps (links : Nat)
      (far : ∀ dir n rest target, turn (fs (dir ++ [n])) rest.isEmpty follow = .jump target →
        P links dir (.name n :: rest) (walk fs follow links dir (.name n :: rest)))
      (dir : List ν) (todo : List (PathStep ν)) :
      P links dir todo (walk fs follow links dir todo) := by
    induction todo generalizing dir with
    | nil =>
      rw [walk_nil]
      exact nil links dir
    | cons step rest ih =>
      cases step with
      | stay =>
        rw [walk_stay]
        exact stay links dir rest _ (ih dir)
      | up =>
        rw [walk_up]
        exact up links dir rest _ (ih dir.dropLast)
      | name n =>
        cases choice : turn (fs (dir ++ [n])) rest.isEmpty follow with
        | stop =>
          rw [walk_stop links choice]
          exact stop links dir n rest choice
        | enter =>
          rw [walk_enter links choice]
          exact enter links dir n rest _ choice (ih (dir ++ [n]))
        | jump target => exact far dir n rest target choice
  induction links generalizing dir todo with
  | zero =>
    refine steps 0 (fun dir n rest target choice => ?_) dir todo
    rw [walk_lost choice]
    exact lost dir n rest target choice
  | succ links ih =>
    refine steps (links + 1) (fun dir n rest target choice => ?_) dir todo
    rw [walk_jump links choice]
    exact jump links dir n rest target _ choice (ih _ _)

theorem walk_congr :
    (∀ key ∈ (walk fs follow links dir todo).way, fs' key = fs key) →
      walk fs' follow links dir todo = walk fs follow links dir todo := by
  refine walk_induction fs follow (P := fun links dir todo w =>
    (∀ key ∈ w.way, fs' key = fs key) → walk fs' follow links dir todo = w)
    ?_ ?_ ?_ ?_ ?_ ?_ ?_ links dir todo
  · exact fun links dir _ => walk_nil links dir
  · intro links dir rest w ih same
    rw [walk_stay, ih same]
  · intro links dir rest w ih same
    rw [walk_up, ih same]
  · intro links dir n rest choice same
    rw [← same _ mem_cons_self] at choice
    exact walk_stop links choice
  · intro links dir n rest w choice ih same
    rw [← same _ mem_cons_self] at choice
    rw [walk_enter links choice, ih fun key mem => same key (mem_cons_of_mem _ mem)]
  · intro dir n rest target choice same
    rw [← same _ mem_cons_self] at choice
    exact walk_lost choice
  · intro links dir n rest target w choice ih same
    rw [← same _ mem_cons_self] at choice
    rw [walk_jump links choice, ih fun key mem => same key (mem_cons_of_mem _ mem)]

def Walked.node (walked : Walked ν) (fs : List ν → Option (Inode κ ν)) : Option (Inode κ ν) :=
  walked.found.bind fs

theorem walk_full :
    ((walk fs follow links dir todo).node fs).isSome = true →
      ∀ key ∈ (walk fs follow links dir todo).way, fs key ≠ none := by
  have taken {dir : List ν} {n : ν} {rest : List (PathStep ν)}
      (choice : turn (fs (dir ++ [n])) rest.isEmpty follow ≠ .stop) : fs (dir ++ [n]) ≠ none :=
    fun empty => choice (by rw [empty]; rfl)
  refine walk_induction fs follow (P := fun _ _ _ w =>
    (w.node fs).isSome = true → ∀ key ∈ w.way, fs key ≠ none) ?_ ?_ ?_ ?_ ?_ ?_ ?_ links dir todo
  · exact fun _ _ _ key mem => absurd mem not_mem_nil
  · exact fun _ _ _ _ ih => ih
  · exact fun _ _ _ _ ih => ih
  · intro links dir n rest _ found key mem empty
    rw [mem_singleton.mp mem] at empty
    unfold Walked.node at found
    dsimp only at found
    split at found
    · rw [Option.bind_some, empty] at found
      cases found
    · cases found
  · intro links dir n rest w choice ih found key mem
    rcases mem_cons.mp mem with rfl | later
    · exact taken fun stopped => nomatch choice.symm.trans stopped
    · exact ih found key later
  · intro dir n rest target _ found
    cases found
  · intro links dir n rest target w choice ih found key mem
    rcases mem_cons.mp mem with rfl | later
    · exact taken fun stopped => nomatch choice.symm.trans stopped
    · exact ih found key later

theorem walk_above :
    ∀ key ∈ (walk fs follow links dir todo).way, ∀ front, front <+: key →
      front <+: dir ∨ front ∈ (walk fs follow links dir todo).way := by
  have first {front dir : List ν} {n : ν} (way : List (List ν)) (above : front <+: dir ++ [n]) :
      front <+: dir ∨ front ∈ (dir ++ [n]) :: way := by
    rcases prefix_concat_iff.mp above with rfl | inside
    · exact .inr mem_cons_self
    · exact .inl inside
  refine walk_induction fs follow (P := fun _ dir _ w =>
    ∀ key ∈ w.way, ∀ front, front <+: key → front <+: dir ∨ front ∈ w.way)
    ?_ ?_ ?_ ?_ ?_ ?_ ?_ links dir todo
  · exact fun _ _ key mem => absurd mem not_mem_nil
  · exact fun _ _ _ _ ih => ih
  · intro links dir rest w ih key mem front above
    exact (ih key mem front above).imp_left fun inside => inside.trans <| List.dropLast_prefix dir
  · intro links dir n rest _ key mem front above
    cases mem_singleton.mp mem
    exact first [] above
  · intro links dir n rest w _ ih key mem front above
    rcases mem_cons.mp mem with rfl | later
    · exact first w.way above
    · rcases ih key later front above with inside | passed
      · exact first w.way inside
      · exact .inr (mem_cons_of_mem _ passed)
  · intro dir n rest target _ key mem front above
    cases mem_singleton.mp mem
    exact first [] above
  · intro links dir n rest target w _ ih key mem front above
    rcases mem_cons.mp mem with rfl | later
    · exact first w.way above
    · rcases ih key later front above with inside | passed
      · split at inside
        · exact .inl (prefix_nil.mp inside ▸ List.nil_prefix)
        · exact .inl inside
      · exact .inr (mem_cons_of_mem _ passed)

def Closed (places : List (List ν)) : Prop :=
  ∀ key ∈ places, ∀ front, front ≠ [] → front <+: key → front ∈ places

theorem Closed.append {places places' : List (List ν)} (left : Closed places)
    (right : Closed places') : Closed (places ++ places') := by
  intro key mem front inside above
  rcases mem_append.mp mem with here | there
  · exact mem_append_left _ (left key here front inside above)
  · exact mem_append_right _ (right key there front inside above)

theorem walk_closed : Closed (walk fs follow links [] todo).way := by
  intro key mem front inside above
  rcases walk_above links [] todo key mem front above with top | passed
  · exact absurd (prefix_nil.mp top) inside
  · exact passed

theorem walk_found :
    ∀ key, (walk fs follow links dir todo).found = some key →
      key <+: dir ∨ key ∈ (walk fs follow links dir todo).way := by
  refine walk_induction fs follow (P := fun _ dir _ w =>
    ∀ key, w.found = some key → key <+: dir ∨ key ∈ w.way)
    ?_ ?_ ?_ ?_ ?_ ?_ ?_ links dir todo
  · rintro links dir key ⟨⟩
    exact .inl prefix_rfl
  · exact fun _ _ _ _ ih => ih
  · intro links dir rest w ih key found
    exact (ih key found).imp_left fun inside => inside.trans <| List.dropLast_prefix dir
  · intro links dir n rest _ key found
    dsimp only at found
    split at found
    · cases found
      exact .inr mem_cons_self
    · cases found
  · intro links dir n rest w _ ih key found
    rcases ih key found with inside | passed
    · rcases prefix_concat_iff.mp inside with rfl | above
      · exact .inr mem_cons_self
      · exact .inl above
    · exact .inr (mem_cons_of_mem _ passed)
  · rintro dir n rest target _ key ⟨⟩
  · intro links dir n rest target w _ ih key found
    rcases ih key found with inside | passed
    · split at inside
      · exact .inl (prefix_nil.mp inside ▸ List.nil_prefix)
      · exact .inl inside
    · exact .inr (mem_cons_of_mem _ passed)

theorem turn_inner (node : Option (Inode κ ν)) (last follow : Bool) :
    turn node false follow = turn node last true := by
  cases node with
  | none => rfl
  | some node =>
    cases node with
    | file content => rfl
    | directory => rfl
    | link target => cases last <;> rfl

theorem turn_follow {node : Option (Inode κ ν)} {last : Bool}
    (plain : turn node last false = .stop → last = true → ∀ target, node ≠ some (.link target)) :
    turn node last true = turn node last false := by
  cases node with
  | none => rfl
  | some node =>
    cases node with
    | file content => rfl
    | directory => rfl
    | link target =>
      cases last with
      | false => rfl
      | true => exact absurd rfl (plain rfl rfl target)

theorem walk_follow :
    (∀ target, (walk fs false links dir todo).node fs ≠ some (.link target)) →
      walk fs true links dir todo = walk fs false links dir todo := by
  refine walk_induction fs false (P := fun links dir todo w =>
    (∀ target, w.node fs ≠ some (.link target)) → walk fs true links dir todo = w)
    ?_ ?_ ?_ ?_ ?_ ?_ ?_ links dir todo
  · exact fun links dir _ => walk_nil links dir
  · intro links dir rest w ih plain
    rw [walk_stay, ih plain]
  · intro links dir rest w ih plain
    rw [walk_up, ih plain]
  · intro links dir n rest choice plain
    refine walk_stop links ((turn_follow fun _ last target => ?_).trans choice)
    have found := plain target
    rwa [Walked.node, if_pos last, Option.bind_some] at found
  · intro links dir n rest w choice ih plain
    rw [walk_enter links ((turn_follow fun stopped => ?_).trans choice), ih plain]
    cases choice.symm.trans stopped
  · intro dir n rest target choice _
    refine walk_lost ((turn_follow fun stopped => ?_).trans choice)
    cases choice.symm.trans stopped
  · intro links dir n rest target w choice ih plain
    rw [walk_jump links ((turn_follow fun stopped => ?_).trans choice), ih plain]
    cases choice.symm.trans stopped

theorem turn_concat (node : Option (Inode κ ν)) (rest : List (PathStep ν)) (step : PathStep ν) :
    turn node (rest ++ [step]).isEmpty false = turn node rest.isEmpty true := by
  have more : (rest ++ [step]).isEmpty = false := by
    cases rest <;> rfl
  rw [more, turn_inner _ rest.isEmpty]

theorem walk_name_found (fs : List ν → Option (Inode κ ν)) (links : Nat) (dir : List ν) (n : ν) :
    (walk fs false links dir [.name n]).found = some (dir ++ [n]) := by
  cases choice : turn (fs (dir ++ [n])) true false with
  | stop =>
    rw [walk_stop links choice]
    rfl
  | enter =>
    rw [walk_enter links choice, walk_nil]
    rfl
  | jump target =>
    unfold turn at choice
    split at choice <;> cases choice

theorem walk_concat (n : ν) (links : Nat) (dir : List ν) (todo : List (PathStep ν)) :
    (∀ key ∈ (walk fs true links dir todo).way, fs' key = fs key) →
      (walk fs' false links dir (todo ++ [.name n])).found =
        (walk fs false links dir (todo ++ [.name n])).found := by
  refine walk_induction fs true (P := fun links dir todo w =>
    (∀ key ∈ w.way, fs' key = fs key) →
      (walk fs' false links dir (todo ++ [.name n])).found =
        (walk fs false links dir (todo ++ [.name n])).found) ?_ ?_ ?_ ?_ ?_ ?_ ?_ links dir todo
  · intro links dir _
    rw [nil_append, walk_name_found, walk_name_found]
  · intro links dir rest w ih same
    rw [cons_append, walk_stay, walk_stay, ih same]
  · intro links dir rest w ih same
    rw [cons_append, walk_up, walk_up, ih same]
  · intro links dir m rest choice same
    rw [← turn_concat _ rest (.name n)] at choice
    rw [cons_append, walk_stop links choice]
    rw [← same _ mem_cons_self] at choice
    rw [walk_stop links choice]
  · intro links dir m rest w choice ih same
    rw [← turn_concat _ rest (.name n)] at choice
    rw [cons_append, walk_enter links choice]
    rw [← same _ mem_cons_self] at choice
    rw [walk_enter links choice]
    exact ih fun key mem => same key (mem_cons_of_mem _ mem)
  · intro dir m rest target choice same
    rw [← turn_concat _ rest (.name n)] at choice
    rw [cons_append, walk_lost choice]
    rw [← same _ mem_cons_self] at choice
    rw [walk_lost choice]
  · intro links dir m rest target w choice ih same
    rw [← turn_concat _ rest (.name n)] at choice
    rw [cons_append, walk_jump links choice]
    rw [← same _ mem_cons_self] at choice
    rw [walk_jump links choice, ← append_assoc]
    exact ih fun key mem => same key (mem_cons_of_mem _ mem)

end Walk

end Links
