import Dulge.SyncDb

/-! Reading an entry of a sync database is reading the list of its lines, as long as no line of
a dependency section makes the reader move its buffer. -/

namespace Dulge
open List

/-! ### The entry as a list of lines -/

def lineText (line : CStr) : CStr := line.takeWhile (· ≠ 0)

def takeSection : List CStr → List CStr × Option (CStr × List CStr)
  | [] => ([], none)
  | line :: lines =>
    if lineText line = [] then ([], some (line, lines))
    else (line :: (takeSection lines).1, (takeSection lines).2)

variable {lines later : List CStr} {line : CStr} {pkg : SyncPkg} {α : Type} {r r' : ArchiveReader}
  {longest addr : Nat}

theorem takeSection_split {blank : CStr} (ended : (takeSection lines).2 = some (blank, later)) :
    lines = (takeSection lines).1 ++ blank :: later := by
  induction lines with
  | nil => cases ended
  | cons line lines ih =>
    rw [takeSection] at ended ⊢
    split
    · rename_i empty
      rw [if_pos empty] at ended
      cases ended
      rfl
    · rename_i filled
      rw [if_neg filled] at ended
      exact congrArg (line :: ·) (ih ended)

def lineSection (line : CStr) (lines : List CStr) (pkg : SyncPkg) : SectionStep (List CStr) :=
  let texts := (takeSection lines).1.map lineText
  let rest := (takeSection lines).2.map Prod.snd
  match syncSectionOf line with
  | some (.line field) =>
    match lines with
    | [] => .stop ⟨-1, pkg, []⟩
    | value :: lines => field.step (lineText value) lines pkg
  | some (.block field) => field.step texts rest pkg
  | some (.deps field) => field.step (texts.map depFromString) rest pkg
  | none => unknownStep line rest pkg

theorem lineSection_next {pkg' : SyncPkg} {messages : List SyncMessage}
    (step : lineSection line lines pkg = .next later pkg' messages) :
    ∃ first front, lines = first :: front ++ later := by
  have inside : (takeSection lines).2.map Prod.snd = some later →
      ∃ first front, lines = first :: front ++ later := by
    intro ended
    obtain ⟨⟨blank, behind⟩, found, rfl⟩ := Option.map_eq_some_iff.mp ended
    have split := takeSection_split found
    cases texts : (takeSection lines).1 with
    | nil =>
      rw [texts] at split
      exact ⟨blank, [], split⟩
    | cons first front =>
      rw [texts] at split
      exact ⟨first, front ++ [blank], by simpa using split⟩
  unfold lineSection at step
  dsimp only at step
  split at step
  · split at step
    · cases step
    · rename_i value lines
      exact ⟨value, [], congrArg (value :: ·) (SyncLine.step_next step)⟩
  · exact inside (SyncBlock.step_next step)
  · exact inside (SyncDeps.step_next step)
  · exact inside (unknownStep_next step)

theorem lineSection_length {pkg' : SyncPkg} {messages : List SyncMessage}
    (step : lineSection line lines pkg = .next later pkg' messages) :
    later.length < lines.length := by
  obtain ⟨first, front, rfl⟩ := lineSection_next step
  simp only [cons_append, length_cons, length_append]
  omega

def syncLines (lines : List CStr) (pkg : SyncPkg) : SyncReading :=
  match lines with
  | [] => ⟨0, pkg, []⟩
  | head :: lines =>
    if lineText head = [] then syncLines lines pkg
    else
      match _step : lineSection (lineText head) lines pkg with
      | .stop reading => reading
      | .next later pkg messages => (syncLines later pkg).noting messages
termination_by lines.length
decreasing_by
  · exact Nat.lt_succ_self _
  · exact (lineSection_length _step).trans (Nat.lt_succ_self _)

def longestOf (longest : Nat) (lines : List CStr) : Nat :=
  lines.foldl (fun longest line => max longest line.length) longest

/-- The lines behind a header are no longer than what was there before, if they are
dependencies. -/
def sectionFits (longest : Nat) (line : CStr) (lines : List CStr) : Bool :=
  match syncSectionOf line with
  | some (.deps _) => (takeSection lines).1.all fun dep => dep.length ≤ longest
  | _ => true

/-- No line of a dependency section is longer than all lines before it and `longest`. -/
def depsFit (longest : Nat) (lines : List CStr) (pkg : SyncPkg) : Bool :=
  match lines with
  | [] => true
  | head :: lines =>
    let longest := max longest head.length
    if lineText head = [] then depsFit longest lines pkg
    else
      sectionFits longest (lineText head) lines &&
        match _step : lineSection (lineText head) lines pkg with
        | .stop _ => true
        | .next later pkg _ =>
          depsFit (longestOf longest (lines.take (lines.length - later.length))) later pkg
termination_by lines.length
decreasing_by
  · exact Nat.lt_succ_self _
  · exact (lineSection_length _step).trans (Nat.lt_succ_self _)

/-! ### The lines in front of a reader -/

theorem lineText_append (line : CStr) (behind : List UInt8) :
    (line ++ 0 :: behind).takeWhile (· ≠ 0) = lineText line := by
  unfold lineText
  induction line with
  | nil => rfl
  | cons c line ih =>
    by_cases zero : c = 0
    · simp [zero]
    · simpa [zero] using ih

/-- A reader that gives these lines, none of which is too long for it. Its line buffer has room for
a line of `longest` bytes. -/
inductive Reads : ArchiveReader → Nat → List CStr → Prop
  | ended {r : ArchiveReader} (ended : Ended r) (longest : Nat) : Reads r longest []
  | ready {r : ArchiveReader} {rest : CStr} {blocks : List CStr} {longest : Nat}
      (ready : Ready r rest blocks) (room : r.state.room blocks = longest + 1)
      (short : ∀ line ∈ lineEnd.lines blocks rest, line.length < r.state.buffer.maxLineSize) :
      Reads r longest (lineEnd.lines blocks rest)

theorem newline_not_mem_next (blocks : List CStr) (rest : CStr) :
    newline ∉ (lineEnd.next blocks rest).1 := by
  have cut : ∀ {text : CStr} {parts : CStr × CStr}, cutLine text = some parts →
      newline ∉ parts.1 := by
    intro text parts found
    rcases Option.or_eq_some_iff.mp found with found | ⟨missed, found⟩
    · exact (memchr_some found).2
    · intro mem
      have inside : newline ∈ text := by
        rw [(memchr_some found).1]
        exact mem_append_left _ mem
      rw [← memchr_isSome, missed] at inside
      cases inside
  have whole : ∀ {text : CStr}, cutLine text = none → newline ∉ text := by
    intro text missed
    rw [← memchr_isSome, (Option.or_eq_none_iff.mp missed).1]
    exact Bool.false_ne_true
  induction blocks generalizing rest with
  | nil =>
    cases found : lineEnd.cut rest with
    | some parts =>
      rw [Cutter.next_of_some found]
      exact cut found
    | none =>
      rw [Cutter.next_nil_of_none found]
      exact whole found
  | cons block blocks ih =>
    cases found : lineEnd.cut rest with
    | some parts =>
      rw [Cutter.next_of_some found]
      exact cut found
    | none =>
      rw [Cutter.next_cons_of_none found, mem_append, not_or]
      exact ⟨whole found, ih block⟩

theorem head?_of_lineText (filled : lineText line ≠ []) (behind : List UInt8) :
    (line ++ behind).head? ≠ some 0 ∧ line ≠ [] := by
  cases line with
  | nil => exact absurd rfl filled
  | cons c line =>
    refine ⟨?_, cons_ne_nil _ _⟩
    rintro ⟨rfl⟩
    exact filled rfl

theorem head?_of_blank (blank : lineText line = []) (behind : List UInt8) :
    (line ++ 0 :: behind).head? = some 0 := by
  cases line with
  | nil => rfl
  | cons c line =>
    by_cases zero : c = 0
    · rw [zero]
      rfl
    · simp [lineText, zero] at blank

theorem stripNewline_line {line : Allocation} {text : CStr} (holds : text ++ [0] <+: line.cells)
    (plain : newline ∉ text) :
    ∃ line', line.stripNewline text.length =
      some (if lineText text = [] then 0 else text.length, line') ∧
      line'.text = lineText text ∧ line'.cells.length = line.cells.length ∧
        line'.addr = line.addr := by
  obtain ⟨behind, shape⟩ := holds
  rw [append_assoc, singleton_append] at shape
  by_cases blank : lineText text = []
  · refine ⟨line, ?_, ?_, rfl, rfl⟩
    · rw [Allocation.stripNewline, ← shape, if_pos (head?_of_blank blank behind), if_pos blank]
    · rw [Allocation.text, ← shape, lineText_append]
  · obtain ⟨head, filled⟩ := head?_of_lineText blank (0 :: behind)
    have kept : ((line.cells.take text.length).rdropWhile (· = newline)).length = text.length := by
      have whole : text.rdropWhile (· = newline) = text := LineReader.rdropWhile_newline plain
      rw [← shape, take_left, whole]
    have room : text.length + ([0] : CStr).length ≤ line.cells.length := by
      rw [← shape]
      simp
    obtain ⟨line', stored, ⟨behind', shape'⟩, length, addr⟩ :=
      Allocation.store_inside ⟨0 :: behind, shape⟩ room
    refine ⟨line', ?_, ?_, length, addr⟩
    · rw [Allocation.stripNewline, if_neg (shape ▸ head), if_neg blank]
      dsimp only
      rw [if_neg (by simpa using filled), kept, stored]
      rfl
    · rw [Allocation.text, ← shape', append_assoc, singleton_append, lineText_append]

theorem deref_pointer {line : Allocation} (held : r.state.buffer.line = some line) :
    r.deref r.pointer = some line.text := by
  rw [ArchiveReader.deref, if_pos rfl, held]
  rfl

structure Step (r r' : ArchiveReader) (longest : Nat) (line : CStr) (lines : List CStr) : Prop where
  found : nextLine r = .line (if lineText line = [] then 0 else line.length) r'
  text : r'.deref r'.pointer = some (lineText line)
  reads : Reads r' (max longest line.length) lines
  same : ∀ addr, r.pointer = some addr → (r'.pointer = some addr ↔ line.length ≤ longest)

theorem Ready.setLine {rest : CStr} {blocks : List CStr} (ready : Ready r rest blocks)
    {line : Allocation} (size : line.cells.length = r.state.buffer.lineSize)
    (known : line.addr < r.state.allocations) : Ready (r.setLine line) rest blocks where
  archive := ready.archive
  filled := ready.filled
  rest := ready.rest
  inside := ready.inside
  ret := ready.ret
  line := by
    intro other mem
    cases mem
    exact ⟨size, known⟩

theorem lines_eq_cons {blocks : List CStr} {rest : CStr}
    (shape : lineEnd.lines blocks rest = line :: lines) : (lineEnd.next blocks rest).1 = line ∧
      ((lineEnd.next blocks rest).2 = none ∧ lines = [] ∨
        ∃ behind later, (lineEnd.next blocks rest).2 = some (behind, later) ∧
          lines = lineEnd.lines later behind) := by
  cases found : (lineEnd.next blocks rest).2 with
  | none =>
    rw [Cutter.lines_last found] at shape
    cases shape
    exact ⟨rfl, .inl ⟨rfl, rfl⟩⟩
  | some parts =>
    rw [Cutter.lines_cons found] at shape
    cases shape
    exact ⟨rfl, .inr ⟨parts.1, parts.2, rfl, rfl⟩⟩

theorem reads_next (reads : Reads r longest (line :: lines)) :
    ∃ r', Step r r' longest line lines := by
  generalize whole : line :: lines = texts at reads
  cases reads with
  | ended => cases whole
  | @ready rest blocks _ ready room short =>
    obtain ⟨text, shape⟩ := lines_eq_cons whole.symm
    rw [← whole] at short
    have plain := newline_not_mem_next blocks rest
    obtain ⟨after, call, holds, grown, behind⟩ :=
      archiveFgets_line ready (text.symm ▸ short line mem_cons_self)
    rw [text] at holds grown plain
    rw [room] at grown
    obtain ⟨held, buffer, front, size, known⟩ := holds.line
    obtain ⟨stripped, strips, stripText, length, addr⟩ := stripNewline_line front plain
    have lineSize : after.state.buffer.lineSize = max longest line.length + 1 := by
      rw [grown.lineSize]
      omega
    refine ⟨after.setLine stripped, ?_, ?_, ?_, ?_⟩
    · rw [nextLine, call]
      dsimp only
      rw [if_neg (not_not.mpr rfl), buffer, Option.bind_some, holds.realLineSize, strips]
    · rw [deref_pointer rfl, stripText]
    · rcases shape with ⟨last, rfl⟩ | ⟨behindRest, later, found, rfl⟩
      · rw [last] at behind
        have ended : Ended (after.setLine stripped) := ⟨behind.processed, behind.ret⟩
        exact .ended ended _
      · rw [found] at behind
        refine .ready (Ready.setLine behind (length.trans size) (addr ▸ known)) lineSize ?_
        exact fun other mem => grown.limit ▸ short other (mem_cons_of_mem _ mem)
    · intro pointer pointed
      obtain ⟨old, oldHeld, rfl⟩ := Option.map_eq_some_iff.mp pointed
      change some stripped.addr = some old.addr ↔ _
      rw [Option.some.injEq, addr]
      constructor
      · intro equal
        by_contra small
        obtain ⟨moved, mem, less⟩ := grown.moved old oldHeld (by omega)
        rw [buffer] at mem
        cases mem
        omega
      · intro fits
        obtain ⟨kept, mem, equal⟩ := grown.same old oldHeld (by omega)
        rw [buffer] at mem
        cases mem
        exact equal

theorem reads_end (reads : Reads r longest []) : nextLine r = .failed archiveEof := by
  generalize whole : [] = texts at reads
  cases reads with
  | ended ended =>
    have call := archiveFgets_ended ended
    rw [nextLine]
    split
    · rename_i failed
      rw [failed] at call
      cases call
    · rename_i code after returned
      rw [returned] at call
      cases call
      rfl
  | ready => exact absurd whole.symm (by rw [Cutter.lines]; split <;> simp)

/-! ### Sections -/

def EndsAt (longest : Nat) (lines : List CStr) (ending : SectionEnd) : Prop :=
  match (takeSection lines).2 with
  | none => ending = .failed
  | some (_, later) => ∃ r', ending = .blank r' ∧
      Reads r' (longestOf longest (lines.take (lines.length - later.length))) later

theorem EndsAt.blank (step : Step r r' longest line lines) (blank : lineText line = []) :
    EndsAt longest (line :: lines) (.blank r') := by
  have ends : (takeSection (line :: lines)).2 =
      some (line, lines) := by rw [takeSection, if_pos blank]
  have taken : (line :: lines).take ((line :: lines).length - lines.length) = [line] := by
    rw [length_cons, Nat.add_sub_cancel_left]
    rfl
  unfold EndsAt
  rw [ends]
  dsimp only
  rw [taken]
  exact ⟨r', rfl, step.reads⟩

theorem EndsAt.cons {ending : SectionEnd} {line : CStr}
    (filled : lineText line ≠ []) (ends : EndsAt (max longest line.length) lines ending) :
    EndsAt longest (line :: lines) ending := by
  have same : (takeSection (line :: lines)).2 = (takeSection lines).2 := by
    rw [takeSection, if_neg filled]
  unfold EndsAt at ends ⊢
  rw [same]
  cases found : (takeSection lines).2 with
  | none =>
    rw [found] at ends
    exact ends
  | some parts =>
    rw [found] at ends
    obtain ⟨r'', ended, reads⟩ := ends
    have shorter : parts.2.length ≤ lines.length := by
      have length := congrArg List.length (takeSection_split found)
      rw [length_append, length_cons] at length
      omega
    have taken : (line :: lines).take ((line :: lines).length - parts.2.length) =
        line :: lines.take (lines.length - parts.2.length) := by
      rw [length_cons, Nat.sub_add_comm shorter, take_succ_cons]
    dsimp only
    rw [taken]
    exact ⟨r'', ended, reads⟩

theorem takeSection_cons (filled : lineText line ≠ []) (lines : List CStr) :
    (takeSection (line :: lines)).1 = line :: (takeSection lines).1 := by
  rw [takeSection, if_neg filled]

theorem takeSection_blank (blank : lineText line = []) (lines : List CStr) :
    (takeSection (line :: lines)).1 = [] := by
  rw [takeSection, if_pos blank]

theorem readSection_blank (step : Step r r' longest line lines) (blank : lineText line = [])
    (parse : ArchiveReader → Option α) : readSection parse r = ([], .blank r') := by
  rw [readSection_eq, step.found, if_pos blank]
  rfl

theorem readSection_filled (step : Step r r' longest line lines) (filled : lineText line ≠ [])
    (parse : ArchiveReader → Option α) : readSection parse r = match parse r' with
      | none => ([], .fault)
      | some item => (item :: (readSection parse r').1, (readSection parse r').2) := by
  have positive : ¬ line.length = 0 := by
    intro none
    rw [length_eq_zero_iff.mp none] at filled
    exact filled rfl
  rw [readSection_eq, step.found, if_neg filled]
  exact if_neg positive

/-- A section whose lines can all be parsed. The induction is on the lines in front of the
reader; `live` is what a line that fits keeps of the reader. -/
theorem readSection_reads {parse : ArchiveReader → Option α} {item : CStr → α}
    (live : ArchiveReader → Nat → Prop) (fits : CStr → Prop)
    (parses : ∀ {r r' longest line lines}, Step r r' longest line lines → live r longest →
      fits line → parse r' = some (item line) ∧ live r' (max longest line.length))
    (reads : Reads r longest lines) (start : live r longest)
    (fit : ∀ line ∈ (takeSection lines).1, fits line) :
    (readSection parse r).1 = (takeSection lines).1.map item ∧
      EndsAt longest lines (readSection parse r).2 := by
  induction lines generalizing r longest with
  | nil =>
    rw [readSection_eq, reads_end reads]
    exact ⟨rfl, rfl⟩
  | cons line lines ih =>
    obtain ⟨r', step⟩ := reads_next reads
    by_cases blank : lineText line = []
    · rw [readSection_blank step blank, takeSection_blank blank]
      exact ⟨rfl, .blank step blank⟩
    · rw [takeSection_cons blank] at fit ⊢
      obtain ⟨parsed, live'⟩ := parses step start (fit line mem_cons_self)
      obtain ⟨items, ends⟩ := ih step.reads live' fun other mem => fit other (mem_cons_of_mem _ mem)
      rw [readSection_filled step blank, parsed]
      exact ⟨congrArg (item line :: ·) items, .cons blank ends⟩

theorem readAndStoreAll_reads (reads : Reads r longest lines) :
    (readAndStoreAll r).1 = (takeSection lines).1.map lineText ∧
      EndsAt longest lines (readAndStoreAll r).2 :=
  readSection_reads (fun _ _ => True) (fun _ => True) (fun step _ _ => ⟨step.text, trivial⟩) reads
    trivial fun _ _ => trivial

theorem readAndSplitdep_reads (reads : Reads r longest lines) (pointed : r.pointer = some addr)
    (fit : ∀ line ∈ (takeSection lines).1, line.length ≤ longest) :
    (readAndSplitdep (some addr) r).1 =
        (takeSection lines).1.map (fun line => depFromString (lineText line)) ∧
      EndsAt longest lines (readAndSplitdep (some addr) r).2 := by
  refine readSection_reads (fun r room => r.pointer = some addr ∧ room = longest)
    (fun line => line.length ≤ longest) ?_ reads ⟨pointed, rfl⟩ fit
  rintro r r' room line lines step ⟨pointed, rfl⟩ fits
  have stays := (step.same addr pointed).mpr fits
  refine ⟨?_, stays, max_eq_left fits⟩
  rw [← stays, step.text]
  rfl

theorem readAndSplitdep_fault (reads : Reads r longest lines) (pointed : r.pointer = some addr)
    (long : ∃ line ∈ (takeSection lines).1, longest < line.length) :
    (readAndSplitdep (some addr) r).2 = .fault := by
  induction lines generalizing r with
  | nil =>
    obtain ⟨line, mem, _⟩ := long
    cases mem
  | cons line lines ih =>
    obtain ⟨r', step⟩ := reads_next reads
    by_cases blank : lineText line = []
    · rw [takeSection_blank blank] at long
      obtain ⟨line, mem, _⟩ := long
      cases mem
    · rw [readAndSplitdep, readSection_filled step blank]
      by_cases fits : line.length ≤ longest
      · have stays := (step.same addr pointed).mpr fits
        have reads' := step.reads
        rw [max_eq_left fits] at reads'
        have later : ∃ line ∈ (takeSection lines).1, longest < line.length := by
          rw [takeSection_cons blank] at long
          obtain ⟨other, mem, large⟩ := long
          rcases mem_cons.mp mem with rfl | inside
          · exact absurd large (Nat.not_lt.mpr fits)
          · exact ⟨other, inside, large⟩
        have text := step.text
        rw [stays] at text
        rw [text]
        exact ih reads' stays later
      · have moved : r'.pointer ≠ some addr := fun stays => fits ((step.same addr pointed).mp stays)
        rw [ArchiveReader.deref, if_neg moved]
        rfl

inductive Agree (longest : Nat) (lines : List CStr) :
    SectionStep ArchiveReader → SectionStep (List CStr) → Prop
  | stop (reading : SyncReading) : Agree longest lines (.stop reading) (.stop reading)
  | next {r : ArchiveReader} {later : List CStr}
      (reads : Reads r (longestOf longest (lines.take (lines.length - later.length))) later)
      (pkg : SyncPkg) (messages : List SyncMessage) :
      Agree longest lines (.next r pkg messages) (.next later pkg messages)

theorem EndsAt.agree {ending : SectionEnd} (ends : EndsAt longest lines ending)
    (step : ∀ {σ : Type}, Option σ → SectionStep σ)
    (stops : ∃ reading, ∀ σ : Type, step (none : Option σ) = .stop reading)
    (goes : (∃ reading, ∀ (σ : Type) (rest : σ), step (some rest) = .stop reading) ∨
      ∃ pkg messages, ∀ (σ : Type) (rest : σ), step (some rest) = .next rest pkg messages) :
    ∃ done, ending.rest.map step = some done ∧
      Agree longest lines done (step ((takeSection lines).2.map Prod.snd)) := by
  unfold EndsAt at ends
  split at ends
  · rename_i none
    subst ends
    obtain ⟨reading, stops⟩ := stops
    refine ⟨_, rfl, ?_⟩
    rw [none, Option.map_none, stops, stops]
    exact .stop reading
  · rename_i blank later found
    obtain ⟨r', rfl, reads⟩ := ends
    refine ⟨_, rfl, ?_⟩
    rw [found, Option.map_some]
    rcases goes with ⟨reading, goes⟩ | ⟨pkg, messages, goes⟩
    · rw [goes, goes]
      exact .stop reading
    · rw [goes, goes]
      exact .next reads pkg messages

theorem SyncLine.step_agree (step : Step r r' longest line lines) (field : SyncLine) (value : CStr)
    (pkg : SyncPkg) :
    Agree longest (line :: lines) (field.step value r' pkg) (field.step value lines pkg) := by
  have taken : (line :: lines).take ((line :: lines).length - lines.length) = [line] := by
    rw [length_cons, Nat.add_sub_cancel_left]
    rfl
  unfold SyncLine.step
  dsimp only
  split
  · refine .next ?_ _ _
    rw [taken]
    exact step.reads
  · exact .stop _

theorem SyncBlock.step_goes {σ : Type} {field : SyncBlock} (goes : (field.store lines pkg).2 = true)
    (rest : σ) : field.step lines (some rest) pkg = .next rest (field.store lines pkg).1 [] := by
  rw [SyncBlock.step, goes]
  rfl

theorem SyncBlock.step_stops {σ : Type} {field : SyncBlock}
    (stops : (field.store lines pkg).2 = false) (rest : σ) :
    field.step lines (some rest) pkg = .stop ⟨-1, (field.store lines pkg).1, []⟩ := by
  rw [SyncBlock.step, stops]
  rfl

theorem syncSection_agree (reads : Reads r longest lines) (pointed : r.pointer = some addr)
    (fits : sectionFits longest line lines = true) (pkg : SyncPkg) : ∃ step,
      syncSection line r pkg = some step ∧
        Agree longest lines step (lineSection line lines pkg) := by
  unfold sectionFits at fits
  unfold syncSection lineSection
  cases found : syncSectionOf line with
  | none =>
    obtain ⟨_, ends⟩ := readAndStoreAll_reads reads
    exact ends.agree (fun rest => unknownStep line rest pkg) ⟨_, fun _ => rfl⟩
      (.inr ⟨_, _, fun _ _ => rfl⟩)
  | some section' =>
    cases section' with
    | line field =>
      cases lines with
      | nil =>
        dsimp only
        rw [reads_end reads]
        exact ⟨_, rfl, .stop _⟩
      | cons value lines =>
        obtain ⟨r', step⟩ := reads_next reads
        dsimp only
        rw [step.found]
        dsimp only
        rw [step.text]
        exact ⟨_, rfl, SyncLine.step_agree step field _ pkg⟩
    | block field =>
      obtain ⟨texts, ends⟩ := readAndStoreAll_reads reads
      dsimp only
      rw [texts]
      refine ends.agree (fun rest => field.step _ rest pkg) ⟨_, fun _ => rfl⟩ ?_
      cases goes : (field.store ((takeSection lines).1.map lineText) pkg).2 with
      | true => exact .inr ⟨_, _, fun _ _ => SyncBlock.step_goes goes _⟩
      | false => exact .inl ⟨_, fun _ _ => SyncBlock.step_stops goes _⟩
    | deps field =>
      have room : ∀ line ∈ (takeSection lines).1,
          line.length ≤ longest := by simpa [found] using fits
      obtain ⟨deps, ends⟩ := readAndSplitdep_reads reads pointed room
      dsimp only
      rw [pointed, deps, map_map]
      exact ends.agree (fun rest => field.step _ rest pkg) ⟨_, fun _ => rfl⟩
        (.inr ⟨_, _, fun _ _ => rfl⟩)

theorem syncSection_fault (reads : Reads r longest lines) (pointed : r.pointer = some addr)
    (long : sectionFits longest line lines = false)
    (pkg : SyncPkg) : syncSection line r pkg = none := by
  unfold sectionFits at long
  unfold syncSection
  split at long
  · rename_i field found
    have room : ∃ line ∈ (takeSection lines).1, longest < line.length := by simpa using long
    rw [found]
    dsimp only
    rw [pointed, readAndSplitdep_fault reads pointed room]
    rfl
  · cases long

/-! ### The loop -/

theorem syncLoop_eq (r : ArchiveReader) (pkg : SyncPkg) : syncLoop r pkg = match nextLine r with
      | .fault => none
      | .failed code => some ⟨if code ≠ archiveEof then -1 else 0, pkg, []⟩
      | .line len r =>
        if len = 0 then syncLoop r pkg
        else
          match (r.deref r.pointer).bind fun line => syncSection line r pkg with
          | none => none
          | some (.stop reading) => some reading
          | some (.next r pkg messages) => (syncLoop r pkg).map (.noting messages) := by
  rw [syncLoop]
  split <;> rename_i found <;> rw [found]
  dsimp only
  split
  · rfl
  · split <;> rename_i step <;> rw [step]

theorem syncLines_cons (head : CStr) (lines : List CStr) (pkg : SyncPkg) :
    syncLines (head :: lines) pkg = if lineText head = [] then syncLines lines pkg else
        match lineSection (lineText head) lines pkg with
        | .stop reading => reading
        | .next later pkg messages => (syncLines later pkg).noting messages := by
  rw [syncLines]
  split
  · rfl
  · split <;> rename_i step <;> rw [step]

theorem depsFit_cons (longest : Nat) (head : CStr) (lines : List CStr) (pkg : SyncPkg) :
    depsFit longest (head :: lines) pkg =
      if lineText head = [] then depsFit (max longest head.length) lines pkg else
        sectionFits (max longest head.length) (lineText head) lines &&
          match lineSection (lineText head) lines pkg with
          | .stop _ => true
          | .next later pkg _ =>
            depsFit (longestOf (max longest head.length) (lines.take (lines.length - later.length)))
              later pkg := by
  rw [depsFit]
  split
  · rfl
  · split <;> rename_i step <;> rw [step]

theorem pointer_of_deref {text : CStr} (read : r.deref r.pointer = some text) :
    ∃ addr, r.pointer = some addr := by
  rw [ArchiveReader.deref, if_pos rfl] at read
  obtain ⟨line, held, _⟩ := Option.map_eq_some_iff.mp read
  exact ⟨line.addr, by rw [ArchiveReader.pointer, held]; rfl⟩

/-- The loop reads the lines as a list, or leaves the memory that is there. The induction is on
the number of lines, as a section takes several of them. -/
theorem syncLoop_lines (reads : Reads r longest lines) (pkg : SyncPkg) :
    syncLoop r pkg = if depsFit longest lines pkg then some (syncLines lines pkg) else none := by
  induction count : lines.length using Nat.strong_induction_on generalizing lines r longest pkg with
  | _ _ ih =>
  subst count
  cases lines with
  | nil =>
    rw [syncLoop_eq, reads_end reads, depsFit, syncLines]
    rfl
  | cons head lines =>
    obtain ⟨r', step⟩ := reads_next reads
    rw [syncLoop_eq, step.found, depsFit_cons, syncLines_cons]
    dsimp only
    by_cases blank : lineText head = []
    · simp only [blank, if_true]
      exact ih lines.length (Nat.lt_succ_self _) step.reads pkg rfl
    · have positive : ¬ head.length = 0 := by
        intro none
        rw [length_eq_zero_iff.mp none] at blank
        exact blank rfl
      rw [if_neg blank, if_neg positive, if_neg blank, if_neg blank, step.text, Option.bind_some]
      obtain ⟨addr, pointed⟩ := pointer_of_deref step.text
      cases fits : sectionFits (max longest head.length) (lineText head) lines with
      | false =>
        rw [syncSection_fault step.reads pointed fits]
        rfl
      | true =>
        obtain ⟨done, sections, agree⟩ := syncSection_agree step.reads pointed fits pkg
        rw [sections, Bool.true_and]
        generalize reading : lineSection (lineText head) lines pkg = listed at agree ⊢
        cases agree with
        | stop reading => rfl
        | @next r'' later reads pkg' messages =>
          have less : later.length < (head :: lines).length :=
            (lineSection_length reading).trans (Nat.lt_succ_self _)
          dsimp only
          rw [ih later.length less reads pkg' rfl]
          split <;> rfl

/-- Reading an entry stays in the line buffer, and every dependency is that of its line, exactly
if no line of a dependency section is longer than the first block and all lines before it. -/
theorem syncDbRead_lines_iff (blocks : List CStr) (filled : [] ∉ blocks)
    (short : ∀ line ∈ lineEnd.lines blocks [], line.length < 512 * 1024) (filename : CStr)
    (known : filename = cstr "desc" ∨ filename = cstr "depends" ∨ filename = cstr "files")
    (pkg : SyncPkg) : syncDbRead (blocks.map fun block => (archiveOk, block)) filename pkg =
        some (syncLines (lineEnd.lines blocks []) pkg) ↔
      depsFit (blocks.head?.getD []).length (lineEnd.lines blocks []) pkg = true := by
  have reads : Reads (.start blocks syncMaxLineSize) (blocks.head?.getD []).length
      (lineEnd.lines blocks []) := .ready (ready_start filled syncMaxLineSize) rfl short
  have loop := syncLoop_lines reads pkg
  rw [syncDbRead, if_pos known]
  change syncLoop (.start blocks syncMaxLineSize) pkg = _ ↔ _
  rw [loop]
  split
  · rename_i fits
    exact iff_of_true rfl fits
  · rename_i long
    exact iff_of_false (by simp) long

/-- A description in two blocks, of which the first is longer than every line. -/
theorem syncDbRead_two_blocks :
    let blocks := [cstr "%NAME%\nfoo\n\n%DEPENDS%\ngl", cstr "ibc>=2.38\nbash\n\n"]
    let lines := [cstr "%NAME%", cstr "foo", [], cstr "%DEPENDS%", cstr "glibc>=2.38", cstr "bash",
      [], []]
    let pkg := .fresh (cstr "foo") (cstr "1-1")
    syncDbRead (blocks.map fun block => (archiveOk, block)) (cstr "desc") pkg =
      some (syncLines lines pkg) := by
  intro blocks lines pkg
  have parts : lineEnd.lines blocks [] = lines := by decide +kernel
  have short : ∀ line ∈ lines, line.length < 512 * 1024 := by decide +kernel
  have fits : depsFit (blocks.head?.getD []).length lines pkg = true := by decide +kernel
  have read := (syncDbRead_lines_iff blocks (by decide +kernel) (parts ▸ short) (cstr "desc")
    (.inl rfl) pkg).mpr (parts ▸ fits)
  rwa [parts] at read

/-- The same section with a block that ends behind the header: the buffer of ten bytes is
replaced for the dependency, which is then parsed from the old one. -/
theorem syncDbRead_freed_line : let blocks := [cstr "%DEPENDS%", cstr "\nglibc>=2.38\n\n"]
    [] ∉ blocks ∧ lineEnd.lines blocks [] = [cstr "%DEPENDS%", cstr "glibc>=2.38", [], []] ∧
      syncDbRead (blocks.map fun block => (archiveOk, block)) (cstr "desc")
        (.fresh (cstr "foo") (cstr "1-1")) = none := by
  decide +kernel

end Dulge
