import Dulge.LocalDb

/-! What comes back of a file list from the files file. A path that does not fit into the
line buffer is read in pieces, and a path that just fills it is followed by an empty piece,
at which the list ends. -/

namespace Dulge
open List

/-! ### The file as a list of lines -/

/-- The lines as which `local_db_read` sees a text. -/
def bufferLines (text : CStr) : List CStr := LineReader.lines newline 0 lineRoom text

def blockOf (lines : List CStr) : List CStr := lines.takeWhile (· ≠ [])

def afterBlock (lines : List CStr) : List CStr := (lines.dropWhile (· ≠ [])).tail

theorem afterBlock_length (lines : List CStr) : (afterBlock lines).length ≤ lines.length := by
  have dropped := length_dropWhile_le (· ≠ []) lines
  rw [afterBlock, length_tail]
  omega

def lastFiles : List CStr → Option (List CStr)
  | [] => none
  | line :: rest =>
    if line = filesHeader then (lastFiles (afterBlock rest)).or (some (blockOf rest))
    else if line = backupHeader then lastFiles (afterBlock rest)
    else lastFiles rest
termination_by lines => lines.length
decreasing_by
  all_goals
    have shorter := afterBlock_length rest
    simp only [length_cons]
    omega

theorem readBlock_bufferLines (r : Reader) : r.readBlock.1 = blockOf (bufferLines r.text) ∧
      bufferLines r.readBlock.2.text = afterBlock (bufferLines r.text) :=
  LineReader.readBlock_lines r

theorem bufferLines_none {r : Reader} (ended : r.next? = none) : bufferLines r.text = [] :=
  LineReader.lines_none ended

theorem bufferLines_some {r head : Reader} (found : r.next? = some head) :
    bufferLines r.text = head.line :: bufferLines head.text :=
  LineReader.lines_some found

theorem readFiles_none {r : Reader} (ended : r.next? = none) (info : LocalPkg) :
    readFiles r info = info := by
  rw [readFiles]
  split
  · rfl
  · rename_i found
    rw [ended] at found
    cases found

theorem readFiles_some {r head : Reader} (found : r.next? = some head) (info : LocalPkg) :
    readFiles r info = if strcmp head.line filesHeader = 0 then
        readFiles head.readBlock.2 { info with files := filelistSort head.readBlock.1 }
      else if strcmp head.line backupHeader = 0 then
        readFiles head.readBlock.2
          { info with backup := info.backup ++ head.readBlock.1.map splitBackup }
      else readFiles head info := by
  rw [readFiles]
  split
  · rename_i ended
    rw [found] at ended
    cases ended
  · rename_i same
    rw [found] at same
    cases same
    rfl

theorem readFiles_files (r : Reader) (info : LocalPkg) : (readFiles r info).files
      = ((lastFiles (bufferLines r.text)).map filelistSort).getD info.files := by
  induction r, info using readFiles.induct with
  | case1 r info ended =>
    rw [readFiles_none ended, bufferLines_none ended]
    simp [lastFiles]
  | case2 r info head found header block ih =>
    have same := strcmp_eq_zero.mp header
    obtain ⟨inside, behind⟩ := readBlock_bufferLines head
    rw [readFiles_some found, if_pos header, ih, bufferLines_some found, lastFiles, if_pos same,
      behind, inside]
    cases lastFiles (afterBlock (bufferLines head.text)) <;> rfl
  | case3 r info head found other header block ih =>
    obtain ⟨_, behind⟩ := readBlock_bufferLines head
    rw [readFiles_some found, if_neg other, if_pos header, ih, bufferLines_some found, lastFiles,
      if_neg (strcmp_eq_zero.not.mp other), if_pos (strcmp_eq_zero.mp header), behind]
  | case4 r info head found other third ih =>
    rw [readFiles_some found, if_neg other, if_neg third, ih, bufferLines_some found, lastFiles,
      if_neg (strcmp_eq_zero.not.mp other), if_neg (strcmp_eq_zero.not.mp third)]

/-! ### Blocks -/

def bytes (lines : List CStr) : Nat := lines.flatten.length

@[simp] theorem bytes_cons (line : CStr) (lines : List CStr) :
    bytes (line :: lines) = line.length + bytes lines := by
  simp [bytes]

@[simp] theorem bytes_append (front back : List CStr) :
    bytes (front ++ back) = bytes front + bytes back := by
  simp [bytes]

theorem bytes_perm {one two : List CStr} (perm : one.Perm two) : bytes one = bytes two :=
  perm.flatten.length_eq

variable {lines files : List CStr} {path : CStr} {info : LocalPkg}

theorem blockOf_clean (clean : [] ∉ lines) : blockOf lines = lines :=
  takeWhile_eq_self_iff.mpr (decide_ne_of_not_mem clean)

theorem block_blank {front : List CStr} (clean : [] ∉ front) (rest : List CStr) :
    blockOf (front ++ [] :: rest) = front ∧ afterBlock (front ++ [] :: rest) = rest := by
  constructor
  · rw [blockOf, takeWhile_append_of_pos (decide_ne_of_not_mem clean)]
    exact append_nil front
  · rw [afterBlock, dropWhile_append_of_pos (decide_ne_of_not_mem clean)]
    rfl

theorem lastFiles_blank (rest : List CStr) : lastFiles ([] :: rest) = lastFiles rest := by
  rw [lastFiles, if_neg (by decide), if_neg (by decide)]

theorem bytes_blockOf_le (lines : List CStr) : bytes (blockOf lines) ≤ bytes lines := by
  have parts : blockOf lines ++ lines.dropWhile (· ≠ []) = lines := takeWhile_append_dropWhile
  conv_rhs => rw [← parts]
  rw [bytes_append]
  exact Nat.le_add_right _ _

theorem blockOf_before_blank (lines rest : List CStr) :
    blockOf (lines ++ [] :: rest) = blockOf lines := by
  by_cases blank : [] ∈ lines
  · obtain ⟨front, later, shape, clean⟩ := eq_append_cons_of_mem blank
    rw [shape, (block_blank clean later).1, append_assoc]
    exact (block_blank clean _).1
  · rw [(block_blank blank rest).1, blockOf_clean blank]

theorem afterBlock_before_blank (lines rest : List CStr) : afterBlock (lines ++ [] :: rest) = rest ∨
      ∃ later, afterBlock (lines ++ [] :: rest) = later ++ [] :: rest ∧
        later.length ≤ lines.length ∧ bytes later ≤ bytes lines := by
  by_cases blank : [] ∈ lines
  · obtain ⟨front, later, shape, clean⟩ := eq_append_cons_of_mem blank
    refine .inr ⟨later, ?_, ?_, ?_⟩
    · rw [shape, append_assoc, cons_append, (block_blank clean _).2]
    · rw [shape, length_append, length_cons]
      omega
    · rw [shape, bytes_append, bytes_cons]
      omega
  · exact .inl (block_blank blank rest).2

theorem lastFiles_before_blank (lines rest : List CStr) :
    ∃ found, lastFiles (lines ++ [] :: rest) = (lastFiles rest).or found ∧
      ∀ list ∈ found, bytes list < bytes lines := by
  induction size : lines.length using Nat.strong_induction_on generalizing lines with
  | _ size ih =>
    cases lines with
    | nil =>
      refine ⟨none, ?_, fun list mem => by cases mem⟩
      rw [nil_append, lastFiles_blank, Option.or_none]
    | cons line lines =>
      rw [length_cons] at size
      -- what is found behind a block that starts here
      have behind : ∃ found,
          lastFiles (afterBlock (lines ++ [] :: rest)) = (lastFiles rest).or found ∧
            ∀ list ∈ found, bytes list < bytes lines := by
        rcases afterBlock_before_blank lines rest with ends | ⟨later, ends, fewer, within⟩
        · refine ⟨none, ?_, fun list mem => by cases mem⟩
          rw [ends, Option.or_none]
        · obtain ⟨found, shown, short⟩ := ih later.length (by omega) later rfl
          refine ⟨found, by rw [ends, shown], ?_⟩
          exact fun list mem => (short list mem).trans_le within
      have grows : bytes lines ≤ bytes (line :: lines) := by
        rw [bytes_cons]
        omega
      rw [cons_append, lastFiles]
      split
      · rename_i header
        obtain ⟨found, shown, short⟩ := behind
        refine ⟨found.or (some (blockOf lines)), ?_, ?_⟩
        · rw [shown, blockOf_before_blank, Option.or_assoc]
        · intro list mem
          have positive : 0 < line.length := by
            rw [header]
            decide
          have within := bytes_blockOf_le lines
          rw [bytes_cons]
          rcases Option.or_eq_some_iff.mp mem with early | ⟨_, last⟩
          · have := short list early
            omega
          · cases last
            omega
      · split
        · obtain ⟨found, shown, short⟩ := behind
          exact ⟨found, shown, fun list mem => (short list mem).trans_le grows⟩
        · obtain ⟨found, shown, short⟩ := ih lines.length (by omega) lines rfl
          exact ⟨found, shown, fun list mem => (short list mem).trans_le grows⟩

/-! ### Paths in pieces -/

def pathLines (files : List CStr) : List CStr := files.flatMap (LineReader.pieces lineRoom)

/-- Every path fits into the buffer, and all but the last with the newline behind it. -/
def ReadWhole (files : List CStr) : Prop :=
  (∀ path ∈ files, path.length ≤ 1023) ∧ ∀ path ∈ files.dropLast, path.length ≤ 1022

instance (files : List CStr) : Decidable (ReadWhole files) := inferInstanceAs (Decidable (_ ∧ _))

theorem ReadWhole.cons (short : path.length ≤ 1022) (whole : ReadWhole files) :
    ReadWhole (path :: files) := by
  refine ⟨?_, ?_⟩
  · intro other mem
    rcases mem_cons.mp mem with rfl | later
    · omega
    · exact whole.1 other later
  · intro other mem
    cases files with
    | nil => cases mem
    | cons next files =>
      rw [dropLast_cons_of_ne_nil (cons_ne_nil _ _)] at mem
      rcases mem_cons.mp mem with rfl | later
      · exact short
      · exact whole.2 other later

/-- The pieces of a path up to a blank one: `full` fill the buffer and `last` does not. -/
theorem blockOf_pieces {full : List CStr} (filled : ∀ piece ∈ full, piece.length = lineRoom)
    (last : CStr) (later : List CStr) : blockOf (full ++ [last] ++ later)
      = if last = [] then full else full ++ last :: blockOf later := by
  have clean : [] ∉ full := by
    intro mem
    cases filled [] mem
  rw [blockOf, append_assoc, takeWhile_append_of_pos (decide_ne_of_not_mem clean), singleton_append]
  split
  · rename_i blank
    rw [takeWhile_cons_of_neg (by simpa using blank), append_nil]
  · rename_i rest
    rw [takeWhile_cons_of_pos (by simpa using rest)]
    rfl

theorem bytes_full {full : List CStr} (filled : ∀ piece ∈ full, piece.length = lineRoom) :
    bytes full = full.length * lineRoom := by
  induction full with
  | nil => simp [bytes]
  | cons piece full ih =>
    rw [bytes_cons, length_cons, filled piece mem_cons_self,
      ih fun other mem => filled other (mem_cons_of_mem piece mem)]
    ring

theorem bytes_pathLines (files : List CStr) : bytes (pathLines files) = bytes files := by
  induction files with
  | nil => rfl
  | cons path files ih =>
    obtain ⟨full, last, shape, _, _, whole⟩ :=
      LineReader.pieces_shape (by decide : 0 < lineRoom) path
    have size := congrArg List.length whole
    rw [length_append] at size
    rw [pathLines, flatMap_cons, bytes_append, shape, bytes_append, bytes_cons, bytes_cons, ← size]
    change _ + bytes (pathLines files) = _
    rw [ih]
    simp [bytes]

theorem eq_nil_of_bytes (paths : ∀ path ∈ files, path ≠ []) (none : bytes files = 0) :
    files = [] := by
  cases files with
  | nil => rfl
  | cons path files =>
    have := length_pos_iff.mpr (paths path mem_cons_self)
    rw [bytes_cons] at none
    omega

/-- A first block with all the bytes has at least as many lines as there are paths, and only
as many if every path is read whole. -/
theorem readWhole_of_block (paths : ∀ path ∈ files, path ≠ [])
    (all : bytes (blockOf (pathLines files)) = bytes files) :
    files.length ≤ (blockOf (pathLines files)).length ∧
      ((blockOf (pathLines files)).length ≤ files.length → ReadWhole files) := by
  induction files with
  | nil => exact ⟨Nat.zero_le _, fun _ => ⟨by simp, by simp⟩⟩
  | cons path files ih =>
    obtain ⟨full, last, shape, filled, short, whole⟩ :=
      LineReader.pieces_shape (by decide : 0 < lineRoom) path
    have size := congrArg List.length whole
    have count := bytes_full filled
    rw [length_append, ← bytes] at size
    have nonempty := length_pos_iff.mpr (paths path mem_cons_self)
    have others : ∀ other ∈ files, other ≠ [] :=
      fun other mem => paths other (mem_cons_of_mem path mem)
    have lines : pathLines (path :: files) = full ++ [last] ++ pathLines files := by
      rw [pathLines, flatMap_cons, shape]
      rfl
    rw [lines, blockOf_pieces filled, bytes_cons] at all
    rw [lines, blockOf_pieces filled]
    split at all
    · -- the block ends with this path, so there is no other one
      rename_i blank
      rw [blank, length_nil, Nat.add_zero] at size
      have none : files = [] := eq_nil_of_bytes others (by omega)
      subst none
      rw [if_pos blank]
      refine ⟨Nat.pos_of_ne_zero ?_, ?_⟩
      · intro zero
        rw [zero, Nat.zero_mul] at count
        omega
      · intro few
        have fits : path.length ≤ 1 * lineRoom := by
          rw [← size, count]
          exact Nat.mul_le_mul_right _ few
        exact ⟨by simpa [lineRoom] using fits, by simp⟩
    · rename_i rest
      rw [if_neg rest]
      rw [bytes_append, bytes_cons] at all
      obtain ⟨enough, few⟩ := ih others (by omega)
      rw [length_append, length_cons, length_cons]
      refine ⟨by omega, ?_⟩
      intro atMost
      have single : full.length = 0 := by omega
      have fits : path.length ≤ 1022 := by
        rw [count, single] at size
        unfold lineRoom at short
        omega
      exact .cons fits (few (by omega))

theorem pieces_of_short (short : path.length ≤ 1022) :
    LineReader.pieces lineRoom path = [path] := by
  rw [LineReader.pieces, if_pos (.inr (Nat.lt_succ_of_le short))]

theorem pieces_of_full (full : path.length = lineRoom) :
    LineReader.pieces lineRoom path = [path, []] := by
  have long : ¬ (lineRoom = 0 ∨ path.length < lineRoom) := by
    rw [full]
    decide
  rw [LineReader.pieces, if_neg long, ← full, take_length, drop_length,
    LineReader.pieces, if_pos (.inr (by rw [full]; decide))]

theorem ReadWhole.tail (whole : ReadWhole (path :: files)) : ReadWhole files := by
  refine ⟨fun other mem => whole.1 other (mem_cons_of_mem path mem), ?_⟩
  intro other mem
  cases files with
  | nil => cases mem
  | cons next files =>
    refine whole.2 other ?_
    rw [dropLast_cons_of_ne_nil (cons_ne_nil _ _)]
    exact mem_cons_of_mem path mem

theorem ReadWhole.head (whole : ReadWhole (path :: files)) :
    path.length ≤ 1022 ∨ path.length = lineRoom ∧ files = [] := by
  cases files with
  | nil =>
    have fits : path.length ≤ 1023 := whole.1 path mem_cons_self
    rcases Nat.lt_or_eq_of_le fits with short | full
    · exact .inl (Nat.le_of_lt_succ short)
    · exact .inr ⟨full, rfl⟩
  | cons next files =>
    refine .inl (whole.2 path ?_)
    rw [dropLast_cons_of_ne_nil (cons_ne_nil _ _)]
    exact mem_cons_self

theorem blockOf_of_readWhole (paths : ∀ path ∈ files, path ≠ []) (whole : ReadWhole files) :
    blockOf (pathLines files) = files := by
  induction files with
  | nil => rfl
  | cons path files ih =>
    have filled : path ≠ [] := paths path mem_cons_self
    rw [pathLines, flatMap_cons, ← pathLines]
    rcases whole.head with short | ⟨full, rfl⟩
    · rw [pieces_of_short short, singleton_append, blockOf,
        takeWhile_cons_of_pos (by simpa using filled), ← blockOf,
        ih (fun other mem => paths other (mem_cons_of_mem path mem)) whole.tail]
    · rw [pieces_of_full full, blockOf, cons_append,
        takeWhile_cons_of_pos (by simpa using filled)]
      rfl

theorem blockOf_perm_iff (paths : ∀ path ∈ files, path ≠ []) :
    (blockOf (pathLines files)).Perm files ↔ ReadWhole files := by
  constructor
  · intro perm
    exact (readWhole_of_block paths (bytes_perm perm)).2 perm.length_eq.le
  · intro whole
    rw [blockOf_of_readWhole paths whole]

theorem lastFiles_section (paths : ∀ path ∈ files, path ≠ []) (rest : List CStr) :
    ∃ list, lastFiles (filesHeader :: (pathLines files ++ [] :: rest))
        = (lastFiles rest).or (some list) ∧ (list.Perm files ↔ ReadWhole files) := by
  rw [lastFiles, if_pos rfl]
  by_cases blank : [] ∈ pathLines files
  · obtain ⟨front, later, shape, clean⟩ := eq_append_cons_of_mem blank
    have block : blockOf (pathLines files) = front := by
      rw [shape, (block_blank clean later).1]
    have parts := congrArg bytes shape
    rw [bytes_append, bytes_cons, bytes_pathLines] at parts
    obtain ⟨found, shown, short⟩ := lastFiles_before_blank later rest
    rw [shape, append_assoc, cons_append, (block_blank clean _).1,
      (block_blank clean _).2, shown, Option.or_assoc]
    cases found with
    | none => exact ⟨front, rfl, block ▸ blockOf_perm_iff paths⟩
    | some list =>
      -- a path that opens a list of its own is missing from it
      have fewer := short list rfl
      refine ⟨list, rfl, ?_⟩
      constructor
      · intro perm
        have := bytes_perm perm
        omega
      · intro whole
        rw [← block, blockOf_of_readWhole paths whole] at parts
        omega
  · refine ⟨blockOf (pathLines files), ?_, blockOf_perm_iff paths⟩
    rw [(block_blank blank rest).1, (block_blank blank rest).2, blockOf_clean blank]

/-! ### Sorting -/

theorem presorted_sorted (ordered : presorted files = true) : Comparator.Sorted strcmp files := by
  induction files using presorted.induct with
  | case1 one two rest ih =>
    simp only [presorted, Bool.and_eq_true, decide_eq_true_eq] at ordered
    exact .cons strcmp_lawful ordered.1 (ih ordered.2)
  | case2 files single =>
    match files, single with
    | [], _ => exact List.Pairwise.nil
    | [one], _ => exact pairwise_singleton _ _
    | one :: two :: rest, single => exact absurd rfl (single one two rest)

theorem filelistSort_perm (files : List CStr) : (filelistSort files).Perm files := by
  unfold filelistSort qsortFiles
  split
  · exact .refl _
  · exact mergeSort_perm _ _

theorem filelistSort_sorted (files : List CStr) :
    Comparator.Sorted strcmp (filelistSort files) := by
  unfold filelistSort
  split
  · exact presorted_sorted ‹_›
  · exact Comparator.Sorted.mergeSort strcmp_lawful files

/-! ### The round trip -/

theorem bufferLines_putLines (plain : ∀ line ∈ lines, LineReader.Plain newline 0 line) (text : CStr) :
    bufferLines (putLines lines ++ text) = pathLines lines ++ bufferLines text := by
  induction lines with
  | nil => rfl
  | cons line lines ih =>
    have first := LineReader.lines_append (by decide : 0 < lineRoom)
      (plain line mem_cons_self) (putLines lines ++ text)
    rw [pathLines, flatMap_cons, append_assoc, ← pathLines,
      ← ih fun other mem => plain other (mem_cons_of_mem line mem)]
    rw [putLines, flatMap_cons, ← putLines, append_assoc, append_assoc]
    exact first

def strayFiles (backup : List Backup) : Option (List CStr) :=
  lastFiles (bufferLines (backupSection backup))

/-- The list of a package comes back: no other list replaces it and every path is read
whole. A list among the backup entries has to name the same paths. -/
def Survives (info : LocalPkg) : Prop :=
  match strayFiles info.backup with
  | none => ReadWhole info.files
  | some stray => stray.Perm info.files

theorem bufferLines_blank (text : CStr) : bufferLines (newline :: text) = [] :: bufferLines text := by
  have plain : LineReader.Plain newline 0 ([] : CStr) := LineReader.plain_nil
  have blank := LineReader.lines_append (by decide : 0 < lineRoom) plain text
  rw [LineReader.pieces, if_pos (.inr (by decide))] at blank
  exact blank

theorem bufferLines_filesSection (plain : ∀ path ∈ files, LineReader.Plain newline 0 path)
    (filled : files ≠ []) (text : CStr) : bufferLines (filesSection files ++ text)
      = filesHeader :: (pathLines files ++ [] :: bufferLines text) := by
  have lines : ∀ line ∈ filesHeader :: files, LineReader.Plain newline 0 line := by
    intro line mem
    rcases mem_cons.mp mem with rfl | later
    · exact ⟨by decide, by decide⟩
    · exact plain line later
  have header : pathLines (filesHeader :: files) = filesHeader :: pathLines files := by
    rw [pathLines, flatMap_cons, pieces_of_short (by decide)]
    rfl
  rw [filesSection, if_neg filled, putSection, append_assoc, singleton_append,
    bufferLines_putLines lines, header, bufferLines_blank]
  rfl

theorem restored_perm_iff (paths : ∀ path ∈ info.files, path ≠ [] ∧ newline ∉ path ∧ 0 ∉ path) :
    (((lastFiles (bufferLines (filesText info))).map filelistSort).getD []).Perm info.files
      ↔ Survives info := by
  have sorted (list : List CStr) : (filelistSort list).Perm info.files ↔ list.Perm info.files :=
    ⟨fun perm => (filelistSort_perm list).symm.trans perm,
      fun perm => (filelistSort_perm list).trans perm⟩
  unfold Survives
  by_cases none : info.files = []
  · have text : filesText info = backupSection info.backup := by
      rw [filesText, none]
      rfl
    rw [text, ← strayFiles]
    cases strayFiles info.backup with
    | none =>
      rw [none]
      exact iff_of_true (.refl _) ⟨by simp, by simp⟩
    | some stray => exact sorted stray
  · obtain ⟨list, found, whole⟩ := lastFiles_section (fun path mem => (paths path mem).1)
      (bufferLines (backupSection info.backup))
    rw [filesText,
      bufferLines_filesSection (fun path mem => ⟨(paths path mem).2.1, (paths path mem).2.2⟩) none,
      found,
      ← strayFiles]
    cases strayFiles info.backup with
    | none => exact (sorted list).trans whole
    | some stray => exact sorted stray

theorem localDbWrite_files {db : LocalStore} (written : (localDbWrite db info Infrq.files).1 = 0) :
    (localDbWrite db info Infrq.files).2 = { db with
      content := Function.update db.content (localDbPkgpath db info (cstr "files"))
        (some (filesText info)) } := by
  revert written
  unfold localDbWrite
  dsimp only
  rw [writePart_skipped (by decide : hasBit Infrq.files Infrq.desc = false)]
  split
  · intro failed
    cases failed
  · rw [if_neg (not_not.mpr rfl)]
    exact writePart_written (by decide)

theorem localDbRead_files {db : LocalStore} {text : CStr}
    (unread : hasBit info.infolevel Infrq.files = false)
    (intact : hasBit info.infolevel Infrq.error = false)
    (content : db.content (localDbPkgpath db info (cstr "files")) = some text) :
    localDbRead db info Infrq.files = ⟨0, { readFiles (.fopen text) info with
      infolevel := (readFiles (.fopen text) info).infolevel ||| Infrq.files }, []⟩ := by
  have asked : (hasBit Infrq.files Infrq.files && !hasBit info.infolevel Infrq.files) = true := by
    rw [unread]
    decide
  have missing : ¬ info.infolevel &&& Infrq.files = Infrq.files := by
    intro present
    rw [hasBit, present] at unread
    exact absurd unread (by decide)
  rw [localDbRead, if_neg missing, intact, if_neg Bool.false_ne_true]
  dsimp only
  rw [readPart_skipped (by decide : hasBit Infrq.files Infrq.desc = false),
    if_neg (not_not.mpr rfl), readPart_found asked content rfl, if_neg (not_not.mpr rfl),
    readScriptlet_skipped (by decide : hasBit Infrq.files Infrq.scriptlet = false)]
  rfl

/-- The file list of a package comes back from the local database exactly if it survives the
line buffer. -/
theorem localDb_files_roundtrip_iff (db : LocalStore) (info : LocalPkg)
    (paths : ∀ path ∈ info.files, path ≠ [] ∧ newline ∉ path ∧ 0 ∉ path)
    (written : (localDbWrite db info Infrq.files).1 = 0) :
    let reading := localDbRead (localDbWrite db info Infrq.files).2
      (.fresh info.name info.version) Infrq.files
    (reading.ret = 0 ∧ reading.info.files.Perm info.files ∧
      Comparator.Sorted strcmp reading.info.files) ↔ Survives info := by
  have stored := localDbWrite_files written
  have content : (localDbWrite db info Infrq.files).2.content (localDbPkgpath
      (localDbWrite db info Infrq.files).2 (.fresh info.name info.version) (cstr "files"))
      = some (filesText info) := by
    rw [stored]
    exact Function.update_self _ _ _
  intro reading
  have fresh : (LocalPkg.fresh info.name info.version).infolevel = 0 := rfl
  have read : reading = _ :=
    localDbRead_files (by rw [fresh]; decide) (by rw [fresh]; decide) content
  have ret : reading.ret = 0 := congrArg Reading.ret read
  have files : reading.info.files = (readFiles _ _).files := congrArg (·.info.files) read
  rw [readFiles_files] at files
  rw [← restored_perm_iff paths]
  have sorted : Comparator.Sorted strcmp reading.info.files := by
    rw [show reading.info.files = _ from files]
    cases lastFiles (bufferLines (Reader.fopen (filesText info)).text) with
    | none => exact List.Pairwise.nil
    | some list => exact filelistSort_sorted list
  constructor
  · rintro ⟨_, perm, _⟩
    exact files ▸ perm
  · intro perm
    exact ⟨ret, files.symm ▸ perm, sorted⟩

theorem pathLines_of_short (short : ∀ line ∈ lines, line.length ≤ 1022) :
    pathLines lines = lines := by
  induction lines with
  | nil => rfl
  | cons line lines ih =>
    rw [pathLines, flatMap_cons, pieces_of_short (short line mem_cons_self), ← pathLines,
      ih fun other mem => short other (mem_cons_of_mem line mem)]
    rfl

theorem strayFiles_of_fits {backup : List Backup}
    (fits : ∀ entry ∈ backup, (newline ∉ entry.line ∧ 0 ∉ entry.line) ∧ entry.line.length ≤ 1022) :
    strayFiles backup = none := by
  by_cases empty : backup = []
  · rw [empty]
    decide +kernel
  · have lines : ∀ line ∈ backupHeader :: backup.map Backup.line,
        (newline ∉ line ∧ 0 ∉ line) ∧ line.length ≤ 1022 := by
      intro line mem
      rcases mem_cons.mp mem with rfl | later
      · decide
      · obtain ⟨entry, inside, rfl⟩ := mem_map.mp later
        exact fits entry inside
    have filled : [] ∉ backup.map Backup.line := by
      intro mem
      obtain ⟨entry, _, blank⟩ := mem_map.mp mem
      simp [Backup.line] at blank
    have ended : bufferLines [] = [] := by decide +kernel
    rw [strayFiles, backupSection, if_neg empty, putSection,
      bufferLines_putLines fun line mem => ⟨(lines line mem).1.1, (lines line mem).1.2⟩,
      pathLines_of_short fun line mem => (lines line mem).2, bufferLines_blank, ended,
      cons_append, lastFiles, if_neg (by decide), if_pos rfl]
    rw [(block_blank filled []).2, lastFiles]

def linkedPkg : LocalPkg :=
  { LocalPkg.fresh (cstr "foo") (cstr "1-1") with
    files := [cstr "usr/", cstr "%FILES%", cstr "etc/foo.conf"]
    backup := [⟨cstr "etc/foo.conf", some (cstr "d41d8cd9")⟩] }

theorem localDb_files_roundtrip_linked :
    let db : LocalStore := ⟨cstr "local", cstr "/db/", true, fun _ => none, fun _ => true⟩
    let reading := localDbRead (localDbWrite db linkedPkg Infrq.files).2
      (.fresh (cstr "foo") (cstr "1-1")) Infrq.files
    reading.ret = 0 ∧ reading.info.files.Perm linkedPkg.files ∧
      Comparator.Sorted strcmp reading.info.files := by
  intro db
  have survives : Survives linkedPkg := by
    have none : strayFiles linkedPkg.backup = none := strayFiles_of_fits (by decide)
    rw [Survives, none]
    decide
  exact (localDb_files_roundtrip_iff db linkedPkg (by decide) rfl).mpr survives

/-- A path of 1024 bytes, which an installation in `/` accepts. -/
def longPath : CStr := List.replicate 1023 97 ++ [98]

/-- It is read back as two paths. -/
theorem localDb_files_split :
    let info := { LocalPkg.fresh (cstr "foo") (cstr "1-1") with files := [longPath] }
    let db : LocalStore := ⟨cstr "local", cstr "/db/", true, fun _ => none, fun _ => true⟩
    let reading := localDbRead (localDbWrite db info Infrq.files).2
      (.fresh (cstr "foo") (cstr "1-1")) Infrq.files
    (cstr "/").length + longPath.length < 4096 ∧ newline ∉ longPath ∧
      (localDbWrite db info Infrq.files).1 = 0 ∧ reading.ret = 0 ∧
      reading.info.files = [List.replicate 1023 97, [98]] := by
  decide +kernel

end Dulge
