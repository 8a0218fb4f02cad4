import Dulge.LocalDb

/-! `parse_ini` of `ini.c`. The file is read through a buffer of `PATH_MAX` bytes, and the callback
is called for every section and for every directive until it answers with an error. What the
callback sees is what the file says: its sections with their entries, in order. -/

namespace Dulge

def strtrim (str : CStr) : CStr := (str.dropWhile isspace).rdropWhile isspace

inductive IniLine where
  | skipped
  | header (name : CStr)
  | directive (key : CStr) (value : Option CStr)
deriving DecidableEq

/-- The line up to its first zero byte. A directive without an equals sign has no value. -/
def iniLine (line : CStr) : IniLine :=
  let line := strtrim (line.takeWhile (· ≠ 0))
  if line = [] ∨ line.head? = some 35 then .skipped
  else if line.head? = some 91 ∧ line.getLast? = some 93 then
    .header ((line.drop 1).take (line.length - 2))
  else
    let key := line.takeWhile (· ≠ 61)
    .directive (strtrim key)
      (if 61 ∈ line then some (strtrim (line.drop (key.length + 1))) else none)

structure IniCall where
  file : CStr
  linenum : Nat
  sectionName : Option CStr
  key : Option CStr
  value : Option CStr

section Parse

variable {σ : Type} (cb : IniCall → σ → Int × σ) (file : CStr)

/-- The loop of `parse_ini`, with the number of the last line and the name of the section. -/
def parseLines : Nat → Option CStr → List CStr → σ → Int × σ
  | _, _, [], data => (0, data)
  | linenum, sectionName, line :: lines, data =>
    match iniLine line with
    | .skipped => parseLines (linenum + 1) sectionName lines data
    | .header name =>
      let called := cb ⟨file, linenum + 1, some name, none, none⟩ data
      if called.1 ≠ 0 then called else parseLines (linenum + 1) (some name) lines called.2
    | .directive key value =>
      let called := cb ⟨file, linenum + 1, sectionName, some key, value⟩ data
      if called.1 ≠ 0 then called else parseLines (linenum + 1) sectionName lines called.2

/-- `parse_ini`, with the text of the file unless it cannot be opened -/
def parseIni (text : Option CStr) (data : σ) : Int × σ :=
  match text with
  | none => cb ⟨file, 0, none, none, none⟩ data
  | some text => parseLines cb file 0 none (LineReader.rawLines newline (pathMax - 1) text) data

end Parse

/-! ### Files as sections -/

structure IniEntry where
  linenum : Nat
  key : CStr
  value : Option CStr

structure IniSection where
  linenum : Nat
  name : CStr
  entries : List IniEntry

structure IniFile where
  stray : List IniEntry
  sections : List IniSection

def iniFile : Nat → List CStr → IniFile
  | _, [] => ⟨[], []⟩
  | linenum, line :: lines =>
    let later := iniFile (linenum + 1) lines
    match iniLine line with
    | .skipped => later
    | .header name => ⟨[], ⟨linenum + 1, name, later.stray⟩ :: later.sections⟩
    | .directive key value => { later with stray := ⟨linenum + 1, key, value⟩ :: later.stray }

section Calls

variable (file : CStr)

def IniEntry.call (sectionName : Option CStr) (entry : IniEntry) : IniCall :=
  ⟨file, entry.linenum, sectionName, some entry.key, entry.value⟩

def IniSection.header (s : IniSection) : IniCall := ⟨file, s.linenum, some s.name, none, none⟩

def IniSection.calls (s : IniSection) : List IniCall :=
  s.header file :: s.entries.map (IniEntry.call file (some s.name))

def IniFile.calls (sectionName : Option CStr) (f : IniFile) : List IniCall :=
  f.stray.map (IniEntry.call file sectionName) ++ f.sections.flatMap (IniSection.calls file)

variable {σ : Type} (cb : IniCall → σ → Int × σ)

def callEach : List IniCall → σ → Int × σ
  | [], data => (0, data)
  | call :: later, data =>
    if (cb call data).1 ≠ 0 then cb call data else callEach later (cb call data).2

theorem callEach_append (calls later : List IniCall) (data : σ) :
    callEach cb (calls ++ later) data =
      if (callEach cb calls data).1 ≠ 0 then callEach cb calls data
      else callEach cb later (callEach cb calls data).2 := by
  induction calls generalizing data with
  | nil => rfl
  | cons call calls ih =>
    rw [List.cons_append, callEach, callEach]
    by_cases failed : (cb call data).1 ≠ 0
    · simp only [if_pos failed]
    · simp only [if_neg failed]
      exact ih _

theorem parseLines_calls (linenum : Nat) (sectionName : Option CStr) (lines : List CStr) (data : σ) :
    parseLines cb file linenum sectionName lines data =
      callEach cb ((iniFile linenum lines).calls file sectionName) data := by
  induction lines generalizing linenum sectionName data with
  | nil => rfl
  | cons line lines ih =>
    rw [parseLines, iniFile]
    cases iniLine line with
    | skipped => exact ih _ _ _
    | header name =>
      dsimp only
      rw [ih]
      rfl
    | directive key value =>
      dsimp only
      rw [ih]
      rfl

end Calls

def iniText (text : CStr) : IniFile := iniFile 0 (LineReader.rawLines newline (pathMax - 1) text)

theorem parseIni_calls {σ : Type} (cb : IniCall → σ → Int × σ) (file text : CStr) (data : σ) :
    parseIni cb file (some text) data = callEach cb ((iniText text).calls file none) data :=
  parseLines_calls ..

end Dulge
