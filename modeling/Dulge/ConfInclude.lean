import Dulge.ConfGlob
import Dulge.ConfSiglevel
import Dulge.IniFile
import Dulge.Lib.Tokens
import Dulge.Wordsplit

/-! The configuration file of `conf.c`: its options, its repositories, and the lines that include
other files. What is printed while a file is read is left out. -/

namespace Dulge

inductive ColorSetting where
  | unset | off | on
deriving Inhabited

instance : Inhabited StoredSiglevel := ⟨⟨0, 0⟩⟩

/-- `config_repo_t` -/
structure ConfigRepo where
  name : CStr
  cacheServers : List CStr
  servers : List CStr
  usage : BitVec 32
  siglevel : StoredSiglevel

/-- The fields of `config_t` that a configuration file sets. -/
structure Config where
  usesyslog : Bool
  chomp : Bool
  verbosepkglists : Bool
  checkspace : Bool
  noprogressbar : Bool
  disableDlTimeout : Bool
  disableSandboxFilesystem : Bool
  disableSandboxSyscalls : Bool
  color : ColorSetting
  noupgrade : List CStr
  noextract : List CStr
  ignorepkg : List CStr
  ignoregrp : List CStr
  holdpkg : List CStr
  cachedirs : List CStr
  hookdirs : List CStr
  architectures : List CStr
  dbpath : Option CStr
  rootdir : Option CStr
  gpgdir : Option CStr
  logfile : Option CStr
  sandboxuser : Option CStr
  xfercommand : Option CStr
  xfercommandArgv : Option (List CStr)
  xfercommandArgc : Nat
  cleanKeepInst : Bool
  cleanKeepCur : Bool
  siglevel : StoredSiglevel
  localfilesiglevel : StoredSiglevel
  remotefilesiglevel : StoredSiglevel
  parallelDownloads : Int
  repos : List ConfigRepo
deriving Inhabited

structure ConfSystem where
  sysroot : Option CStr
  malloc : Nat → Bool
  glob : CStr → GlobFlags → Globbed
  file : CStr → Option CStr
  realpath : CStr → Option CStr
  machine : CStr
  isatty : Bool
  signatures : Bool

/-- `setrepeatingoption`: the values that it adds -/
def repeating (value : CStr) : List CStr := Tokens.all (· = 32) value

def parseFlag (isatty : Bool) (key : CStr) (c : Config) : Config :=
  if key = cstr "UseSyslog" then { c with usesyslog := true }
  else if key = cstr "ILoveCandy" then { c with chomp := true }
  else if key = cstr "VerbosePkgLists" then { c with verbosepkglists := true }
  else if key = cstr "CheckSpace" then { c with checkspace := true }
  else if key = cstr "Color" then
    match c.color with
    | .unset => { c with color := if isatty then .on else .off }
    | _ => c
  else if key = cstr "NoProgressBar" then { c with noprogressbar := true }
  else if key = cstr "DisableDownloadTimeout" then { c with disableDlTimeout := true }
  else if key = cstr "DisableSandbox" then
    { c with disableSandboxFilesystem := true, disableSandboxSyscalls := true }
  else if key = cstr "DisableSandboxFilesystem" then { c with disableSandboxFilesystem := true }
  else if key = cstr "DisableSandboxSyscalls" then { c with disableSandboxSyscalls := true }
  else c

def processCleanmethods : List CStr → Config → Int × Config
  | [], c => (0, c)
  | value :: values, c =>
    if value = cstr "KeepInstalled" then processCleanmethods values { c with cleanKeepInst := true }
    else if value = cstr "KeepCurrent" then processCleanmethods values { c with cleanKeepCur := true }
    else (1, c)

def parseNumber (value : CStr) : Option Int :=
  let parsed := strtoll value
  if parsed.erange ∨ parsed.rest ≠ [] ∨ parsed.rest = value then none else some parsed.result

/-- A path that is not overwritten, and has to be resolved. -/
def setPath (system : ConfSystem) (value : CStr) (old : Option CStr) (c : Config)
    (store : CStr → Config) : Int × Config :=
  match old, system.realpath value with
  | some _, _ => (0, c)
  | none, none => (1, c)
  | none, some path => (0, store path)

def storeSiglevel (system : ConfSystem) (values : List CStr) (old : StoredSiglevel) (file : CStr)
    (linenum : Nat) : Int × StoredSiglevel :=
  let run := processSiglevel system.signatures values old file linenum
  (run.ret, run.stored)

def parseSetting (system : ConfSystem) (key value file : CStr) (linenum : Nat) (c : Config) :
    Int × Config :=
  if key = cstr "NoUpgrade" then (0, { c with noupgrade := c.noupgrade ++ repeating value })
  else if key = cstr "NoExtract" then (0, { c with noextract := c.noextract ++ repeating value })
  else if key = cstr "IgnorePkg" then (0, { c with ignorepkg := c.ignorepkg ++ repeating value })
  else if key = cstr "IgnoreGroup" then (0, { c with ignoregrp := c.ignoregrp ++ repeating value })
  else if key = cstr "HoldPkg" then (0, { c with holdpkg := c.holdpkg ++ repeating value })
  else if key = cstr "CacheDir" then (0, { c with cachedirs := c.cachedirs ++ repeating value })
  else if key = cstr "HookDir" then (0, { c with hookdirs := c.hookdirs ++ repeating value })
  else if key = cstr "Architecture" then
    let arches := (repeating value).map fun arch =>
      if arch = cstr "auto" then system.machine else arch
    (0, { c with architectures := c.architectures ++ arches })
  else if key = cstr "DBPath" then
    setPath system value c.dbpath c fun path => { c with dbpath := some path }
  else if key = cstr "RootDir" then
    setPath system value c.rootdir c fun path => { c with rootdir := some path }
  else if key = cstr "GPGDir" then
    setPath system value c.gpgdir c fun path => { c with gpgdir := some path }
  else if key = cstr "LogFile" then (0, { c with logfile := some (c.logfile.getD value) })
  else if key = cstr "DownloadUser" then
    (0, { c with sandboxuser := some (c.sandboxuser.getD value) })
  else if key = cstr "XferCommand" then
    match wordsplit (some value) with
    | none => (1, { c with xfercommandArgv := none })
    | some argv => (0, { c with
        xfercommandArgv := some argv, xfercommandArgc := argv.length, xfercommand := some value })
  else if key = cstr "CleanMethod" then processCleanmethods (repeating value) c
  else if key = cstr "SigLevel" then
    let done := storeSiglevel system (repeating value) c.siglevel file linenum
    (done.1, { c with siglevel := done.2 })
  else if key = cstr "LocalFileSigLevel" then
    let done := storeSiglevel system (repeating value) c.localfilesiglevel file linenum
    (done.1, { c with localfilesiglevel := done.2 })
  else if key = cstr "RemoteFileSigLevel" then
    let done := storeSiglevel system (repeating value) c.remotefilesiglevel file linenum
    (done.1, { c with remotefilesiglevel := done.2 })
  else if key = cstr "ParallelDownloads" then
    match parseNumber value with
    | none => (1, c)
    | some number =>
      if number < 1 ∨ 2 ^ 31 - 1 < number then (1, c) else (0, { c with parallelDownloads := number })
  else (0, c)

/-- The bit of `process_usage` for a value. -/
def usageBit (key : CStr) : Option (BitVec 32) :=
  if key = cstr "Sync" then some 1
  else if key = cstr "Search" then some 2
  else if key = cstr "Install" then some 4
  else if key = cstr "Upgrade" then some 8
  else if key = cstr "All" then some 15
  else none

def processUsage (values : List CStr) (usage : BitVec 32) : Int × BitVec 32 :=
  (if values.all fun key => (usageBit key).isSome then 0 else 1,
    values.foldl (fun level key => level ||| (usageBit key).getD 0) usage)

def parseRepo (system : ConfSystem) (key : CStr) (value : Option CStr) (file : CStr) (linenum : Nat)
    (repo : ConfigRepo) : Int × ConfigRepo :=
  if key ∈ [cstr "CacheServer", cstr "Server", cstr "SigLevel", cstr "Usage"] then
    match value with
    | none => (1, repo)
    | some value =>
      if key = cstr "CacheServer" then (0, { repo with cacheServers := repo.cacheServers ++ [value] })
      else if key = cstr "Server" then (0, { repo with servers := repo.servers ++ [value] })
      else if repeating value = [] then (0, repo)
      else if key = cstr "SigLevel" then
        let done := storeSiglevel system (repeating value) repo.siglevel file linenum
        (done.1, { repo with siglevel := done.2 })
      else
        let done := processUsage (repeating value) repo.usage
        (done.1, { repo with usage := done.2 })
  else (0, repo)

/-- The configuration with the section that the parser is in; `repo` is a place in `repos`. -/
structure Conf where
  config : Config
  name : Option CStr
  repo : Option Nat

def newRepo (name : CStr) : ConfigRepo := ⟨name, [], [], 0, ⟨Siglevel.useDefault, 0⟩⟩

def enterSection (name : CStr) (conf : Conf) : Conf :=
  if name = cstr "options" then { conf with name := some name, repo := none }
  else
    { config := { conf.config with repos := conf.config.repos ++ [newRepo name] }
      name := some name
      repo := some conf.config.repos.length }

def parseEntry (system : ConfSystem) (key : CStr) (value : Option CStr) (file : CStr) (linenum : Nat)
    (conf : Conf) : Int × Conf :=
  if conf.name = none then (1, conf)
  else
    match conf.repo.bind fun place => (conf.config.repos[place]?).map (place, ·) with
    | none =>
      -- we are either in options
      match value with
      | none => (0, { conf with config := parseFlag system.isatty key conf.config })
      | some value =>
        let done := parseSetting system key value file linenum conf.config
        (done.1, { conf with config := done.2 })
    | some (place, repo) =>
      -- or in a repo section
      let done := parseRepo system key value file linenum repo
      (done.1, { conf with config :=
        { conf.config with repos := conf.config.repos.set place done.2 } })

def untilError {α σ : Type} (step : α → σ → Int × σ) : List α → σ → Int × σ
  | [], s => (0, s)
  | a :: later, s => if (step a s).1 ≠ 0 then step a s else untilError step later (step a s).2

/-- The files of an `Include` line. If globbing fails, there are none. -/
def ConfSystem.included (system : ConfSystem) (value : CStr) : List CStr :=
  match globdir system.malloc system.glob system.sysroot value ⟨false, true⟩ with
  | .found pathv => pathv
  | _ => []

/-- `_parse_directive` and `process_include`, where `section->depth` leaves room for so many more
files inside of each other. -/
def parseDirective (system : ConfSystem) (room : Nat) (call : IniCall) (conf : Conf) : Int × Conf :=
  match call.key, call.value with
  | none, _ =>
    match call.sectionName with
    | none => (1, conf)
    | some name => (0, enterSection name conf)
  | some key, value =>
    if key = cstr "Include" then
      match value, room with
      | none, _ => (1, conf)
      | some _, 0 => (1, conf)
      | some value, room + 1 =>
        untilError (fun path => parseIni (parseDirective system room) path (system.file path))
          (system.included value) conf
    else parseEntry system key value call.file call.linenum conf

/-! ### Files and lines -/

/-- The lines of a file as `safe_fgets` gives them. -/
def fileLines (text : CStr) : List CStr := LineReader.rawLines newline (pathMax - 1) text

def isInclude (line : CStr) : Bool :=
  match iniLine line with
  | .directive key _ => key = cstr "Include"
  | _ => false

/-- `Include` lines replaced, again and again, by the lines of their files, with so much room for
files inside of each other. -/
inductive Expands (system : ConfSystem) : Nat → List CStr → List CStr → Prop
  | nil {room : Nat} : Expands system room [] []
  | plain {room : Nat} {line : CStr} {lines flat : List CStr} : isInclude line = false →
      Expands system room lines flat → Expands system room (line :: lines) (line :: flat)
  | files {room : Nat} {line value : CStr} {lines texts inner flat : List CStr} :
      iniLine line = .directive (cstr "Include") (some value) →
      (system.included value).map system.file = texts.map some →
      Expands system room (texts.flatMap fileLines) inner → Expands system (room + 1) lines flat →
      Expands system (room + 1) (line :: lines) (inner ++ flat)

section Lines

variable {σ α : Type}

theorem untilError_append (step : α → σ → Int × σ) (front later : List α) (s : σ) :
    untilError step (front ++ later) s =
      if (untilError step front s).1 ≠ 0 then untilError step front s
      else untilError step later (untilError step front s).2 := by
  induction front generalizing s with
  | nil => rfl
  | cons a front ih =>
    rw [List.cons_append, untilError, untilError]
    by_cases failed : (step a s).1 ≠ 0
    · simp only [if_pos failed]
    · simp only [if_neg failed, ih]

/-- The callback does not look at where a line stands, nor a directive at its section. -/
structure PositionFree (cb : IniCall → σ → Int × σ) : Prop where
  header : ∀ file linenum name s,
    cb ⟨file, linenum, some name, none, none⟩ s = cb ⟨[], 0, some name, none, none⟩ s
  directive : ∀ file linenum sectionName key value s,
    cb ⟨file, linenum, sectionName, some key, value⟩ s = cb ⟨[], 0, none, some key, value⟩ s

def lineCall (cb : IniCall → σ → Int × σ) (line : CStr) (s : σ) : Int × σ :=
  match iniLine line with
  | .skipped => (0, s)
  | .header name => cb ⟨[], 0, some name, none, none⟩ s
  | .directive key value => cb ⟨[], 0, none, some key, value⟩ s

theorem parseLines_each {cb : IniCall → σ → Int × σ} (free : PositionFree cb) (file : CStr)
    (linenum : Nat) (sectionName : Option CStr) (lines : List CStr) (s : σ) :
    parseLines cb file linenum sectionName lines s = untilError (lineCall cb) lines s := by
  induction lines generalizing linenum sectionName s with
  | nil => rfl
  | cons line lines ih =>
    rw [parseLines, untilError, lineCall]
    cases iniLine line with
    | skipped => exact ih _ _ _
    | header name =>
      dsimp only
      rw [free.header, ih]
    | directive key value =>
      dsimp only
      rw [free.directive, ih]

end Lines

theorem storeSiglevel_position (system : ConfSystem) (values : List CStr) (old : StoredSiglevel)
    (file : CStr) (linenum : Nat) :
    storeSiglevel system values old file linenum = storeSiglevel system values old [] 0 := by
  have turns (run run' : SiglevelRun) (same : run.ret = run'.ret ∧ run.stored = run'.stored) :
      (values.foldl (siglevelTurn file linenum) run).ret =
          (values.foldl (siglevelTurn [] 0) run').ret ∧
        (values.foldl (siglevelTurn file linenum) run).stored =
          (values.foldl (siglevelTurn [] 0) run').stored := by
    induction values generalizing run run' with
    | nil => exact same
    | cons value values ih =>
      apply ih
      simp only [siglevelTurn, same.2]
      cases siglevelValue value run'.stored with
      | none => exact ⟨rfl, rfl⟩
      | some stored => exact ⟨same.1, rfl⟩
  obtain ⟨ret, stored⟩ := turns ⟨old, 0, []⟩ ⟨old, 0, []⟩ ⟨rfl, rfl⟩
  simp only [storeSiglevel, processSiglevel, stored]
  split
  · rfl
  · simp only [ret]
    split <;> simp [ret, stored]

variable (system : ConfSystem)

theorem parseEntry_position (key : CStr) (value : Option CStr) (file : CStr) (linenum : Nat)
    (conf : Conf) :
    parseEntry system key value file linenum conf = parseEntry system key value [] 0 conf := by
  have moved := fun values old => storeSiglevel_position system values old file linenum
  simp only [parseEntry, parseSetting, parseRepo, moved]

theorem parseDirective_free (room : Nat) : PositionFree (parseDirective system room) where
  header _ _ _ _ := by rw [parseDirective, parseDirective]
  directive file linenum sectionName key value conf := by
    rw [parseDirective, parseDirective]
    dsimp only
    rw [parseEntry_position]

theorem lineCall_plain {line : CStr} (plain : isInclude line = false) (room deep : Nat)
    (conf : Conf) :
    lineCall (parseDirective system room) line conf =
      lineCall (parseDirective system deep) line conf := by
  unfold isInclude at plain
  unfold lineCall
  split
  · rfl
  · rw [parseDirective, parseDirective]
  · rename_i key value shape
    rw [shape] at plain
    have other := of_decide_eq_false plain
    rw [parseDirective, parseDirective]
    simp only [if_neg other]

/-- Files that are read one after the other are read as one. -/
theorem untilError_files {room : Nat} {paths texts : List CStr}
    (readable : paths.map system.file = texts.map some) (conf : Conf) :
    untilError (fun path => parseIni (parseDirective system room) path (system.file path)) paths conf
      =
      untilError (lineCall (parseDirective system room)) (texts.flatMap fileLines) conf := by
  induction paths generalizing texts conf with
  | nil =>
    rw [List.map_eq_nil_iff.mp readable.symm]
    rfl
  | cons path paths ih =>
    obtain ⟨text, texts, rfl, opened, rest⟩ := List.map_eq_cons_iff.mp readable.symm
    rw [List.flatMap_cons, untilError_append, untilError, ← opened, parseIni,
      parseLines_each (parseDirective_free system room), ← fileLines, ih rest.symm]

theorem expands_untilError {room : Nat} {lines flat : List CStr}
    (expands : Expands system room lines flat) (deep : Nat) (conf : Conf) :
    untilError (lineCall (parseDirective system room)) lines conf =
      untilError (lineCall (parseDirective system deep)) flat conf := by
  induction expands generalizing conf with
  | nil => rfl
  | plain plain _ ih =>
    rw [untilError, untilError, lineCall_plain system plain _ deep, ih]
  | @files room line value lines texts middle flat shape readable _ _ inner later =>
    have step : lineCall (parseDirective system (room + 1)) line conf =
        untilError (fun path => parseIni (parseDirective system room) path (system.file path))
          (system.included value) conf := by
      rw [lineCall, shape]
      dsimp only
      rw [parseDirective]
      rfl
    rw [untilError, step, untilError_files system readable, inner, untilError_append, later]

/-- Including files is the same as having their lines in the place of the `Include` line: the result
and the configuration are the same. -/
theorem parseIni_include (file text : CStr) {flat : List CStr}
    (expands : Expands system 10 (fileLines text) flat) (conf : Conf) :
    parseIni (parseDirective system 10) file (some text) conf =
      parseLines (parseDirective system 10) file 0 none flat conf := by
  rw [parseIni, parseLines_each (parseDirective_free system 10),
    parseLines_each (parseDirective_free system 10)]
  exact expands_untilError system expands 10 conf

def includeSystem : ConfSystem where
  sysroot := none
  malloc := fun _ => true
  glob := fun pattern _ => .found [pattern]
  file := fun path => if path = cstr "core" then some (cstr "[core]\nServer = a\n") else none
  realpath := fun _ => none
  machine := []
  isatty := false
  signatures := true

/-- A repository in a file of its own, of which the line behind the `Include` line is a part. -/
theorem parseIni_include_core : parseIni (parseDirective includeSystem 10) (cstr "conf")
        (some (cstr "[options]\nInclude = core\nUsage = All\n")) ⟨default, none, none⟩ =
      parseLines (parseDirective includeSystem 10) (cstr "conf") 0 none
        [cstr "[options]\n", cstr "[core]\n", cstr "Server = a\n", cstr "Usage = All\n"]
        ⟨default, none, none⟩ := by
  apply parseIni_include
  have outer : fileLines (cstr "[options]\nInclude = core\nUsage = All\n") =
      [cstr "[options]\n", cstr "Include = core\n", cstr "Usage = All\n"] := by decide +kernel
  have inner : Expands includeSystem 9 ([cstr "[core]\nServer = a\n"].flatMap fileLines)
      [cstr "[core]\n", cstr "Server = a\n"] := by
    have lines : [cstr "[core]\nServer = a\n"].flatMap fileLines =
      [cstr "[core]\n", cstr "Server = a\n"] := by decide +kernel
    rw [lines]
    exact .plain (by decide +kernel) (.plain (by decide +kernel) .nil)
  have value : iniLine (cstr "Include = core\n") =
      .directive (cstr "Include") (some (cstr "core")) := by
    decide +kernel
  rw [outer]
  apply Expands.plain (by decide +kernel)
  exact .files value (by decide +kernel) inner (.plain (by decide +kernel) .nil)

end Dulge
