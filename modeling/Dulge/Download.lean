import Dulge.AlpmList

/-! The downloader of `dload.c`: transfers run side by side, each writes to a temporary file
that is renamed when the transfer has succeeded, and a transfer that fails is tried again
with the next server. What libcurl and the servers do in one pass of the loop is an input
of that pass. Log and progress calls do not change anything and are left out. -/

namespace Dulge
open Function

/-! ### The download directory -/

structure DownloadDir where
  entries : CStr → Option Nat
  size : Nat → Nat
  /-- The number of the next new file. -/
  next : Nat

namespace DownloadDir

variable (dir : DownloadDir)

def has (name : CStr) : Bool := (dir.entries name).isSome

/-- The size that `stat` finds. -/
def stat (name : CStr) : Option Nat := (dir.entries name).map dir.size

/-- `fopen` with mode `ab` or, if the file is to be emptied, `wb` -/
def fopen (empty : Bool) (name : CStr) : Nat × DownloadDir :=
  match dir.entries name with
  | some file =>
    (file, if empty then { dir with size := update dir.size file 0 } else dir)
  | none =>
    (dir.next,
      { entries := update dir.entries name (some dir.next)
        size := update dir.size dir.next 0
        next := dir.next + 1 })

def ftruncate (file length : Nat) : DownloadDir :=
  { dir with size := update dir.size file length }

def unlink (name : CStr) : DownloadDir :=
  { dir with entries := update dir.entries name none }

def rename (old new : CStr) : DownloadDir :=
  if old = new then dir
  else
    { dir with entries :=
        Function.update (Function.update dir.entries new (dir.entries old)) old none }

end DownloadDir

structure FileAccess where
  fopen : CStr → Bool
  ftruncate : Nat → Bool
  unlink : CStr → Bool
  rename : CStr → CStr → Bool

/-! ### Payloads and servers -/

/-- `struct dload_payload` -/
structure DloadPayload where
  tempfileName : CStr
  destfileName : Option CStr
  fileurl : Option CStr
  filepath : Option CStr
  cacheServers : List CStr
  servers : List CStr
  respcode : Int
  mtimeExistingFile : Int
  initialSize : Int
  maxSize : Int
  force : Bool
  allowResume : Bool
  errorsOk : Bool
  unlinkOnFail : Bool
  downloadSignature : Bool
  signatureOptional : Bool
  signature : Bool
  requestErrorsOk : Bool
  localf : Option Nat
deriving DecidableEq

/-- The text behind the last `c`, and the whole text if there is none. -/
def afterLast (c : UInt8) (text : CStr) : CStr := (text.reverse.takeWhile (· ≠ c)).reverse

/-- `curl_gethost`, with its buffer of 256 bytes. An at sign in the first place hides
nothing. -/
def curlGethost (url : CStr) : Option CStr :=
  let host : Option CStr :=
    if cstr "file://" <+: url then some (cstr "disk")
    else
      (strstr (cstr "//") url).map fun rest =>
        let authority := rest.takeWhile (· ≠ 47)
        let behind := afterLast 64 authority
        if behind.length + 1 < authority.length then behind else authority
  host.filter fun host => host.length ≤ 255

abbrev ServerErrors := CStr → Int

def serverErrorLimit : Int := 3

namespace ServerErrors

variable (errors : ServerErrors)

def shouldSkipServer (server : CStr) : Bool :=
  match curlGethost server with
  | none => false
  | some host => errors host < 0 || serverErrorLimit ≤ errors host

def shouldSkipCacheServer (server : CStr) : Bool :=
  match curlGethost server with
  | none => false
  | some host => errors host < 0

def serverSoftError (server : CStr) : ServerErrors :=
  match curlGethost server with
  | none => errors
  | some host =>
    if errors.shouldSkipServer server then errors
    else update errors host (errors host + 1)

def serverHardError (server : CStr) : ServerErrors :=
  match curlGethost server with
  | none => errors
  | some host => update errors host (-1)

def payloadNextServer (payload : DloadPayload) : Option CStr × DloadPayload :=
  match payload.cacheServers.dropWhile errors.shouldSkipCacheServer with
  | server :: rest =>
    (some server, { payload with cacheServers := rest, requestErrorsOk := true })
  | [] =>
    match payload.servers.dropWhile errors.shouldSkipServer with
    | server :: rest =>
      (some server, { payload with
          cacheServers := []
          servers := rest
          requestErrorsOk := payload.errorsOk })
    | [] => (none, { payload with cacheServers := [], servers := [] })

end ServerErrors

/-! ### The state of the loop -/

/-- What happens to the payloads of the list: the payload and the directory that a set-up
finds, and the answer that the local copy is up to date. -/
inductive DownloadEvent
  | setUp (payload : DloadPayload) (dir : DownloadDir)
  | upToDate (destfileName : Option CStr)

structure Downloader where
  errors : ServerErrors
  /-- `dload_interrupted` -/
  interrupted : Bool
  dir : DownloadDir
  /-- The payloads from `p` on. -/
  waiting : List DloadPayload
  /-- The payloads whose handles libcurl has. -/
  running : List DloadPayload
  /-- `active_downloads_num` -/
  active : Nat
  err : Bool
  updated : Bool
  events : List DownloadEvent

/-! ### Setting up a transfer -/

/-- The part of `curl_set_handle_opts` that looks at the temporary file: the payload, and
whether the file is continued and not emptied. -/
def curlSetHandleOpts (dir : DownloadDir) (payload : DloadPayload) : DloadPayload × Bool :=
  if payload.force = false ∧ payload.mtimeExistingFile ≠ 0 then (payload, false)
  else
    match dir.stat payload.tempfileName with
    | some size =>
      if payload.allowResume then ({ payload with initialSize := size }, true)
      else (payload, false)
    | none => (payload, false)

/-- `payload->max_size == payload->initial_size && payload->max_size != 0` behind
`curl_set_handle_opts`: the temporary file has all that is expected. -/
def DloadPayload.partComplete (payload : DloadPayload) (dir : DownloadDir) : Bool :=
  let opts := (curlSetHandleOpts dir payload).1
  opts.maxSize = opts.initialSize && opts.maxSize ≠ 0

/-- The URL with which `curl_add_payload` starts, unless the payload has no usable one. -/
def startUrl (errors : ServerErrors) (payload : DloadPayload) : Option DloadPayload :=
  match payload.fileurl with
  | some _ =>
    if payload.servers ≠ [] ∨ payload.filepath ≠ none then none
    else some { payload with requestErrorsOk := payload.errorsOk }
  | none =>
    match errors.payloadNextServer payload, payload.filepath with
    | (some server, payload), some filepath =>
      some { payload with fileurl := some (server ++ cstr "/" ++ filepath) }
    | _, _ => none

def openLocalf (access : FileAccess) (dir : DownloadDir) (continued : Bool) (payload : DloadPayload) :
    Option (DloadPayload × DownloadDir) :=
  match payload.localf with
  | some _ => some (payload, dir)
  | none =>
    if access.fopen payload.tempfileName then
      let opened := dir.fopen (!continued) payload.tempfileName
      some ({ payload with localf := some opened.1 }, opened.2)
    else none

def curlAddPayload (access : FileAccess) (payload : DloadPayload) (s : Downloader) :
    Int × Downloader :=
  match startUrl s.errors payload with
  | none => (-1, s)
  | some payload =>
    if (payload.fileurl.bind curlGethost).isNone then (-1, s)
    else
      let opts := curlSetHandleOpts s.dir payload
      if payload.partComplete s.dir then (0, s)
      else
        match openLocalf access s.dir opts.2 opts.1 with
        | none => (-1, s)
        | some (payload, dir) =>
          (0, { s with dir := dir, running := s.running ++ [payload] })

/-! ### The end of a transfer -/

inductive CurlResult
  | ok
  | abortedByCallback
  | couldntResolveHost
  | other
deriving DecidableEq

structure Finish where
  result : CurlResult
  respcode : Int
  timecond : Bool
  bytesDl : Int
  remoteSize : Int
  effectiveUrl : CStr

def localSize (dir : DownloadDir) (payload : DloadPayload) : Option Nat := payload.localf.map dir.size

/-- `curl_retry_next_server`: the payload and the directory with which the transfer starts
again, if there is a server left. -/
def curlRetryNextServer (access : FileAccess) (errors : ServerErrors) (dir : DownloadDir)
    (payload : DloadPayload) : Option (DloadPayload × DownloadDir) :=
  match errors.payloadNextServer payload with
  | (none, _) => none
  | (some server, payload) =>
    let payload :=
      { payload with fileurl := some (server ++ cstr "/" ++ payload.filepath.getD []) }
    match dir.stat payload.tempfileName, payload.allowResume, payload.localf with
    | some size, true, _ => some ({ payload with initialSize := size }, dir)
    | _, _, some file =>
      if access.ftruncate file then some (payload, dir.ftruncate file 0) else none
    | _, _, none => none

def signaturePayload (dbext : CStr) (fin : Finish) (payload : DloadPayload) : DloadPayload :=
  let filename := afterLast 47 fin.effectiveUrl
  let plain := if 63 ∈ filename then (filename.reverse.dropWhile (· ≠ 63)).tail.reverse else filename
  let url :=
    if (strstr dbext plain).isSome ∨ (strstr (cstr ".pkg") plain).isSome then fin.effectiveUrl
    else payload.fileurl.getD []
  let realname := payload.destfileName.getD payload.tempfileName
  { tempfileName := realname ++ cstr ".sig.part"
    destfileName := some (realname ++ cstr ".sig")
    fileurl := some (url ++ cstr ".sig")
    filepath := none
    cacheServers := []
    servers := []
    respcode := 0
    mtimeExistingFile := 0
    initialSize := 0
    maxSize := 16 * 1024
    force := payload.force
    allowResume := false
    errorsOk := payload.signatureOptional
    unlinkOnFail := payload.unlinkOnFail
    downloadSignature := false
    signatureOptional := false
    signature := true
    requestErrorsOk := false
    localf := none }

/-- The label `cleanup` of `curl_check_finished_download`, with the value of `ret` there. -/
def cleanup (access : FileAccess) (ret : Int) (payload : DloadPayload) (s : Downloader) :
    Int × Downloader :=
  let renamed : Int × Downloader :=
    match payload.destfileName with
    | some destfileName =>
      if ret = 0 then
        if s.dir.has payload.tempfileName ∧ access.rename payload.tempfileName destfileName then
          (0, { s with dir := s.dir.rename payload.tempfileName destfileName })
        else (-1, s)
      else (ret, s)
    | none => (ret, s)
  let unlinks := (renamed.1 = -1 ∨ s.interrupted) ∧ payload.unlinkOnFail ∧
    access.unlink payload.tempfileName
  let s :=
    if unlinks then { renamed.2 with dir := renamed.2.dir.unlink payload.tempfileName }
    else renamed.2
  (if renamed.1 = -1 ∧ payload.errorsOk then -2 else renamed.1, s)

def retryOr (access : FileAccess) (payload : DloadPayload) (s : Downloader)
    (otherwise : Int × Downloader) : Int × Downloader :=
  match curlRetryNextServer access s.errors s.dir payload with
  | some (payload, dir) =>
    (2, { s with dir := dir, running := s.running ++ [payload], active := s.active + 1 })
  | none => otherwise

def finishRefused (access : FileAccess) (payload : DloadPayload) (s : Downloader) :
    Int × Downloader :=
  let s :=
    if payload.requestErrorsOk then s
    else { s with errors := s.errors.serverSoftError (payload.fileurl.getD []) }
  let failed := fun s : Downloader =>
    retryOr access payload s (cleanup access (-1) { payload with unlinkOnFail := true } s)
  match payload.localf with
  | some file =>
    if (s.dir.size file : Int) ≠ payload.initialSize then
      if access.ftruncate file then
        failed { s with dir := s.dir.ftruncate file payload.initialSize.toNat }
      else (-1, s)
    else failed s
  | none => failed s

def startSignature (access : FileAccess) (dbext : CStr) (fin : Finish) (payload : DloadPayload)
    (s : Downloader) : Downloader :=
  if payload.signature = false ∧ payload.downloadSignature then
    let added := (curlAddPayload access (signaturePayload dbext fin payload) s).2
    { added with active := added.active + 1 }
  else s

def finishReceived (access : FileAccess) (dbext : CStr) (fin : Finish) (payload : DloadPayload)
    (s : Downloader) : Int × Downloader :=
  let s := startSignature access dbext fin payload s
  if fin.timecond ∧ fin.bytesDl = 0 then
    let s := { s with events := s.events ++ [.upToDate payload.destfileName] }
    let s :=
      if access.unlink payload.tempfileName then
        { s with dir := s.dir.unlink payload.tempfileName }
      else s
    cleanup access 1 payload s
  else if fin.remoteSize ≠ -1 ∧ fin.bytesDl ≠ -1 ∧ fin.bytesDl ≠ fin.remoteSize then
    cleanup access (-1) payload s
  else cleanup access 0 payload s

def curlCheckFinishedDownload (access : FileAccess) (dbext : CStr) (fin : Finish)
    (payload : DloadPayload) (s : Downloader) : Int × Downloader :=
  let payload := { payload with respcode := fin.respcode }
  let url := payload.fileurl.getD []
  match fin.result with
  | .ok =>
    if 400 ≤ payload.respcode then finishRefused access payload s
    else finishReceived access dbext fin payload s
  | .abortedByCallback =>
    if s.interrupted then
      cleanup access (-1) { payload with unlinkOnFail := true }
        { s with errors := s.errors.serverSoftError url }
    else cleanup access (-1) payload s
  | .couldntResolveHost =>
    let s := { s with errors := s.errors.serverHardError url }
    retryOr access payload s (cleanup access (-1) payload s)
  | .other =>
    let s :=
      if payload.requestErrorsOk then s
      else { s with errors := s.errors.serverSoftError url }
    let payload' :=
      if localSize s.dir payload = some 0 then { payload with unlinkOnFail := true } else payload
    retryOr access payload s (cleanup access (-1) payload' s)

/-! ### The loop -/

def compareDloadPayloadSizes (left right : DloadPayload) : Int :=
  let diff := right.maxSize - left.maxSize
  if diff < 0 then -1 else if 0 < diff then 1 else 0

/-- What one pass of the loop meets: the file system, the sizes that the transfers have
given their files, whether a progress call has set `dload_interrupted`, whether libcurl
reports no error, and the transfers that have ended, each by its place among the running. -/
structure Pass where
  access : FileAccess
  sizes : Nat → Nat
  interrupts : Bool
  mcOk : Bool
  finished : List (Nat × Finish)

/-- The payloads from `p` on are set up while there are streams for them. -/
def startPayloads (access : FileAccess) (maxStreams : Int) :
    List DloadPayload → Downloader → Downloader
  | [], s => { s with waiting := [] }
  | payload :: rest, s =>
    if (s.active : Int) < maxStreams then
      let s := { s with events := s.events ++ [.setUp payload s.dir] }
      let added := curlAddPayload access payload s
      let s := { added.2 with active := added.2.active + 1 }
      if added.1 = 0 then startPayloads access maxStreams rest s
      else { s with waiting := [], err := true }
    else { s with waiting := payload :: rest }

def takeFinished :
    List (Nat × Finish) → List DloadPayload → List (DloadPayload × Finish) × List DloadPayload
  | [], running => ([], running)
  | (place, fin) :: later, running =>
    match running[place]? with
    | none => takeFinished later running
    | some payload =>
      let taken := takeFinished later (running.eraseIdx place)
      ((payload, fin) :: taken.1, taken.2)

/-- `curl_multi_perform` and `curl_multi_wait` -/
def multiPerform (pass : Pass) (s : Downloader) : List (DloadPayload × Finish) × Downloader :=
  let taken := takeFinished pass.finished s.running
  let written := fun file => if s.running.any (·.localf = some file) then pass.sizes file
    else s.dir.size file
  (taken.1, { s with
      dir := { s.dir with size := written }
      interrupted := s.interrupted || pass.interrupts
      running := taken.2
      active := taken.2.length })

/-- `curl` reports an error of its own. -/
def noteError (mcOk : Bool) (s : Downloader) : Downloader :=
  if mcOk then s else { s with waiting := [], err := true }

def handleMessage (access : FileAccess) (dbext : CStr) (s : Downloader)
    (message : DloadPayload × Finish) : Downloader :=
  let checked := curlCheckFinishedDownload access dbext message.2 message.1 s
  if checked.1 = -1 then { checked.2 with waiting := [], err := true }
  else if checked.1 = 0 then { checked.2 with updated := true }
  else checked.2

/-- One pass of the loop of `curl_download_internal`. -/
def downloadPass (maxStreams : Int) (dbext : CStr) (s : Downloader) (pass : Pass) : Downloader :=
  let started := startPayloads pass.access maxStreams s.waiting s
  let performed := multiPerform pass started
  performed.1.foldl (handleMessage pass.access dbext) (noteError pass.mcOk performed.2)

def Downloader.continues (s : Downloader) : Bool := 0 < s.active || !s.waiting.isEmpty

/-- The loop, as far as the given passes take it; nothing if it has not ended by then. -/
def downloadLoop (maxStreams : Int) (dbext : CStr) : List Pass → Downloader → Option Downloader
  | [], s => if s.continues then none else some s
  | pass :: passes, s =>
    if s.continues then downloadLoop maxStreams dbext passes (downloadPass maxStreams dbext s pass)
    else some s

def downloadStart (errors : ServerErrors) (interrupted : Bool) (dir : DownloadDir)
    (payloads : List DloadPayload) : Downloader where
  errors := errors
  interrupted := interrupted
  dir := dir
  waiting := listMsort compareDloadPayloadSizes payloads.length payloads
  running := []
  active := 0
  err := false
  updated := false
  events := []

/-- The value that `curl_download_internal` returns from its last state. -/
def Downloader.ret (s : Downloader) : Int := if s.err then -1 else if s.updated then 0 else 1

end Dulge
