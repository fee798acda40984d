import Pclsync.Lib.Held
import Pclsync.OpenFile.ModifyUpload

/-! Upload tasks of `pupload.c`, and what they take and give back on the way: the mutex of the diff, a connection,
parsed results, the local file and memory.

What the network, the database and the file system answer is any answer of the type of each call. -/
namespace Pclsync.Transfers.UploadTasks
open Lib.Held
open Lib.Held.Program (acquire release)
open OpenFile (NetResult handleApiResult copyBufferSize)

/-- What the tasks give back. -/
inductive Resource where
  /-- `psync_diff_lock`. -/
  | diffMutex
  /-- `psync_apipool_get`. -/
  | connection
  /-- A parsed `binresult`. -/
  | result
  | file
  | memory
deriving DecidableEq, Repr

/-- A parameter of a command or of a statement. -/
inductive Param where
  | num (n : ℕ)
  | str (s : String)
deriving DecidableEq, Repr

/-- The fields of an answer that the tasks read. -/
structure Reply where
  result : ℕ
  folderid : ℕ := 0
  fileid : ℕ := 0
  hash : ℕ := 0
  size : ℕ := 0
  checksum : String := ""
  conflicted : Bool := false
  name : String := ""
deriving DecidableEq, Repr

inductive Call where
  /-- A query with one column, and its first row. -/
  | sqlRow (sql : String) (params : List Param)
  | sqlRun (sql : String) (params : List Param)
  | startTransaction
  | commitTransaction
  | rollbackTransaction
  | localPathForLocalFile (localfileid : ℕ)
  | strnormalizeFilename (name : String)
  | apipoolGet
  | setDefaultSendbuf
  /-- `send_command`, which waits for the answer. -/
  | sendCommand (cmd : String) (params : List (String × Param))
  /-- `do_send_command` of a command that data follows. -/
  | sendHeader (cmd : String) (params : List (String × Param)) (datalen : ℕ)
  | getResult
  | processApiError (result : ℕ)
  | fileOpen (path : String)
  | fileRead (len : ℕ)
  /-- The read of one byte behind the end. -/
  | fileReadPastEnd
  | fileRenameOverwrite (oldpath newpath : String)
  | socketWriteall (len : ℤ)
  /-- `upload->stop`. -/
  | uploadStopped
  | waitStatuses
  | addBytesUploaded (bytes : ℤ)
deriving DecidableEq, Repr

abbrev Call.Ret : Call → Type
  | sqlRow _ _ => Option ℕ
  | startTransaction | commitTransaction | rollbackTransaction => ℤ
  | localPathForLocalFile _ | strnormalizeFilename _ => String
  | apipoolGet | sendHeader _ _ _ | fileOpen _ | uploadStopped => Bool
  | sendCommand _ _ | getResult => Option Reply
  | fileRead _ | fileReadPastEnd | fileRenameOverwrite _ _ | socketWriteall _ => ℤ
  | sqlRun _ _ | setDefaultSendbuf | processApiError _ | waitStatuses | addBytesUploaded _ => Unit

def calls : Calls := ⟨Call, Call.Ret⟩

abbrev Prog (α : Type) := Program Resource calls α

abbrev ask (c : Call) : Prog c.Ret := Program.ask (S := calls) c

/-- `PSYNC_INVALID_FOLDERID`. -/
def invalidFolderid : ℕ := 2 ^ 64 - 1

/-- A result that was parsed is held. -/
def parsed : Option Reply → Prog (Option Reply)
  | none => pure none
  | some res => do
    acquire .result
    pure (some res)

def sendCommand (cmd : String) (params : List (String × Param)) : Prog (Option Reply) := ask (.sendCommand cmd params) >>= parsed

def getResult : Prog (Option Reply) := ask .getResult >>= parsed

/-! ### Folders and copies -/

/-- `task_createfolder`. -/
def taskCreatefolder (auth : String) (syncid localfolderid : ℕ) (name : String) : Prog ℤ := do
  let row : Option ℕ ← ask (.sqlRow ("SELECT s.folderid FROM localfolder l, syncedfolder s WHERE l.id=? AND l.syncid=? " ++
    "AND l.localparentfolderid=s.localfolderid AND s.syncid=?") [.num localfolderid, .num syncid, .num syncid])
  let parentfolderid := row.getD invalidFolderid
  let nname : String ← ask (.strnormalizeFilename name)
  acquire .memory
  if parentfolderid = invalidFolderid then
    release .memory
    pure 0
  else
    let api : Bool ← ask .apipoolGet
    if api = false then
      release .memory
      pure (-1)
    else
      acquire .connection
      acquire .diffMutex
      let bres ← sendCommand "createfolderifnotexists" [("auth", .str auth), ("folderid", .num parentfolderid), ("name", .str nname)]
      release .memory
      match bres with
      | none =>
        release .diffMutex
        release .connection
        pure (-1)
      | some bres =>
        release .connection
        if bres.result ≠ 0 then
          release .diffMutex
          let _ : Unit ← ask (.processApiError bres.result)
          pure (if handleApiResult bres.result = .tempfail then -1 else 0)
        else
          release .result
          let _ : ℤ ← ask .startTransaction
          let _ : Unit ← ask (.sqlRun "UPDATE localfolder SET folderid=? WHERE id=? AND syncid=?"
            [.num bres.folderid, .num localfolderid, .num syncid])
          let _ : Unit ← ask (.sqlRun "UPDATE syncedfolder SET folderid=? WHERE localfolderid=? AND syncid=?"
            [.num bres.folderid, .num localfolderid, .num syncid])
          let ret : ℤ ← ask .commitTransaction
          release .diffMutex
          pure ret

def setLocalFileRemoteId (localfileid fileid hash : ℕ) : Prog Unit := do
  let _ : Unit ← ask (.sqlRun "UPDATE localfile SET fileid=?, hash=? WHERE id=?" [.num fileid, .num hash, .num localfileid])
  pure ()

/-- A rename that failed takes the transaction back. -/
def endTransaction (ret : ℤ) : Prog ℤ := if ret ≠ 0 then ask .rollbackTransaction else ask .commitTransaction

def setLocalFileConflicted (localfileid fileid hash : ℕ) (localpath newname : String) (taskid : ℕ) : Prog Unit := do
  let _ : ℤ ← ask .startTransaction
  let _ : Unit ← ask (.sqlRun "UPDATE localfile SET fileid=?, hash=?, name=? WHERE id=?"
    [.num fileid, .num hash, .str newname, .num localfileid])
  let _ : Unit ← ask (.sqlRun "UPDATE task SET name=? WHERE id=?" [.str newname, .num taskid])
  let newpath : String ← ask (.localPathForLocalFile localfileid)
  acquire .memory
  let ret : ℤ ← ask (.fileRenameOverwrite localpath newpath)
  let _ ← endTransaction ret
  release .memory
  pure ()

/-- `copy_file`. -/
def copyFile (auth : String) (fileid hash folderid : ℕ) (name : String) (localfileid : ℕ) : Prog ℤ := do
  let api : Bool ← ask .apipoolGet
  if api = false then pure (-1)
  else
    acquire .connection
    acquire .diffMutex
    let res ← sendCommand "copyfile" [("auth", .str auth), ("fileid", .num fileid), ("hash", .num hash), ("tofolderid", .num folderid),
      ("toname", .str name)]
    match res with
    | none =>
      release .diffMutex
      release .connection
      pure (-1)
    | some res =>
      release .connection
      if res.result ≠ 0 then
        release .diffMutex
        release .result
        let _ : Unit ← ask (.processApiError res.result)
        pure 0
      else
        setLocalFileRemoteId localfileid res.fileid res.hash
        release .diffMutex
        release .result
        pure 1

/-! ### Uploads -/

/-- A file to upload. -/
structure Upload where
  localpath : String
  hashhex : String
  fsize : ℕ
  folderid : ℕ
  name : String
  localfileid : ℕ
  taskid : ℕ
  /-- `pr`: the parameter that says what the file is uploaded over. -/
  pr : String × Param
deriving DecidableEq, Repr

/-- The loop of `upload_file` from `bw` bytes on, and whether it sent the whole file. -/
def uploadLoop (fsize bw : ℕ) : Prog Bool :=
  if bw < fsize then do
    let stop : Bool ← ask .uploadStopped
    if stop then pure false
    else
      let _ : Unit ← ask .waitStatuses
      let rd := if fsize - bw > copyBufferSize then copyBufferSize else fsize - bw
      let rrd : ℤ ← ask (.fileRead rd)
      if _hread : rrd ≤ 0 then pure false
      else
        let written : ℤ ← ask (.socketWriteall rrd)
        if written ≠ rrd then pure false
        else
          let more : Prog Bool := do
            let _ : Unit ← ask (.addBytesUploaded rrd)
            uploadLoop fsize (bw + rrd.toNat)
          if bw + rrd.toNat = fsize then
            let past : ℤ ← ask .fileReadPastEnd
            if past ≠ 0 then pure false else more
          else more
  else pure true
termination_by fsize - bw

def err00 : Prog ℤ := do
  release .diffMutex
  pure (-1)

def err0 : Prog ℤ := do
  release .file
  err00

def err1 : Prog ℤ := do
  release .connection
  err0

def err2 : Prog ℤ := do
  release .memory
  err1

/-- What `upload_file` stores of an answer. -/
def storeUploaded (u : Upload) (res : Reply) : Prog Unit := do
  let _ : ℤ ← ask .startTransaction
  let _ : Unit ← ask (.sqlRun "REPLACE INTO hashchecksum (hash, size, checksum) VALUES (?, ?, ?)"
    [.num res.hash, .num res.size, .str res.checksum])
  if res.conflicted then
    let _ : ℤ ← ask .commitTransaction
    setLocalFileConflicted u.localfileid res.fileid res.hash u.localpath res.name u.taskid
  else
    setLocalFileRemoteId u.localfileid res.fileid res.hash
    let _ : ℤ ← ask .commitTransaction
    pure ()

/-- `upload_file`. -/
def uploadFile (auth : String) (u : Upload) : Prog ℤ := do
  let fd : Bool ← ask (.fileOpen u.localpath)
  if fd = false then pure (-1)
  else
    acquire .file
    let api : Bool ← ask .apipoolGet
    if api = false then err0
    else
      acquire .connection
      let sent : Bool ← ask (.sendHeader "uploadfile" [("auth", .str auth), ("folderid", .num u.folderid), ("filename", .str u.name),
        ("nopartial", .num 1), u.pr] u.fsize)
      if sent = false then err1
      else
        acquire .memory
        let whole ← uploadLoop u.fsize 0
        if whole = false then err2
        else
          release .memory
          release .file
          let _ : Unit ← ask .setDefaultSendbuf
          acquire .diffMutex
          let res ← getResult
          match res with
          | none =>
            release .connection
            err00
          | some res =>
            release .connection
            if res.result ≠ 0 then
              release .result
              let _ : Unit ← ask (.processApiError res.result)
              if handleApiResult res.result = .tempfail then err00
              else
                release .diffMutex
                pure 0
            else
              storeUploaded u res
              release .diffMutex
              release .result
              pure (if res.size ≠ u.fsize ∨ res.checksum ≠ u.hashhex then -1 else 0)

/-- What `upload_save` stores of an answer. -/
def storeSaved (u : Upload) (res : Reply) : Prog Unit := do
  let _ : ℤ ← ask .startTransaction
  let _ : Unit ← ask (.sqlRun "REPLACE INTO hashchecksum (hash, size, checksum) VALUES (?, ?, ?)"
    [.num res.hash, .num u.fsize, .str u.hashhex])
  if res.conflicted then setLocalFileConflicted u.localfileid res.fileid res.hash u.localpath res.name u.taskid
  else setLocalFileRemoteId u.localfileid res.fileid res.hash
  let _ : ℤ ← ask .commitTransaction
  pure ()

/-- `upload_save`, on a connection of its caller. -/
def uploadSave (auth : String) (u : Upload) (uploadid : ℕ) : Prog NetResult := do
  acquire .diffMutex
  let res ← sendCommand "upload_save" [("auth", .str auth), ("folderid", .num u.folderid), ("name", .str u.name), ("uploadid", .num uploadid), u.pr]
  match res with
  | none =>
    release .diffMutex
    pure .tempfail
  | some res =>
    if res.result ≠ 0 then
      let _ : Unit ← ask (.processApiError res.result)
      release .result
      release .diffMutex
      pure (handleApiResult res.result)
    else
      storeSaved u res
      release .result
      release .diffMutex
      pure .ok

/-! ### What balances -/

/-- An answer of the server that is an error. -/
def answersError : (c : Call) → c.Ret → Bool
  | .sendCommand _ _, some res => res.result ≠ 0
  | _, _ => false

/-- What ends an upload before its answer. -/
def endsUpload : (c : Call) → c.Ret → Bool
  | .apipoolGet, api => !api
  | .sendHeader _ _ _, sent => !sent
  | .uploadStopped, stop => stop
  | .fileRead _, rrd => rrd ≤ 0
  | .socketWriteall len, written => written ≠ len
  | .fileReadPastEnd, past => past ≠ 0
  | _, _ => false

def nothing : (c : Call) → c.Ret → Bool := fun _ _ => false

/-- Calls that store an answer. -/
def Stores : Call → Prop
  | .sqlRun _ _ | .startTransaction | .commitTransaction | .rollbackTransaction | .localPathForLocalFile _
  | .fileRenameOverwrite _ _ => True
  | _ => False

/-- Storing an answer is never fatal. -/
def Quiet (fatal : (c : Call) → c.Ret → Bool) : Prop := ∀ c, Stores c → ∀ ret, fatal c ret = false

variable {fatal : (c : Call) → c.Ret → Bool} {held : List Resource} {α : Type} {Q : α → Program.Status Resource → Prop}

theorem Quiet.ask (h : Quiet fatal) {c : Call} (hc : Stores c) : Program.Keeps (S := calls) fatal (ask c) := Program.keeps_ask (h c hc)

theorem setLocalFileRemoteId_keeps (h : Quiet fatal) {localfileid fileid hash : ℕ} :
    Program.Keeps (S := calls) fatal (setLocalFileRemoteId localfileid fileid hash) :=
  (h.ask (by trivial)).bind fun _ => .pure

theorem endTransaction_keeps (h : Quiet fatal) {ret : ℤ} : Program.Keeps (S := calls) fatal (endTransaction ret) :=
  .ite (fun _ => h.ask (by trivial)) fun _ => h.ask (by trivial)

theorem setLocalFileConflicted_keeps (h : Quiet fatal) {localfileid fileid hash taskid : ℕ} {localpath newname : String} :
    Program.Keeps (S := calls) fatal (setLocalFileConflicted localfileid fileid hash localpath newname taskid) := by
  refine (h.ask (by trivial)).bind fun _ => (h.ask (by trivial)).bind fun _ => (h.ask (by trivial)).bind fun _ => ?_
  refine (h.ask (by trivial)).bind fun newpath => fun held => Program.wp_acquire ((h.ask (by trivial)).wp fun ret => ?_)
  refine Program.Keeps.wp (endTransaction_keeps h) fun _ => ?_
  exact Program.wp_release_head rfl

theorem storeUploaded_keeps (h : Quiet fatal) {u : Upload} {res : Reply} : Program.Keeps (S := calls) fatal (storeUploaded u res) := by
  refine (h.ask (by trivial)).bind fun _ => (h.ask (by trivial)).bind fun _ => .ite (fun _ => ?_) fun _ => ?_
  · exact (h.ask (by trivial)).bind fun _ => setLocalFileConflicted_keeps h
  · exact (setLocalFileRemoteId_keeps h).bind fun _ => (h.ask (by trivial)).bind fun _ => .pure

theorem storeSaved_keeps (h : Quiet fatal) {u : Upload} {res : Reply} : Program.Keeps (S := calls) fatal (storeSaved u res) := by
  refine (h.ask (by trivial)).bind fun _ => (h.ask (by trivial)).bind fun _ => ?_
  have hend : Program.Keeps (S := calls) fatal (do let _ : ℤ ← ask .commitTransaction; pure () : Prog Unit) :=
    (h.ask (by trivial)).bind fun _ => .pure
  by_cases hc : res.conflicted
  · rw [if_pos hc]
    exact (setLocalFileConflicted_keeps h).bind fun _ => hend
  · rw [if_neg hc]
    exact (setLocalFileRemoteId_keeps h).bind fun _ => hend

/-- A call that may return a result, which is held then. -/
theorem wp_sendCommand {cmd : String} {params : List (String × Param)} {f : Option Reply → Prog α}
    (hnone : (f none).Wp (S := calls) fatal ⟨some held, !fatal (.sendCommand cmd params) none⟩ Q)
    (hsome : ∀ res, (f (some res)).Wp (S := calls) fatal ⟨some (.result :: held), !fatal (.sendCommand cmd params) (some res)⟩ Q) :
    (sendCommand cmd params >>= f : Prog α).Wp (S := calls) fatal ⟨some held, true⟩ Q := by
  intro ret
  cases ret with
  | none => exact hnone
  | some res => exact hsome res

theorem wp_getResult {f : Option Reply → Prog α} (hnone : (f none).Wp (S := calls) fatal ⟨some held, !fatal .getResult none⟩ Q)
    (hsome : ∀ res, (f (some res)).Wp (S := calls) fatal ⟨some (.result :: held), !fatal .getResult (some res)⟩ Q) :
    (getResult >>= f : Prog α).Wp (S := calls) fatal ⟨some held, true⟩ Q := by
  intro ret
  cases ret with
  | none => exact hnone
  | some res => exact hsome res

theorem settled_of_spared : Program.Settled (⟨some [], true⟩ : Program.Status Resource) := ⟨fun _ => rfl, fun _ => rfl⟩

theorem settled_of_lost : Program.Settled (⟨none, false⟩ : Program.Status Resource) := ⟨nofun, nofun⟩

theorem settled_of_left (hheld : held ≠ []) : Program.Settled (⟨some held, false⟩ : Program.Status Resource) :=
  ⟨fun h => absurd (Option.some.inj h) hheld, nofun⟩

theorem answersError_quiet : Quiet answersError := fun c hc ret => by
  cases c <;> first | rfl | exact hc.elim

theorem endsUpload_quiet : Quiet endsUpload := fun c hc ret => by
  cases c <;> first | rfl | exact hc.elim

/-- A folder is created and nothing remains, unless the server answers an error: that answer is not freed. -/
theorem taskCreatefolder_settled {auth name : String} {syncid localfolderid : ℕ} :
    (taskCreatefolder auth syncid localfolderid name).Wp (S := calls) answersError ⟨some [], true⟩ fun _ s => Program.Settled s := by
  refine (Program.keeps_ask (S := calls) fun _ => rfl).wp fun row => (Program.keeps_ask (S := calls) fun _ => rfl).wp fun nname => ?_
  refine Program.wp_acquire (Program.Wp.ite (fun _ => Program.wp_release_head settled_of_spared) fun _ => ?_)
  refine (Program.keeps_ask (S := calls) fun _ => rfl).wp fun (api : Bool) => Program.Wp.ite (fun _ => Program.wp_release_head settled_of_spared) fun _ => ?_
  refine Program.wp_acquire (Program.wp_acquire (wp_sendCommand ?_ fun bres => ?_))
  · refine Program.wp_release (by decide) rfl (Program.wp_release_head (Program.wp_release_head ?_))
    exact settled_of_spared
  · refine Program.wp_release (by decide) rfl (Program.wp_release (by decide) rfl ?_)
    by_cases hresult : bres.result ≠ 0
    · rw [if_pos hresult, answersError, decide_eq_true hresult]
      exact Program.wp_release (by decide) rfl fun _ => settled_of_left (List.cons_ne_nil _ _)
    · rw [if_neg hresult, answersError, decide_eq_false hresult]
      refine Program.wp_release_head ?_
      refine (answersError_quiet.ask (by trivial)).wp fun _ => (answersError_quiet.ask (by trivial)).wp fun _ => ?_
      refine (answersError_quiet.ask (by trivial)).wp fun _ => (answersError_quiet.ask (by trivial)).wp fun _ => ?_
      exact Program.wp_release_head settled_of_spared

theorem copyFile_keeps {auth name : String} {fileid hash folderid localfileid : ℕ} :
    Program.Keeps (S := calls) nothing (copyFile auth fileid hash folderid name localfileid) := by
  intro held
  refine (Program.keeps_ask (S := calls) fun _ => rfl).wp fun (api : Bool) => Program.Wp.ite (fun _ => rfl) fun _ => ?_
  refine Program.wp_acquire (Program.wp_acquire (wp_sendCommand ?_ fun res => ?_))
  · exact Program.wp_release_head (Program.wp_release_head rfl)
  · refine Program.wp_release (by simp) rfl (Program.Wp.ite (fun _ => ?_) fun _ => ?_)
    · exact Program.wp_release (by simp) rfl (Program.wp_release_head fun _ => rfl)
    · refine (setLocalFileRemoteId_keeps fun _ _ _ => rfl).wp fun _ => ?_
      exact Program.wp_release (by simp) rfl (Program.wp_release_head rfl)

theorem uploadSave_keeps {auth : String} {u : Upload} {uploadid : ℕ} : Program.Keeps (S := calls) nothing (uploadSave auth u uploadid) := by
  intro held
  refine Program.wp_acquire (wp_sendCommand (Program.wp_release_head rfl) fun res => Program.Wp.ite (fun _ => ?_) fun _ => ?_)
  · exact fun _ => Program.wp_release_head (Program.wp_release_head rfl)
  · refine (storeSaved_keeps fun _ _ _ => rfl).wp fun _ => ?_
    exact Program.wp_release_head (Program.wp_release_head rfl)

/-- The loop takes nothing, and fails exactly by what ends an upload. -/
theorem uploadLoop_wp {fsize bw : ℕ} :
    (uploadLoop fsize bw).Wp (S := calls) endsUpload ⟨some held, true⟩ fun whole s => s = ⟨some held, whole⟩ := by
  induction bw using uploadLoop.induct fsize with
  | case1 bw hlt ih =>
    rw [uploadLoop, if_pos hlt]
    refine Program.wp_ask fun (stop : Bool) => ?_
    cases stop with
    | true => rfl
    | false =>
      refine (Program.keeps_ask (S := calls) fun _ => rfl).wp fun _ => Program.wp_ask fun (rrd : ℤ) => ?_
      by_cases hread : rrd ≤ 0
      · rw [dif_pos hread, endsUpload, decide_eq_true hread]
        rfl
      · rw [dif_neg hread, endsUpload, decide_eq_false hread]
        refine Program.wp_ask fun (written : ℤ) => ?_
        by_cases hwritten : written ≠ rrd
        · rw [if_pos hwritten, endsUpload, decide_eq_true hwritten]
          rfl
        · rw [if_neg hwritten, endsUpload, decide_eq_false hwritten]
          have hmore : (do let _ : Unit ← ask (.addBytesUploaded rrd); uploadLoop fsize (bw + rrd.toNat) : Prog Bool).Wp (S := calls)
              endsUpload ⟨some held, true⟩ fun whole s => s = ⟨some held, whole⟩ :=
            (Program.keeps_ask (S := calls) fun _ => rfl).wp fun _ => ih rrd hread written hwritten
          refine Program.Wp.ite (fun _ => Program.wp_ask fun (past : ℤ) => ?_) fun _ => hmore
          by_cases hpast : past ≠ 0
          · rw [if_pos hpast, endsUpload, decide_eq_true hpast]
            rfl
          · rw [if_neg hpast, endsUpload, decide_eq_false hpast]
            exact hmore
  | case2 bw hge =>
    rw [uploadLoop, if_neg hge]
    rfl

/-- A file is uploaded or not and nothing remains, unless the upload ends before its answer: then a mutex is given back
that was not taken. -/
theorem uploadFile_settled {auth : String} {u : Upload} :
    (uploadFile auth u).Wp (S := calls) endsUpload ⟨some [], true⟩ fun _ s => Program.Settled s := by
  refine (Program.keeps_ask (S := calls) fun _ => rfl).wp fun (fd : Bool) => Program.Wp.ite (fun _ => settled_of_spared) fun _ => ?_
  refine Program.wp_acquire (Program.wp_ask fun (api : Bool) => ?_)
  cases api with
  | false => exact Program.wp_release_head settled_of_lost
  | true =>
    refine Program.wp_acquire (Program.wp_ask fun (sent : Bool) => ?_)
    cases sent with
    | false => exact Program.wp_release_head (Program.wp_release_head settled_of_lost)
    | true =>
      refine Program.wp_acquire (uploadLoop_wp.bind fun whole s hs => ?_)
      rw [hs]
      cases whole with
      | false => exact Program.wp_release_head (Program.wp_release_head (Program.wp_release_head settled_of_lost))
      | true =>
        refine Program.wp_release_head (Program.wp_release (by decide) rfl ?_)
        refine (Program.keeps_ask (S := calls) fun _ => rfl).wp fun _ => Program.wp_acquire (wp_getResult ?_ fun res => ?_)
        · exact Program.wp_release (by decide) rfl (Program.wp_release_head settled_of_spared)
        · refine Program.wp_release (by decide) rfl (Program.Wp.ite (fun _ => ?_) fun _ => ?_)
          · refine Program.wp_release_head ((Program.keeps_ask (S := calls) fun _ => rfl).wp fun _ => ?_)
            refine Program.Wp.ite (fun _ => ?_) fun _ => ?_
            · exact Program.wp_release_head settled_of_spared
            · exact Program.wp_release_head settled_of_spared
          · refine (storeUploaded_keeps endsUpload_quiet).wp fun _ => ?_
            exact Program.wp_release (by decide) rfl (Program.wp_release_head settled_of_spared)

/-- Nothing of a kind was returned in a run. -/
def Never (kind : (c : Call) → c.Ret → Bool) (trace : List (Event Resource calls)) : Prop :=
  ∀ (c : Call) (ret : c.Ret), Event.returned (S := calls) c ret ∈ trace → kind c ret = false

/-- Copying and saving always balance, creating a folder does unless the server answers an error, and an upload does unless it ends
between the opening of the file and the answer. -/
theorem uploads_balance (auth : String) :
    (∀ syncid localfolderid name ret trace, (taskCreatefolder auth syncid localfolderid name).Runs ret trace →
      (Balanced trace ↔ Never answersError trace)) ∧
    (∀ fileid hash folderid name localfileid ret trace, (copyFile auth fileid hash folderid name localfileid).Runs ret trace → Balanced trace) ∧
    (∀ u ret trace, (uploadFile auth u).Runs ret trace → (Balanced trace ↔ Never endsUpload trace)) ∧
    ∀ u uploadid ret trace, (uploadSave auth u uploadid).Runs ret trace → Balanced trace :=
  ⟨fun _ _ _ _ _ hrun => taskCreatefolder_settled.balanced_iff hrun, fun _ _ _ _ _ _ _ hrun => copyFile_keeps.balanced hrun,
    fun _ _ _ hrun => uploadFile_settled.balanced_iff hrun, fun _ _ _ _ hrun => uploadSave_keeps.balanced hrun⟩

def someUpload : Upload := ⟨"/a/b", "00", 5, 3, "b", 7, 9, ("ifhash", .num 4)⟩

/-- A file that cannot be opened, and an answer that does not come. -/
theorem uploads_balance_closed :
    Balanced [Event.returned (R := Resource) (S := calls) (.fileOpen "/a/b") false] ∧
    ∃ trace, (uploadSave "auth" someUpload 2).Runs .tempfail trace ∧ Balanced trace := by
  obtain ⟨-, -, hfile, hsave⟩ := uploads_balance "auth"
  constructor
  · refine (hfile someUpload (-1) _ ⟨false, [], rfl, rfl, rfl⟩).mpr fun c ret hmem => ?_
    cases List.mem_singleton.mp hmem
    rfl
  · have hrun : ∃ trace, (uploadSave "auth" someUpload 2).Runs .tempfail trace := ⟨_, _, rfl, none, _, rfl, _, rfl, rfl, rfl⟩
    obtain ⟨trace, hrun⟩ := hrun
    exact ⟨trace, hrun, hsave someUpload 2 .tempfail trace hrun⟩

/-- Without a connection the mutex is given back that was not taken, and an error of the server is not freed. -/
theorem uploads_unbalanced :
    (∃ trace, (uploadFile "auth" someUpload).Runs (-1) trace ∧ ¬Balanced trace) ∧
    ∃ trace, (taskCreatefolder "auth" 1 2 "b").Runs 0 trace ∧ ¬Balanced trace := by
  refine ⟨⟨_, ⟨true, _, rfl, _, rfl, false, _, rfl, _, rfl, _, rfl, rfl, rfl⟩, ?_⟩,
    ⟨_, ⟨some 5, _, rfl, "b", _, rfl, _, rfl, true, _, rfl, _, rfl, _, rfl, some ⟨2003, 0, 0, 0, 0, "", false, ""⟩, _, rfl, _, rfl, _, rfl,
      _, rfl, _, rfl, (), _, rfl, rfl, rfl⟩, ?_⟩⟩
  · rw [balanced_iff]
    decide
  · rw [balanced_iff]
    decide

end Pclsync.Transfers.UploadTasks
