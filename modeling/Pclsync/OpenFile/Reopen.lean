import Pclsync.OpenFile.Handle
import Pclsync.FsCrypto.Offsets
import Pclsync.Tasks.Calls

/-! Switching an open file to writing, `psync_fs_reopen_file_for_writing` from `pfs.c`: a
task is stored for it, and its local files are opened. -/
namespace Pclsync.OpenFile
open Lib.Files
open Tasks (Name Record Has)
open FsCrypto (sizeofIndexHeader)

/-! ### Local files -/

/-- `psync_openfile_t`, of a file that may be encrypted. -/
structure File extends Handle where
  fileid : ℤ
  remotefileid : ℤ
  hash : ℤ
  currentfolder : ℤ
  currentname : Name
  encrypted : Bool := false
  /-- Whether the encoder is loaded. -/
  encoder : Bool := false
  logfile : Option Bytes := none
  logoffset : ℕ := 0
deriving DecidableEq, Repr

/-- What `open_write_files` finds. -/
structure Openings where
  /-- The data file that is at its path, or is made there. -/
  datafile : Option Bytes
  datasize : Bool
  indexfile : Option Bytes
  indexsize : Bool
  /-- How far the index can be read. -/
  readable : ℕ
  logfile : Bool
  log : Fate
deriving DecidableEq, Repr

/-- Everything can be opened and read. -/
def Openings.whole (datafile indexfile : Bytes) : Openings :=
  ⟨some datafile, true, some indexfile, true, indexfile.length, true, .whole⟩

/-- `load_interval_tree`. The header is empty. -/
def loadIndex (of : File) (indexfile : Bytes) (opens : Openings) : Option (Bool × File) :=
  if ¬opens.indexsize then some (false, of)
  else if indexfile.length < sizeofIndexHeader then some (true, of)
  else do
    let (ifs, tree) ← loadIntervalTree (indexfile.take opens.readable) indexfile.length of.writeintervals
    if ifs = -1 then some (false, { of with writeintervals := tree })
    else some (true, { of with writeintervals := tree, indexoff := ifs.toNat })

/-- The index in `open_write_files`. -/
def openIndexfile (of : File) (opens : Openings) : Option (ℤ × File) :=
  if of.newfile ∨ of.indexfile.isSome then some (0, of)
  else match opens.indexfile with
    | none => some (-eio, of)
    | some indexfile => do
      let (loaded, of) ← loadIndex { of with indexfile := some indexfile } indexfile opens
      some (if loaded then 0 else -eio, of)

/-- `psync_fs_crypto_init_log`. -/
def initLog (of : File) (fate : Fate) : ℤ × File :=
  let (wrt, logfile) := filePwrite of.logfile (List.replicate FsCrypto.sectorSize 0xff) 0 fate
  let of := { of with logfile := logfile }
  if wrt ≠ some FsCrypto.sectorSize then (-eio, of) else (0, { of with logoffset := FsCrypto.sectorSize })

/-- The log in `open_write_files`. -/
def openLogfile (of : File) (opens : Openings) : ℤ × File :=
  if of.encrypted ∧ of.logfile.isNone then
    if ¬opens.logfile then (-eio, of) else initLog { of with logfile := some [] } opens.log
  else (0, of)

/-- `open_write_files`, with a `trunc` of zero. -/
def openWriteFiles (of : File) (opens : Openings) : Option (ℤ × File) :=
  if of.datafile.isSome then some (0, of)
  else match opens.datafile with
    | none => some (-eio, of)
    | some datafile => do
      let of := { of with datafile := some datafile }
      if ¬opens.datasize then some (-eio, of)
      else
        let currentsize ← if of.encrypted then FsCrypto.plainSize datafile.length else some datafile.length
        let (ret, of) ← openIndexfile { of with currentsize := currentsize } opens
        if ret ≠ 0 then some (ret, of) else some (openLogfile of opens)

/-! ### Pages -/

/-- `PSYNC_FS_PAGE_SIZE`. -/
def pageSize : ℕ := 4096

/-- `PSYNC_FS_MAX_SIZE_CONVERT_NEWFILE`. -/
def maxSizeConvertNewfile : ℕ := 32 * pageSize

/-- What a copy of pages finds in the cache, and how its writes go. -/
structure Pages where
  page : ℕ → Option Bytes
  fate : ℕ → Fate
  sync : Bool

/-- The loop of `psync_pagecache_copy_all_pages_from_cache_to_file_locked`. -/
def copyPages (pages : Pages) : ℕ → ℕ → Option Bytes → Bool × Option Bytes
  | 0, _, datafile => (pages.sync, datafile)
  | left + 1, i, datafile =>
    match pages.page i with
    | none => (false, datafile)
    | some buff =>
      let (wr, datafile) := filePwrite datafile buff (i * pageSize) (pages.fate i)
      if wr ≠ some buff.length then (false, datafile) else copyPages pages left (i + 1) datafile

/-- `psync_pagecache_copy_all_pages_from_cache_to_file_locked`. -/
def copyAllPagesFromCacheToFile (of : File) (size : ℕ) (pages : Pages) : Bool × File :=
  let (copied, datafile) := copyPages pages ((size + pageSize - 1) / pageSize) 0 of.datafile
  (copied, { of with datafile := datafile })

/-! ### Switching to writing -/

/-- `psync_crypto_to_error`. -/
inductive CryptoError where
  | notStarted
  | rsaError
  | folderNotFound
  | fileNotFound
  | invalidKey
  | cantConnect
  | folderNotEncrypted
  | internalError
  | other
deriving DecidableEq, Repr

/-- `EROFS`. -/
def erofs : ℤ := 30

/-- `psync_fs_crypto_err_to_errno`. -/
def cryptoErrToErrno : CryptoError → ℤ
  | .notStarted => Tasks.eacces
  | .rsaError => eio
  | .folderNotFound => Tasks.enoent
  | .fileNotFound => Tasks.enoent
  | .invalidKey => eio
  | .cantConnect => 107
  | .folderNotEncrypted => 22
  | .internalError => 22
  | .other => 22

/-- An open file, the tasks, and `clean_cache_stoppers`. -/
structure Session where
  of : File
  tasks : Tasks.State := {}
  cleanCacheStoppers : UInt32 := 0
deriving DecidableEq, Repr

/-- How what a switch calls goes, and what the other threads do where it lets go of the
file's mutex. -/
structure Environment where
  /-- `psync_cloud_crypto_get_file_encoder`. -/
  encoder : Except CryptoError Unit
  afterEncoder : Session → Session
  /-- `psync_sql_trylock` takes the lock. -/
  trylock : Bool
  afterLock : Session → Session
  /-- `psync_crypto_isexpired`. -/
  expired : Bool
  /-- `psync_cloud_crypto_get_file_encoded_key`. -/
  key : Except CryptoError (List UInt8)
  /-- `psync_pagecache_have_all_pages_in_cache`. -/
  havePages : Bool
  /-- `psync_pagecache_lock_pages_in_cache` finds the cleaning of the cache at rest. -/
  cleanCacheFree : Bool
  commits : Bool
  opens : Openings
  pages : Pages
  /-- The data file is given its size. -/
  sets : Bool

/-- `psync_pagecache_lock_pages_in_cache`, where it takes the lock. -/
def Session.lockPages (s : Session) : Session := { s with cleanCacheStoppers := s.cleanCacheStoppers + 1 }

/-- `psync_pagecache_unlock_pages_from_cache`. -/
def Session.unlockPages (s : Session) : Session := { s with cleanCacheStoppers := s.cleanCacheStoppers - 1 }

/-- The size of the remote file, and the key of a new one. -/
def sizeAndKey (env : Environment) (of : File) : Option (Except ℤ (ℕ × Option (List UInt8))) :=
  if of.encrypted then
    if env.expired then some (.error erofs)
    else (FsCrypto.cryptoSize of.initialsize).map fun size =>
      match env.key with
      | .error e => .error (cryptoErrToErrno e)
      | .ok key => .ok (size, some key)
  else some (.ok (of.initialsize, none))

/-- The file becomes a new one. The lock of the pages is taken where there are pages. -/
def reopenAsNewfile (env : Environment) (s : Session) (size : ℕ) (encsymkey : Option (List UInt8)) : Option (ℤ × Session) :=
  match s.tasks.addCreat s.of.currentfolder s.of.currentname encsymkey env.commits with
  | (tasks, none) => some (-eio, { s with tasks := tasks }.unlockPages)
  | (tasks, some cr) => do
    let (ret, of) ← openWriteFiles { s.of with fileid := cr.id, newfile := true, modified := true } env.opens
    let s := { s with tasks := tasks, of := of }
    if ret ≠ 0 then some (ret, s.unlockPages)
    else if size ≠ 0 then
      let (copied, of) := copyAllPagesFromCacheToFile of size env.pages
      let s := { s with of := of }.unlockPages
      if ¬copied then some (-eio, s) else some (1, { s with of := { of with currentsize := of.initialsize } })
    else some (1, { s with of := { of with currentsize := of.initialsize } })

/-- The file becomes a modified one. -/
def reopenAsModified (env : Environment) (s : Session) (size : ℕ) (encsymkey : Option (List UInt8)) : Option (ℤ × Session) :=
  match s.tasks.addModifiedFile s.of.currentfolder s.of.currentname s.of.fileid s.of.hash encsymkey env.commits with
  | (tasks, none) => some (-eio, { s with tasks := tasks })
  | (tasks, some cr) => do
    let (ret, of) ← openWriteFiles { s.of with fileid := cr.id } env.opens
    if ret ≠ 0 then some (ret, { s with tasks := tasks, of := of })
    else
      let (set, datafile) := fileSetSize of.datafile size env.sets
      let of := { of with datafile := datafile }
      if ¬set then some (-eio, { s with tasks := tasks, of := of })
      else some (0, { s with
        tasks := tasks
        of := { of with modified := true, indexoff := 0, currentsize := of.initialsize } })

/-- All pages are there, and are locked unless there are none. -/
def Environment.converts (env : Environment) (size : ℕ) : Bool :=
  size = 0 ∨ size ≤ maxSizeConvertNewfile ∧ env.havePages ∧ env.cleanCacheFree

/-- `psync_fs_reopen_file_for_writing`, under both locks. -/
def reopenLocked (env : Environment) (s : Session) : Option (ℤ × Session) := do
  match ← sizeAndKey env s.of with
  | .error e => some (-e, s)
  | .ok (size, encsymkey) =>
    if env.converts size then reopenAsNewfile env (if size = 0 then s else s.lockPages) size encsymkey
    else reopenAsModified env s size encsymkey

/-- `psync_fs_reopen_file_for_writing`, once the encoder is loaded. -/
def reopenLoaded (env : Environment) (s : Session) : Option (ℤ × Session) :=
  if env.trylock then reopenLocked env s
  else
    let s := env.afterLock s
    if s.of.newfile ∨ s.of.modified then some (1, s) else reopenLocked env s

/-- `psync_fs_reopen_file_for_writing`. -/
def reopenFileForWriting (env : Environment) (s : Session) : Option (ℤ × Session) :=
  if s.of.encrypted ∧ ¬s.of.encoder then
    let s := env.afterEncoder s
    match env.encoder with
    | .error e => some (-cryptoErrToErrno e, s)
    | .ok () =>
      let s := { s with of := { s.of with encoder := true } }
      if s.of.newfile ∨ s.of.modified then some (1, s) else reopenLoaded env s
  else reopenLoaded env s

/-! ### What a failure leaves -/

/-- The size of the remote file. -/
def File.remoteSize (of : File) : Option ℕ :=
  if of.encrypted then FsCrypto.cryptoSize of.initialsize else some of.initialsize

/-- The encoder is to be loaded and cannot be. -/
def Environment.EncoderFails (env : Environment) (s : Session) : Prop :=
  s.of.encrypted ∧ ¬s.of.encoder ∧ ¬env.encoder.isOk

instance (env : Environment) (s : Session) : Decidable (env.EncoderFails s) := inferInstanceAs (Decidable (_ ∧ _))

/-- The session once the encoder is loaded. -/
def Environment.loaded (env : Environment) (s : Session) : Session :=
  if s.of.encrypted ∧ ¬s.of.encoder then
    let s := env.afterEncoder s
    { s with of := { s.of with encoder := true } }
  else s

/-- The session once both locks are taken. -/
def Environment.locked (env : Environment) (s : Session) : Session :=
  if env.trylock then env.loaded s else env.afterLock (env.loaded s)

/-- The session that a switch last finds when it waits. -/
def Environment.found (env : Environment) (s : Session) : Session :=
  if env.EncoderFails s then env.afterEncoder s else env.locked s

/-- The file is as it was, and so are the records of the tasks and the lock of the pages. -/
structure Session.Kept (s s' : Session) : Prop where
  fileid : s'.of.fileid = s.of.fileid
  newfile : s'.of.newfile = s.of.newfile
  modified : s'.of.modified = s.of.modified
  currentsize : s'.of.currentsize = s.of.currentsize
  db : s'.tasks.db = s.tasks.db
  overlay : ∀ folderid, s'.tasks.overlay.get folderid = s.tasks.overlay.get folderid
  cleanCacheStoppers : s'.cleanCacheStoppers = s.cleanCacheStoppers

/-- Under both locks it fails before there is a task: there is no key, or the task cannot be
stored, where pages are locked or where no creat is to be replaced. -/
def Environment.FailsEarly (env : Environment) (s : Session) : Prop :=
  s.of.encrypted ∧ (env.expired ∨ ∃ e, env.key = .error e) ∨
    ¬env.commits ∧ ∀ size ∈ s.of.remoteSize,
      if env.converts size then size ≠ 0 else ¬Has (s.tasks.overlay.get s.of.currentfolder).creats s.of.currentname

variable {env : Environment} {s s' : Session} {ret : ℤ} {size : ℕ} {encsymkey : Option (List UInt8)}

theorem Session.Kept.refl (s : Session) : s.Kept s := ⟨rfl, rfl, rfl, rfl, rfl, fun _ => rfl, rfl⟩

/-- A task that is stored is one more row. -/
theorem addCreat_stored {t : Tasks.State} {folderid : ℤ} {name : Name} :
    (t.addCreat folderid name encsymkey true).1.db ≠ t.db := by
  intro h
  have hlength := congrArg (fun db => db.fstask.length) h
  simp [Tasks.State.addCreat, Tasks.Database.insertTask] at hlength

theorem addModifiedFile_stored {t : Tasks.State} {folderid fileid hash : ℤ} {name : Name} :
    (t.addModifiedFile folderid name fileid hash encsymkey true).1.db ≠ t.db := by
  intro h
  have hlength := congrArg (fun db => db.fstask.length) h
  simp [Tasks.State.addModifiedFile, Tasks.Database.insertTask] at hlength

/-- Once the task is stored it stays. -/
theorem reopenAsNewfile_tasks (h : reopenAsNewfile env s size encsymkey = some (ret, s')) :
    s'.tasks = (s.tasks.addCreat s.of.currentfolder s.of.currentname encsymkey env.commits).1 := by
  rw [reopenAsNewfile] at h
  generalize s.tasks.addCreat _ _ _ _ = added at h ⊢
  obtain ⟨tasks, found⟩ := added
  cases found with
  | none =>
    cases h
    rfl
  | some cr =>
    obtain ⟨⟨_, of⟩, -, h⟩ := Option.bind_eq_some_iff.mp h
    simp only at h
    split_ifs at h
    all_goals cases h; rfl

theorem reopenAsModified_tasks (h : reopenAsModified env s size encsymkey = some (ret, s')) :
    s'.tasks = (s.tasks.addModifiedFile s.of.currentfolder s.of.currentname s.of.fileid s.of.hash encsymkey env.commits).1 := by
  rw [reopenAsModified] at h
  generalize s.tasks.addModifiedFile _ _ _ _ _ _ = added at h ⊢
  obtain ⟨tasks, found⟩ := added
  cases found with
  | none =>
    cases h
    rfl
  | some cr =>
    obtain ⟨⟨_, of⟩, -, h⟩ := Option.bind_eq_some_iff.mp h
    simp only at h
    split_ifs at h
    all_goals cases h; rfl

/-- Where the task of a new file cannot be stored, a lock that was not taken is released. -/
theorem reopenAsNewfile_kept
    (h : reopenAsNewfile env (if size = 0 then s else s.lockPages) size encsymkey = some (ret, s')) :
    s.Kept s' ↔ ¬env.commits ∧ size ≠ 0 := by
  have htasks : ∀ s : Session, (if size = 0 then s else s.lockPages).tasks = s.tasks ∧ (if size = 0 then s else s.lockPages).of = s.of := by
    intro s
    split_ifs
    · exact ⟨rfl, rfl⟩
    · exact ⟨rfl, rfl⟩
  by_cases hcommits : env.commits = true
  · refine iff_of_false (fun hkept => ?_) fun hnot => hnot.1 hcommits
    have hdb := congrArg Tasks.State.db (reopenAsNewfile_tasks h)
    rw [hkept.db, hcommits, (htasks s).1, (htasks s).2] at hdb
    exact addCreat_stored hdb.symm
  · have hs' : s' = (if size = 0 then s else s.lockPages).unlockPages := by
      simp [reopenAsNewfile, Tasks.State.addCreat, hcommits] at h
      exact h.2.symm
    rw [hs']
    by_cases hsize : size = 0
    · rw [if_pos hsize]
      refine iff_of_false (fun hkept => ?_) fun hnot => hnot.2 hsize
      have hstoppers : s.cleanCacheStoppers - 1 = s.cleanCacheStoppers := hkept.cleanCacheStoppers
      grind
    · rw [if_neg hsize]
      refine iff_of_true ⟨rfl, rfl, rfl, rfl, rfl, fun _ => rfl, ?_⟩ ⟨hcommits, hsize⟩
      show s.cleanCacheStoppers + 1 - 1 = s.cleanCacheStoppers
      grind

/-- Where the task of a modified file cannot be stored, the creat of the file is gone. -/
theorem reopenAsModified_kept (h : reopenAsModified env s size encsymkey = some (ret, s')) :
    s.Kept s' ↔ ¬env.commits ∧ ¬Has (s.tasks.overlay.get s.of.currentfolder).creats s.of.currentname := by
  by_cases hcommits : env.commits = true
  · refine iff_of_false (fun hkept => ?_) fun hnot => hnot.1 hcommits
    have hdb := congrArg Tasks.State.db (reopenAsModified_tasks h)
    rw [hkept.db, hcommits] at hdb
    exact addModifiedFile_stored hdb.symm
  · have hs' : s' = { s with tasks := { s.tasks with
        overlay := s.tasks.overlay.update s.of.currentfolder (·.deleteCreat s.of.currentname 0) } } := by
      simp [reopenAsModified, Tasks.State.addModifiedFile, hcommits] at h
      exact h.2.symm
    rw [hs']
    constructor
    · refine fun hkept => ⟨hcommits, fun hhas => ?_⟩
      obtain ⟨cr, hcr⟩ := Option.isSome_iff_exists.mp hhas
      have hoverlay := congrArg (fun folder : Tasks.Folder => folder.creats.length) (hkept.overlay s.of.currentfolder)
      simp only [Tasks.Overlay.get_update, if_true, Tasks.Folder.deleteCreat, Tasks.deleteFromTree, hcr] at hoverlay
      have hmem := (Tasks.searchTree_some hcr).1
      have hlength := List.length_erase_of_mem hmem
      have hpos := List.length_pos_of_mem hmem
      omega
    · rintro ⟨_, hnot⟩
      refine ⟨rfl, rfl, rfl, rfl, rfl, fun folderid => ?_, rfl⟩
      show (s.tasks.overlay.update s.of.currentfolder _).get folderid = _
      rw [Tasks.Overlay.get_update]
      split_ifs with hfolder
      · rw [hfolder, Tasks.Folder.deleteCreat_of_not_has hnot]
      · rfl

/-- There is a size and a key unless the key is the reason to fail. -/
theorem sizeAndKey_cases {found : Except ℤ (ℕ × Option (List UInt8))} (h : sizeAndKey env s.of = some found) :
    (∃ e, found = .error e) ∧ (s.of.encrypted ∧ (env.expired ∨ ∃ e, env.key = .error e)) ∨
      (∃ size encsymkey, found = .ok (size, encsymkey) ∧ s.of.remoteSize = some size) ∧
        ¬(s.of.encrypted ∧ (env.expired ∨ ∃ e, env.key = .error e)) := by
  rw [sizeAndKey] at h
  rw [File.remoteSize]
  by_cases hencrypted : s.of.encrypted = true
  · rw [if_pos hencrypted] at h ⊢
    by_cases hexpired : env.expired = true
    · rw [if_pos hexpired] at h
      cases h
      exact .inl ⟨⟨_, rfl⟩, hencrypted, .inl hexpired⟩
    · rw [if_neg hexpired] at h
      obtain ⟨size, hsize, hfound⟩ := Option.map_eq_some_iff.mp h
      cases hkey : env.key with
      | error e =>
        rw [hkey] at hfound
        exact .inl ⟨⟨_, hfound.symm⟩, hencrypted, .inr ⟨e, rfl⟩⟩
      | ok key =>
        rw [hkey] at hfound
        exact .inr ⟨⟨size, some key, hfound.symm, hsize⟩, by simp [hexpired]⟩
  · rw [if_neg hencrypted] at h ⊢
    cases h
    exact .inr ⟨⟨_, none, rfl, rfl⟩, fun hboth => hencrypted hboth.1⟩

theorem reopenLocked_kept (h : reopenLocked env s = some (ret, s')) : s.Kept s' ↔ env.FailsEarly s := by
  obtain ⟨found, hfound, h⟩ := Option.bind_eq_some_iff.mp h
  rw [Environment.FailsEarly]
  rcases sizeAndKey_cases hfound with ⟨⟨e, rfl⟩, hkey⟩ | ⟨⟨size, encsymkey, rfl, hsize⟩, hkey⟩
  · cases h
    exact iff_of_true (.refl s) (.inl hkey)
  · rw [or_iff_right hkey]
    simp only [hsize, Option.mem_def, Option.some.injEq, forall_eq'] at h ⊢
    by_cases hconverts : env.converts size = true
    · rw [if_pos hconverts] at h ⊢
      exact reopenAsNewfile_kept h
    · rw [if_neg hconverts] at h ⊢
      exact reopenAsModified_kept h

/-- A switch that fails once the encoder is loaded fails under both locks. -/
theorem reopenLoaded_fails (h : reopenLoaded env s = some (ret, s')) (hneg : ret < 0) :
    reopenLocked env (if env.trylock then s else env.afterLock s) = some (ret, s') := by
  rw [reopenLoaded] at h
  by_cases htrylock : env.trylock = true
  · rw [if_pos htrylock] at h ⊢
    exact h
  · rw [if_neg htrylock] at h ⊢
    simp only at h
    split_ifs at h
    · cases h
      omega
    · exact h

/-- A switch that fails leaves the file, the tasks and the lock of the pages as they were
exactly where it fails before there is a task and releases only what it has locked. -/
theorem reopen_all_or_nothing (h : reopenFileForWriting env s = some (ret, s')) (hneg : ret < 0) :
    (env.found s).Kept s' ↔ env.EncoderFails s ∨ env.FailsEarly (env.locked s) := by
  rw [reopenFileForWriting] at h
  rw [Environment.found, Environment.locked, Environment.loaded]
  by_cases hload : s.of.encrypted = true ∧ ¬s.of.encoder = true
  · rw [if_pos hload] at h ⊢
    cases hencoder : env.encoder with
    | error e =>
      have hfails : env.EncoderFails s := ⟨hload.1, hload.2, by simp [hencoder, Except.isOk, Except.toBool]⟩
      rw [hencoder] at h
      cases h
      rw [if_pos hfails]
      exact iff_of_true (.refl _) (.inl hfails)
    | ok =>
      have hloads : ¬env.EncoderFails s := fun hfails => hfails.2.2 (by simp [hencoder, Except.isOk, Except.toBool])
      rw [if_neg hloads, or_iff_right hloads]
      simp only [hencoder] at h
      split_ifs at h
      · cases h
        omega
      · exact reopenLocked_kept (reopenLoaded_fails h hneg)
  · have hloads : ¬env.EncoderFails s := fun hfails => hload ⟨hfails.1, hfails.2.1⟩
    rw [if_neg hload] at h ⊢
    rw [if_neg hloads, or_iff_right hloads]
    exact reopenLocked_kept (reopenLoaded_fails h hneg)

/-- A plain remote file of some size that is open. -/
def opened (size : ℕ) : Session :=
  { of := { initialsize := size, currentsize := size, indexoff := 0, modified := false, newfile := false, writeintervals := [],
            datafile := none, indexfile := none, fileid := 7, remotefileid := 7, hash := 1, currentfolder := 0,
            currentname := [97] } }

/-- All goes well but for the task, which is not stored. -/
def unstored : Environment where
  encoder := .ok ()
  afterEncoder := id
  trylock := true
  afterLock := id
  expired := false
  key := .ok []
  havePages := true
  cleanCacheFree := true
  commits := false
  opens := .whole [] []
  pages := ⟨fun _ => some [], fun _ => .whole, true⟩
  sets := true

/-- A file of five bytes stays as it is. -/
theorem reopen_keeps_five_bytes : ∃ s', reopenFileForWriting unstored (opened 5) = some (-5, s') ∧
    (unstored.found (opened 5)).Kept s' := by
  refine ⟨_, rfl, (reopen_all_or_nothing rfl (by decide)).mpr (.inr (.inr ⟨Bool.false_ne_true, fun size hsize => ?_⟩))⟩
  cases hsize
  decide

/-- For an empty file no pages are locked, but the lock is released. -/
theorem reopen_unlocks_unlocked : ¬∀ (env : Environment) (s : Session) (ret : ℤ) (s' : Session),
    reopenFileForWriting env s = some (ret, s') → ret < 0 → (env.found s).Kept s' := by
  intro hall
  have hkept := hall unstored (opened 0) (-5) _ rfl (by decide)
  exact absurd hkept.cleanCacheStoppers (by decide)

end Pclsync.OpenFile
