import Pclsync.OpenFile.Reopen
import Pclsync.OpenFile.ReadBack
import Pclsync.Lib.Transition

/-! An open file that is not encrypted, over the uploads of what is written to it:
`psync_fs_update_openfile`, and what is read and written through the handle before and
after it, from `pfs.c`. All calls succeed. -/
namespace Pclsync.OpenFile.Commit
open Lib.Files Lib.Intervals Lib.Transition

/-! ### Calls of the file system -/

/-- `psync_fs_update_openfile`, where the counter is that of the upload. -/
def updateOpenfile (of : File) (newfileid hash : ℤ) (size : ℕ) : Option File := do
  let size ← if of.encrypted then FsCrypto.plainSize size else some size
  some { of with
    logfile := if of.encrypted then none else of.logfile
    fileid := newfileid
    remotefileid := newfileid
    hash := hash
    modified := false
    newfile := false
    currentsize := size
    initialsize := size
    datafile := none
    indexfile := none }

/-- The file is open for writing, or is switched to it. -/
def forWriting (env : Environment) (s : Session) : Option (ℤ × Session) :=
  if s.of.newfile ∨ s.of.modified then some (1, s) else reopenFileForWriting env s

def onHandle (s : Session) (of : Handle) : Session := { s with of := { s.of with toHandle := of } }

/-- `psync_fs_write`. -/
def write (env : Environment) (s : Session) (buf : Bytes) (offset : ℕ) : Option (ℤ × Session) := do
  let (ret, s) ← forWriting env s
  if ret < 0 then some (ret, s)
  else if s.of.newfile then
    let (ret, of) := writeNewfile s.of.toHandle buf offset .whole
    some (ret, onHandle s of)
  else
    let (ret, of) ← writeModified s.of.toHandle buf offset .whole
    some (ret, onHandle s of)

/-- `psync_fs_ftruncate_of_locked`. -/
def ftruncateOfLocked (env : Environment) (s : Session) (size : ℕ) : Option (ℤ × Session) :=
  if s.of.currentsize = size then some (0, s)
  else do
    let (ret, s) ← forWriting env s
    if ret < 0 then some (ret, s)
    else
      let (ret, of) ← ftruncateOf s.of.toHandle size .whole
      some (ret, onHandle s of)

/-- `psync_fs_read`, into `buf`. `psync_pagecache_read_unmodified_locked` reads no more than
`initialsize` bytes of the remote file. -/
def read (of : Handle) (remote buf : Bytes) (offset : ℕ) : Option Bytes :=
  let remote := remote.take of.initialsize
  if of.newfile then readNewfile of buf.length offset
  else if of.modified then readModified of remote buf buf.length offset
  else some (pread remote buf.length offset)

/-! ### Steps -/

/-- What decides how a file is switched to writing. -/
structure Found where
  trylock : Bool
  havePages : Bool
  cleanCacheFree : Bool
deriving DecidableEq, Repr

/-- A switch that goes well. The task is a new one, so its local files are empty. -/
def environment (remote : Bytes) (found : Found) : Environment where
  encoder := .ok ()
  afterEncoder := id
  trylock := found.trylock
  afterLock := id
  expired := false
  key := .ok []
  havePages := found.havePages
  cleanCacheFree := found.cleanCacheFree
  commits := true
  opens := .whole [] []
  pages := ⟨fun i => some (pread remote pageSize (i * pageSize)), fun _ => .whole, true⟩
  sets := true

structure State where
  session : Session
  /-- The files of the server, by their ids and hashes. -/
  revisions : ℤ → ℤ → Bytes
  /-- What the file should be. -/
  content : Bytes

/-- The remote file. -/
def State.remote (s : State) : Bytes := s.revisions s.session.of.remotefileid s.session.of.hash

inductive Event where
  | write (found : Found) (buf : Bytes) (offset : ℕ)
  | ftruncate (found : Found) (size : ℕ)
  /-- The server has the content, and the task is done. -/
  | commit (newfileid hash : ℤ) (tasks : Tasks.State)

def State.run (s : State) : Event → Option State
  | .write found buf offset => do
    let (_, session) ← write (environment s.remote found) s.session buf offset
    some { s with session := session, content := pwrite s.content buf offset }
  | .ftruncate found size => do
    let (_, session) ← ftruncateOfLocked (environment s.remote found) s.session size
    some { s with session := session, content := truncate s.content size }
  | .commit newfileid hash tasks =>
    if s.session.of.newfile ∨ s.session.of.modified then do
      let of ← updateOpenfile s.session.of newfileid hash s.content.length
      some { s with
        session := { s.session with of := of, tasks := tasks }
        revisions := fun i h => if i = newfileid ∧ h = hash then s.content else s.revisions i h }
    else none

def step (s : State) (e : Event) (s' : State) : Prop := s.run e = some s'

/-- What is read by a request. -/
def State.read (s : State) (buf : Bytes) (offset : ℕ) : Option Bytes := Commit.read s.session.of.toHandle s.remote buf offset

/-- A file as it is opened: the remote one, a new one with its data file, or a modified one
with its data file and its index. -/
inductive Opened (s : State) : Prop where
  | remote (plain : ¬s.session.of.encrypted) (shows_ : s.remote = s.content)
      (handle : s.session.of.toHandle = ⟨s.content.length, s.content.length, 0, false, false, [], none, none⟩)
  | new (plain : ¬s.session.of.encrypted) (newfile : s.session.of.newfile) (datafile : s.session.of.datafile = some s.content)
      (size : s.session.of.currentsize = s.content.length)
  | modified (plain : ¬s.session.of.encrypted) (modified : s.session.of.modified)
      (initialsize : s.session.of.initialsize = s.remote.length) {d : Bytes} {stored : Set ℕ}
      (reflects : Reflects s.remote s.session.of.toHandle d ⟨s.content, stored⟩)

/-- The file is switched to being modified, and has intervals of an upload that is done. -/
def State.Carries (s : State) (found : Found) : Prop :=
  ¬s.session.of.newfile ∧ ¬s.session.of.modified ∧ ¬(environment s.remote found).converts s.session.of.initialsize ∧
    s.session.of.writeintervals ≠ []

/-- A write of no bytes, or a step that carries intervals on. -/
def Breaks (s : State) : Event → Prop
  | .write found buf _ => buf = [] ∨ s.Carries found
  | .ftruncate found size => s.session.of.currentsize ≠ size ∧ s.Carries found
  | .commit .. => False

/-- A read of a modified file that does not go from remote bytes past its end. -/
def State.Within (s : State) (size offset : ℕ) : Prop :=
  s.session.of.newfile ∨ ¬s.session.of.modified ∨
    Reference.Within ⟨s.content, points s.session.of.writeintervals⟩ s.remote size offset

/-! ### What an open file shows -/

/-- A file that is remote, new, or modified, and its content. -/
inductive Shows (remote content : Bytes) (of : Handle) : Prop where
  | unmodified (newfile : of.newfile = false) (modified : of.modified = false) (datafile : of.datafile = none)
      (indexfile : of.indexfile = none) (initialsize : of.initialsize = content.length)
      (size : of.currentsize = content.length) (shows_ : remote = content)
  | new (newfile : of.newfile = true) (datafile : of.datafile = some content) (size : of.currentsize = content.length)
  | modified (modified : of.modified = true) (initialsize : of.initialsize = remote.length) {d : Bytes} {stored : Set ℕ}
      (reflects : Reflects remote of d ⟨content, stored⟩)

variable {remote content d buf : Bytes} {of of' : Handle} {s : State} {session : Session} {found : Found} {offset : ℕ}

theorem Shows.size (h : Shows remote content of) : of.currentsize = content.length := by
  cases h with
  | unmodified _ _ _ _ _ hsize => exact hsize
  | new _ _ hsize => exact hsize
  | modified _ _ hreflects => exact hreflects.size.trans hreflects.length

theorem Opened.shows (h : Opened s) : ¬s.session.of.encrypted ∧ Shows s.remote s.content s.session.of.toHandle := by
  cases h with
  | remote hplain hshows hhandle =>
    rw [hhandle]
    exact ⟨hplain, .unmodified rfl rfl rfl rfl rfl rfl hshows⟩
  | new hplain hnew hdata hsize => exact ⟨hplain, .new hnew hdata hsize⟩
  | modified hplain hmodified hinit hreflects => exact ⟨hplain, .modified hmodified hinit hreflects⟩

/-! ### Switching to writing -/

theorem copyPages_whole (remote : Bytes) (found : Found) (left i : ℕ) : copyPages (environment remote found).pages left i (some (remote.take (i * pageSize))) =
    (true, some (remote.take ((i + left) * pageSize))) := by
  induction left generalizing i with
  | zero => rfl
  | succ left ih =>
    have hpwrite : pwrite (remote.take (i * pageSize)) (pread remote pageSize (i * pageSize)) (i * pageSize) =
        remote.take ((i + 1) * pageSize) := by
      rw [Nat.succ_mul, List.take_add, ← pread]
      by_cases hpast : remote.length ≤ i * pageSize
      · have hnil : pread remote pageSize (i * pageSize) = [] := by
          rw [pread, List.drop_of_length_le hpast, List.take_nil]
        rw [hnil, List.append_nil]
        rfl
      · have hlength : (remote.take (i * pageSize)).length = i * pageSize := by
          rw [List.length_take]
          omega
        have hend := @pwrite_end (remote.take (i * pageSize)) (pread remote pageSize (i * pageSize))
        rwa [hlength] at hend
    have hpage : (environment remote found).pages.page i = some (pread remote pageSize (i * pageSize)) := rfl
    have hfate : (environment remote found).pages.fate i = .whole := rfl
    rw [copyPages, hpage]
    simp only [hfate, filePwrite, Fate.taken, hpwrite, ne_eq, not_true_eq_false, if_false]
    rw [ih, Nat.succ_add_eq_add_succ]

/-- The data file of a file that is made new. -/
theorem copyAllPages_whole {of : File} (hdata : of.datafile = some []) :
    copyAllPagesFromCacheToFile of remote.length (environment remote found).pages =
      (true, { of with datafile := some remote }) := by
  have hpages : remote.length ≤ (0 + (remote.length + pageSize - 1) / pageSize) * pageSize := by
    rw [pageSize]
    omega
  have hcopied := copyPages_whole remote found ((remote.length + pageSize - 1) / pageSize) 0
  rw [Nat.zero_mul, List.take_zero, List.take_of_length_le hpages] at hcopied
  rw [copyAllPagesFromCacheToFile, hdata, hcopied]

/-- The session of a file that is open for writing, with the content and the remote file
that it had. -/
structure Keeps (remote content : Bytes) (of : File) (session : Session) : Prop where
  plain : ¬session.of.encrypted
  remotefileid : session.of.remotefileid = of.remotefileid
  hash : session.of.hash = of.hash
  writing : session.of.newfile ∨ session.of.modified
  shows_ : Shows remote content session.of.toHandle

theorem reopenAsNewfile_keeps (found : Found) (hplain : ¬session.of.encrypted) (hdata : session.of.datafile = none)
    (hinit : session.of.initialsize = remote.length) :
    ∃ session', reopenAsNewfile (environment remote found) session remote.length none = some (1, session') ∧
      Keeps remote remote session.of session' := by
  obtain ⟨tasks, cr, hadd⟩ : ∃ tasks cr, session.tasks.addCreat session.of.currentfolder session.of.currentname none
      (environment remote found).commits = (tasks, some cr) := ⟨_, _, rfl⟩
  have hopen : openWriteFiles { session.of with fileid := cr.id, newfile := true, modified := true }
      (environment remote found).opens =
        some (0, { session.of with fileid := cr.id, newfile := true, modified := true, datafile := some [], currentsize := 0 }) := by
    simp [openWriteFiles, openIndexfile, openLogfile, environment, Openings.whole, hdata, hplain]
  rw [reopenAsNewfile, hadd]
  simp only [hopen, Option.bind_eq_bind, Option.bind_some, ne_eq, not_true_eq_false, if_false]
  by_cases hsize : remote.length = 0
  · rw [if_neg (not_not.mpr hsize)]
    have hnil : remote = [] := List.length_eq_zero_iff.mp hsize
    refine ⟨_, rfl, hplain, rfl, rfl, .inl rfl, .new rfl ?_ hinit⟩
    rw [hnil]
  · rw [if_pos hsize, copyAllPages_whole rfl]
    exact ⟨_, rfl, hplain, rfl, rfl, .inl rfl, .new rfl rfl hinit⟩

theorem reopenAsModified_keeps (found : Found) (hplain : ¬session.of.encrypted) (hnew : session.of.newfile = false)
    (hdata : session.of.datafile = none) (hindex : session.of.indexfile = none)
    (hinit : session.of.initialsize = remote.length) (hintervals : session.of.writeintervals = []) :
    ∃ session', reopenAsModified (environment remote found) session remote.length none = some (0, session') ∧
      Keeps remote remote session.of session' := by
  obtain ⟨tasks, cr, hadd⟩ : ∃ tasks cr, session.tasks.addModifiedFile session.of.currentfolder session.of.currentname
      session.of.fileid session.of.hash none (environment remote found).commits = (tasks, some cr) := ⟨_, _, rfl⟩
  have hload : ∀ tree, loadIntervalTree [] 0 tree = some (0, tree) := fun _ => rfl
  have hopen : openWriteFiles { session.of with fileid := cr.id } (environment remote found).opens =
      some (0, { session.of with
        fileid := cr.id
        datafile := some []
        indexfile := some []
        indexoff := 0
        currentsize := 0 }) := by
    simp [openWriteFiles, openIndexfile, openLogfile, loadIndex, hload, environment, Openings.whole, hdata, hplain, hnew,
      hindex, FsCrypto.sizeofIndexHeader]
  rw [reopenAsModified, hadd]
  simp only [hopen, Option.bind_eq_bind, Option.bind_some, ne_eq, not_true_eq_false, if_false]
  refine ⟨_, rfl, hplain, rfl, rfl, .inr rfl, .modified rfl hinit (?_ : Reflects _ _ (List.replicate remote.length 0) ⟨_, ∅⟩)⟩
  have hhandle : { session.of with
      fileid := cr.id
      datafile := some (truncate [] remote.length)
      indexfile := some []
      indexoff := 0
      modified := true
      currentsize := session.of.initialsize }.toHandle = reopened remote.length := by
    simp [reopened, truncate, hinit, hnew, hintervals]
  exact hhandle ▸ reflects_reopened

theorem lockPages_of (session : Session) (size : ℕ) : (if size = 0 then session else session.lockPages).of = session.of := by
  split_ifs
  · rfl
  · rfl

/-- A switch to writing keeps the content. -/
theorem switch_keeps (hplain : ¬session.of.encrypted) (hnew : session.of.newfile = false)
    (hmodified : session.of.modified = false) (h : Shows remote content session.of.toHandle)
    (hintervals : (environment remote found).converts session.of.initialsize ∨ session.of.writeintervals = []) :
    ∃ ret session', reopenFileForWriting (environment remote found) session = some (ret, session') ∧ 0 ≤ ret ∧
      Keeps remote content session.of session' := by
  have hloaded : reopenFileForWriting (environment remote found) session = reopenLocked (environment remote found) session := by
    rw [reopenFileForWriting, if_neg fun hload => hplain hload.1, reopenLoaded]
    by_cases htrylock : (environment remote found).trylock = true
    · rw [if_pos htrylock]
    · rw [if_neg htrylock]
      exact if_neg (by simp [environment, hnew, hmodified])
  have hsize : sizeAndKey (environment remote found) session.of = some (.ok (session.of.initialsize, none)) := by
    rw [sizeAndKey, if_neg hplain]
  rw [hloaded, reopenLocked, hsize]
  cases h with
  | new hnew' => exact absurd hnew' (by rw [hnew]; exact Bool.false_ne_true)
  | modified hmodified' => exact absurd hmodified' (by rw [hmodified]; exact Bool.false_ne_true)
  | unmodified _ _ hdata hindex hinit _ hshows =>
    subst hshows
    rw [hinit] at hintervals ⊢
    by_cases hconverts : (environment remote found).converts remote.length = true
    · obtain ⟨session', hrun, hkeeps⟩ := @reopenAsNewfile_keeps remote (if remote.length = 0 then session else session.lockPages)
        found (by rwa [lockPages_of]) (by rwa [lockPages_of]) (by rwa [lockPages_of])
      rw [lockPages_of] at hkeeps
      refine ⟨1, session', ?_, Int.one_nonneg, hkeeps⟩
      simp only [Option.bind_eq_bind, Option.bind_some, hconverts, if_true]
      exact hrun
    · obtain ⟨session', hrun, hkeeps⟩ :=
        reopenAsModified_keeps found hplain hnew hdata hindex hinit (hintervals.resolve_left hconverts)
      refine ⟨0, session', ?_, le_rfl, hkeeps⟩
      simp only [Option.bind_eq_bind, Option.bind_some, hconverts]
      exact hrun

theorem forWriting_keeps (hplain : ¬session.of.encrypted) (h : Shows remote content session.of.toHandle)
    (hcarries : ¬(¬session.of.newfile ∧ ¬session.of.modified ∧ ¬(environment remote found).converts session.of.initialsize ∧
      session.of.writeintervals ≠ [])) :
    ∃ ret session', forWriting (environment remote found) session = some (ret, session') ∧ 0 ≤ ret ∧
      Keeps remote content session.of session' := by
  rw [forWriting]
  by_cases hwriting : session.of.newfile = true ∨ session.of.modified = true
  · rw [if_pos hwriting]
    exact ⟨1, session, rfl, Int.one_nonneg, hplain, rfl, rfl, hwriting, h⟩
  · rw [if_neg hwriting]
    rw [not_or, Bool.not_eq_true, Bool.not_eq_true] at hwriting
    refine switch_keeps hplain hwriting.1 hwriting.2 h ?_
    by_contra hneither
    rw [not_or] at hneither
    exact hcarries ⟨by simp [hwriting.1], by simp [hwriting.2], hneither.1, hneither.2⟩

/-! ### Writing -/

/-- What no write of an open file changes. -/
structure Stays (of of' : Handle) : Prop where
  modified : of'.modified = of.modified
  initialsize : of'.initialsize = of.initialsize

theorem recordExtension_stays {fate : Fate} {size : ℕ} {ok : Bool} (h : recordExtension of size fate = some (ok, of')) :
    Stays of of' := by
  simp only [recordExtension] at h
  by_cases hwritten : (writeRecord of (of.currentsize, size - of.currentsize) fate).1 = true
  · rw [if_neg (not_not.mpr hwritten)] at h
    obtain ⟨tree, -, h⟩ := Option.bind_eq_some_iff.mp h
    cases h
    exact ⟨rfl, rfl⟩
  · rw [if_pos hwritten] at h
    cases h
    exact ⟨rfl, rfl⟩

theorem modfileCheckSizeOk_stays {fates : Fates} {size : ℕ} {ok : Bool} (h : modfileCheckSizeOk of size fates = some (ok, of')) :
    Stays of of' := by
  simp only [modfileCheckSizeOk] at h
  by_cases hgrows : of.currentsize < size
  · rw [if_pos hgrows] at h
    generalize fileSetSize of.datafile size fates.extends_ = set at h
    by_cases hset : set.1 = true
    · rw [if_neg (not_not.mpr hset)] at h
      split_ifs at h
      · cases h
        exact ⟨rfl, rfl⟩
      · have hstays := recordExtension_stays h
        exact ⟨hstays.modified, hstays.initialsize⟩
    · rw [if_pos hset] at h
      cases h
      exact ⟨rfl, rfl⟩
  · rw [if_neg hgrows] at h
    cases h
    exact ⟨rfl, rfl⟩

theorem writeData_stays {fates : Fates} {ret : ℤ} (h : writeData of buf offset fates = some (ret, of')) : Stays of of' := by
  simp only [writeData] at h
  generalize filePwrite of.datafile buf offset fates.data = written at h
  obtain ⟨_ | bw, datafile⟩ := written
  · cases h
    exact ⟨rfl, rfl⟩
  · simp only at h
    generalize hrecord : writeRecord { of with datafile := datafile } (offset, bw) fates.record = record at h
    by_cases hrecorded : record.1 = true
    · rw [if_neg (not_not.mpr hrecorded)] at h
      obtain ⟨tree, -, h⟩ := Option.bind_eq_some_iff.mp h
      cases h
      subst hrecord
      exact ⟨rfl, rfl⟩
    · rw [if_pos hrecorded] at h
      cases h
      subst hrecord
      exact ⟨rfl, rfl⟩

theorem writeModified_stays {fates : Fates} {ret : ℤ} (h : writeModified of buf offset fates = some (ret, of')) : Stays of of' := by
  obtain ⟨⟨ok, of₁⟩, hcheck, h⟩ := Option.bind_eq_some_iff.mp h
  have hstays := modfileCheckSizeOk_stays hcheck
  simp only at h
  split_ifs at h
  · have hstays' := writeData_stays h
    exact ⟨hstays'.modified.trans hstays.modified, hstays'.initialsize.trans hstays.initialsize⟩
  · cases h
    exact hstays

theorem ftruncateOf_stays {fates : Fates} {size : ℕ} {ret : ℤ} (h : ftruncateOf of size fates = some (ret, of')) : Stays of of' := by
  rw [ftruncateOf] at h
  split_ifs at h
  · cases h
    exact ⟨rfl, rfl⟩
  · obtain ⟨⟨ok, of₁⟩, hcheck, h⟩ := Option.bind_eq_some_iff.mp h
    have hstays := modfileCheckSizeOk_stays hcheck
    simp only at h
    split_ifs at h
    all_goals cases h; exact ⟨hstays.modified, hstays.initialsize⟩

/-- A write of some bytes to a new file. -/
theorem Shows.writeNewfile (h : Shows remote content of) (hnew : of.newfile = true) (hbuf : buf ≠ []) :
    Shows remote (pwrite content buf offset) (OpenFile.writeNewfile of buf offset .whole).2 := by
  cases h with
  | unmodified hnew' => exact absurd hnew (by rw [hnew']; exact Bool.false_ne_true)
  | modified _ _ hreflects => exact absurd hnew (by rw [hreflects.newfile]; exact Bool.false_ne_true)
  | new _ hdata hsize =>
    rw [OpenFile.writeNewfile, hdata]
    refine .new hnew rfl ?_
    show (if of.currentsize < offset + buf.length then offset + buf.length else of.currentsize) = _
    rw [length_pwrite, if_neg hbuf, hsize]
    split_ifs
    · omega
    · omega

theorem Shows.writeModified (offset : ℕ) (h : Shows remote content of) (hnew : of.newfile = false) (hmodified : of.modified = true)
    (hbuf : buf ≠ []) :
    ∃ ret of', OpenFile.writeModified of buf offset .whole = some (ret, of') ∧ Shows remote (pwrite content buf offset) of' := by
  cases h with
  | unmodified _ hmodified' => exact absurd hmodified (by rw [hmodified']; exact Bool.false_ne_true)
  | new hnew' => exact absurd hnew' (by rw [hnew]; exact Bool.false_ne_true)
  | modified _ hinit hreflects =>
    obtain ⟨of', d', hrun, hreflects'⟩ := hreflects.change (c := .write buf offset) hbuf
    obtain ⟨⟨ret, _⟩, hwrite, rfl⟩ := Option.map_eq_some_iff.mp hrun
    have hstays := writeModified_stays hwrite
    rw [Change.apply, if_neg hbuf] at hreflects'
    exact ⟨ret, _, hwrite, .modified (hstays.modified.trans hmodified) (hstays.initialsize.trans hinit) hreflects'⟩

theorem Shows.ftruncateOf (size : ℕ) (h : Shows remote content of) (hwriting : of.newfile ∨ of.modified) :
    ∃ ret of', OpenFile.ftruncateOf of size .whole = some (ret, of') ∧ Shows remote (truncate content size) of' := by
  cases h with
  | unmodified hnew hmodified =>
    rw [hnew, hmodified, or_self] at hwriting
    exact absurd hwriting Bool.false_ne_true
  | modified hmodified hinit hreflects =>
    obtain ⟨of', d', hrun, hreflects'⟩ := hreflects.change (c := .ftruncate size) not_false
    obtain ⟨⟨ret, _⟩, htruncate, rfl⟩ := Option.map_eq_some_iff.mp hrun
    have hstays := ftruncateOf_stays htruncate
    exact ⟨ret, _, htruncate, .modified (hstays.modified.trans hmodified) (hstays.initialsize.trans hinit) hreflects'⟩
  | new hnew hdata hsize =>
    rw [OpenFile.ftruncateOf]
    by_cases hsame : of.currentsize = size
    · rw [if_pos hsame]
      refine ⟨0, of, rfl, .new hnew ?_ ?_⟩
      · rw [hdata, ← hsame, hsize, truncate_truncate_self]
      · rw [hsame, length_truncate]
    · rw [if_neg hsame]
      have hresult : Shows remote (truncate content size)
          { of with datafile := some (truncate content size), currentsize := size } := .new hnew rfl length_truncate.symm
      by_cases hgrows : of.currentsize < size
      · have htwice : truncate (truncate content size) size = truncate content size := by
          have hself := truncate_truncate_self (truncate content size)
          rwa [length_truncate] at hself
        refine ⟨0, _, ?_, hresult⟩
        simp [modfileCheckSizeOk, hgrows, hdata, fileSetSize, Fates.whole, hnew, hsame, htwice]
      · refine ⟨0, _, ?_, hresult⟩
        simp [modfileCheckSizeOk, hgrows, hdata, fileSetSize, Fates.whole, hsame]

/-! ### Steps of a run -/

/-- The file is not encrypted, and shows its content. -/
structure Holds (s : State) : Prop where
  plain : ¬s.session.of.encrypted
  shows_ : Shows s.remote s.content s.session.of.toHandle

/-- The server's files are the same, and so are the ids of the file. -/
theorem Keeps.holds {c : Bytes} {session' : Session} (h : Keeps s.remote content s.session.of session) {of' : Handle}
    (hshows : Shows s.remote c of') (hsession : session' = onHandle session of') :
    Holds { s with session := session', content := c } := by
  subst hsession
  refine ⟨h.plain, ?_⟩
  have hremote : { s with session := onHandle session of', content := c }.remote = s.remote := by
    show s.revisions session.of.remotefileid session.of.hash = _
    rw [h.remotefileid, h.hash]
    rfl
  rw [hremote]
  exact hshows

theorem Holds.write (offset : ℕ) (h : Holds s) (hbuf : buf ≠ []) (hcarries : ¬s.Carries found) :
    ∃ s', s.run (.write found buf offset) = some s' ∧ Holds s' := by
  obtain ⟨ret, session, hopen, hret, hkeeps⟩ := forWriting_keeps h.plain h.shows_ hcarries
  rw [State.run, Commit.write, hopen]
  simp only [Option.bind_eq_bind, Option.bind_some, if_neg (Int.not_lt.mpr hret)]
  by_cases hnew : session.of.newfile = true
  · rw [if_pos hnew]
    exact ⟨_, rfl, hkeeps.holds (hkeeps.shows_.writeNewfile hnew hbuf) rfl⟩
  · obtain ⟨ret', of', hwrite, hshows⟩ :=
      hkeeps.shows_.writeModified offset (Bool.not_eq_true _ ▸ hnew) (hkeeps.writing.resolve_left hnew) hbuf
    rw [if_neg hnew, hwrite]
    exact ⟨_, rfl, hkeeps.holds hshows rfl⟩

theorem Holds.ftruncate (size : ℕ) (h : Holds s) (hcarries : s.session.of.currentsize ≠ size → ¬s.Carries found) :
    ∃ s', s.run (.ftruncate found size) = some s' ∧ Holds s' := by
  rw [State.run, ftruncateOfLocked]
  by_cases hsame : s.session.of.currentsize = size
  · rw [if_pos hsame]
    refine ⟨_, rfl, h.plain, ?_⟩
    have hcontent : truncate s.content size = s.content := by
      rw [← hsame, h.shows_.size, truncate_truncate_self]
    rw [hcontent]
    exact h.shows_
  · obtain ⟨ret, session, hopen, hret, hkeeps⟩ := forWriting_keeps h.plain h.shows_ (hcarries hsame)
    obtain ⟨ret', of', htruncate, hshows⟩ := hkeeps.shows_.ftruncateOf size hkeeps.writing
    rw [if_neg hsame, hopen]
    simp only [Option.bind_eq_bind, Option.bind_some, if_neg (Int.not_lt.mpr hret), htruncate]
    exact ⟨_, rfl, hkeeps.holds hshows rfl⟩

/-- The file is remote again, with the content that it had. -/
theorem Holds.commit {newfileid hash : ℤ} {tasks : Tasks.State} {s' : State} (h : Holds s)
    (hrun : s.run (.commit newfileid hash tasks) = some s') : Holds s' := by
  rw [State.run] at hrun
  split_ifs at hrun
  rw [updateOpenfile, if_neg h.plain] at hrun
  cases hrun
  exact ⟨h.plain, .unmodified rfl rfl rfl rfl rfl rfl (if_pos ⟨rfl, rfl⟩)⟩

theorem Holds.run {e : Event} {s' : State} (h : Holds s) (hbreaks : ¬Breaks s e) (hrun : s.run e = some s') : Holds s' := by
  cases e with
  | write found buf offset =>
    rw [Breaks, not_or] at hbreaks
    obtain ⟨_, hrun', hholds⟩ := h.write offset hbreaks.1 hbreaks.2
    cases hrun.symm.trans hrun'
    exact hholds
  | ftruncate found size =>
    obtain ⟨_, hrun', hholds⟩ := h.ftruncate size fun hne hcarries => hbreaks ⟨hne, hcarries⟩
    cases hrun.symm.trans hrun'
    exact hholds
  | commit newfileid hash tasks => exact h.commit hrun

/-- A read gives the content, unless it is one of a modified file that goes from remote bytes past its end. -/
theorem Holds.read_iff (h : Holds s) : s.read buf offset = some (pread s.content buf.length offset) ↔ s.Within buf.length offset := by
  rw [State.read, Commit.read, State.Within]
  cases h.shows_ with
  | unmodified hnew hmodified _ _ hinit _ hshows =>
    have htake : s.remote.take s.session.of.initialsize = s.content := by
      rw [hinit, hshows, List.take_length]
    simp [hnew, hmodified, htake]
  | new hnew hdata hsize => simp [hnew, readNewfile, hdata]
  | modified hmodified hinit hreflects =>
    have htake : s.remote.take s.session.of.initialsize = s.remote := by
      rw [hinit, List.take_length]
    simp only [hreflects.newfile, hmodified, htake, Bool.false_eq_true, if_false, if_true, not_true_eq_false, false_or]
    rw [hreflects.read_iff rfl, hreflects.stored]

/-- In every run whose steps carry no intervals on, a file has the size of its content, a
read gives the content exactly when it is not one of a modified file that goes from remote
bytes past its end, and the writes and the truncations that carry no intervals on come to
their end. -/
theorem commit_invisible (h : Reachable Opened (Avoiding step Breaks) s) :
    s.session.of.currentsize = s.content.length ∧
      (∀ buf offset, s.read buf offset = some (pread s.content buf.length offset) ↔ s.Within buf.length offset) ∧
      (∀ found buf offset, ¬Breaks s (.write found buf offset) → (s.run (.write found buf offset)).isSome) ∧
      ∀ found size, ¬Breaks s (.ftruncate found size) → (s.run (.ftruncate found size)).isSome := by
  have hholds : Holds s := by
    refine h.invariant (fun s hs => ⟨hs.shows.1, hs.shows.2⟩) fun s e s' hs hstep => ?_
    exact hs.run hstep.2 hstep.1
  refine ⟨hholds.shows_.size, fun buf offset => hholds.read_iff, fun found buf offset hbreaks => ?_, fun found size hbreaks => ?_⟩
  · rw [Breaks, not_or] at hbreaks
    obtain ⟨s', hrun, -⟩ := hholds.write offset hbreaks.1 hbreaks.2
    exact Option.isSome_iff_exists.mpr ⟨s', hrun⟩
  · obtain ⟨s', hrun, -⟩ := hholds.ftruncate size fun hne hcarries => hbreaks ⟨hne, hcarries⟩
    exact Option.isSome_iff_exists.mpr ⟨s', hrun⟩

/-- A remote file of four bytes that is open. -/
def fourBytes : State := ⟨opened 4, fun _ _ => [1, 2, 3, 4], [1, 2, 3, 4]⟩

theorem fourBytes_opened : Opened fourBytes := .remote Bool.false_ne_true rfl rfl

/-- The pages of the file are not in the cache. -/
def uncached : Found := ⟨true, false, true⟩

/-- A byte of the file is written, and the upload is done. -/
theorem commit_invisible_of_a_byte :
    ∃ s : State, s.content = [9, 2, 3, 4] ∧ ¬s.session.of.modified ∧ s.session.of.currentsize = s.content.length ∧
      (∀ buf offset, s.read buf offset = some (pread s.content buf.length offset) ↔ s.Within buf.length offset) ∧
      (∀ found buf offset, ¬Breaks s (.write found buf offset) → (s.run (.write found buf offset)).isSome) ∧
      ∀ found size, ¬Breaks s (.ftruncate found size) → (s.run (.ftruncate found size)).isSome := by
  have hgoes : ∀ {s s' : State} (e : Event), s.run e = some s' → ¬Breaks s e →
      Reachable Opened (Avoiding step Breaks) s → Reachable Opened (Avoiding step Breaks) s' :=
    fun e hrun hbreaks h => h.next (a := e) ⟨hrun, hbreaks⟩
  have h0 : Reachable Opened (Avoiding step Breaks) fourBytes := .start fourBytes_opened
  have h1 := hgoes (.write uncached [9] 0) rfl (by simp [Breaks, State.Carries, fourBytes, opened]) h0
  have h2 := hgoes (.commit 8 2 {}) rfl id h1
  exact ⟨_, rfl, Bool.false_ne_true, commit_invisible h2⟩

/-- It is written, and after the upload another byte is: the first is read as zero. -/
theorem commit_loses_a_byte : ¬∀ (s : State) (buf : Bytes) (offset : ℕ), Reachable Opened step s →
    s.Within buf.length offset → s.read buf offset = some (pread s.content buf.length offset) := by
  intro hall
  have hgoes : ∀ {s s' : State} (e : Event), s.run e = some s' → Reachable Opened step s → Reachable Opened step s' :=
    fun e hrun h => h.next (a := e) hrun
  have h0 : Reachable Opened step fourBytes := .start fourBytes_opened
  have h1 := hgoes (.write uncached [9] 0) rfl h0
  have h2 := hgoes (.commit 8 2 {}) rfl h1
  have h3 := hgoes (.write uncached [8] 3) rfl h2
  exact absurd (hall _ [0, 0, 0, 0] 0 h3 (.inr (.inr (.inl (by decide)))) ) (by decide)

end Pclsync.OpenFile.Commit
