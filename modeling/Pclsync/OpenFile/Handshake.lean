import Pclsync.OpenFile.Handle
import Pclsync.Lib.Transition

/-! The upload of a file that can be written meanwhile: the counter of its open file, the
copy of the counter in its task, and `psync_fs_update_openfile`, from `pfs.c` and
`pfsupload.c`. A step is what runs under the file's mutex or under the SQL lock. -/
namespace Pclsync.OpenFile.Handshake
open Lib.Machine Lib.Files Lib.Transition

/-! ### States -/

/-- Where the flush of a handle is. -/
inductive Phase where
  | idle
  /-- It let go of the mutex, and is to store the counter. -/
  | taken (writeid : ℕ)
  /-- The task had another status. -/
  | missed (writeid : ℕ)
deriving DecidableEq, Repr

/-- `psync_openfile_t`, with its handles. Where it is modified its id is that of the task. -/
structure Open where
  writeid : ℕ
  releasedforupload : Bool
  modified : Bool
  handles : List Phase
deriving DecidableEq, Repr

/-- The row of `fstask`. -/
structure Row where
  status : ℕ
  int1 : ℕ
deriving DecidableEq, Repr

/-- An upload, and the bytes that it has read. A large one can be told to stop. -/
structure Upload where
  writeid : ℕ
  large : Bool
  stop : Bool := false
  fsize : Option ℕ := none
  bytes : Bytes := []
deriving DecidableEq, Repr

structure State where
  /-- The local content, from the data file and the index. -/
  content : Bytes := []
  openfile : Option Open := none
  /-- Gone once its status is 3. -/
  task : Option Row := none
  upload : Option Upload := none
deriving DecidableEq, Repr

/-! ### Calls of the file system -/

/-- `psync_fsupload_stop_upload_locked`. -/
def State.stopUploadLocked (s : State) : State :=
  { s with
    task := s.task.map fun row => { row with status := 1 }
    upload := s.upload.map fun u => { u with stop := u.large } }

/-- `psync_fs_inc_writeid_locked`. -/
def State.incWriteidLocked (s : State) (o : Open) : State :=
  if o.releasedforupload then
    { s.stopUploadLocked with openfile := some { o with releasedforupload := false, writeid := o.writeid + 1 } }
  else { s with openfile := some { o with writeid := o.writeid + 1 } }

/-- `psync_fs_reopen_file_for_writing`, which goes well. -/
def State.reopenFileForWriting (s : State) : State :=
  { s with
    task := some (s.task.getD ⟨1, 0⟩)
    openfile := s.openfile.map fun o => { o with modified := true } }

/-- A change of the content by `psync_fs_write` or by `psync_fs_ftruncate_of_locked`. -/
def State.change (s : State) (o : Open) (edit : Bytes → Bytes) : State :=
  let s := s.incWriteidLocked o
  let s := if o.modified then s else s.reopenFileForWriting
  { s with content := edit s.content }

/-- `psync_fs_write`. -/
def State.write (s : State) (o : Open) (buf : Bytes) (offset : ℕ) (fate : Fate) : State :=
  s.change o fun content => ((fate.taken buf).map fun bytes => pwrite content bytes offset).getD content

/-- `psync_fs_ftruncate_of_locked`. -/
def State.ftruncateOfLocked (s : State) (o : Open) (size : ℕ) (sets : Bool) : State :=
  if s.content.length = size then s else s.change o fun content => if sets then truncate content size else content

/-- `psync_fs_open`. `status` is that of the task, as it is read before the SQL lock is let
go. A file that is open and not modified is left alone by an open that truncates. -/
def State.open_ (s : State) (trunc : Bool) (status : ℕ) : Option State :=
  match s.task, s.openfile with
  | some row, none =>
    some { s with
      openfile := some ⟨u32 row.int1, status ≠ 1, true, [.idle]⟩
      content := if trunc then [] else s.content }
  | some _, some o =>
    let o := { o with releasedforupload := status ≠ 1, handles := o.handles ++ [.idle] }
    let s := { s with openfile := some o }
    some (if trunc then s.ftruncateOfLocked o 0 true else s)
  | none, none =>
    some (if trunc then { s with openfile := some ⟨0, false, true, [.idle]⟩, task := some ⟨1, 0⟩, content := [] }
      else { s with openfile := some ⟨0, false, false, [.idle]⟩ })
  | none, some o => if trunc then none else some { s with openfile := some { o with handles := o.handles ++ [.idle] } }

/-- `psync_fs_flush`, up to where it lets go of the mutex. -/
def State.flush (s : State) (o : Open) (i : ℕ) : State :=
  if o.modified then
    { s with openfile := some { o with releasedforupload := true, handles := o.handles.set i (.taken o.writeid) } }
  else s

/-- `UPDATE fstask SET status=0, int1=? WHERE id=? AND status=1`. -/
def State.updateStatus (s : State) (o : Open) (i writeid : ℕ) : State :=
  match s.task with
  | some row =>
    if row.status = 1 then { s with task := some ⟨0, writeid⟩, openfile := some { o with handles := o.handles.set i .idle } }
    else { s with openfile := some { o with handles := o.handles.set i (.missed writeid) } }
  | none => { s with openfile := some { o with handles := o.handles.set i (.missed writeid) } }

/-- `UPDATE fstask SET int1=? WHERE id=? AND int1<?`. -/
def State.updateInt1 (s : State) (o : Open) (i writeid : ℕ) : State :=
  { s with
    task := s.task.map fun row => if row.int1 < writeid then { row with int1 := writeid } else row
    openfile := some { o with handles := o.handles.set i .idle } }

/-- `psync_fs_dec_of_refcnt`. -/
def State.decOfRefcnt (s : State) (o : Open) (i : ℕ) : State :=
  { s with openfile := if o.handles.length = 1 then none else some { o with handles := o.handles.eraseIdx i } }

/-! ### Uploads -/

/-- `psync_fs_update_openfile`. -/
def State.updateOpenfile (s : State) (writeid : ℕ) : ℤ × State :=
  match s.openfile.filter (·.modified) with
  | some o =>
    if o.writeid = writeid then (0, { s with openfile := some { o with modified := false, releasedforupload := false } })
    else (-1, s)
  | none => (if s.task.map Row.int1 = some writeid then 0 else -1, s)

/-- `save_meta`: where the counter of the task differs too, its transaction is rolled back. -/
def State.saveMeta (s : State) (writeid : ℕ) : ℤ × State :=
  let (ret, s') := s.updateOpenfile writeid
  if ret ≠ 0 then (-1, s)
  else if s'.task.map Row.int1 = some writeid then (0, { s' with task := none }) else (-1, s')

/-- `psync_process_task_creat`, once the server has the file. -/
def State.processTaskCreat (s : State) (writeid : ℕ) : ℤ × State :=
  let (ret, s') := s.updateOpenfile writeid
  if ret ≠ 0 then (-1, s) else (0, { s' with task := none })

/-- The rest of an upload that has read the file. -/
def State.finish (s : State) (u : Upload) : State :=
  { (if u.large then s.saveMeta u.writeid else s.processTaskCreat u.writeid).2 with upload := none }

/-- A read of the data file. -/
def Upload.read (u : Upload) (content : Bytes) (n count : ℕ) : Upload :=
  { u with bytes := u.bytes ++ pread content (min count (n - u.bytes.length)) u.bytes.length }

/-! ### Steps -/

/-- What runs under a lock. A handle is known by its place. -/
inductive Event where
  | open_ (trunc : Bool) (status : ℕ)
  | write (i : ℕ) (buf : Bytes) (offset : ℕ) (fate : Fate)
  | ftruncate (i size : ℕ) (sets : Bool)
  | flush (i : ℕ)
  | updateStatus (i : ℕ)
  | updateInt1 (i : ℕ)
  | release (i : ℕ)
  /-- `psync_sent_task_creat_upload_large`. -/
  | defer
  | start (large : Bool)
  | size
  | read (count : ℕ)
  /-- An upload that fails, because crypto is expired or for another reason. -/
  | fail (expired : Bool)
  | finish
deriving DecidableEq, Repr

/-- The open file of a handle in a phase. -/
def State.handle (s : State) (i : ℕ) (p : Phase) : Option Open := s.openfile.filter fun o => o.handles[i]? = some p

/-- The open file of a handle whose flush is somewhere, and the counter it has. -/
def State.flushing (s : State) (i : ℕ) : Option (Open × Phase) := do
  let o ← s.openfile
  let p ← o.handles[i]?
  some (o, p)

def State.run (s : State) : Event → Option State
  | .open_ trunc status => s.open_ trunc status
  | .write i buf offset fate => (s.handle i .idle).map fun o => s.write o buf offset fate
  | .ftruncate i size sets => (s.handle i .idle).map fun o => s.ftruncateOfLocked o size sets
  | .flush i => (s.handle i .idle).map fun o => s.flush o i
  | .updateStatus i =>
    match s.flushing i with
    | some (o, .taken writeid) => some (s.updateStatus o i writeid)
    | _ => none
  | .updateInt1 i =>
    match s.flushing i with
    | some (o, .missed writeid) => some (s.updateInt1 o i writeid)
    | _ => none
  | .release i => (s.handle i .idle).map fun o => s.decOfRefcnt o i
  | .defer => (s.task.filter (·.status = 0)).map fun row => { s with task := some { row with status := 2 } }
  | .start large =>
    match s.upload, s.task with
    | none, some row =>
      if row.status = (if large then 2 else 0) then some { s with upload := some { writeid := row.int1, large := large } }
      else none
    | _, _ => none
  | .size => (s.upload.filter (·.fsize.isNone)).map fun u => { s with upload := some { u with fsize := some s.content.length } }
  | .read count => do
    let u ← s.upload
    let n ← u.fsize
    if u.stop ∨ (u.read s.content n count).bytes = u.bytes then none
    else some { s with upload := some (u.read s.content n count) }
  | .fail expired => s.upload.map fun _ =>
    { s with
      upload := none
      task := if expired then s.task.map fun row => { row with status := 1 } else s.task }
  | .finish => (s.upload.filter fun u => u.fsize = some u.bytes.length).map s.finish

def step (s : State) (e : Event) (s' : State) : Prop := s.run e = some s'

/-- Nobody has the file open. -/
structure Closed (s : State) : Prop where
  openfile : s.openfile = none
  upload : s.upload = none

/-- A step that changes the content, or the counter, without the other: a file that waits is
opened to be cut, or with a counter of more than 32 bits, or it is released by its last
handle before its counter is stored. -/
def Loses (s : State) : Event → Prop
  | .open_ trunc _ => s.openfile = none ∧ ∃ row ∈ s.task, 2 ^ 32 ≤ row.int1 ∨ trunc ∧ s.content ≠ []
  | .release _ => ∃ o ∈ s.openfile, o.handles.length = 1 ∧ ∃ row ∈ s.task, row.int1 ≠ o.writeid
  | _ => False

/-! ### The counters -/

/-- A counter that a flush has is not ahead. -/
def Phase.Behind (writeid : ℕ) : Phase → Prop
  | .idle => True
  | .taken w => w ≤ writeid
  | .missed w => w ≤ writeid

/-- The counter that an upload is compared with. -/
def State.counter (s : State) (row : Row) : ℕ := (s.openfile.map Open.writeid).getD row.int1

/-- An upload of the counter that holds has read the content as it is. -/
structure Current (content : Bytes) (row : Row) (u : Upload) : Prop where
  int1 : row.int1 = u.writeid
  status : row.status ≠ 1
  fsize : ∀ n ∈ u.fsize, n = content.length
  bytes : u.bytes = content.take u.bytes.length

structure Tracks (s : State) : Prop where
  modified : ∀ o ∈ s.openfile, o.modified = s.task.isSome
  stored : ∀ o ∈ s.openfile, ∀ row ∈ s.task, row.int1 ≤ o.writeid
  flushes : ∀ o ∈ s.openfile, ∀ p ∈ o.handles, p.Behind o.writeid
  upload : ∀ u ∈ s.upload, ∃ row, s.task = some row ∧ u.writeid ≤ s.counter row ∧
    (u.writeid = s.counter row → Current s.content row u)

variable {s s' : State} {o : Open} {u : Upload} {row : Row}

theorem Closed.tracks (h : Closed s) : Tracks s := by
  obtain ⟨content, openfile, task, upload⟩ := s
  obtain ⟨hopen, hupload⟩ := h
  change openfile = none at hopen
  change upload = none at hupload
  subst hopen hupload
  exact ⟨by simp, by simp, by simp, by simp⟩

theorem counter_open (h : s.openfile = some o) : s.counter row = o.writeid := by rw [State.counter, h]; rfl

theorem counter_closed (h : s.openfile = none) : s.counter row = row.int1 := by rw [State.counter, h]; rfl

/-- Only the handles of the open file change. -/
theorem Tracks.withOpen (h : Tracks s) (ho : s.openfile = some o) (o' : Open) (hwriteid : o'.writeid = o.writeid)
    (hmodified : o'.modified = o.modified) (hflushes : ∀ p ∈ o'.handles, p.Behind o.writeid) :
    Tracks { s with openfile := some o' } := by
  refine ⟨fun x hx => ?_, fun x hx row hrow => ?_, fun x hx => ?_, fun u hu => ?_⟩
  · cases hx
    rw [hmodified]
    exact h.modified o ho
  · cases hx
    rw [hwriteid]
    exact h.stored o ho row hrow
  · cases hx
    rw [hwriteid]
    exact hflushes
  · obtain ⟨row, hrow, hle, hcurrent⟩ := h.upload u hu
    rw [counter_open ho] at hle hcurrent
    refine ⟨row, hrow, ?_⟩
    rw [counter_open rfl, hwriteid]
    exact ⟨hle, hcurrent⟩

/-- The counter goes one on, and the copy of it and the uploads stay behind. -/
structure Advanced (o : Open) (s' : State) : Prop where
  openfile : ∃ released, s'.openfile = some ⟨o.writeid + 1, released, true, o.handles⟩
  task : ∃ row, s'.task = some row ∧ row.int1 ≤ o.writeid
  upload : ∀ u ∈ s'.upload, u.writeid ≤ o.writeid

theorem Tracks.change_advanced (h : Tracks s) (ho : s.openfile = some o) (edit : Bytes → Bytes) :
    Advanced o (s.change o edit) := by
  have hmodified := h.modified o ho
  have hstored := h.stored o ho
  have hupload : ∀ u ∈ s.upload, u.writeid ≤ o.writeid := by
    intro u hu
    obtain ⟨row, -, hle, -⟩ := h.upload u hu
    rwa [counter_open ho] at hle
  have hstopped : ∀ u ∈ s.upload.map (fun u => { u with stop := u.large }), u.writeid ≤ o.writeid := by
    intro u hu
    obtain ⟨u, hmem, rfl⟩ := Option.map_eq_some_iff.mp hu
    exact hupload u hmem
  rw [State.change, State.incWriteidLocked]
  cases htask : s.task with
  | some row =>
    rw [htask] at hmodified hstored
    change o.modified = true at hmodified
    split_ifs
    · refine ⟨⟨false, ?_⟩, ⟨{ row with status := 1 }, ?_, hstored row rfl⟩, hstopped⟩
      · simp [hmodified]
      · simp [State.stopUploadLocked, htask]
    · refine ⟨⟨o.releasedforupload, ?_⟩, ⟨row, ?_, hstored row rfl⟩, hupload⟩
      · simp [hmodified]
      · simp
  | none =>
    rw [htask] at hmodified
    change o.modified = false at hmodified
    simp only [hmodified, Bool.false_eq_true, if_false]
    split_ifs
    · refine ⟨⟨false, ?_⟩, ⟨⟨1, 0⟩, ?_, Nat.zero_le _⟩, hstopped⟩
      · simp [State.reopenFileForWriting]
      · simp [State.reopenFileForWriting, State.stopUploadLocked, htask]
    · refine ⟨⟨o.releasedforupload, ?_⟩, ⟨⟨1, 0⟩, ?_, Nat.zero_le _⟩, hupload⟩
      · simp [State.reopenFileForWriting]
      · simp [State.reopenFileForWriting]

/-- A change of the content leaves no upload that goes through. -/
theorem Tracks.change (h : Tracks s) (ho : s.openfile = some o) (edit : Bytes → Bytes) : Tracks (s.change o edit) := by
  obtain ⟨⟨released, hopen⟩, ⟨row, htask, hint1⟩, hupload⟩ := h.change_advanced ho edit
  refine ⟨fun x hx => ?_, fun x hx r hr => ?_, fun x hx p hp => ?_, fun u hu => ⟨row, htask, ?_⟩⟩
  · obtain rfl := Option.some.inj (hopen.symm.trans hx)
    rw [htask]
    rfl
  · obtain rfl := Option.some.inj (hopen.symm.trans hx)
    obtain rfl := Option.some.inj (htask.symm.trans hr)
    exact hint1.trans (Nat.le_succ _)
  · obtain rfl := Option.some.inj (hopen.symm.trans hx)
    have hbehind := h.flushes o ho p hp
    cases p with
    | idle => trivial
    | taken w => exact Nat.le_succ_of_le hbehind
    | missed w => exact Nat.le_succ_of_le hbehind
  · have hle := hupload u hu
    rw [counter_open hopen]
    exact ⟨Nat.le_succ_of_le hle, fun heq => absurd (heq ▸ hle) (Nat.not_succ_le_self _)⟩

theorem Tracks.ftruncateOfLocked (h : Tracks s) (ho : s.openfile = some o) (size : ℕ) (sets : Bool) :
    Tracks (s.ftruncateOfLocked o size sets) := by
  rw [State.ftruncateOfLocked]
  by_cases hsize : s.content.length = size
  · rw [if_pos hsize]
    exact h
  · rw [if_neg hsize]
    exact h.change ho _

theorem behind_append {handles : List Phase} {writeid : ℕ} (h : ∀ p ∈ handles, p.Behind writeid) :
    ∀ p ∈ handles ++ [.idle], p.Behind writeid :=
  List.forall_mem_append.mpr ⟨h, List.forall_mem_singleton.mpr trivial⟩

theorem behind_set {handles : List Phase} {writeid i : ℕ} {p : Phase} (h : ∀ p ∈ handles, p.Behind writeid)
    (hp : p.Behind writeid) : ∀ q ∈ handles.set i p, q.Behind writeid := by
  intro q hq
  rcases List.mem_or_eq_of_mem_set hq with hold | rfl
  · exact h q hold
  · exact hp

theorem Tracks.open_ (h : Tracks s) {trunc : Bool} {status : ℕ} (hloses : ¬Loses s (.open_ trunc status))
    (hrun : s.open_ trunc status = some s') : Tracks s' := by
  rw [State.open_] at hrun
  cases htask : s.task with
  | some row =>
    cases ho : s.openfile with
    | none =>
      rw [htask, ho] at hrun
      cases hrun
      have hint1 : row.int1 < 2 ^ 32 := by
        by_contra hlarge
        exact hloses ⟨ho, row, htask, .inl (Nat.not_lt.mp hlarge)⟩
      have hcontent : (if trunc then [] else s.content) = s.content := by
        split_ifs with htrunc
        · by_contra hne
          exact hloses ⟨ho, row, htask, .inr ⟨htrunc, Ne.symm hne⟩⟩
        · rfl
      rw [hcontent, u32_of_lt hint1]
      refine ⟨fun x hx => ?_, fun x hx r hr => ?_, fun x hx => ?_, fun u hu => ?_⟩
      · cases hx
        rfl
      · cases hx
        cases hr
        exact le_rfl
      · cases hx
        exact List.forall_mem_singleton.mpr trivial
      · obtain ⟨r, hr, hle, hcurrent⟩ := h.upload u hu
        obtain rfl := Option.some.inj (htask.symm.trans hr)
        rw [counter_closed ho] at hle hcurrent
        exact ⟨row, rfl, hle, hcurrent⟩
    | some o =>
      rw [htask, ho] at hrun
      simp only [Option.some.injEq] at hrun
      have hopened := h.withOpen ho { o with releasedforupload := status ≠ 1, handles := o.handles ++ [.idle] } rfl rfl
        (behind_append (h.flushes o ho))
      rw [htask] at hopened
      rw [← hrun]
      split_ifs
      · exact hopened.ftruncateOfLocked rfl 0 true
      · exact hopened
  | none =>
    have hupload : s.upload = none := by
      cases hu : s.upload with
      | none => rfl
      | some u =>
        obtain ⟨row, hrow, -⟩ := h.upload u hu
        exact nomatch htask.symm.trans hrow
    cases ho : s.openfile with
    | none =>
      rw [htask, ho] at hrun
      cases hrun
      split_ifs
      · exact ⟨by simp, by simp, by simp [Phase.Behind], by simp [hupload]⟩
      · exact ⟨by simp, by simp, by simp [Phase.Behind], by simp [hupload]⟩
    | some o =>
      rw [htask, ho] at hrun
      simp only at hrun
      split_ifs at hrun
      cases hrun
      exact htask ▸ h.withOpen ho { o with handles := o.handles ++ [.idle] } rfl rfl (behind_append (h.flushes o ho))

theorem Tracks.flush (h : Tracks s) (ho : s.openfile = some o) (i : ℕ) : Tracks (s.flush o i) := by
  rw [State.flush]
  split_ifs
  · exact h.withOpen ho { o with releasedforupload := true, handles := o.handles.set i (.taken o.writeid) } rfl rfl
      (behind_set (h.flushes o ho) (le_refl o.writeid))
  · exact h

/-- A flush that a write has overtaken stores its counter in a task that no upload has read. -/
theorem Tracks.updateStatus (h : Tracks s) (ho : s.openfile = some o) {i writeid : ℕ} (hi : o.handles[i]? = some (.taken writeid)) :
    Tracks (s.updateStatus o i writeid) := by
  have hwriteid : writeid ≤ o.writeid := h.flushes o ho _ (List.mem_of_getElem? hi)
  rw [State.updateStatus]
  have hmissed := h.withOpen ho { o with handles := o.handles.set i (.missed writeid) } rfl rfl
    (behind_set (h.flushes o ho) hwriteid)
  cases htask : s.task with
  | none =>
    rw [htask] at hmissed
    exact hmissed
  | some row =>
    rw [htask] at hmissed
    simp only
    split_ifs with hstatus
    · have hset := h.withOpen ho { o with handles := o.handles.set i .idle } rfl rfl
        (behind_set (h.flushes o ho) trivial)
      refine ⟨fun x hx => ?_, fun x hx r hr => ?_, hset.flushes, fun u hu => ⟨_, rfl, ?_⟩⟩
      · have hmodified := hset.modified x hx
        rw [htask] at hmodified
        exact hmodified
      · cases hx
        cases hr
        exact hwriteid
      · obtain ⟨r, hr, hle, hcurrent⟩ := hset.upload u hu
        obtain rfl := Option.some.inj (htask.symm.trans hr)
        exact ⟨hle, fun heq => absurd hstatus (hcurrent heq).status⟩
    · exact hmissed

theorem Tracks.updateInt1 (h : Tracks s) (ho : s.openfile = some o) {i writeid : ℕ} (hi : o.handles[i]? = some (.missed writeid)) :
    Tracks (s.updateInt1 o i writeid) := by
  have hwriteid : writeid ≤ o.writeid := h.flushes o ho _ (List.mem_of_getElem? hi)
  have hset := h.withOpen ho { o with handles := o.handles.set i .idle } rfl rfl (behind_set (h.flushes o ho) trivial)
  rw [State.updateInt1]
  refine ⟨fun x hx => ?_, fun x hx r hr => ?_, hset.flushes, fun u hu => ?_⟩
  · rw [hset.modified x hx, Option.isSome_map]
  · obtain ⟨r, hmem, rfl⟩ := Option.map_eq_some_iff.mp hr
    have hstored := hset.stored x hx r hmem
    cases hx
    split_ifs
    · exact hwriteid
    · exact hstored
  · obtain ⟨r, hr, hle, hcurrent⟩ := hset.upload u hu
    rw [counter_open rfl] at hle hcurrent
    refine ⟨_, congrArg (Option.map _) hr, ?_⟩
    rw [counter_open rfl]
    refine ⟨hle, fun heq => ?_⟩
    have hint1 := (hcurrent heq).int1
    change u.writeid = o.writeid at heq
    have hnot : ¬r.int1 < writeid := by omega
    simp only [if_neg hnot]
    exact hcurrent heq

/-- Once its last handle is released, the file has the counter that is stored. -/
theorem Tracks.decOfRefcnt (h : Tracks s) (ho : s.openfile = some o) {i : ℕ} (hloses : ¬Loses s (.release i)) :
    Tracks (s.decOfRefcnt o i) := by
  rw [State.decOfRefcnt]
  split_ifs with hlast
  · refine ⟨by simp, by simp, by simp, fun u hu => ?_⟩
    obtain ⟨row, hrow, hle, hcurrent⟩ := h.upload u hu
    have hint1 : row.int1 = o.writeid := by
      by_contra hne
      exact hloses ⟨o, ho, hlast, row, hrow, hne⟩
    rw [counter_open ho] at hle hcurrent
    refine ⟨row, hrow, ?_⟩
    rw [counter_closed rfl, hint1]
    exact ⟨hle, hcurrent⟩
  · exact h.withOpen ho { o with handles := o.handles.eraseIdx i } rfl rfl
      fun p hp => h.flushes o ho p (List.mem_of_mem_eraseIdx hp)

/-! ### What an upload leaves -/

/-- The counter that holds is the one that is compared. -/
theorem Tracks.updateOpenfile_eq (h : Tracks s) (htask : s.task = some row) (writeid : ℕ) :
    s.updateOpenfile writeid = if writeid = s.counter row then
      (0, { s with openfile := s.openfile.map fun o => { o with modified := false, releasedforupload := false } })
    else (-1, s) := by
  have hmodified := h.modified
  obtain ⟨content, openfile, task, upload⟩ := s
  change task = some row at htask
  subst htask
  rw [State.updateOpenfile]
  cases openfile with
  | none =>
    simp only [Option.filter_none, Option.map_some, Option.some.injEq, counter_closed]
    by_cases heq : writeid = row.int1
    · rw [if_pos heq, if_pos heq.symm]
      rfl
    · rw [if_neg heq, if_neg (Ne.symm heq)]
  | some o =>
    have hpending : o.modified = true := hmodified o rfl
    simp only [Option.filter_some, hpending, if_true]
    by_cases heq : writeid = o.writeid
    · rw [if_pos heq.symm, counter_open rfl, if_pos heq]
      rfl
    · rw [if_neg (Ne.symm heq), counter_open rfl, if_neg heq]

/-- An upload that has read the file goes through where the file is as it was read. -/
theorem Tracks.finish (h : Tracks s) (hu : s.upload = some u) : Tracks (s.finish u) := by
  obtain ⟨row, hrow, hle, hcurrent⟩ := h.upload u hu
  have hkept : Tracks { s with upload := none } := ⟨h.modified, h.stored, h.flushes, by simp⟩
  have hdone : Tracks { s with
      openfile := s.openfile.map fun o => { o with modified := false, releasedforupload := false }
      task := none, upload := none } := by
    refine ⟨fun x hx => ?_, by simp, fun x hx => ?_, by simp⟩
    · obtain ⟨o, -, rfl⟩ := Option.map_eq_some_iff.mp hx
      rfl
    · obtain ⟨o, ho, rfl⟩ := Option.map_eq_some_iff.mp hx
      exact h.flushes o ho
  rw [State.finish]
  by_cases heq : u.writeid = s.counter row
  · have hint1 := (hcurrent heq).int1
    split_ifs
    · rw [State.saveMeta, h.updateOpenfile_eq hrow, if_pos heq]
      simp only [ne_eq, not_true_eq_false, if_false, hrow, Option.map_some, hint1, if_true]
      exact hdone
    · rw [State.processTaskCreat, h.updateOpenfile_eq hrow, if_pos heq]
      exact hdone
  · split_ifs
    · rw [State.saveMeta, h.updateOpenfile_eq hrow, if_neg heq]
      exact hkept
    · rw [State.processTaskCreat, h.updateOpenfile_eq hrow, if_neg heq]
      exact hkept

/-- A read goes on where the last one ended. -/
theorem Current.read (h : Current s.content row u) (n count : ℕ) :
    Current s.content row (u.read s.content n count) := by
  refine ⟨h.int1, h.status, h.fsize, ?_⟩
  rw [Upload.read]
  generalize min count (n - u.bytes.length) = k
  have htake : u.bytes ++ pread s.content k u.bytes.length = s.content.take (u.bytes.length + k) := by
    rw [List.take_add, ← h.bytes]
    rfl
  simp only [htake, List.length_take]
  exact List.take_eq_take_min ..

/-- Only the upload changes, under the counter it had. -/
theorem Tracks.withUpload (h : Tracks s) (hu : s.upload = some u) (u' : Upload) (hwriteid : u'.writeid = u.writeid)
    (hcurrent : ∀ row, Current s.content row u → Current s.content row u') : Tracks { s with upload := some u' } := by
  refine ⟨h.modified, h.stored, h.flushes, fun x hx => ?_⟩
  cases hx
  obtain ⟨row, hrow, hle, hsame⟩ := h.upload u hu
  refine ⟨row, hrow, hwriteid ▸ hle, fun heq => hcurrent row (hsame (hwriteid ▸ heq))⟩

theorem Tracks.defer (h : Tracks s) (hrow : s.task = some row) :
    Tracks { s with task := some { row with status := 2 } } := by
  refine ⟨fun o ho => ?_, fun o ho r hr => ?_, h.flushes, fun u hu => ⟨_, rfl, ?_⟩⟩
  · rw [h.modified o ho, hrow]
    rfl
  · cases hr
    exact h.stored o ho row hrow
  · obtain ⟨r, hr, hle, hcurrent⟩ := h.upload u hu
    obtain rfl := Option.some.inj (hrow.symm.trans hr)
    exact ⟨hle, fun heq => ⟨(hcurrent heq).int1, show 2 ≠ 1 by decide, (hcurrent heq).fsize, (hcurrent heq).bytes⟩⟩

theorem Tracks.start (h : Tracks s) (hrow : s.task = some row) (hstatus : row.status ≠ 1) (large : Bool) :
    Tracks { s with upload := some { writeid := row.int1, large := large } } := by
  refine ⟨h.modified, h.stored, h.flushes, fun u hu => ⟨row, hrow, ?_, fun _ => ?_⟩⟩
  · cases hu
    show row.int1 ≤ s.counter row
    cases ho : s.openfile with
    | none => exact (counter_closed ho).ge
    | some o => exact (h.stored o ho row hrow).trans (counter_open ho).ge
  · cases hu
    exact ⟨rfl, hstatus, by simp, rfl⟩

theorem Tracks.fail (h : Tracks s) (expired : Bool) :
    Tracks { s with upload := none, task := if expired then s.task.map fun row => { row with status := 1 } else s.task } := by
  refine ⟨fun o ho => ?_, fun o ho row hrow => ?_, h.flushes, by simp⟩
  · rw [h.modified o ho]
    split_ifs
    · exact Option.isSome_map.symm
    · rfl
  · simp only at hrow
    split_ifs at hrow
    · obtain ⟨r, hr, rfl⟩ := Option.map_eq_some_iff.mp hrow
      exact h.stored o ho r hr
    · exact h.stored o ho row hrow

/-! ### Runs -/

theorem flushing_eq_some {i : ℕ} {p : Phase} (h : s.flushing i = some (o, p)) :
    s.openfile = some o ∧ o.handles[i]? = some p := by
  obtain ⟨x, hx, h⟩ := Option.bind_eq_some_iff.mp h
  obtain ⟨q, hq, h⟩ := Option.bind_eq_some_iff.mp h
  cases h
  exact ⟨hx, hq⟩

theorem Tracks.run (h : Tracks s) {e : Event} (hloses : ¬Loses s e) (hrun : s.run e = some s') : Tracks s' := by
  cases e with
  | open_ trunc status => exact h.open_ hloses hrun
  | write i buf offset fate =>
    obtain ⟨o, ho, rfl⟩ := Option.map_eq_some_iff.mp hrun
    exact h.change (Option.filter_eq_some_iff.mp ho).1 _
  | ftruncate i size sets =>
    obtain ⟨o, ho, rfl⟩ := Option.map_eq_some_iff.mp hrun
    exact h.ftruncateOfLocked (Option.filter_eq_some_iff.mp ho).1 size sets
  | flush i =>
    obtain ⟨o, ho, rfl⟩ := Option.map_eq_some_iff.mp hrun
    exact h.flush (Option.filter_eq_some_iff.mp ho).1 i
  | updateStatus i =>
    rw [State.run] at hrun
    split at hrun
    · obtain ⟨ho, hi⟩ := flushing_eq_some ‹_›
      cases hrun
      exact h.updateStatus ho hi
    · cases hrun
  | updateInt1 i =>
    rw [State.run] at hrun
    split at hrun
    · obtain ⟨ho, hi⟩ := flushing_eq_some ‹_›
      cases hrun
      exact h.updateInt1 ho hi
    · cases hrun
  | release i =>
    obtain ⟨o, ho, rfl⟩ := Option.map_eq_some_iff.mp hrun
    exact h.decOfRefcnt (Option.filter_eq_some_iff.mp ho).1 hloses
  | defer =>
    obtain ⟨row, hrow, rfl⟩ := Option.map_eq_some_iff.mp hrun
    exact h.defer (Option.filter_eq_some_iff.mp hrow).1
  | start large =>
    rw [State.run] at hrun
    split at hrun
    · by_cases hstatus : Row.status ‹_› = if large then 2 else 0
      · rw [if_pos hstatus] at hrun
        cases hrun
        refine h.start ‹_› (fun hone => ?_) large
        split_ifs at hstatus
        · omega
        · omega
      · rw [if_neg hstatus] at hrun
        cases hrun
    · cases hrun
  | size =>
    obtain ⟨u, hu, rfl⟩ := Option.map_eq_some_iff.mp hrun
    refine h.withUpload (Option.filter_eq_some_iff.mp hu).1 { u with fsize := some s.content.length } rfl fun row hcurrent => ?_
    exact ⟨hcurrent.int1, hcurrent.status, fun n hn => (Option.some.inj hn).symm, hcurrent.bytes⟩
  | read count =>
    obtain ⟨u, hu, hrun⟩ := Option.bind_eq_some_iff.mp hrun
    obtain ⟨n, -, hrun⟩ := Option.bind_eq_some_iff.mp hrun
    split_ifs at hrun
    cases hrun
    exact h.withUpload hu (u.read s.content n count) rfl fun row hcurrent => hcurrent.read n count
  | fail expired =>
    obtain ⟨u, -, rfl⟩ := Option.map_eq_some_iff.mp hrun
    exact h.fail expired
  | finish =>
    obtain ⟨u, hu, rfl⟩ := Option.map_eq_some_iff.mp hrun
    exact h.finish (Option.filter_eq_some_iff.mp hu).1

/-- A file of three bytes that waits for its upload. -/
def waiting : State := { content := [97, 98, 99], task := some ⟨0, 1⟩ }

end Pclsync.OpenFile.Handshake
