import Pclsync.FsCrypto.Offsets
import Pclsync.Lib.Redo

/-! The log of an encrypted file and its replay, from `pfscrypto.c`.

A log is a sector with the master record, then records up to its end: a header, and
for a data record the bytes after it. `processLog` reads nothing but the log, so it is
the list of what it does to the data file and to the index file, with how it ends.
The CRC and the hash are any functions of the bytes. -/
namespace Pclsync.FsCrypto
open Lib.Machine Lib.Files Lib.Redo

/-! ### Records -/

/-- `PSYNC_CRYPTO_LOG_DATA`. -/
def logData : ℕ := 1
/-- `PSYNC_CRYPTO_LOG_INT`. -/
def logInt : ℕ := 2
/-- `PSYNC_LOG_STATUS_FINALIZED`. -/
def logStatusFinalized : ℕ := 1
/-- `PSYNC_LOG_HASHID_FH256`. -/
def logHashidFh256 : ℕ := 0
/-- `PSYNC_FAST_HASH256_LEN`. -/
def fastHash256Len : ℕ := 32

/-- `psync_crypto_log_header`: `u16` is `length` or `longlengthhi`, `u32` is
`longlengthlo` and `u64` is `offset`. -/
structure LogHeader where
  type : ℕ
  u8 : ℕ := 0
  u16 : ℕ := 0
  u32 : ℕ := 0
  u64 : ℕ := 0
deriving DecidableEq, Repr

def sizeofLogHeader : ℕ := 16

def LogHeader.bytes (hdr : LogHeader) : Bytes :=
  ofNat 1 hdr.type ++ ofNat 1 hdr.u8 ++ ofNat 2 hdr.u16 ++ ofNat 4 hdr.u32 ++ ofNat 8 hdr.u64

/-- A field of a structure in memory. -/
def field (bytes : Bytes) (len off : ℕ) : ℕ := toNat (pread bytes len off)

def LogHeader.ofBytes (bytes : Bytes) : LogHeader :=
  ⟨field bytes 1 0, field bytes 1 1, field bytes 2 2, field bytes 4 4, field bytes 8 8⟩

/-- `psync_crypto_master_record`. -/
structure MasterRecord where
  status : ℕ
  hashid : ℕ
  logsize : ℕ
  filesize : ℕ
  hash : Bytes
  crc : ℕ
deriving DecidableEq, Repr

def sizeofMasterRecord : ℕ := 64
/-- `offsetof(psync_crypto_master_record, crc)`. -/
def offsetofCrc : ℕ := 56

/-- The bytes that the CRC is taken of. -/
def MasterRecord.checked (mr : MasterRecord) : Bytes :=
  ofNat 4 mr.status ++ ofNat 4 mr.hashid ++ ofNat 8 mr.logsize ++ ofNat 8 mr.filesize ++ mr.hash

/-- The record with the padding at its end. -/
def MasterRecord.bytes (mr : MasterRecord) : Bytes := mr.checked ++ ofNat 4 mr.crc ++ ofNat 4 0

def MasterRecord.ofBytes (bytes : Bytes) : MasterRecord :=
  ⟨field bytes 4 0, field bytes 4 4, field bytes 8 8, field bytes 8 16, pread bytes fastHash256Len 24,
    field bytes 4 offsetofCrc⟩

/-! ### Replay -/

/-- What the replay does to the data file or to the index file. -/
inductive FileOp where
  | data (op : Op)
  | index (op : Op)
deriving DecidableEq, Repr

/-- How the replay ends. -/
inductive Outcome where
  | returned (ret : ℤ)
  /-- A failed assertion. -/
  | aborted
deriving DecidableEq, Repr

abbrev Replay := List FileOp × Outcome

/-- One operation, then the rest. -/
def Replay.after (op : FileOp) (rest : Replay) : Replay := (op :: rest.1, rest.2)

/-- Offsets that the file system takes: `off_t` is signed. -/
def maxOffset : ℕ := 2 ^ 63

/-- `psync_fs_index_record`. -/
def indexRecord (rec : ℕ × ℕ) : Bytes := ofNat 8 rec.1 ++ ofNat 8 rec.2

def sizeofIndexRecord : ℕ := 16
/-- `sizeof(psync_fs_index_header)`: the header has no fields. -/
def sizeofIndexHeader : ℕ := 0

/-- The records that the shared buffer holds, written at record `ioff` of the index. -/
def writeIndex (records : List (ℕ × ℕ)) (ioff : ℕ) : FileOp :=
  .index (.write (records.flatMap indexRecord) (sizeofIndexRecord * ioff + sizeofIndexHeader))

section
variable (crc : Bytes → ℕ) (hash : Bytes → Bytes)

/-- `psync_fs_crypto_check_log_hash`: the hash of everything after the first sector. -/
def checkLogHash (lfd : Bytes) (mr : MasterRecord) : Bool :=
  mr.hashid = logHashidFh256 ∧ hash (lfd.drop sectorSize) = mr.hash

/-- The loop of `psync_fs_crypto_process_log` over the records from `off` on, and what
follows it. -/
def processRecords (lfd : Bytes) (ifd : Bool) (size off : ℕ) (records : List (ℕ × ℕ)) (ioff : ℕ) : Replay :=
  let hdr := pread lfd sizeofLogHeader off
  if hend : hdr.length = 0 then
    let last : Replay := ([.data (.truncate size)], .returned 0)
    if records = [] then last else last.after (writeIndex records ioff)
  else if hdr.length ≠ sizeofLogHeader then ([], .returned (-1))
  else
    let hdr := LogHeader.ofBytes hdr
    let off := off + sizeofLogHeader
    if hdr.type = logData then
      if hdr.u16 > sectorSize then ([], .aborted)
      else if records ≠ [] then ([], .aborted)
      else if u64 (hdr.u64 + hdr.u16) > size then processRecords lfd ifd size (off + hdr.u16) records ioff
      else
        let buff := pread lfd hdr.u16 off
        if buff.length ≠ hdr.u16 then ([], .returned (-1))
        else if hdr.u64 ≥ maxOffset then ([], .returned (-1))
        else (processRecords lfd ifd size (off + hdr.u16) records ioff).after (.data (.write buff hdr.u64))
    else if hdr.type = logInt then
      if ifd = false then ([], .aborted)
      else
        let records := records ++ [(hdr.u64, hdr.u32 + hdr.u16 * 2 ^ 32)]
        if records.length ≥ sectorSize / sizeofIndexRecord then
          (processRecords lfd ifd size off [] (ioff + records.length)).after (writeIndex records ioff)
        else processRecords lfd ifd size off records ioff
    else ([], .returned (-1))
termination_by lfd.length - off
decreasing_by
  all_goals
    rw [length_pread] at hend
    simp only [sizeofLogHeader] at *
    omega

/-- `psync_fs_crypto_process_log`. -/
def processLog (lfd : Bytes) (ifd checkhash : Bool) : Replay :=
  let buff := pread lfd sizeofMasterRecord 0
  let mr := MasterRecord.ofBytes buff
  if buff.length ≠ sizeofMasterRecord then ([], .returned (-1))
  else if mr.status ≠ logStatusFinalized then ([], .returned (-1))
  else if mr.logsize ≠ lfd.length then ([], .returned (-1))
  else if mr.crc ≠ crc (pread buff offsetofCrc 0) then ([], .returned (-1))
  else if checkhash ∧ ¬checkLogHash hash lfd mr then ([], .returned (-1))
  else if mr.filesize ≥ maxOffset then ([], .returned (-1))
  else
    let rest := processRecords lfd ifd mr.filesize sectorSize [] 0
    (if ifd then rest.after (.index (.truncate sizeofIndexHeader)) else rest).after (.data (.truncate mr.filesize))

end

/-! ### Interrupted replays -/

/-- The data file and the index file. -/
structure Disk where
  data : Bytes
  index : Bytes
deriving DecidableEq, Repr

def FileOp.apply (d : Disk) : FileOp → Disk
  | data op => { d with data := op.apply d.data }
  | index op => { d with index := op.apply d.index }

def perform (ops : List FileOp) (d : Disk) : Disk := ops.foldl FileOp.apply d

def FileOp.onData : FileOp → Option Op
  | data op => some op
  | index _ => none

def FileOp.onIndex : FileOp → Option Op
  | data _ => none
  | index op => some op

theorem perform_eq (ops : List FileOp) (d : Disk) :
    perform ops d = ⟨run (ops.filterMap FileOp.onData) d.data, run (ops.filterMap FileOp.onIndex) d.index⟩ := by
  induction ops generalizing d with
  | nil => rfl
  | cons op ops ih => cases op <;> exact ih _

/-- What the records make the replay do: the data file gets one length, the index file
is only written, and left alone when there is none. -/
def FileOp.Recorded (ifd : Bool) (size : ℕ) : FileOp → Prop
  | data (.truncate n) => n = size
  | data (.write _ _) => True
  | index (.truncate _) => False
  | index (.write _ _) => ifd = true

theorem processRecords_recorded {lfd : Bytes} {ifd : Bool} {size off ioff : ℕ} {records : List (ℕ × ℕ)}
    (hrecords : records ≠ [] → ifd = true) :
    ∀ op ∈ (processRecords lfd ifd size off records ioff).1, op.Recorded ifd size := by
  -- each branch stops, goes on, or puts one operation of its own before the rest
  fun_induction processRecords lfd ifd size off records ioff
  all_goals simp_all +zetaDelta [Replay.after, writeIndex, FileOp.Recorded]

theorem filterMap_data {ifd : Bool} {size : ℕ} {ops : List FileOp} (hops : ∀ op ∈ ops, op.Recorded ifd size) :
    ∀ m, Op.truncate m ∈ ops.filterMap FileOp.onData → m = size := by
  intro m hm
  obtain ⟨op, hop, heq⟩ := List.mem_filterMap.mp hm
  cases op with
  | data op =>
    obtain rfl := Option.some.inj heq
    exact hops _ hop
  | index op => cases heq

theorem filterMap_index {ifd : Bool} {size : ℕ} {ops : List FileOp} (hops : ∀ op ∈ ops, op.Recorded ifd size) :
    (∀ m, Op.truncate m ∉ ops.filterMap FileOp.onIndex) ∧ (ifd = false → ops.filterMap FileOp.onIndex = []) := by
  constructor
  · intro m hm
    obtain ⟨op, hop, heq⟩ := List.mem_filterMap.mp hm
    cases op with
    | data op => cases heq
    | index op =>
      obtain rfl := Option.some.inj heq
      exact hops _ hop
  · rintro rfl
    refine List.filterMap_eq_nil_iff.mpr fun op hop => ?_
    cases op with
    | data op => rfl
    | index op => cases op <;> cases hops _ hop

/-- What a replay does begins with setting the lengths, unless it does nothing. -/
theorem processLog_ops (crc : Bytes → ℕ) (hash : Bytes → Bytes) (lfd : Bytes) (ifd checkhash : Bool) :
    (processLog crc hash lfd ifd checkhash).1 = [] ∨ ∃ size rest, (∀ op ∈ rest, op.Recorded ifd size) ∧
      (processLog crc hash lfd ifd checkhash).1 =
        .data (.truncate size) :: if ifd then .index (.truncate sizeofIndexHeader) :: rest else rest := by
  rw [processLog]
  split_ifs
  iterate 6 exact .inl rfl
  · exact .inr ⟨_, _, processRecords_recorded (by simp), rfl⟩
  · exact .inr ⟨_, _, processRecords_recorded (by simp), rfl⟩

/-- The hash of a whole log changes nothing. -/
theorem processLog_checkhash {crc : Bytes → ℕ} {hash : Bytes → Bytes} {lfd : Bytes} {ifd : Bool}
    (hvalid : checkLogHash hash lfd (MasterRecord.ofBytes (pread lfd sizeofMasterRecord 0)) = true) (checkhash : Bool) :
    processLog crc hash lfd ifd checkhash = processLog crc hash lfd ifd false := by
  simp only [processLog, hvalid, not_true_eq_false, and_false, if_false, Bool.false_eq_true]

/-- Any replay after the first part of one ends as one that nothing interrupted. -/
theorem perform_again {crc : Bytes → ℕ} {hash : Bytes → Bytes} {lfd : Bytes} {ifd checkhash : Bool} {d : Disk}
    {pre : List FileOp} (hpre : pre <+: (processLog crc hash lfd ifd checkhash).1) :
    perform (processLog crc hash lfd ifd checkhash).1 (perform pre d) =
      perform (processLog crc hash lfd ifd checkhash).1 d := by
  rcases processLog_ops crc hash lfd ifd checkhash with hnone | ⟨size, rest, hrest, hops⟩
  · rw [hnone] at hpre ⊢
    rw [List.prefix_nil.mp hpre]
    rfl
  rw [hops] at hpre ⊢
  have hdata := filterMap_data hrest
  obtain ⟨hindex, hnoindex⟩ := filterMap_index hrest
  have hpredata := hpre.filterMap FileOp.onData
  have hpreindex := hpre.filterMap FileOp.onIndex
  rw [perform_eq, perform_eq, perform_eq, Disk.mk.injEq]
  cases ifd with
  | false =>
    simp only [Bool.false_eq_true, if_false, List.filterMap_cons, FileOp.onData, FileOp.onIndex] at hpredata hpreindex ⊢
    refine ⟨run_again hdata hpredata, ?_⟩
    rw [hnoindex rfl, List.prefix_nil] at hpreindex
    rw [hpreindex]
    rfl
  | true =>
    simp only [if_true, List.filterMap_cons, FileOp.onData, FileOp.onIndex] at hpredata hpreindex ⊢
    exact ⟨run_again hdata hpredata, run_again (fun m hm => absurd hm (hindex m)) hpreindex⟩

/-- A replay of a finalized log stops after any of its operations: the next one ends as
one that nothing interrupted. Neither depends on whether the hash is checked, which the
replay at the start of the program does and the one after a finalization does not. -/
theorem replay_again (crc : Bytes → ℕ) (hash : Bytes → Bytes) (lfd : Bytes) (ifd checkhash checkhash' : Bool)
    (hvalid : checkLogHash hash lfd (MasterRecord.ofBytes (pread lfd sizeofMasterRecord 0)) = true) (d : Disk) (k : ℕ) :
    perform (processLog crc hash lfd ifd checkhash').1 (perform ((processLog crc hash lfd ifd checkhash).1.take k) d) =
      perform (processLog crc hash lfd ifd checkhash).1 d := by
  rw [processLog_checkhash hvalid checkhash', processLog_checkhash hvalid checkhash]
  exact perform_again (List.take_prefix k _)

/-- A log with one data record. -/
theorem replay_again_one_record :
    let record := LogHeader.bytes ⟨logData, 0, 3, 0, 0⟩ ++ [7, 8, 9]
    let mr : MasterRecord := ⟨logStatusFinalized, logHashidFh256, 4115, 3, ofNat 32 record.length, 0⟩
    let lfd := mr.bytes ++ List.replicate 4032 0 ++ record
    let hash := fun bytes : Bytes => ofNat 32 bytes.length
    ∀ k, perform (processLog (fun _ => 0) hash lfd false true).1
        (perform ((processLog (fun _ => 0) hash lfd false false).1.take k) ⟨[1, 2, 3, 4], []⟩) =
      perform (processLog (fun _ => 0) hash lfd false false).1 ⟨[1, 2, 3, 4], []⟩ := by
  intro record mr lfd hash k
  refine replay_again _ hash lfd false false true ?_ _ k
  have hmr : mr.bytes.length = 64 := by decide
  have hfront : (mr.bytes ++ List.replicate 4032 0).length = sectorSize := by
    rw [List.length_append, hmr, List.length_replicate]
    rfl
  have hdrop : lfd.drop sectorSize = record := List.drop_left' hfront
  have hhead : pread lfd sizeofMasterRecord 0 = mr.bytes := by
    show ((mr.bytes ++ List.replicate 4032 0) ++ record).take 64 = mr.bytes
    rw [List.append_assoc]
    exact List.take_left' hmr
  rw [hhead, checkLogHash, hdrop]
  decide

end Pclsync.FsCrypto
