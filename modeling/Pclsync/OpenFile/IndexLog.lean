import Pclsync.OpenFile.IndexTruth

/-! The index of an encrypted file goes through its log, from `pfscrypto.c`.

When a log is finalized the intervals are appended to it, and the replay makes the index anew of
them. Both gather 256 records for a write, and what loads the index reads 512. -/
namespace Pclsync.OpenFile
open Lib.Machine Lib.Files Lib.Intervals
open FsCrypto

/-- The log of an open file, where its next record goes, and the bytes that its hash was given. -/
structure OpenLog where
  logfile : Bytes
  logoffset : ℕ
  loghashctx : Bytes
deriving DecidableEq, Repr

/-- `ARRAY_SIZE(logs)`. -/
def logsSize : ℕ := 4096 / sizeofLogHeader

section
variable (junk : ℕ × ℕ → ℕ)

/-- The record of an interval of length `len`; one byte of it is what the stack had there. -/
def intervalHeader (itr : ℕ × ℕ) (len : ℕ) : LogHeader where
  type := logInt
  u8 := junk itr
  u16 := u16 (len / 2 ^ 32)
  u32 := len % 2 ^ 32
  u64 := itr.1

/-- The write of the records that were gathered. -/
def appendLogs (of : OpenLog) (logs : List LogHeader) (fate : Fate) : ℤ × OpenLog :=
  let bytes := logs.flatMap LogHeader.bytes
  let (wrt, logfile) := filePwrite (some of.logfile) bytes of.logoffset fate
  let of := { of with logfile := logfile.getD of.logfile }
  if wrt ≠ some bytes.length then (-eio, of)
  else (0, { of with loghashctx := of.loghashctx ++ bytes, logoffset := u32 (of.logoffset + bytes.length) })

/-- The loop of `psync_fs_write_interval_tree_to_log` and what follows it, `fates` being how its writes go. -/
def writeIntervals (fates : ℕ → Fate) : IntervalTree → List LogHeader → OpenLog → Option (ℤ × OpenLog)
  | [], logs, of => some (if logs = [] then (0, of) else appendLogs of logs (fates 0))
  | itr :: tree, logs, of =>
    let len := sub64 itr.2 itr.1
    if logs.length = logsSize then
      let (ret, of) := appendLogs of logs (fates 0)
      if ret ≠ 0 then some (ret, of)
      else if len / 2 ^ 48 ≠ 0 then none
      else writeIntervals (fun k => fates (k + 1)) tree [intervalHeader junk itr len] of
    else if len / 2 ^ 48 ≠ 0 then none
    else writeIntervals fates tree (logs ++ [intervalHeader junk itr len]) of

/-- `psync_fs_write_interval_tree_to_log`. -/
def writeIntervalTreeToLog (fates : ℕ → Fate) (tree : IntervalTree) (of : OpenLog) : Option (ℤ × OpenLog) :=
  writeIntervals junk fates tree [] of

/-- `psync_fs_crypto_mark_log_finalized`. -/
def markLogFinalized (crc : Bytes → ℕ) (hash : Bytes → Bytes) (filesize : ℕ) (fate : Fate) (of : OpenLog) : Option (ℤ × OpenLog) :=
  let lsize := of.logfile.length
  if lsize ≠ of.loghashctx.length + sectorSize then none
  else
    let mr : MasterRecord := ⟨logStatusFinalized, logHashidFh256, lsize, filesize, hash of.loghashctx, 0⟩
    let mr := { mr with crc := crc mr.checked }
    let (wrt, logfile) := filePwrite (some of.logfile) mr.bytes 0 fate
    some (if wrt ≠ some sizeofMasterRecord then -eio else 0, { of with logfile := logfile.getD of.logfile })

/-- The records of some intervals, as they are in the log. -/
def logged (tree : IntervalTree) : Bytes := tree.flatMap fun itr => (intervalHeader junk itr (sub64 itr.2 itr.1)).bytes

end

/-! ### Writing -/

/-- All writes of the log were appended, and the hash was given them. -/
structure OpenLog.Whole (of : OpenLog) : Prop where
  hashed : of.loghashctx = of.logfile.drop sectorSize
  sector : sectorSize ≤ of.logfile.length
  offset : of.logoffset = u32 of.logfile.length

/-- A write came past the 4 GiB that an offset has, and went to the start of the log instead. -/
structure OpenLog.Overrun (of : OpenLog) : Prop where
  full : 2 ^ 32 ≤ of.logfile.length
  behind : of.logfile.length < of.loghashctx.length + sectorSize
  offset : of.logoffset < 2 ^ 32

variable {junk : ℕ × ℕ → ℕ} {of of' : OpenLog} {logs : List LogHeader} {tree : IntervalTree} {itr : ℕ × ℕ}

@[simp] theorem length_logHeader (hdr : LogHeader) : hdr.bytes.length = sizeofLogHeader := by
  simp only [LogHeader.bytes, List.length_append, length_ofNat]
  rfl

theorem length_flatMap_logHeader : (logs.flatMap LogHeader.bytes).length = sizeofLogHeader * logs.length := by
  induction logs with
  | nil => rfl
  | cons hdr logs ih => rw [List.flatMap_cons, List.length_append, length_logHeader, ih, List.length_cons, Nat.mul_succ, Nat.add_comm]

theorem appendLogs_whole : appendLogs of logs .whole =
    (0, ⟨pwrite of.logfile (logs.flatMap LogHeader.bytes) of.logoffset, u32 (of.logoffset + sizeofLogHeader * logs.length),
      of.loghashctx ++ logs.flatMap LogHeader.bytes⟩) := by
  simp only [appendLogs, filePwrite_some, Fate.count, ne_eq, not_true_eq_false, if_false, Option.getD_some, length_flatMap_logHeader]
  rw [List.take_of_length_le length_flatMap_logHeader.le]

/-- Before 4 GiB a write goes to the end. -/
theorem OpenLog.Whole.append (logs : List LogHeader) (h : of.Whole) (hfit : of.logfile.length < 2 ^ 32) :
    ∃ of', appendLogs of logs .whole = (0, of') ∧ of'.Whole ∧ of'.logfile = of.logfile ++ logs.flatMap LogHeader.bytes := by
  have hoff : of.logoffset = of.logfile.length := h.offset.trans (u32_of_lt hfit)
  refine ⟨_, appendLogs_whole, ⟨?_, ?_, ?_⟩, ?_⟩
  · dsimp only
    rw [hoff, pwrite_end, h.hashed, List.drop_append_of_le_length h.sector]
  · dsimp only
    rw [hoff, pwrite_end, List.length_append]
    exact Nat.le_add_right_of_le h.sector
  · dsimp only
    rw [hoff, pwrite_end, List.length_append, length_flatMap_logHeader]
  · dsimp only
    rw [hoff, pwrite_end]

theorem u32_lt (x : ℕ) : u32 x < 2 ^ 32 := Nat.mod_lt _ (by decide)

/-- Behind it, it does not. -/
theorem OpenLog.Whole.overrun (h : of.Whole) (hpast : 2 ^ 32 ≤ of.logfile.length) (hnear : of.logfile.length ≤ 2 ^ 32 + 4096)
    (hlogs : logs ≠ []) (hle : logs.length ≤ logsSize) : ∃ of', appendLogs of logs .whole = (0, of') ∧ of'.Overrun := by
  have hpos := List.length_pos_of_ne_nil hlogs
  have hhashed : of.loghashctx.length + sectorSize = of.logfile.length := by
    rw [h.hashed, List.length_drop, Nat.sub_add_cancel h.sector]
  have hoff : of.logoffset + 2 ^ 32 = of.logfile.length := by
    rw [h.offset, u32]
    omega
  have hdata : logs.flatMap LogHeader.bytes ≠ [] := by
    rw [← List.length_pos_iff, length_flatMap_logHeader, sizeofLogHeader]
    omega
  have hlength : (pwrite of.logfile (logs.flatMap LogHeader.bytes) of.logoffset).length = of.logfile.length := by
    rw [length_pwrite, if_neg hdata, length_flatMap_logHeader]
    simp only [sizeofLogHeader, logsSize] at hle ⊢
    omega
  refine ⟨_, appendLogs_whole, ?_, ?_, u32_lt _⟩
  · exact hpast.trans_eq hlength.symm
  · dsimp only
    rw [hlength, List.length_append, length_flatMap_logHeader, sizeofLogHeader]
    omega

/-- And the hash stays ahead of the log. -/
theorem OpenLog.Overrun.append (logs : List LogHeader) (h : of.Overrun) : ∃ of', appendLogs of logs .whole = (0, of') ∧ of'.Overrun := by
  obtain ⟨hfull, hbehind, hoff⟩ := h
  have hlength : of.logfile.length ≤ (pwrite of.logfile (logs.flatMap LogHeader.bytes) of.logoffset).length ∧
      (pwrite of.logfile (logs.flatMap LogHeader.bytes) of.logoffset).length ≤ of.logfile.length + sizeofLogHeader * logs.length := by
    rw [length_pwrite, length_flatMap_logHeader]
    split_ifs <;> omega
  refine ⟨_, appendLogs_whole, ?_, ?_, u32_lt _⟩
  · exact hfull.trans hlength.1
  · dsimp only
    rw [List.length_append, length_flatMap_logHeader]
    omega

theorem length_single_le {hdr : LogHeader} : [hdr].length ≤ logsSize := by
  rw [List.length_singleton]
  decide

theorem length_concat_le {hdr : LogHeader} (hlogs : logs.length ≤ logsSize) (hroom : logs.length ≠ logsSize) :
    (logs ++ [hdr]).length ≤ logsSize := by
  rw [List.length_append]
  exact lt_of_le_of_ne hlogs hroom

theorem writeIntervals_full (fates : ℕ → Fate) {of₁ : OpenLog} (hfull : logs.length = logsSize) (hlen : sub64 itr.2 itr.1 / 2 ^ 48 = 0)
    (hof₁ : appendLogs of logs (fates 0) = (0, of₁)) : writeIntervals junk fates (itr :: tree) logs of =
      writeIntervals junk (fun k => fates (k + 1)) tree [intervalHeader junk itr (sub64 itr.2 itr.1)] of₁ := by
  rw [writeIntervals]
  dsimp only
  rw [if_pos hfull, hof₁, if_neg (fun h => h rfl), if_neg (not_not.mpr hlen)]

theorem writeIntervals_room {fates : ℕ → Fate} (hroom : logs.length ≠ logsSize) (hlen : sub64 itr.2 itr.1 / 2 ^ 48 = 0) :
    writeIntervals junk fates (itr :: tree) logs of =
      writeIntervals junk fates tree (logs ++ [intervalHeader junk itr (sub64 itr.2 itr.1)]) of := by
  rw [writeIntervals]
  dsimp only
  rw [if_neg hroom, if_neg (not_not.mpr hlen)]

/-- All records are appended when the last write begins before 4 GiB. -/
theorem writeIntervals_whole (hlens : ∀ itr ∈ tree, sub64 itr.2 itr.1 / 2 ^ 48 = 0) (h : of.Whole) (hlogs : logs.length ≤ logsSize)
    (hfit : of.logfile.length + 4096 * ((logs.length + tree.length - 1) / logsSize) < 2 ^ 32) :
    ∃ of', writeIntervals junk (fun _ => .whole) tree logs of = some (0, of') ∧ of'.Whole ∧
      of'.logfile = of.logfile ++ (logs.flatMap LogHeader.bytes ++ logged junk tree) := by
  induction tree generalizing logs of with
  | nil =>
    rw [writeIntervals]
    split_ifs with hempty
    · exact ⟨of, rfl, h, by simp [hempty, logged]⟩
    · obtain ⟨of', hof', hwhole, hfile⟩ := h.append logs (Nat.lt_of_le_of_lt (Nat.le_add_right ..) hfit)
      exact ⟨of', congrArg some hof', hwhole, by simpa [logged] using hfile⟩
  | cons itr tree ih =>
    obtain ⟨hlen, hlens⟩ := List.forall_mem_cons.mp hlens
    rw [List.length_cons] at hfit
    by_cases hfull : logs.length = logsSize
    · obtain ⟨of₁, hof₁, hwhole₁, hfile₁⟩ := h.append logs (Nat.lt_of_le_of_lt (Nat.le_add_right ..) hfit)
      have hlength : of₁.logfile.length = of.logfile.length + 4096 := by
        rw [hfile₁, List.length_append, length_flatMap_logHeader, hfull]
        rfl
      rw [writeIntervals_full (fun _ => .whole) hfull hlen hof₁]
      rw [hfull] at hfit
      obtain ⟨of', hof', hwhole, hfile⟩ := @ih of₁ [intervalHeader junk itr (sub64 itr.2 itr.1)] hlens hwhole₁ length_single_le (by
        rw [hlength, List.length_singleton]
        simp only [logsSize, sizeofLogHeader] at hfit ⊢
        omega)
      exact ⟨of', hof', hwhole, by rw [hfile, hfile₁]; simp [logged]⟩
    · rw [writeIntervals_room hfull hlen]
      obtain ⟨of', hof', hwhole, hfile⟩ := @ih of (logs ++ [intervalHeader junk itr (sub64 itr.2 itr.1)]) hlens h (length_concat_le hlogs hfull) (by
        rwa [List.length_append, List.length_singleton, Nat.add_assoc, Nat.add_comm 1])
      exact ⟨of', hof', hwhole, by rw [hfile]; simp [logged]⟩

theorem writeIntervals_overrun (hlens : ∀ itr ∈ tree, sub64 itr.2 itr.1 / 2 ^ 48 = 0) (h : of.Overrun) :
    ∃ of', writeIntervals junk (fun _ => .whole) tree logs of = some (0, of') ∧ of'.Overrun := by
  induction tree generalizing logs of with
  | nil =>
    rw [writeIntervals]
    split_ifs with hempty
    · exact ⟨of, rfl, h⟩
    · obtain ⟨of', hof', hover⟩ := h.append logs
      exact ⟨of', congrArg some hof', hover⟩
  | cons itr tree ih =>
    obtain ⟨hlen, hlens⟩ := List.forall_mem_cons.mp hlens
    by_cases hfull : logs.length = logsSize
    · obtain ⟨of₁, hof₁, hover₁⟩ := h.append logs
      rw [writeIntervals_full (fun _ => .whole) hfull hlen hof₁]
      exact ih hlens hover₁
    · rw [writeIntervals_room hfull hlen]
      exact ih hlens h

/-- Otherwise one of them goes elsewhere. -/
theorem writeIntervals_past (hlens : ∀ itr ∈ tree, sub64 itr.2 itr.1 / 2 ^ 48 = 0) (h : of.Whole) (hlogs : logs.length ≤ logsSize)
    (hsome : 0 < logs.length + tree.length) (hnear : of.logfile.length ≤ 2 ^ 32 + 4096)
    (hpast : 2 ^ 32 ≤ of.logfile.length + 4096 * ((logs.length + tree.length - 1) / logsSize)) :
    ∃ of', writeIntervals junk (fun _ => .whole) tree logs of = some (0, of') ∧ of'.Overrun := by
  induction tree generalizing logs of with
  | nil =>
    have hempty : logs ≠ [] := List.ne_nil_of_length_pos hsome
    rw [writeIntervals, if_neg hempty]
    obtain ⟨of', hof', hover⟩ := h.overrun (by
      rw [List.length_nil] at hpast
      simp only [logsSize, sizeofLogHeader] at hpast hlogs
      omega) hnear hempty hlogs
    exact ⟨of', congrArg some hof', hover⟩
  | cons itr tree ih =>
    obtain ⟨hlen, hlens'⟩ := List.forall_mem_cons.mp hlens
    rw [List.length_cons] at hpast
    by_cases hfull : logs.length = logsSize
    · by_cases hnow : 2 ^ 32 ≤ of.logfile.length
      · obtain ⟨of₁, hof₁, hover₁⟩ := h.overrun hnow hnear (List.ne_nil_of_length_pos (by rw [hfull]; decide)) hlogs
        rw [writeIntervals_full (fun _ => .whole) hfull hlen hof₁]
        exact writeIntervals_overrun hlens' hover₁
      · obtain ⟨of₁, hof₁, hwhole₁, hfile₁⟩ := h.append logs (not_le.mp hnow)
        have hlength : of₁.logfile.length = of.logfile.length + 4096 := by
          rw [hfile₁, List.length_append, length_flatMap_logHeader, hfull]
          rfl
        rw [writeIntervals_full (fun _ => .whole) hfull hlen hof₁]
        rw [hfull] at hpast
        exact ih hlens' hwhole₁ length_single_le (Nat.lt_add_right _ Nat.one_pos) (by omega) (by
          rw [hlength, List.length_singleton]
          simp only [logsSize, sizeofLogHeader] at hpast ⊢
          omega)
    · rw [writeIntervals_room hfull hlen]
      have hlength : (logs ++ [intervalHeader junk itr (sub64 itr.2 itr.1)]).length + tree.length = logs.length + (tree.length + 1) := by
        rw [List.length_append, List.length_singleton, Nat.add_assoc, Nat.add_comm 1]
      exact ih hlens' h (length_concat_le hlogs hfull) (by omega) hnear (by rwa [hlength])

/-! ### Replaying -/

/-- Its numbers fit in their fields. -/
structure HeaderFits (hdr : LogHeader) : Prop where
  type : hdr.type < 2 ^ 8
  u16 : hdr.u16 < 2 ^ 16
  u32 : hdr.u32 < 2 ^ 32
  u64 : hdr.u64 < 2 ^ 64

/-- What a header is read as, one byte of it apart. -/
theorem HeaderFits.ofBytes {hdr : LogHeader} (h : HeaderFits hdr) :
    ∃ u8, LogHeader.ofBytes hdr.bytes = { hdr with u8 := u8 } := by
  refine ⟨field hdr.bytes 1 1, ?_⟩
  have hparts : hdr.bytes = ofNat 1 hdr.type ++ (ofNat 1 hdr.u8 ++ (ofNat 2 hdr.u16 ++ (ofNat 4 hdr.u32 ++ ofNat 8 hdr.u64))) := by
    simp only [LogHeader.bytes, List.append_assoc]
  have htype : field hdr.bytes 1 0 = hdr.type := by
    rw [field, hparts, pread_append_left (by rw [length_ofNat]), pread_zero, List.take_of_length_le (length_ofNat ..).le, toNat_ofNat h.type]
  have hu16 : field hdr.bytes 2 2 = hdr.u16 := by
    rw [field, hparts, ← List.append_assoc, @pread_append_right _ _ _ 0 _ (by simp), pread_append_left (by rw [length_ofNat]),
      pread_zero, List.take_of_length_le (length_ofNat ..).le, toNat_ofNat h.u16]
  have hu32 : field hdr.bytes 4 4 = hdr.u32 := by
    rw [field, hparts, ← List.append_assoc, ← List.append_assoc, @pread_append_right _ _ _ 0 _ (by simp),
      pread_append_left (by rw [length_ofNat]), pread_zero, List.take_of_length_le (length_ofNat ..).le, toNat_ofNat h.u32]
  have hu64 : field hdr.bytes 8 8 = hdr.u64 := by
    rw [field, hparts, ← List.append_assoc, ← List.append_assoc, ← List.append_assoc, pread_append_exact (by simp) (length_ofNat ..),
      toNat_ofNat h.u64]
  rw [LogHeader.ofBytes, htype, hu16, hu32, hu64]

section
variable {lfd : Bytes} {ifd : Bool} {size off ioff : ℕ} {recs : List (ℕ × ℕ)} {hdr : LogHeader}

theorem processRecords_end (h : lfd.length ≤ off) : processRecords lfd ifd size off recs ioff =
    if recs = [] then ([.data (.truncate size)], .returned 0)
    else Replay.after (writeIndex recs ioff) ([.data (.truncate size)], .returned 0) := by
  have hnone : (pread lfd sizeofLogHeader off).length = 0 := by
    rw [length_pread]
    omega
  rw [processRecords]
  dsimp only
  rw [dif_pos hnone]

theorem processRecords_int {rec : ℕ × ℕ} (h : pread lfd sizeofLogHeader off = hdr.bytes) (hfits : HeaderFits hdr)
    (hint : hdr.type = logInt) (hrec : (hdr.u64, hdr.u32 + hdr.u16 * 2 ^ 32) = rec) :
    processRecords lfd true size off recs ioff =
      if (recs ++ [rec]).length ≥ sectorSize / sizeofIndexRecord then
        (processRecords lfd true size (off + sizeofLogHeader) [] (ioff + (recs ++ [rec]).length)).after (writeIndex (recs ++ [rec]) ioff)
      else processRecords lfd true size (off + sizeofLogHeader) (recs ++ [rec]) ioff := by
  obtain ⟨byte, hread⟩ := hfits.ofBytes
  rw [processRecords]
  dsimp only
  rw [dif_neg (by rw [h, length_logHeader]; decide), if_neg (by rw [h, length_logHeader]; exact fun h => h rfl), h, hread]
  dsimp only
  rw [hint, if_neg (by decide), if_pos rfl, if_neg (by decide), hrec]

theorem processRecords_data (ifd : Bool) (size ioff : ℕ) {data rest : Bytes} (hlfd : lfd.drop off = hdr.bytes ++ data ++ rest) (hfits : HeaderFits hdr)
    (hdata : hdr.type = logData) (hlength : data.length = hdr.u16) (hle : hdr.u16 ≤ sectorSize) (hmax : hdr.u64 < maxOffset) :
    (processRecords lfd ifd size off [] ioff).2 = (processRecords lfd ifd size (off + sizeofLogHeader + hdr.u16) [] ioff).2 ∧
      (processRecords lfd ifd size off [] ioff).1.filterMap FileOp.onIndex =
        (processRecords lfd ifd size (off + sizeofLogHeader + hdr.u16) [] ioff).1.filterMap FileOp.onIndex := by
  have h : pread lfd sizeofLogHeader off = hdr.bytes := by
    rw [pread, hlfd, List.append_assoc, List.take_left' (length_logHeader hdr)]
  have hbuff : (pread lfd hdr.u16 (off + sizeofLogHeader)).length = hdr.u16 := by
    rw [pread, ← List.drop_drop, hlfd, List.append_assoc, List.drop_left' (length_logHeader hdr), ← hlength, List.take_left' rfl]
  obtain ⟨byte, hread⟩ := hfits.ofBytes
  rw [processRecords]
  dsimp only
  rw [dif_neg (by rw [h, length_logHeader]; decide), if_neg (by rw [h, length_logHeader]; exact fun h => h rfl), h, hread]
  dsimp only
  rw [if_pos hdata, if_neg (not_lt.mpr hle), if_neg (fun h => h rfl)]
  by_cases hpast : u64 (hdr.u64 + hdr.u16) > size
  · rw [if_pos hpast]
    exact ⟨rfl, rfl⟩
  · rw [if_neg hpast, if_neg (fun h => h hbuff), if_neg (not_le.mpr hmax)]
    exact ⟨rfl, rfl⟩

/-- A data record of a log. -/
structure DataRecord where
  hdr : LogHeader
  data : Bytes
deriving DecidableEq, Repr

def DataRecord.bytes (rec : DataRecord) : Bytes := rec.hdr.bytes ++ rec.data

/-- It is as the writes of a file make it. -/
structure DataRecord.Sound (rec : DataRecord) : Prop where
  fits : HeaderFits rec.hdr
  type : rec.hdr.type = logData
  length : rec.data.length = rec.hdr.u16
  sector : rec.hdr.u16 ≤ sectorSize
  offset : rec.hdr.u64 < maxOffset

/-- Data records leave the index alone. -/
theorem processRecords_datas (ifd : Bool) (size ioff : ℕ) {datas : List DataRecord} {rest : Bytes} (hdatas : ∀ rec ∈ datas, rec.Sound)
    (hlfd : lfd.drop off = datas.flatMap DataRecord.bytes ++ rest) :
    (processRecords lfd ifd size off [] ioff).2 =
        (processRecords lfd ifd size (off + (datas.flatMap DataRecord.bytes).length) [] ioff).2 ∧
      (processRecords lfd ifd size off [] ioff).1.filterMap FileOp.onIndex =
        (processRecords lfd ifd size (off + (datas.flatMap DataRecord.bytes).length) [] ioff).1.filterMap FileOp.onIndex := by
  induction datas generalizing off with
  | nil => exact ⟨rfl, rfl⟩
  | cons rec datas ih =>
    obtain ⟨hrec, hdatas⟩ := List.forall_mem_cons.mp hdatas
    rw [List.flatMap_cons, DataRecord.bytes, List.append_assoc] at hlfd
    obtain ⟨hend, hindex⟩ := processRecords_data ifd size ioff hlfd hrec.fits hrec.type hrec.length hrec.sector hrec.offset
    have hdrop : lfd.drop (off + sizeofLogHeader + rec.hdr.u16) = datas.flatMap DataRecord.bytes ++ rest := by
      rw [← hrec.length, Nat.add_assoc, ← List.drop_drop, hlfd]
      exact List.drop_left' (by rw [List.length_append, length_logHeader])
    obtain ⟨hend', hindex'⟩ := ih hdatas hdrop
    have hoff : off + ((rec :: datas).flatMap DataRecord.bytes).length =
        off + sizeofLogHeader + rec.hdr.u16 + (datas.flatMap DataRecord.bytes).length := by
      rw [List.flatMap_cons, DataRecord.bytes, List.length_append, List.length_append, length_logHeader, hrec.length]
      omega
    rw [hoff]
    exact ⟨hend.trans hend', hindex.trans hindex'⟩

/-- Every interval is not empty, shorter than 2^48, and ends where an offset can. -/
def Loggable (tree : IntervalTree) : Prop := ∀ itr ∈ tree, itr.1 < itr.2 ∧ itr.2 < 2 ^ 64 ∧ itr.2 - itr.1 < 2 ^ 48

/-- The records of the index. -/
def lengths (tree : IntervalTree) : List (ℕ × ℕ) := tree.map fun itr => (itr.1, itr.2 - itr.1)

theorem intervalHeader_fits {junk : ℕ × ℕ → ℕ} {len : ℕ} (hoff : itr.1 < 2 ^ 64) : HeaderFits (intervalHeader junk itr len) :=
  ⟨show logInt < 2 ^ 8 by decide, Nat.mod_lt _ (by decide), Nat.mod_lt _ (by decide), hoff⟩

/-- A length is put together again. -/
theorem intervalHeader_length {junk : ℕ × ℕ → ℕ} {len : ℕ} (hlen : len < 2 ^ 48) :
    (intervalHeader junk itr len).u32 + (intervalHeader junk itr len).u16 * 2 ^ 32 = len := by
  simp only [intervalHeader, u16]
  omega

theorem length_flatMap_indexRecord : (recs.flatMap indexRecord).length = sizeofIndexRecord * recs.length := by
  induction recs with
  | nil => rfl
  | cons rec recs ih => rw [List.flatMap_cons, List.length_append, length_indexRecord, ih, List.length_cons, Nat.mul_succ, Nat.add_comm]

/-- The records that are left are written behind those that were. -/
theorem run_writeIndex {idx : Bytes} (hidx : idx.length = sizeofIndexRecord * ioff) :
    Lib.Redo.run [.write (recs.flatMap indexRecord) (sizeofIndexRecord * ioff + sizeofIndexHeader)] idx = idx ++ recs.flatMap indexRecord := by
  show pwrite idx (recs.flatMap indexRecord) (sizeofIndexRecord * ioff + sizeofIndexHeader) = _
  rw [sizeofIndexHeader, Nat.add_zero, ← hidx, pwrite_end]

/-- Records of intervals up to the end of the log are all written to the index. -/
theorem processRecords_intervals {junk : ℕ × ℕ → ℕ} {tree : IntervalTree} {idx : Bytes} (htree : Loggable tree)
    (hlfd : lfd.drop off = logged junk tree) (hrecs : recs.length < sectorSize / sizeofIndexRecord) (hidx : idx.length = sizeofIndexRecord * ioff) :
    (processRecords lfd true size off recs ioff).2 = .returned 0 ∧
      Lib.Redo.run ((processRecords lfd true size off recs ioff).1.filterMap FileOp.onIndex) idx =
        idx ++ (recs ++ lengths tree).flatMap indexRecord := by
  induction tree generalizing off recs ioff idx with
  | nil =>
    have hend : lfd.length ≤ off := List.drop_eq_nil_iff.mp hlfd
    rw [processRecords_end hend, lengths, List.map_nil, List.append_nil]
    split_ifs with hnone
    · exact ⟨rfl, by rw [hnone]; exact (List.append_nil _).symm⟩
    · exact ⟨rfl, run_writeIndex hidx⟩
  | cons itr tree ih =>
    obtain ⟨⟨hlt, hfit, hlen⟩, htree⟩ := List.forall_mem_cons.mp htree
    have hsub : sub64 itr.2 itr.1 = itr.2 - itr.1 := sub64_of_le hlt.le hfit
    rw [logged, List.flatMap_cons, hsub] at hlfd
    have hread : pread lfd sizeofLogHeader off = (intervalHeader junk itr (itr.2 - itr.1)).bytes := by
      rw [pread, hlfd, List.take_left' (length_logHeader _)]
    have hdrop : lfd.drop (off + sizeofLogHeader) = logged junk tree := by
      rw [← List.drop_drop, hlfd, List.drop_left' (length_logHeader _)]
      rfl
    have hrec : ((intervalHeader junk itr (itr.2 - itr.1)).u64, (intervalHeader junk itr (itr.2 - itr.1)).u32 +
        (intervalHeader junk itr (itr.2 - itr.1)).u16 * 2 ^ 32) = (itr.1, itr.2 - itr.1) := by
      rw [intervalHeader_length hlen]
      rfl
    rw [processRecords_int hread (intervalHeader_fits (hlt.trans hfit)) rfl hrec]
    have hrecs' : recs ++ lengths (itr :: tree) = recs ++ [(itr.1, itr.2 - itr.1)] ++ lengths tree := by
      rw [List.append_assoc]
      rfl
    rw [hrecs']
    by_cases hfull : (recs ++ [(itr.1, itr.2 - itr.1)]).length ≥ sectorSize / sizeofIndexRecord
    · have hidx' : (idx ++ (recs ++ [(itr.1, itr.2 - itr.1)]).flatMap indexRecord).length =
          sizeofIndexRecord * (ioff + (recs ++ [(itr.1, itr.2 - itr.1)]).length) := by
        rw [List.length_append, length_flatMap_indexRecord, hidx, Nat.mul_add]
      obtain ⟨hend, hindex⟩ := ih htree hdrop (show ([] : List (ℕ × ℕ)).length < sectorSize / sizeofIndexRecord by decide) hidx'
      rw [if_pos hfull]
      refine ⟨hend, ?_⟩
      have hfirst := @run_writeIndex ioff (recs ++ [(itr.1, itr.2 - itr.1)]) idx hidx
      rw [List.nil_append] at hindex
      rw [List.flatMap_append, ← List.append_assoc, ← hindex, ← hfirst]
      rfl
    · rw [if_neg hfull]
      exact ih htree hdrop (not_le.mp hfull) hidx

end

/-! ### The master record -/

/-- What the hash and the CRC give fits in the record. -/
structure Sized (crc : Bytes → ℕ) (hash : Bytes → Bytes) : Prop where
  crc : ∀ bytes, crc bytes < 2 ^ 32
  hash : ∀ bytes, (hash bytes).length = fastHash256Len

section
variable {crc : Bytes → ℕ} {hash : Bytes → Bytes} {mr : MasterRecord} {filesize : ℕ}

theorem length_checked (h : mr.hash.length = fastHash256Len) : mr.checked.length = offsetofCrc := by
  simp only [MasterRecord.checked, List.length_append, length_ofNat, h]
  rfl

theorem length_masterRecord (h : mr.hash.length = fastHash256Len) : mr.bytes.length = sizeofMasterRecord := by
  rw [MasterRecord.bytes, List.length_append, List.length_append, length_checked h, length_ofNat, length_ofNat]
  rfl

/-- A record whose numbers fit in their fields is read as it was. -/
theorem masterRecord_ofBytes (hstatus : mr.status < 2 ^ 32) (hhashid : mr.hashid < 2 ^ 32) (hlogsize : mr.logsize < 2 ^ 64)
    (hfilesize : mr.filesize < 2 ^ 64) (hhash : mr.hash.length = fastHash256Len) (hcrc : mr.crc < 2 ^ 32) :
    MasterRecord.ofBytes mr.bytes = mr := by
  have hparts : mr.bytes = ofNat 4 mr.status ++ (ofNat 4 mr.hashid ++ (ofNat 8 mr.logsize ++ (ofNat 8 mr.filesize ++
      (mr.hash ++ (ofNat 4 mr.crc ++ ofNat 4 0))))) := by
    simp only [MasterRecord.bytes, MasterRecord.checked, List.append_assoc]
  -- a field behind others of some length
  have hfield : ∀ {before rest : Bytes} {n k off : ℕ}, before.length = off → k < 256 ^ n →
      field (before ++ (ofNat n k ++ rest)) n off = k := by
    intro before rest n k off hoff hk
    rw [field, ← Nat.add_zero off, pread_append_right hoff, pread_append_left (by rw [length_ofNat, Nat.zero_add]), pread_zero,
      List.take_of_length_le (length_ofNat ..).le, toNat_ofNat hk]
  have h1 : field mr.bytes 4 0 = mr.status := by
    rw [hparts]
    exact @hfield [] _ _ _ _ rfl hstatus
  have h2 : field mr.bytes 4 4 = mr.hashid := by
    rw [hparts]
    exact hfield (length_ofNat ..) hhashid
  have h3 : field mr.bytes 8 8 = mr.logsize := by
    rw [hparts, ← List.append_assoc]
    exact hfield (by simp) hlogsize
  have h4 : field mr.bytes 8 16 = mr.filesize := by
    rw [hparts, ← List.append_assoc, ← List.append_assoc]
    exact hfield (by simp) hfilesize
  have h5 : pread mr.bytes fastHash256Len 24 = mr.hash := by
    rw [hparts, ← List.append_assoc, ← List.append_assoc, ← List.append_assoc, ← Nat.add_zero 24, pread_append_right (by simp),
      pread_append_left hhash.ge, pread_zero, List.take_of_length_le hhash.le]
  have h6 : field mr.bytes 4 offsetofCrc = mr.crc := by
    rw [MasterRecord.bytes, List.append_assoc]
    exact hfield (length_checked hhash) hcrc
  rw [MasterRecord.ofBytes, h1, h2, h3, h4, h5, h6]

/-- A log that a whole one becomes when it is finalized. -/
structure Finalized (crc : Bytes → ℕ) (hash : Bytes → Bytes) (filesize : ℕ) (of of' : OpenLog) : Prop where
  marked : markLogFinalized crc hash filesize .whole of = some (0, of')
  length : of'.logfile.length = of.logfile.length
  drop : of'.logfile.drop sectorSize = of.logfile.drop sectorSize
  head : ∃ mr : MasterRecord, pread of'.logfile sizeofMasterRecord 0 = mr.bytes ∧ MasterRecord.ofBytes mr.bytes = mr ∧
    mr.bytes.length = sizeofMasterRecord ∧ mr.status = logStatusFinalized ∧ mr.hashid = logHashidFh256 ∧
    mr.logsize = of.logfile.length ∧ mr.filesize = filesize ∧ mr.hash = hash (of.logfile.drop sectorSize) ∧
    mr.crc = crc (pread mr.bytes offsetofCrc 0)

theorem OpenLog.Whole.finalized (hsized : Sized crc hash) (h : of.Whole) (hlength : of.logfile.length < 2 ^ 64)
    (hfilesize : filesize < maxOffset) : ∃ of', Finalized crc hash filesize of of' := by
  have hahead : of.logfile.length = of.loghashctx.length + sectorSize := by
    rw [h.hashed, List.length_drop, Nat.sub_add_cancel h.sector]
  let mr₀ : MasterRecord := ⟨logStatusFinalized, logHashidFh256, of.logfile.length, filesize, hash of.loghashctx, 0⟩
  let mr : MasterRecord := { mr₀ with crc := crc mr₀.checked }
  have hhash : mr.hash.length = fastHash256Len := hsized.hash of.loghashctx
  have hbytes := length_masterRecord hhash
  have hne : mr.bytes ≠ [] := List.ne_nil_of_length_pos (by rw [hbytes]; decide)
  have hmax : filesize < 2 ^ 64 := hfilesize.trans (show 2 ^ 63 < 2 ^ 64 by decide)
  have hfile : (pwrite of.logfile mr.bytes 0).length = of.logfile.length := by
    have := h.sector
    rw [length_pwrite, if_neg hne, hbytes]
    simp only [sizeofMasterRecord, sectorSize] at this ⊢
    omega
  refine ⟨{ of with logfile := pwrite of.logfile mr.bytes 0 }, ⟨?_, hfile, ?_, mr, ?_, ?_, hbytes, rfl, rfl, rfl, rfl, ?_, ?_⟩⟩
  · rw [markLogFinalized]
    dsimp only
    rw [if_neg (not_not.mpr hahead), filePwrite_some]
    show some ((if some mr.bytes.length ≠ some sizeofMasterRecord then -eio else 0 : ℤ), _) = _
    rw [hbytes, if_neg (fun h => h rfl)]
    congr 3
    exact congrArg (pwrite of.logfile · 0) (List.take_of_length_le (Nat.le_of_eq hbytes))
  · refine ext_get (by rw [List.length_drop, List.length_drop, hfile]) fun i _ => ?_
    rw [get_drop, get_drop, get_pwrite, if_neg (by rw [hbytes]; simp only [sizeofMasterRecord, sectorSize]; omega)]
  · dsimp only
    rw [← hbytes, pread_pwrite hne]
  · exact masterRecord_ofBytes (show logStatusFinalized < 2 ^ 32 by decide) (show logHashidFh256 < 2 ^ 32 by decide) hlength hmax hhash (hsized.crc _)
  · exact congrArg hash h.hashed
  · rw [MasterRecord.bytes, List.append_assoc, pread_zero, List.take_left' (length_checked hhash)]
    rfl

/-- A finalized log is replayed. -/
theorem Finalized.replay_eq (checkhash : Bool) {of' : OpenLog} (h : Finalized crc hash filesize of of') (hfilesize : filesize < maxOffset) :
    processLog crc hash of'.logfile true checkhash =
      ((processRecords of'.logfile true filesize sectorSize [] 0).after (.index (.truncate sizeofIndexHeader))).after (.data (.truncate filesize)) := by
  obtain ⟨mr, hhead, hof, hbytes, hstatus, hhashid, hlogsize, hsize, hhash, hcrc⟩ := h.head
  have hchecked : checkLogHash hash of'.logfile mr = true := by
    rw [checkLogHash, h.drop, hhash, hhashid]
    exact decide_eq_true ⟨rfl, rfl⟩
  rw [processLog]
  dsimp only
  rw [hhead, hof, hbytes, hstatus, hlogsize, h.length, hcrc, hchecked, hsize, if_neg (fun h => h rfl), if_neg (fun h => h rfl),
    if_neg (fun h => h rfl), if_neg (fun h => h rfl), if_neg (fun h => h.2 rfl), if_neg (not_le.mpr hfilesize)]
  rfl

end

theorem after_snd {op : FileOp} {replay : Replay} : (replay.after op).2 = replay.2 := rfl

/-- The index begins anew. -/
theorem index_perform {replay : Replay} {filesize : ℕ} {disk : Disk} :
    (perform ((replay.after (.index (.truncate sizeofIndexHeader))).after (.data (.truncate filesize))).1 disk).index =
      Lib.Redo.run (replay.1.filterMap FileOp.onIndex) [] := by
  rw [perform_eq]
  show Lib.Redo.run (replay.1.filterMap FileOp.onIndex) (truncate disk.index 0) = _
  rw [truncate, List.take_zero, Nat.zero_sub, List.replicate_zero, List.append_nil]

/-- Its data records leave the index alone, and the intervals behind them are all that it has then. -/
theorem Finalized.replayed {crc : Bytes → ℕ} {hash : Bytes → Bytes} {filesize : ℕ} {datas : List DataRecord} (checkhash : Bool) (disk : Disk)
    (h : Finalized crc hash filesize of of') (hfilesize : filesize < maxOffset) (hdatas : ∀ rec ∈ datas, rec.Sound) (htree : Loggable tree)
    (hdrop : of'.logfile.drop sectorSize = datas.flatMap DataRecord.bytes ++ logged junk tree) :
    (processLog crc hash of'.logfile true checkhash).2 = .returned 0 ∧
      (perform (processLog crc hash of'.logfile true checkhash).1 disk).index = (lengths tree).flatMap indexRecord := by
  have hdrop' : of'.logfile.drop (sectorSize + (datas.flatMap DataRecord.bytes).length) = logged junk tree := by
    rw [← List.drop_drop, hdrop, List.drop_left' rfl]
  obtain ⟨hend, hindex⟩ := processRecords_datas true filesize 0 hdatas hdrop
  obtain ⟨hret, hrun⟩ := @processRecords_intervals of'.logfile filesize _ 0 [] junk tree [] htree hdrop'
    (show ([] : List (ℕ × ℕ)).length < sectorSize / sizeofIndexRecord by decide) rfl
  rw [h.replay_eq checkhash hfilesize, index_perform, after_snd, after_snd, hend, hindex]
  exact ⟨hret, hrun⟩

/-! ### Loading -/

theorem records_flatMap {recs : List (ℕ × ℕ)} (hrecs : ∀ rec ∈ recs, rec.1 < 2 ^ 64 ∧ rec.2 < 2 ^ 64) :
    records (recs.flatMap indexRecord) = recs := by
  induction recs with
  | nil => rfl
  | cons rec recs ih =>
    obtain ⟨hrec, hrecs⟩ := List.forall_mem_cons.mp hrecs
    rw [List.flatMap_cons, records_append (length_indexRecord rec ▸ dvd_refl _), records_indexRecord hrec.1 hrec.2, ih hrecs,
      List.singleton_append]

/-- Intervals in order are added one behind the other. -/
theorem addRecords_lengths {before : IntervalTree} (htree : Loggable tree) (hsep : Separated (before ++ tree)) :
    (lengths tree).foldlM addRecord before = some (before ++ tree) := by
  induction tree generalizing before with
  | nil => exact congrArg some (List.append_nil before).symm
  | cons itr tree ih =>
    obtain ⟨⟨hlt, hfit, -⟩, htree⟩ := List.forall_mem_cons.mp htree
    have hadd : addRecord before (itr.1, itr.2 - itr.1) = some (before ++ [itr]) := by
      refine (addRecord_eq_some (hlt.trans hfit) (by omega)).mpr ⟨by omega, by omega, ?_⟩
      rw [Nat.add_sub_cancel' hlt.le, ← List.append_nil before, add_append (by simpa using hsep.before), List.append_nil]
      rfl
    rw [lengths, List.map_cons, List.foldlM_cons, hadd]
    have hsep' : Separated ((before ++ [itr]) ++ tree) := by rwa [List.append_assoc, List.singleton_append]
    exact (ih htree hsep').trans (congrArg some (List.append_assoc ..))

/-- An index of the records of some intervals gives them back. -/
theorem loadIntervalTree_lengths (htree : Loggable tree) (hsep : Separated tree) :
    loadIntervalTree ((lengths tree).flatMap indexRecord) ((lengths tree).flatMap indexRecord).length [] =
      some ((tree.length : ℤ), tree) := by
  have hlt : ∀ rec ∈ lengths tree, rec.1 < 2 ^ 64 ∧ rec.2 < 2 ^ 64 := by
    intro rec hrec
    obtain ⟨itr, hitr, rfl⟩ := List.mem_map.mp hrec
    obtain ⟨hlt, hfit, -⟩ := htree itr hitr
    exact ⟨hlt.trans hfit, by dsimp only; omega⟩
  rw [loadIntervalTree_eq, records_flatMap hlt, @addRecords_lengths tree [] htree hsep, List.nil_append, length_flatMap_indexRecord,
    Nat.mul_div_cancel_left _ (by decide), lengths, List.length_map]
  rfl

/-! ### From the tree to the tree -/

/-- The intervals are appended to the log and its hash covers them, and what the replay of the finalized log makes of the index
is loaded as the same set. -/
def Survives (junk : ℕ × ℕ → ℕ) (crc : Bytes → ℕ) (hash : Bytes → Bytes) (filesize : ℕ) (checkhash : Bool) (disk : Disk) (of : OpenLog)
    (tree : IntervalTree) : Prop :=
  ∃ of₁ of₂ tree', writeIntervalTreeToLog junk (fun _ => .whole) tree of = some (0, of₁) ∧
    of₁.logfile = of.logfile ++ logged junk tree ∧ of₁.loghashctx = of.loghashctx ++ logged junk tree ∧
    markLogFinalized crc hash filesize .whole of₁ = some (0, of₂) ∧
    (processLog crc hash of₂.logfile true checkhash).2 = .returned 0 ∧
    (let index := (perform (processLog crc hash of₂.logfile true checkhash).1 disk).index
     loadIntervalTree index index.length [] = some ((tree.length : ℤ), tree')) ∧ points tree' = points tree

/-- A log before its intervals: a sector for the master record, and data records. -/
structure OpenLog.Written (of : OpenLog) : Prop where
  datas : ∃ (sector : Bytes) (datas : List DataRecord), sector.length = sectorSize ∧ (∀ rec ∈ datas, rec.Sound) ∧
    of.logfile = sector ++ datas.flatMap DataRecord.bytes
  hashed : of.loghashctx = of.logfile.drop sectorSize
  offset : of.logoffset = of.logfile.length
  fits : of.logoffset < 2 ^ 32

section
variable {crc : Bytes → ℕ} {hash : Bytes → Bytes} {filesize : ℕ} {disk : Disk} {checkhash : Bool}

theorem OpenLog.Written.whole (h : of.Written) : of.Whole := by
  obtain ⟨sector, datas, hsector, -, hfile⟩ := h.datas
  refine ⟨h.hashed, ?_, ?_⟩
  · rw [hfile, List.length_append, hsector]
    exact Nat.le_add_right ..
  · rw [← h.offset, u32_of_lt h.fits]

theorem Loggable.lens (h : Loggable tree) : ∀ itr ∈ tree, sub64 itr.2 itr.1 / 2 ^ 48 = 0 := by
  intro itr hitr
  obtain ⟨hlt, hfit, hlen⟩ := h itr hitr
  rw [sub64_of_le hlt.le hfit]
  exact Nat.div_eq_of_lt hlen

theorem length_logged : (logged junk tree).length = sizeofLogHeader * tree.length := by
  rw [logged, ← List.flatMap_map, length_flatMap_logHeader, List.length_map]

theorem length_lt_of_fits {off n : ℕ} (hfit : off + 4096 * ((n - 1) / logsSize) < 2 ^ 32) : off + sizeofLogHeader * n < 2 ^ 64 := by
  simp only [logsSize, sizeofLogHeader] at hfit ⊢
  omega

/-- The last write begins before 4 GiB. -/
theorem OpenLog.Written.survives (hsized : Sized crc hash) (hfilesize : filesize < maxOffset) (h : of.Written) (hsep : Separated tree)
    (htree : Loggable tree) (hfit : of.logoffset + 4096 * ((tree.length - 1) / logsSize) < 2 ^ 32) :
    Survives junk crc hash filesize checkhash disk of tree := by
  obtain ⟨sector, datas, hsector, hdatas, hfile⟩ := h.datas
  obtain ⟨of₁, hof₁, hwhole, hfile₁⟩ := @writeIntervals_whole junk of [] tree htree.lens h.whole (Nat.zero_le _) (by
    rwa [List.length_nil, Nat.zero_add, ← h.offset])
  rw [List.flatMap_nil, List.nil_append] at hfile₁
  have hhashed : of₁.loghashctx = of.loghashctx ++ logged junk tree := by
    rw [hwhole.hashed, hfile₁, List.drop_append_of_le_length h.whole.sector, h.hashed]
  have hlength : of₁.logfile.length < 2 ^ 64 := by
    rw [hfile₁, List.length_append, length_logged, ← h.offset]
    exact length_lt_of_fits hfit
  obtain ⟨of₂, hof₂⟩ := hwhole.finalized hsized hlength hfilesize
  -- the records follow the master record as they did before
  have hdrop : of₂.logfile.drop sectorSize = datas.flatMap DataRecord.bytes ++ logged junk tree := by
    rw [hof₂.drop, hfile₁, hfile, List.append_assoc, List.drop_left' hsector]
  obtain ⟨hret, hindex⟩ := hof₂.replayed checkhash disk hfilesize hdatas htree hdrop
  refine ⟨of₁, of₂, tree, hof₁, hfile₁, hhashed, hof₂.marked, hret, ?_, rfl⟩
  dsimp only
  rw [hindex]
  exact loadIntervalTree_lengths htree hsep

/-- Otherwise the log does not have the length that its hash is of. -/
theorem OpenLog.Written.lost (h : of.Written) (htree : Loggable tree)
    (hpast : 2 ^ 32 ≤ of.logoffset + 4096 * ((tree.length - 1) / logsSize)) :
    ¬Survives junk crc hash filesize checkhash disk of tree := by
  rintro ⟨of₁, of₂, -, hwrite, -, -, hmark, -⟩
  have hfits := h.fits
  have hsome : 0 < tree.length := by
    by_contra hnone
    rw [Nat.eq_zero_of_not_pos hnone] at hpast
    simp only [logsSize, sizeofLogHeader] at hpast
    omega
  obtain ⟨of', hof', hover⟩ := @writeIntervals_past junk of [] tree htree.lens h.whole (Nat.zero_le _)
    (by rwa [List.length_nil, Nat.zero_add]) (by rw [← h.offset]; omega) (by rwa [List.length_nil, Nat.zero_add, ← h.offset])
  obtain rfl := (Prod.mk.inj (Option.some.inj (hwrite.symm.trans hof'))).2
  rw [markLogFinalized] at hmark
  dsimp only at hmark
  rw [if_pos hover.behind.ne] at hmark
  cases hmark

/-- The intervals of a file come back exactly where the last write of their records begins before the 4 GiB that an offset in the
log has. -/
theorem intervals_survive_iff (junk : ℕ × ℕ → ℕ) (checkhash : Bool) (disk : Disk) (hsized : Sized crc hash) (hfilesize : filesize < maxOffset)
    (h : of.Written) (hsep : Separated tree) (htree : Loggable tree) :
    Survives junk crc hash filesize checkhash disk of tree ↔ of.logoffset + 4096 * ((tree.length - 1) / logsSize) < 2 ^ 32 :=
  ⟨fun hs => not_le.mp fun hpast => h.lost htree hpast hs, h.survives hsized hfilesize hsep htree⟩

end

/-- A log as `psync_fs_crypto_init_log` makes it. -/
def freshLog : OpenLog := ⟨List.replicate sectorSize 255, sectorSize, []⟩

theorem freshLog_written : freshLog.Written where
  datas := ⟨List.replicate sectorSize 255, [], List.length_replicate, fun _ h => (nomatch h), (List.append_nil _).symm⟩
  hashed := (List.drop_of_length_le List.length_replicate.le).symm
  offset := List.length_replicate.symm
  fits := by decide

theorem intervals_survive_two : Survives (fun _ => 0) (fun _ => 0) (fun _ => List.replicate 32 0) 16384 true ⟨[], []⟩ freshLog
    [(0, 4096), (8192, 12288)] :=
  (intervals_survive_iff (fun _ => 0) true ⟨[], []⟩ ⟨fun _ => by decide, fun _ => List.length_replicate⟩ (by decide) freshLog_written
    ⟨by decide, by decide⟩ (by unfold Loggable; decide)).mpr (by decide)

/-- Every other sector of a file was written. -/
def scattered (n : ℕ) : IntervalTree := (List.range n).map fun i => (8192 * i, 8192 * i + 4096)

theorem scattered_separated (n : ℕ) : Separated (scattered n) where
  nonempty itr hitr := by
    obtain ⟨i, -, rfl⟩ := List.mem_map.mp hitr
    exact Nat.lt_add_of_pos_right (by decide)
  gap := List.pairwise_map.mpr (List.pairwise_lt_range.imp fun hij => by dsimp only; omega)

theorem scattered_loggable {n : ℕ} (hn : n ≤ 2 ^ 32) : Loggable (scattered n) := by
  intro itr hitr
  obtain ⟨i, hi, rfl⟩ := List.mem_map.mp hitr
  have := List.mem_range.mp hi
  dsimp only
  omega

/-- The 2^20th write of the records goes over the master record. -/
theorem scattered_lost : Separated (scattered 268435201) ∧ Loggable (scattered 268435201) ∧ freshLog.Written ∧
    ¬Survives (fun _ => 0) (fun _ => 0) (fun _ => List.replicate 32 0) (2 ^ 41) false ⟨[], []⟩ freshLog (scattered 268435201) := by
  have hloggable := scattered_loggable (show 268435201 ≤ 2 ^ 32 by decide)
  refine ⟨scattered_separated _, hloggable, freshLog_written, freshLog_written.lost hloggable ?_⟩
  rw [scattered, List.length_map, List.length_range]
  decide

end Pclsync.OpenFile
