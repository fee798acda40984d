import Pclsync.OpenFile.Handle
import Pclsync.Lib.Transition

/-! What the index of a modified file says, when writes to the data file and to the index
fail or take a part of their bytes. -/
namespace Pclsync.OpenFile
open Lib.Machine Lib.Files Lib.Intervals Lib.Transition
open FsCrypto (field indexRecord sizeofIndexRecord sizeofIndexHeader)

/-- A call on a modified file, and how the calls that it makes go. -/
inductive Call where
  | write (buf : Bytes) (offset : ℕ) (fates : Fates)
  | ftruncate (size : ℕ) (fates : Fates)
deriving DecidableEq, Repr

def Call.run (of : Handle) : Call → Option (ℤ × Handle)
  | .write buf offset fates => writeModified of buf offset fates
  | .ftruncate size fates => ftruncateOf of size fates

/-- Offsets and sizes are `fuse_off_t`. -/
def Call.Fits : Call → Prop
  | .write buf offset _ => offset + buf.length < 2 ^ 63
  | .ftruncate size _ => size < 2 ^ 63

instance : DecidablePred Call.Fits
  | .write .. => inferInstanceAs (Decidable (_ < _))
  | .ftruncate .. => inferInstanceAs (Decidable (_ < _))

/-! ### The claim of the index -/

def Handle.length (of : Handle) : ℕ := of.datafile.elim 0 List.length

/-- The part of the data file that takes bytes of a call. -/
def Call.accepted (of : Handle) : Call → Set ℕ
  | .write buf offset fates =>
    match modfileCheckSizeOk of offset fates with
    | some (true, _) => Set.Ico offset (offset + (fates.data.count buf.length).getD 0)
    | _ => ∅
  | .ftruncate .. => ∅

/-- The part that a call reports as written. -/
def Call.reported (ret : ℤ) : Call → Set ℕ
  | .write _ offset _ => Set.Ico offset (offset + ret.toNat)
  | .ftruncate .. => ∅

/-- A handle with its history: what was ever written or zeroed in the data file, and what
calls reported as written. -/
structure Traced where
  of : Handle
  received : Set ℕ
  reported : Set ℕ

/-- A data file and an index as `open_write_files` opens them. -/
structure Opened (s : Traced) : Prop where
  newfile : s.of.newfile = false
  data : ∃ d, s.of.datafile = some d ∧ s.of.currentsize = d.length
  index : ∃ f, s.of.indexfile = some f ∧ sizeofIndexRecord ∣ f.length ∧
    loadIntervalTree f f.length [] = some ((s.of.indexoff : ℤ), s.of.writeintervals)
  received : s.received = points s.of.writeintervals
  reported : s.reported = ∅

def step (s : Traced) (call : Call) (s' : Traced) : Prop :=
  call.Fits ∧ ∃ ret, call.run s.of = some (ret, s'.of) ∧
    s'.received = s.received ∪ Set.Ico s.of.length s'.of.length ∪ call.accepted s.of ∧
    s'.reported = s.reported ∪ call.reported ret

/-- The index tells which bytes of the data file are real. -/
structure Truth (s : Traced) : Prop where
  size : s.of.datafile.map List.length = some s.of.currentsize
  reported : s.reported ⊆ points s.of.writeintervals
  received : points s.of.writeintervals ⊆ s.received
  index : ∃ f cnt tree, s.of.indexfile = some f ∧ loadIntervalTree f f.length [] = some (cnt, tree) ∧ cnt ≠ -1 ∧
    (∀ rec ∈ records f, 0 < rec.2) ∧ points tree = points s.of.writeintervals

/-! ### When it holds -/

/-- The next record goes right after the last one. -/
def Handle.SlotNext (of : Handle) : Prop :=
  of.indexfile.map List.length = some (sizeofIndexRecord * of.indexoff)

/-- An extension writes its record, and leaves no gap before it. -/
def Handle.ExtendsWell (of : Handle) (size : ℕ) (fates : Fates) : Prop :=
  of.currentsize < size → fates.extends_ → fates.extension.count sizeofIndexRecord = some sizeofIndexRecord ∧ of.SlotNext

/-- Nothing is written to the index after a gap. A record that is written is about all the
bytes or about ones inside the file; where none is, nothing was written past the end. -/
def Handle.WritesWell (of : Handle) (buf : Bytes) (offset : ℕ) (fates : Fates) : Prop :=
  ∀ bw ∈ fates.data.count buf.length,
    ((fates.record.count sizeofIndexRecord).getD 0 = 0 ∨ of.SlotNext) ∧
      if fates.record.count sizeofIndexRecord = some sizeofIndexRecord then
        0 < bw ∧ (bw = buf.length ∨ offset + buf.length ≤ of.currentsize)
      else offset + bw ≤ max of.currentsize offset

def Call.Sound (of : Handle) : Call → Prop
  | .write buf offset fates =>
    of.ExtendsWell offset fates ∧ ((of.currentsize < offset → fates.extends_) → of.WritesWell buf offset fates)
  | .ftruncate size fates => of.ExtendsWell size fates

/-! ### Records at the end of the index -/

variable {f d : Bytes} {of : Handle} {fates : Fates}

theorem records_append {part : Bytes} (hwhole : sizeofIndexRecord ∣ f.length) :
    records (f ++ part) = records f ++ records part := by
  obtain ⟨k, hk⟩ := hwhole
  have hpos : 0 < sizeofIndexRecord := by decide
  have hcnt : (f ++ part).length / sizeofIndexRecord = k + part.length / sizeofIndexRecord := by
    rw [List.length_append, hk, Nat.mul_add_div hpos]
  have hfirst : f.length / sizeofIndexRecord = k := by rw [hk, Nat.mul_div_cancel_left _ hpos]
  rw [records, records, records, hcnt, hfirst, List.range_add, List.map_append, List.map_map]
  congr 1
  · refine List.map_congr_left fun i hi => ?_
    have hi := List.mem_range.mp hi
    simp only [sizeofIndexRecord] at hk
    simp only [recordAt, field, sizeofIndexRecord]
    rw [pread_append_left (by omega), pread_append_left (by omega)]
  · refine List.map_congr_left fun i _ => ?_
    have hoff : ∀ off, sizeofIndexRecord * (k + i) + off = sizeofIndexRecord * k + (sizeofIndexRecord * i + off) :=
      fun off => by rw [Nat.mul_add, Nat.add_assoc]
    simp only [Function.comp_apply, recordAt, field]
    rw [hoff, ← Nat.add_zero (sizeofIndexRecord * (k + i)), hoff, pread_append_right hk, pread_append_right hk,
      Nat.add_zero]

theorem records_short {part : Bytes} (hshort : part.length < sizeofIndexRecord) : records part = [] := by
  rw [records, Nat.div_eq_of_lt hshort]
  rfl

theorem records_indexRecord {rec : ℕ × ℕ} (hoff : rec.1 < 2 ^ 64) (hlen : rec.2 < 2 ^ 64) :
    records (indexRecord rec) = [rec] := by
  have hfirst : field (indexRecord rec) 8 0 = rec.1 := by
    rw [field, indexRecord, pread_append_left (by rw [length_ofNat]), pread, List.drop_zero,
      List.take_of_length_le (by rw [length_ofNat])]
    exact toNat_ofNat hoff
  have hsecond : field (indexRecord rec) 8 8 = rec.2 := by
    rw [field, indexRecord, pread_append_exact (length_ofNat ..) (length_ofNat ..)]
    exact toNat_ofNat hlen
  rw [records, length_indexRecord, Nat.div_self (by decide)]
  show [(field (indexRecord rec) 8 0, field (indexRecord rec) 8 8)] = [rec]
  rw [hfirst, hsecond]

/-! ### The invariant -/

/-- The index has the records of the intervals, and no record beyond the counter. -/
structure Handle.Indexed (of : Handle) (d f : Bytes) : Prop where
  newfile : of.newfile = false
  datafile : of.datafile = some d
  size : of.currentsize = d.length
  indexfile : of.indexfile = some f
  loads : (records f).foldlM addRecord [] = some of.writeintervals
  slots : f.length ≤ sizeofIndexRecord * of.indexoff

theorem records_lt : ∀ rec ∈ records f, rec.1 < 2 ^ 64 ∧ rec.2 < 2 ^ 64 := by
  intro rec hrec
  obtain ⟨j, -, rfl⟩ := List.mem_map.mp hrec
  exact recordAt_lt

theorem Handle.Indexed.separated (h : of.Indexed d f) : Separated of.writeintervals :=
  (addRecords_spec records_lt separated_nil h.loads).1

theorem Handle.Indexed.slotNext (h : of.Indexed d f) : of.SlotNext ↔ f.length = sizeofIndexRecord * of.indexoff := by
  rw [Handle.SlotNext, h.indexfile, Option.map_some, Option.some.injEq]

/-! ### Records -/

/-- A whole record at the next slot, and its interval. -/
theorem Handle.Indexed.addRecord (rec : ℕ × ℕ) (h : of.Indexed d f) (hslot : of.SlotNext) (hpos : 0 < rec.2)
    (hfit : rec.1 + rec.2 < 2 ^ 64) :
    { of with
      indexoff := of.indexoff + 1
      indexfile := some (pwrite f (indexRecord rec) (sizeofIndexRecord * of.indexoff))
      writeintervals := add rec.1 (rec.1 + rec.2) of.writeintervals }.Indexed d (f ++ indexRecord rec) := by
  have hlength := h.slotNext.mp hslot
  refine ⟨h.newfile, h.datafile, h.size, ?_, ?_, ?_⟩
  · rw [← hlength, pwrite_end]
  · have hadd := (@addRecord_eq_some of.writeintervals _ rec.1 rec.2 (by omega) (by omega)).mpr
      ⟨hpos, hfit, rfl⟩
    rw [records_append ⟨_, hlength⟩, records_indexRecord (by omega) (by omega), List.foldlM_append, h.loads]
    simp only [Option.bind_eq_bind, Option.bind_some, List.foldlM_cons, List.foldlM_nil, hadd]
    rfl
  · rw [List.length_append, length_indexRecord, hlength]
    exact Nat.le_refl _

/-- A part of a record at the next slot, or nothing. -/
theorem Handle.Indexed.addPart (rec : ℕ × ℕ) {count : ℕ} (h : of.Indexed d f) (hwell : count = 0 ∨ of.SlotNext)
    (hpart : count < sizeofIndexRecord) :
    ∃ f', { of with
      indexoff := of.indexoff + 1
      indexfile := some (pwrite f ((indexRecord rec).take count) (sizeofIndexRecord * of.indexoff)) }.Indexed d f' := by
  refine ⟨_, h.newfile, h.datafile, h.size, rfl, ?_, ?_⟩
  · rcases hwell with rfl | hslot
    · rw [List.take_zero, pwrite, if_pos rfl]
      exact h.loads
    · have hlength := h.slotNext.mp hslot
      have hshort : ((indexRecord rec).take count).length < sizeofIndexRecord := (List.length_take_le ..).trans_lt hpart
      rw [← hlength, pwrite_end, records_append ⟨_, hlength⟩, records_short hshort, List.append_nil]
      exact h.loads
  · have hslots := h.slots
    rw [length_pwrite]
    simp only [List.length_take, length_indexRecord, Nat.mul_succ]
    split_ifs
    · exact hslots.trans (Nat.le_add_right ..)
    · omega

/-! ### Extensions -/

/-- A file is made as long as a call needs it, and the index says so. -/
theorem modfileCheckSizeOk_spec {size : ℕ} (h : of.Indexed d f) (hfit : size < 2 ^ 63) (hwell : of.ExtendsWell size fates)
    (hextends : of.currentsize < size → fates.extends_) :
    ∃ of' f', modfileCheckSizeOk of size fates = some (true, of') ∧ of'.Indexed (truncate d (max d.length size)) f' ∧
      points of'.writeintervals = points of.writeintervals ∪ Set.Ico of.currentsize size ∧
      (of.SlotNext → of'.SlotNext) := by
  by_cases hgrows : of.currentsize < size
  · obtain ⟨hwhole, hslot⟩ := hwell hgrows (hextends hgrows)
    have hpos : 0 < size - of.currentsize := by omega
    have hend : of.currentsize + (size - of.currentsize) = size := by omega
    have hmax : max d.length size = size := max_eq_right (h.size ▸ hgrows.le)
    have hof : { of with datafile := some (truncate d size), currentsize := size }.Indexed (truncate d size) f :=
      ⟨h.newfile, rfl, length_truncate.symm, h.indexfile, h.loads, h.slots⟩
    have hadded := hof.addRecord (of.currentsize, size - of.currentsize) hslot hpos (by simp only; omega)
    simp only [hend] at hadded
    have hwritten : recordExtension { of with datafile := some (truncate d size) } size fates.extension = _ :=
      recordExtension_whole h.indexfile hwhole hgrows
    rw [modfileCheckSizeOk_extends h.newfile h.datafile hgrows (hextends hgrows), hwritten, hmax]
    refine ⟨_, _, rfl, hadded, ?_, fun _ => ?_⟩
    · rw [(add_spec hgrows h.separated).2, Set.union_comm]
    · refine hadded.slotNext.mpr ?_
      rw [List.length_append, length_indexRecord, h.slotNext.mp hslot]
      rfl
  · have hlong : max d.length size = d.length := by
      have := h.size
      omega
    have hsame : truncate d d.length = d := by simp [truncate]
    rw [modfileCheckSizeOk, if_neg hgrows, hlong, hsame, Set.Ico_eq_empty (by omega), Set.union_empty]
    exact ⟨of, f, rfl, h, rfl, id⟩

/-- An extension that fails leaves the file as it is. -/
theorem modfileCheckSizeOk_fails {size : ℕ} (h : of.Indexed d f) (hgrows : of.currentsize < size)
    (hextends : fates.extends_ = false) : modfileCheckSizeOk of size fates = some (false, of) := by
  rw [modfileCheckSizeOk, if_pos hgrows, h.datafile, hextends]
  simp only [fileSetSize, Bool.false_eq_true, not_false_eq_true, if_true, ← h.datafile]

/-! ### Calls -/

/-- What a call leaves: the intervals have what it reported and grew by what it wrote. -/
structure Leaves (of : Handle) (d : Bytes) (ret : ℤ) (of' : Handle) (reported accepted : Set ℕ) : Prop where
  indexed : ∃ d' f', of'.Indexed d' f' ∧ d.length ≤ d'.length
  mono : points of.writeintervals ⊆ points of'.writeintervals
  reported : reported ⊆ points of'.writeintervals
  received : points of'.writeintervals ⊆ points of.writeintervals ∪ accepted

theorem writeData_spec {buf : Bytes} {offset : ℕ} (h : of.Indexed d f) (hfit : offset + buf.length < 2 ^ 63)
    (hwell : of.WritesWell buf offset fates) (hoffset : offset ≤ of.currentsize) :
    ∃ ret of', writeData of buf offset fates = some (ret, of') ∧
      Leaves of d ret of' (Set.Ico offset (offset + ret.toNat))
        (Set.Ico offset (offset + (fates.data.count buf.length).getD 0)) := by
  have hslots : f.length ≤ sizeofIndexRecord * (of.indexoff + 1) :=
    h.slots.trans (Nat.mul_le_mul_left _ (Nat.le_succ _))
  rw [writeData, h.datafile, filePwrite_some]
  cases hcount : fates.data.count buf.length with
  | none =>
    refine ⟨_, _, rfl, ⟨d, f, ⟨h.newfile, ?_, h.size, h.indexfile, h.loads, hslots⟩, le_rfl⟩, subset_rfl, ?_, ?_⟩
    · simp [pwrite]
    · simp [eio]
    · exact Set.subset_union_left
  | some bw =>
    obtain ⟨hnogap, hrecord⟩ := hwell bw hcount
    have hbw : bw ≤ buf.length := Fate.count_le hcount
    have htake : (buf.take bw).length = bw := List.length_take_of_le hbw
    have hlength : (pwrite d (buf.take bw) offset).length = max d.length (offset + bw) := by
      rw [length_pwrite, htake]
      split_ifs with hnil
      · have hzero : bw = 0 := by rw [← htake, hnil, List.length_nil]
        have := h.size
        omega
      · rfl
    have hindex : { of with datafile := some (pwrite d (buf.take bw) offset) }.indexfile = some f := h.indexfile
    simp only [Option.getD_some, writeRecord_eq hindex]
    by_cases hwhole : fates.record.count sizeofIndexRecord = some sizeofIndexRecord
    · rw [if_pos hwhole] at hrecord
      have hslot : of.SlotNext := by
        rw [hwhole] at hnogap
        exact hnogap.resolve_left (by decide)
      obtain ⟨hpos, hend⟩ := hrecord
      have hlt : offset < offset + bw := Nat.lt_add_of_pos_right hpos
      generalize hsize : (if of.currentsize < offset + buf.length then offset + buf.length else of.currentsize) = size
      have hof : { of with datafile := some (pwrite d (buf.take bw) offset), currentsize := size }.Indexed
          (pwrite d (buf.take bw) offset) f := by
        refine ⟨h.newfile, rfl, ?_, h.indexfile, h.loads, h.slots⟩
        have := h.size
        show size = _
        rw [hlength, ← hsize]
        split_ifs with hpast
        · omega
        · omega
      have hadded := hof.addRecord (offset, bw) hslot hpos (by simp only; omega)
      have hpoints := (add_spec hlt h.separated).2
      simp only [hwhole, decide_true, not_true_eq_false, if_false, Option.getD_some, intervalTreeAdd, if_pos hlt]
      rw [List.take_of_length_le (length_indexRecord _).le]
      refine ⟨_, _, rfl, ⟨_, _, hadded, by rw [hlength]; exact le_max_left ..⟩, ?_, ?_, ?_⟩
      · rw [hpoints]
        exact Set.subset_union_right
      · rw [hpoints]
        exact Set.subset_union_left
      · rw [hpoints, Set.union_comm]
    · rw [if_neg hwhole] at hrecord
      have hof : { of with datafile := some (pwrite d (buf.take bw) offset) }.Indexed (pwrite d (buf.take bw) offset) f := by
        refine ⟨h.newfile, rfl, ?_, h.indexfile, h.loads, h.slots⟩
        have := h.size
        show of.currentsize = _
        rw [hlength]
        omega
      have hpart : (fates.record.count sizeofIndexRecord).getD 0 < sizeofIndexRecord := by
        cases hpart : fates.record.count sizeofIndexRecord with
        | none => decide
        | some count => exact lt_of_le_of_ne (Fate.count_le hpart) fun heq => hwhole (hpart.trans (congrArg some heq))
      obtain ⟨f', hadded⟩ := hof.addPart (offset, bw) hnogap hpart
      simp only [hwhole, decide_false, Bool.false_eq_true, not_false_eq_true, if_true]
      refine ⟨_, _, rfl, ⟨_, f', hadded, by rw [hlength]; exact le_max_left ..⟩, subset_rfl, ?_, ?_⟩
      · simp [eio]
      · exact Set.subset_union_left

/-- What a write does well it does well after an extension to its offset. -/
theorem Handle.WritesWell.extended {of' : Handle} {buf : Bytes} {offset : ℕ} (h : of.WritesWell buf offset fates)
    (hsize : of'.currentsize = max of.currentsize offset) (hslot : of.SlotNext → of'.SlotNext) :
    of'.WritesWell buf offset fates := by
  intro bw hbw
  obtain ⟨hnogap, hrecord⟩ := h bw hbw
  refine ⟨hnogap.imp_right hslot, ?_⟩
  split_ifs with hwhole
  · rw [if_pos hwhole] at hrecord
    exact ⟨hrecord.1, hrecord.2.imp_right fun hin => hin.trans (hsize ▸ le_max_left ..)⟩
  · rw [if_neg hwhole] at hrecord
    exact hrecord.trans (hsize ▸ le_max_left ..)

/-- The history of a handle whose index is right. -/
structure Tracks (s : Traced) : Prop where
  indexed : ∃ d f, s.of.Indexed d f
  reported : s.reported ⊆ points s.of.writeintervals
  received : points s.of.writeintervals ⊆ s.received

theorem write_spec {buf : Bytes} {offset : ℕ} (h : of.Indexed d f) (hfit : offset + buf.length < 2 ^ 63)
    (hsound : (Call.write buf offset fates).Sound of) :
    ∃ ret of', writeModified of buf offset fates = some (ret, of') ∧
      Leaves of d ret of' (Set.Ico offset (offset + ret.toNat))
        (Set.Ico of.length of'.length ∪ (Call.write buf offset fates).accepted of) := by
  obtain ⟨hextends, hwrites⟩ := hsound
  by_cases hfails : of.currentsize < offset ∧ fates.extends_ = false
  · rw [writeModified, modfileCheckSizeOk_fails h hfails.1 hfails.2]
    refine ⟨-eio, of, rfl, ⟨d, f, h, le_rfl⟩, subset_rfl, ?_, Set.subset_union_left⟩
    simp [eio]
  · have hgoes : of.currentsize < offset → fates.extends_ := fun hgrows => by
      simpa using fun hno => hfails ⟨hgrows, hno⟩
    obtain ⟨of₁, f₁, hcheck, h₁, hpoints, hslot⟩ := modfileCheckSizeOk_spec h (by omega) hextends hgoes
    have hsize : of₁.currentsize = max of.currentsize offset := by rw [h₁.size, length_truncate, h.size]
    obtain ⟨ret, of', hrun, hleaves⟩ :=
      writeData_spec h₁ hfit ((hwrites hgoes).extended hsize hslot) (hsize ▸ le_max_right ..)
    obtain ⟨⟨d', f', h', hlonger⟩, hmono, hreported, hreceived⟩ := hleaves
    rw [length_truncate] at hlonger
    refine ⟨ret, of', ?_, ⟨d', f', h', by omega⟩, ?_, hreported, ?_⟩
    · rw [writeModified, hcheck]
      exact hrun
    · exact (hpoints ▸ Set.subset_union_left).trans hmono
    · rw [hpoints, Set.union_assoc] at hreceived
      refine hreceived.trans (Set.union_subset_union_right _ (Set.union_subset_union ?_ ?_))
      · rw [Handle.length, Handle.length, h.datafile, h'.datafile, h.size]
        exact Set.Ico_subset_Ico_right (by simp only [Option.elim_some]; omega)
      · simp only [Call.accepted, hcheck]
        exact subset_rfl

theorem ftruncate_spec {size : ℕ} (h : of.Indexed d f) (hfit : size < 2 ^ 63) (hsound : (Call.ftruncate size fates).Sound of) :
    ∃ ret of', ftruncateOf of size fates = some (ret, of') ∧ (∃ d' f', of'.Indexed d' f') ∧
      points of.writeintervals ⊆ points of'.writeintervals ∧
      points of'.writeintervals ⊆ points of.writeintervals ∪ Set.Ico of.length of'.length := by
  rw [ftruncateOf]
  by_cases hsame : of.currentsize = size
  · rw [if_pos hsame]
    exact ⟨0, of, rfl, ⟨d, f, h⟩, subset_rfl, Set.subset_union_left⟩
  rw [if_neg hsame]
  by_cases hfails : of.currentsize < size ∧ fates.extends_ = false
  · rw [modfileCheckSizeOk_fails h hfails.1 hfails.2]
    exact ⟨-eio, of, rfl, ⟨d, f, h⟩, subset_rfl, Set.subset_union_left⟩
  have hgoes : of.currentsize < size → fates.extends_ := fun hgrows => by
    simpa using fun hno => hfails ⟨hgrows, hno⟩
  obtain ⟨of₁, f₁, hcheck, h₁, hpoints, -⟩ := modfileCheckSizeOk_spec h hfit hsound hgoes
  have hsize : of₁.currentsize = max of.currentsize size := by rw [h₁.size, length_truncate, h.size]
  have hmono : points of.writeintervals ⊆ points of₁.writeintervals := hpoints ▸ Set.subset_union_left
  simp only [hcheck, Option.bind_eq_bind, Option.bind_some, not_true_eq_false, if_false]
  by_cases hgrows : of.currentsize < size
  · have hlength : of₁.length = size := by
      rw [Handle.length, h₁.datafile, Option.elim_some, ← h₁.size]
      omega
    rw [if_neg (by omega)]
    refine ⟨0, of₁, rfl, ⟨_, f₁, h₁⟩, hmono, ?_⟩
    rw [hpoints, hlength, Handle.length, h.datafile, h.size]
    exact subset_rfl
  · have hkept : points of₁.writeintervals = points of.writeintervals := by
      rw [hpoints, Set.Ico_eq_empty (by omega), Set.union_empty]
    rw [if_pos (by omega), h₁.datafile]
    cases hcuts : fates.cuts with
    | false =>
      refine ⟨-eio, _, rfl, ⟨_, f₁, ⟨h₁.newfile, rfl, h₁.size, h₁.indexfile, h₁.loads, h₁.slots⟩⟩, hmono, ?_⟩
      exact hkept.le.trans Set.subset_union_left
    | true =>
      refine ⟨0, _, rfl, ⟨_, f₁, ⟨h₁.newfile, rfl, length_truncate.symm, h₁.indexfile, h₁.loads, h₁.slots⟩⟩, hmono, ?_⟩
      exact hkept.le.trans Set.subset_union_left

theorem Call.spec {call : Call} (h : of.Indexed d f) (hfit : call.Fits) (hsound : call.Sound of) :
    ∃ ret of', call.run of = some (ret, of') ∧ (∃ d' f', of'.Indexed d' f') ∧
      points of.writeintervals ⊆ points of'.writeintervals ∧ call.reported ret ⊆ points of'.writeintervals ∧
      points of'.writeintervals ⊆ points of.writeintervals ∪ (Set.Ico of.length of'.length ∪ call.accepted of) := by
  cases call with
  | write buf offset fates =>
    obtain ⟨ret, of', hrun, ⟨d', f', h', -⟩, hmono, hreported, hreceived⟩ := write_spec h hfit hsound
    exact ⟨ret, of', hrun, ⟨d', f', h'⟩, hmono, hreported, hreceived⟩
  | ftruncate size fates =>
    obtain ⟨ret, of', hrun, hindexed, hmono, hreceived⟩ := ftruncate_spec h hfit hsound
    refine ⟨ret, of', hrun, hindexed, hmono, Set.empty_subset _, ?_⟩
    rw [Call.accepted, Set.union_empty]
    exact hreceived

/-! ### Runs -/

variable {s s' : Traced}

theorem Opened.tracks (h : Opened s) : Tracks s := by
  obtain ⟨d, hdata, hsize⟩ := h.data
  obtain ⟨f, hindex, hwhole, hload⟩ := h.index
  rw [loadIntervalTree_eq] at hload
  obtain ⟨tree, hloads, hpair⟩ := Option.map_eq_some_iff.mp hload
  obtain ⟨hcnt, rfl⟩ := Prod.mk.inj hpair
  refine ⟨⟨d, f, h.newfile, hdata, hsize, hindex, hloads, ?_⟩, ?_, ?_⟩
  · rw [← Int.natCast_inj.mp hcnt, Nat.mul_div_cancel' hwhole]
  · rw [h.reported]
    exact Set.empty_subset _
  · rw [h.received]

theorem step_of_run {call : Call} {ret : ℤ} {of' : Handle} (hfit : call.Fits) (hrun : call.run s.of = some (ret, of')) :
    step s call ⟨of', s.received ∪ Set.Ico s.of.length of'.length ∪ call.accepted s.of, s.reported ∪ call.reported ret⟩ :=
  ⟨hfit, ret, hrun, rfl, rfl⟩

/-- A sound call does not fail at an assertion. -/
theorem Tracks.goes {call : Call} (h : Tracks s) (hfit : call.Fits) (hsound : call.Sound s.of) : ∃ s', step s call s' := by
  obtain ⟨d, f, hof⟩ := h.indexed
  obtain ⟨ret, of', hrun, -⟩ := Call.spec hof hfit hsound
  exact ⟨_, step_of_run hfit hrun⟩

theorem Tracks.step {call : Call} (h : Tracks s) (hstep : OpenFile.step s call s') (hsound : call.Sound s.of) :
    Tracks s' := by
  obtain ⟨d, f, hof⟩ := h.indexed
  obtain ⟨hfit, ret, hrun, hreceived, hreported⟩ := hstep
  obtain ⟨ret', of', hrun', hindexed, hmono, hrep, hrec⟩ := Call.spec hof hfit hsound
  obtain ⟨rfl, rfl⟩ := Prod.mk.inj (Option.some.inj (hrun'.symm.trans hrun))
  refine ⟨hindexed, ?_, ?_⟩
  · rw [hreported]
    exact Set.union_subset (h.reported.trans hmono) hrep
  · rw [hreceived, Set.union_assoc]
    exact hrec.trans (Set.union_subset_union_left _ h.received)

theorem Tracks.truth (h : Tracks s) : Truth s := by
  obtain ⟨d, f, hof⟩ := h.indexed
  have hload := @loadIntervalTree_eq f []
  rw [hof.loads] at hload
  refine ⟨?_, h.reported, h.received, f, _, _, hof.indexfile, hload, ?_, ?_, rfl⟩
  · rw [hof.datafile, hof.size]
    rfl
  · exact (Int.natCast_nonneg (f.length / sizeofIndexRecord)).trans_lt' (by decide) |>.ne'
  · exact fun rec hrec => ((addRecords_spec records_lt separated_nil hof.loads).2.2 rec hrec).1

/-- As long as every record follows the one before it, and no failed call has made the data
file longer, the index tells which bytes of the data file are real. -/
theorem index_true (hr : Reachable Opened (Avoiding step fun s call => ¬call.Sound s.of) s) :
    Truth s ∧ ∀ call : Call, call.Fits → call.Sound s.of → ∃ s', step s call s' := by
  have htracks : Tracks s := by
    refine hr.invariant (fun s h => h.tracks) fun s call s' h hstep => ?_
    exact h.step hstep.1 (not_not.mp hstep.2)
  exact ⟨htracks.truth, fun _ hfit hsound => htracks.goes hfit hsound⟩

/-- An empty index, for a file that has the length of the remote one. -/
def fresh (size : ℕ) : Traced := ⟨⟨size, size, 0, true, false, [], some (List.replicate size 0), some []⟩, ∅, ∅⟩

theorem opened_fresh (size : ℕ) : Opened (fresh size) :=
  ⟨rfl, ⟨_, rfl, (List.length_replicate ..).symm⟩, ⟨[], rfl, ⟨0, rfl⟩, rfl⟩, points_nil.symm, rfl⟩

/-- A write whose record is not written, inside the file. -/
theorem index_true_after_failed_record : ∃ s, Reachable Opened (Avoiding step fun s call => ¬call.Sound s.of) s ∧
    s.of.indexoff = 1 ∧ Truth s := by
  have hsound : (Call.write [7] 1 ⟨true, .whole, .whole, .error, true⟩).Sound (fresh 3).of := by
    refine ⟨nofun, fun _ bw hbw => ?_⟩
    obtain rfl := Option.some.inj hbw
    exact ⟨.inl rfl, by decide⟩
  have hrun : (Call.write [7] 1 ⟨true, .whole, .whole, .error, true⟩).run (fresh 3).of =
      some (-5, ⟨3, 3, 1, true, false, [], some [0, 7, 0], some []⟩) := by decide
  have hstep := step_of_run (s := fresh 3) (by decide) hrun
  have hr : Reachable Opened (Avoiding step fun s call => ¬call.Sound s.of) _ :=
    .next (.start (opened_fresh 3)) ⟨hstep, not_not.mpr hsound⟩
  exact ⟨_, hr, rfl, (index_true hr).1⟩

/-- A write that fails takes a slot of the index, and the record of the next write leaves a
gap there, which the index does not load from. -/
theorem gap_in_index : ∃ s, Reachable Opened step s ∧ ¬Truth s := by
  let of₁ : Handle := ⟨3, 3, 1, true, false, [], some [0, 0, 0], some []⟩
  let index := List.replicate 16 0 ++ indexRecord (0, 1)
  let of₂ : Handle := ⟨3, 3, 2, true, false, [(0, 1)], some [7, 0, 0], some index⟩
  have hfails : (Call.write [7] 0 ⟨true, .whole, .error, .whole, true⟩).run (fresh 3).of = some (-5, of₁) := by decide
  have hwrites : (Call.write [7] 0 .whole).run of₁ = some (1, of₂) := by decide
  have hfail := step_of_run (s := fresh 3) (by decide) hfails
  obtain ⟨s₁, hof₁, hfail⟩ : ∃ s₁ : Traced, s₁.of = of₁ ∧ step (fresh 3) _ s₁ := ⟨_, rfl, hfail⟩
  rw [← hof₁] at hwrites
  have hwrite := step_of_run (by decide) hwrites
  refine ⟨_, .next (.next (.start (opened_fresh 3)) hfail) hwrite, fun h => ?_⟩
  obtain ⟨f, -, -, hf, -, -, hpos, -⟩ := h.index
  obtain rfl := Option.some.inj hf
  exact absurd (hpos (0, 0) (by decide)) (by decide)

end Pclsync.OpenFile
