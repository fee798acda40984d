import Pclsync.Delta.Checksums

/-! The plan of a download that takes from local files what they have.

The blocks of the remote file come in order; a block extends the range before it when it
goes on where the range ends. -/
namespace Pclsync.Delta
open Lib.Files Lib.Machine

/-- `PSYNC_RANGE_TRANSFER` and `PSYNC_RANGE_COPY`. -/
inductive RangeType where
  | transfer
  | copy
deriving DecidableEq, Repr

/-- `psync_block_action`. -/
structure BlockAction where
  off : ℕ
  idx : ℕ
  type : RangeType
deriving DecidableEq, Repr

/-- `psync_range_list_t`. A range to transfer has no file name; names are compared as pointers. -/
structure Range (P : Type) where
  off : ℕ
  len : ℕ
  type : RangeType
  filename : Option P
deriving DecidableEq, Repr

inductive NetResult where
  | ok
  | permfail
  | tempfail
deriving DecidableEq, Repr

variable {P : Type}

/-- The source of a range that begins with a block. -/
def newRange (files : List P) (a : BlockAction) (len transferOff : ℕ) : Range P :=
  match a.type with
  | .copy => ⟨a.off, len, .copy, files[a.idx]?⟩
  | .transfer => ⟨transferOff, len, .transfer, none⟩

/-- `bs` in the loop of `psync_net_download_ranges`. -/
def blockLen (cs : Checksums) (i : ℕ) : ℕ :=
  if i = cs.blockcnt - 1 then
    let bs := cs.filesize % cs.blocksize
    if bs = 0 then cs.blocksize else bs
  else cs.blocksize

variable [DecidableEq P]

/-- One round of the loop: the ranges before the last one, and the last one. -/
def rangeStep (cs : Checksums) (files : List P) (actions : ℕ → BlockAction) (ranges : List (Range P) × Range P)
    (i : ℕ) : List (Range P) × Range P :=
  let (done, range) := ranges
  let a := actions i
  let bs := blockLen cs i
  if a.type ≠ range.type ∨
      range.type = .copy ∧ (range.filename ≠ files[a.idx]? ∨ u64 (range.off + range.len) ≠ a.off) then
    (done ++ [range], newRange files a bs (u64 (i * cs.blocksize)))
  else (done, { range with len := u64 (range.len + bs) })

/-- The ranges of the blocks. -/
def blockRanges (cs : Checksums) (files : List P) (actions : ℕ → BlockAction) : List (Range P) :=
  let first := newRange files (actions 0) cs.blocksize 0
  let (done, range) := (List.range' 1 (cs.blockcnt - 1)).foldl (rangeStep cs files actions) ([], first)
  done ++ [range]

/-- The whole file from the server. -/
def fullDownload (filesize : ℕ) : List (Range P) := [⟨0, filesize, .transfer, none⟩]

/-- `psync_net_download_ranges`, with what `psync_net_get_checksums` returns and the actions
that `psync_net_check_file_for_blocks` leaves for the files. It dereferences a table that
was left out, which ends the program (`none`). -/
def downloadRanges (files : List P) (reply : NetResult) (checksums : Option Checksums) (filesize : ℕ)
    (actions : Checksums → ℕ → BlockAction) : Option (NetResult × List (Range P)) :=
  if files = [] then some (.ok, fullDownload filesize)
  else match reply with
    | .permfail => some (.ok, fullDownload filesize)
    | .tempfail => some (.tempfail, [])
    | .ok => checksums.bind fun cs =>
      if cs.filesize ≠ filesize then some (.tempfail, []) else some (.ok, blockRanges cs files (actions cs))

/-! ### What the ranges are for -/

section Bytes
variable (remote : Bytes) (content : P → Bytes)

def Range.bytes (range : Range P) : Bytes :=
  match range.type with
  | .copy => pread (range.filename.elim [] content) range.len range.off
  | .transfer => pread remote range.len range.off

/-- The bytes of a block, from the file that has them. -/
def blockBytes (blocksize : ℕ) (files : List P) (actions : ℕ → BlockAction) (i : ℕ) : Bytes :=
  let len := min blocksize (remote.length - i * blocksize)
  match (actions i).type with
  | .copy => pread (files[(actions i).idx]?.elim [] content) len (actions i).off
  | .transfer => pread remote len (i * blocksize)

/-- A plan for the file: as long as the file, and block after block. -/
structure Covers (blocksize : ℕ) (files : List P) (actions : ℕ → BlockAction) (ranges : List (Range P)) : Prop where
  length : (ranges.map Range.len).sum = remote.length
  bytes : ranges.flatMap (Range.bytes remote content) =
    (List.range (ceilBlocks remote.length blocksize)).flatMap (blockBytes remote content blocksize files actions)

end Bytes

variable {cs : Checksums} {files : List P} {actions : ℕ → BlockAction} {remote : Bytes} {content : P → Bytes} {k : ℕ}

theorem blockLen_eq (hsize : cs.filesize = remote.length) (hpos : 0 < cs.blocksize)
    (hcnt : cs.blockcnt = ceilBlocks cs.filesize cs.blocksize) (hk : k < cs.blockcnt) :
    blockLen cs k = min cs.blocksize (remote.length - k * cs.blocksize) := by
  have hstart : k * cs.blocksize < cs.filesize := by rwa [hcnt, lt_ceilBlocks hpos] at hk
  rw [blockLen, ← hsize]
  by_cases hlast : k = cs.blockcnt - 1
  · rw [if_pos hlast]
    have hend : cs.filesize ≤ (k + 1) * cs.blocksize := by
      rw [← ceilBlocks_le hpos, ← hcnt]
      omega
    rw [Nat.succ_mul] at hend
    obtain ⟨r, hr⟩ := Nat.exists_eq_add_of_lt hstart
    have hmod : cs.filesize % cs.blocksize = (r + 1) % cs.blocksize := by
      rw [hr, Nat.add_assoc, Nat.mul_comm, Nat.mul_add_mod]
    rcases eq_or_ne (r + 1) cs.blocksize with heq | hne
    · simp only [hmod, heq, Nat.mod_self, if_true]
      omega
    · have hlt : (r + 1) % cs.blocksize = r + 1 := Nat.mod_eq_of_lt (by omega)
      simp only [hmod, hlt, Nat.succ_ne_zero, if_false]
      omega
  · rw [if_neg hlast]
    have hnext : (k + 1) * cs.blocksize < cs.filesize := by
      rw [← lt_ceilBlocks hpos, ← hcnt]
      omega
    rw [Nat.succ_mul] at hnext
    omega

/-- The ranges of the first `k` blocks. -/
structure Planned (cs : Checksums) (files : List P) (actions : ℕ → BlockAction) (remote : Bytes) (content : P → Bytes)
    (k : ℕ) (ranges : List (Range P) × Range P) : Prop where
  length : ((ranges.1 ++ [ranges.2]).map Range.len).sum = min (k * cs.blocksize) remote.length
  bytes : (ranges.1 ++ [ranges.2]).flatMap (Range.bytes remote content) =
    (List.range k).flatMap (blockBytes remote content cs.blocksize files actions)
  transfer : ranges.2.type = .transfer → ranges.2.off + ranges.2.len = min (k * cs.blocksize) remote.length
  copy : ranges.2.type = .copy → ranges.2.off + ranges.2.len < 2 ^ 64

omit [DecidableEq P] in
/-- A range that begins with block `k`. -/
theorem newRange_spec {len : ℕ} (files : List P) (content : P → Bytes) (hlen : len = min cs.blocksize (remote.length - k * cs.blocksize))
    (hstart : k * cs.blocksize ≤ remote.length)
    (hoff : (actions k).type = .copy → (actions k).off + cs.blocksize < 2 ^ 64) :
    let range := newRange files (actions k) len (k * cs.blocksize)
    range.len = len ∧ range.bytes remote content = blockBytes remote content cs.blocksize files actions k ∧
      (range.type = .transfer → range.off + range.len = min ((k + 1) * cs.blocksize) remote.length) ∧
      (range.type = .copy → range.off + range.len < 2 ^ 64) := by
  cases htype : (actions k).type with
  | copy =>
    have := hoff htype
    refine ⟨?_, ?_, ?_, ?_⟩
    · simp [newRange, htype]
    · simp [newRange, Range.bytes, blockBytes, htype, hlen]
    · simp [newRange, htype]
    · intro
      simp only [newRange, htype]
      omega
  | transfer =>
    refine ⟨?_, ?_, ?_, ?_⟩
    · simp [newRange, htype]
    · simp [newRange, Range.bytes, blockBytes, htype, hlen]
    · intro
      simp only [newRange, htype, Nat.succ_mul]
      omega
    · simp [newRange, htype]

theorem rangeStep_planned {ranges : List (Range P) × Range P} (h : Planned cs files actions remote content k ranges)
    (hsize : cs.filesize = remote.length) (hfile : remote.length < 2 ^ 64) (hpos : 0 < cs.blocksize)
    (hcnt : cs.blockcnt = ceilBlocks cs.filesize cs.blocksize) (hk : k < cs.blockcnt)
    (hoff : (actions k).type = .copy → (actions k).off + cs.blocksize < 2 ^ 64) :
    Planned cs files actions remote content (k + 1) (rangeStep cs files actions ranges k) := by
  obtain ⟨done, range⟩ := ranges
  obtain ⟨hlength, hbytes, htransfer, hcopy⟩ := h
  have hlen := blockLen_eq hsize hpos hcnt hk
  have hstart : k * cs.blocksize < remote.length := by rwa [hcnt, lt_ceilBlocks hpos, hsize] at hk
  have hsum : min (k * cs.blocksize) remote.length + blockLen cs k = min ((k + 1) * cs.blocksize) remote.length := by
    rw [hlen, Nat.succ_mul]
    omega
  rw [rangeStep]
  split_ifs with hnew
  · rw [u64_of_lt (Nat.lt_trans hstart hfile)]
    obtain ⟨hl, hb, ht, hc⟩ := newRange_spec files content hlen (Nat.le_of_lt hstart) hoff
    refine ⟨?_, ?_, ht, hc⟩
    · rw [List.map_append, List.sum_append, hlength]
      simp only [List.map_cons, List.map_nil, List.sum_cons, List.sum_nil, hl]
      exact hsum
    · rw [List.flatMap_append, hbytes, List.range_succ, List.flatMap_append]
      simp only [List.flatMap_singleton, hb]
  · -- the block goes on where the range ends, in the same file
    have htype : (actions k).type = range.type := not_not.mp fun hne => hnew (.inl hne)
    have hbefore : range.len ≤ min (k * cs.blocksize) remote.length := by
      rw [← hlength, List.map_append, List.sum_append]
      simp
    rw [u64_of_lt (show range.len + blockLen cs k < 2 ^ 64 by omega)]
    have hblock : Range.bytes remote content { range with len := range.len + blockLen cs k } =
        range.bytes remote content ++ blockBytes remote content cs.blocksize files actions k := by
      cases hrange : range.type with
      | copy =>
        have hsame : range.filename = files[(actions k).idx]? ∧ u64 (range.off + range.len) = (actions k).off :=
          not_or.mp (fun hne => hnew (.inr ⟨hrange, hne⟩)) |>.imp not_not.mp not_not.mp
        rw [u64_of_lt (hcopy hrange)] at hsame
        simp only [Range.bytes, blockBytes, htype, hrange, pread_add, hsame, hlen]
      | transfer =>
        have hend := htransfer hrange
        rw [min_eq_left (Nat.le_of_lt hstart)] at hend
        simp only [Range.bytes, blockBytes, htype, hrange, pread_add, hend, hlen]
    refine ⟨?_, ?_, fun htransfer' => ?_, fun hcopy' => ?_⟩
    · rw [← hsum, ← hlength]
      simp only [List.map_append, List.sum_append, List.map_cons, List.map_nil, List.sum_cons, List.sum_nil]
      omega
    · rw [List.range_succ, List.flatMap_append, List.flatMap_append, ← hbytes, List.flatMap_append]
      simp only [List.flatMap_singleton, hblock, List.append_assoc]
    · have hend : range.off + range.len = min (k * cs.blocksize) remote.length := htransfer htransfer'
      simp only
      omega
    · have hrange : range.type = .copy := hcopy'
      have hsame : u64 (range.off + range.len) = (actions k).off :=
        not_not.mp fun hne => hnew (.inr ⟨hrange, .inr hne⟩)
      have hend : range.off + range.len < 2 ^ 64 := hcopy hrange
      rw [u64_of_lt hend] at hsame
      have := hoff (htype.trans hrange)
      simp only
      omega

theorem blockRanges_covers (cs : Checksums) (hsize : cs.filesize = remote.length) (hfile : remote.length < 2 ^ 64)
    (hpos : 0 < cs.blocksize) (hfits : cs.blocksize ≤ cs.filesize)
    (hcnt : cs.blockcnt = ceilBlocks cs.filesize cs.blocksize)
    (hoff : ∀ i, (actions i).type = .copy → (actions i).off + cs.blocksize < 2 ^ 64) :
    Covers remote content cs.blocksize files actions (blockRanges cs files actions) := by
  have hfirst : Planned cs files actions remote content 1 ([], newRange files (actions 0) cs.blocksize 0) := by
    have hlen : cs.blocksize = min cs.blocksize (remote.length - 0 * cs.blocksize) := by omega
    obtain ⟨hl, hb, ht, hc⟩ := newRange_spec files content hlen (by omega) (hoff 0)
    rw [Nat.zero_mul] at hl hb ht hc
    refine ⟨?_, ?_, ht, hc⟩
    · simp only [List.nil_append, List.map_cons, List.map_nil, List.sum_cons, List.sum_nil, hl]
      omega
    · simp only [List.nil_append, List.flatMap_singleton, hb, List.range_one]
  have hrun : ∀ m, m ≤ cs.blockcnt - 1 → Planned cs files actions remote content (m + 1)
      ((List.range' 1 m).foldl (rangeStep cs files actions) ([], newRange files (actions 0) cs.blocksize 0)) := by
    intro m hm
    induction m with
    | zero => exact hfirst
    | succ m ih =>
      rw [List.range'_concat, List.foldl_append]
      have := rangeStep_planned (ih (by omega)) hsize hfile hpos hcnt (by omega) (hoff _)
      rwa [Nat.add_comm 1, Nat.one_mul]
  have hcount : 0 < cs.blockcnt := by
    rw [hcnt, lt_ceilBlocks hpos]
    omega
  have hall := hrun (cs.blockcnt - 1) (Nat.le_refl _)
  rw [Nat.sub_add_cancel hcount] at hall
  refine ⟨hall.length.trans (min_eq_right ?_), ?_⟩
  · rw [← hsize, ← ceilBlocks_le hpos, hcnt]
  · rw [← hsize, ← hcnt]
    exact hall.bytes

/-- **A plan covers the file** exactly when the file has one full block at least, as the
first range is given the length of a full block, and its table of checksums is not too large. -/
theorem download_covers_iff (blocks : List BlockChecksum) (files : List P) (actions : ℕ → BlockAction) (remote : Bytes)
    (content : P → Bytes) {blocksize : ℕ} (hfiles : files ≠ []) (hsize : 0 < remote.length)
    (hfile : remote.length < 2 ^ 64) (hpos : 0 < blocksize)
    (hcnt : u32 (u64 (remote.length + blocksize - 1) / blocksize) = ceilBlocks remote.length blocksize)
    (hoff : ∀ i, (actions i).type = .copy → (actions i).off + blocksize < 2 ^ 64) :
    (∃ ranges, downloadRanges files .ok (getChecksums remote.length blocksize blocks) remote.length (fun _ => actions) =
        some (.ok, ranges) ∧ Covers remote content blocksize files actions ranges) ↔
      blocksize ≤ remote.length ∧ sizeofChecksum * ceilBlocks remote.length blocksize < maxChecksumsSize := by
  have hrun : ∀ ranges, downloadRanges files .ok (getChecksums remote.length blocksize blocks) remote.length (fun _ => actions) =
      some (.ok, ranges) ↔ sizeofChecksum * ceilBlocks remote.length blocksize < maxChecksumsSize ∧
        ranges = blockRanges ⟨remote.length, blocksize, ceilBlocks remote.length blocksize, blocks⟩ files actions := by
    intro ranges
    rw [downloadRanges, if_neg hfiles, getChecksums, hcnt]
    by_cases hlarge : sizeofChecksum * ceilBlocks remote.length blocksize ≥ maxChecksumsSize
    · simp [hlarge, not_lt.mpr hlarge]
    · simp [hlarge, not_le.mp hlarge, eq_comm]
  constructor
  · rintro ⟨ranges, hranges, hcovers⟩
    obtain ⟨hsmall, rfl⟩ := (hrun ranges).mp hranges
    refine ⟨?_, hsmall⟩
    by_contra hfits
    -- the only block is shorter than the range that it gets
    have hone : ceilBlocks remote.length blocksize = 1 := by
      refine Nat.le_antisymm ?_ ?_
      · rw [ceilBlocks_le hpos]
        omega
      · rw [Nat.succ_le_iff, lt_ceilBlocks hpos]
        omega
    have hlength := hcovers.length
    have hlen : (newRange files (actions 0) blocksize 0).len = blocksize := by
      rw [newRange]
      split <;> rfl
    simp only [blockRanges, hone, Nat.sub_self, List.range'_zero, List.foldl_nil, List.nil_append, List.map_cons,
      List.map_nil, List.sum_cons, List.sum_nil, hlen] at hlength
    omega
  · rintro ⟨hfits, hsmall⟩
    refine ⟨_, (hrun _).mpr ⟨hsmall, rfl⟩, ?_⟩
    exact blockRanges_covers ⟨_, blocksize, _, blocks⟩ rfl hfile hpos hfits rfl hoff

/-- Three bytes in blocks of two: one block from the server, one from a local file. -/
theorem download_covers_iff_two_blocks :
    ∃ ranges, downloadRanges [()] .ok (getChecksums 3 2 []) 3 (fun _ i => if i = 0 then ⟨0, 0, .transfer⟩ else ⟨5, 0, .copy⟩) =
      some (.ok, ranges) ∧ Covers [1, 2, 3] (fun _ => [0, 0, 0, 0, 0, 9]) 2 [()]
        (fun i => if i = 0 then ⟨0, 0, .transfer⟩ else ⟨5, 0, .copy⟩) ranges := by
  refine (download_covers_iff [] [()] _ [1, 2, 3] _ (by decide) (by decide) (by decide) (by decide) (by decide) ?_).mpr
    ⟨by decide, by decide⟩
  intro i
  split_ifs
  · nofun
  · decide

/-- A file of 65536 bytes in a block of 131072. -/
theorem short_file_not_covered :
    ¬∀ (filesize blocksize : ℕ) (actions : ℕ → BlockAction) (remote : Bytes) (content : Unit → Bytes),
      remote.length = filesize → 0 < filesize → filesize < 2 ^ 64 → 0 < blocksize → blocksize < 2 ^ 32 →
      u32 (u64 (filesize + blocksize - 1) / blocksize) = ceilBlocks filesize blocksize →
      (∀ i, (actions i).type = .copy → (actions i).off + blocksize < 2 ^ 64) →
      ∃ ranges, downloadRanges [()] .ok (getChecksums filesize blocksize []) filesize (fun _ => actions) = some (.ok, ranges) ∧
        Covers remote content blocksize [()] actions ranges := by
  intro hall
  have hshort : (List.replicate 65536 (0 : UInt8)).length = 65536 := List.length_replicate
  obtain ⟨ranges, hranges, hlength, -⟩ := hall 65536 131072 (fun _ => ⟨0, 0, .transfer⟩) _ (fun _ => []) hshort
    (by decide) (by decide) (by decide) (by decide) (by decide) (by nofun)
  have hone : ranges = [⟨0, 131072, .transfer, none⟩] := by
    cases hranges
    rfl
  rw [hone, hshort] at hlength
  cases hlength

end Pclsync.Delta
