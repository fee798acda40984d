import Pclsync.Delta.Matches
import Mathlib.Data.List.Chain

/-! What an upload may copy from the remote file: the ranges that `check_range_for_blocks`
finds in a local one. -/
namespace Pclsync.Delta
open Lib.Files Lib.Machine

/-- The table is of the remote file, and no other window has the checksums of one of its blocks. -/
structure Checksums.Of (sha1 : Bytes → Bytes) (remote : Bytes) (cs : Checksums) : Prop where
  filesize : cs.filesize = remote.length
  blockcnt : cs.blockcnt = ceilBlocks cs.filesize cs.blocksize
  blocks : cs.blocks.length = cs.blockcnt
  unique : ∀ (w : Bytes) (k : ℕ) (block : BlockChecksum), w.length = cs.blocksize → cs.blocks[k]? = some block →
    block.adler = adler32 adler32Initial w → block.sha1 = sha1 w → w = window remote cs.blocksize (k * cs.blocksize)

/-- The matches that the scan of a range takes. -/
def rangeMatches (sha1 : Bytes → Bytes) (cs : Checksums) (off len : ℕ) (file : Bytes) : List (ℕ × ℕ) :=
  matchesFrom cs off len file sha1 (createHash cs) (len + 1) 0

/-- The matches are of blocks below 4 GiB, none of the part past the end of the remote file, and where a
block follows the one before it, its match follows the match. -/
structure Plain (cs : Checksums) (len : ℕ) (remote : Bytes) (found : List (ℕ × ℕ)) : Prop where
  small : ∀ f ∈ found, (f.2 - 1) * cs.blocksize < 2 ^ 32
  ends : ∀ f ∈ found, (f.2 - 1) * cs.blocksize + min cs.blocksize (len - f.1) ≤ remote.length
  joined : found.IsChain fun f g => g.2 = f.2 + 1 → g.1 = f.1 + cs.blocksize

section Ranges
variable (off len : ℕ) (file remote : Bytes)

/-- A range of the local file is what the remote one has. -/
structure UploadRange.Copies (ur : UploadRange) : Prop where
  within : ur.off + ur.len ≤ remote.length
  inside : off ≤ ur.uploadoffset ∧ ur.uploadoffset + ur.len ≤ off + len
  same : pread file ur.len ur.uploadoffset = pread remote ur.len ur.off

/-- The ranges copy what is there, in order and without overlap. -/
structure CopiesAll (nr : List UploadRange) : Prop where
  copies : ∀ ur ∈ nr, ur.Copies off len file remote
  order : nr.Pairwise fun a b => a.uploadoffset + a.len ≤ b.uploadoffset

end Ranges

variable {sha1 : Bytes → Bytes} {cs : Checksums} {off len : ℕ} {file remote : Bytes} {hash : ChecksumHash} {p blockidx : ℕ}

theorem blockAt_isSome (h : hash.HasFree) (p : ℕ) : (blockAt cs off file sha1 hash p).isSome := by
  have hcnt : 0 < hash.elementcnt := List.length_pos_of_mem h
  have htotal : ∀ pass adler, (probe hash cs pass hash.elementcnt (adler % hash.elementcnt)).isSome := fun pass adler =>
    probe_total h (Nat.mod_lt _ hcnt)
  unfold blockAt hashHasAdler hashHasAdlerAndSha1
  dsimp only
  obtain ⟨idx, hidx⟩ := Option.isSome_iff_exists.mp
    (htotal (fun block => block.adler = adler32 adler32Initial (window file cs.blocksize (off + p)))
      (adler32 adler32Initial (window file cs.blocksize (off + p))))
  rw [hidx, Option.map_some, Option.bind_some]
  split
  · exact htotal _ _
  · rfl

/-- A match says what the window is. -/
theorem blockAt_window (hof : cs.Of sha1 remote) (h : blockAt cs off file sha1 hash p = some blockidx) (hne : blockidx ≠ 0) :
    window file cs.blocksize (off + p) = window remote cs.blocksize ((blockidx - 1) * cs.blocksize) := by
  obtain ⟨has, -, h⟩ := Option.bind_eq_some_iff.mp h
  split at h
  · obtain ⟨block, hblock, hpass⟩ := probe_pass h hne
    obtain ⟨hadler, hsha1⟩ := of_decide_eq_true hpass
    exact hof.unique _ _ block length_window hblock hadler hsha1
  · exact absurd (Option.some_inj.mp h).symm hne

/-- The range of a match copies what is there. -/
theorem match_copies (hof : cs.Of sha1 remote) (hrange : off + len ≤ file.length) (hp : p < len)
    (h : blockAt cs off file sha1 hash p = some blockidx) (hne : blockidx ≠ 0)
    (hend : (blockidx - 1) * cs.blocksize + min cs.blocksize (len - p) ≤ remote.length) :
    UploadRange.Copies off len file remote ⟨off + p, (blockidx - 1) * cs.blocksize, min cs.blocksize (len - p)⟩ := by
  have hin : off + p + min cs.blocksize (len - p) ≤ off + len := by omega
  refine ⟨hend, ⟨Nat.le_add_right .., hin⟩, ?_⟩
  change pread file (min cs.blocksize (len - p)) (off + p) = pread remote _ ((blockidx - 1) * cs.blocksize)
  rw [← take_window (n := cs.blocksize) (Nat.min_le_left ..) (by omega), blockAt_window hof h hne,
    take_window (Nat.min_le_left ..) hend]

/-- The last range is the one of the last match, and the next match is after it. -/
structure Ready (cs : Checksums) (off : ℕ) (nr : List UploadRange) (p : ℕ) (last : Option (ℕ × ℕ)) : Prop where
  ended : ∀ ur ∈ nr.head?, ∃ f ∈ last, 0 < f.2 ∧ ur.off + ur.len = f.2 * cs.blocksize ∧
    ur.uploadoffset + ur.len = off + f.1 + cs.blocksize
  after : ∀ f ∈ last, f.1 + cs.blocksize ≤ p

/-- The ranges with the last one first. -/
structure CopiesBack (off len : ℕ) (file remote : Bytes) (nr : List UploadRange) : Prop where
  copies : ∀ ur ∈ nr, ur.Copies off len file remote
  order : nr.Pairwise fun b a => a.uploadoffset + a.len ≤ b.uploadoffset

theorem CopiesBack.reverse {nr : List UploadRange} (h : CopiesBack off len file remote nr) :
    CopiesAll off len file remote nr.reverse :=
  ⟨fun ur hur => h.copies ur (List.mem_reverse.mp hur), List.pairwise_reverse.mpr h.order⟩

/-- A match added to the ranges. -/
theorem addMatch_copies {nr : List UploadRange} {last : Option (ℕ × ℕ)} (hpos : 0 < cs.blocksize)
    (h : CopiesBack off len file remote nr) (hready : Ready cs off nr p last)
    (hnew : UploadRange.Copies off len file remote ⟨off + p, (blockidx - 1) * cs.blocksize, min cs.blocksize (len - p)⟩)
    (hne : blockidx ≠ 0) (hsmall : (blockidx - 1) * cs.blocksize < 2 ^ 32)
    (hjoined : ∀ f ∈ last, blockidx = f.2 + 1 → p = f.1 + cs.blocksize) :
    CopiesBack off len file remote (addMatch cs off len nr (p, blockidx)) ∧
      (p + cs.blocksize ≤ len → Ready cs off (addMatch cs off len nr (p, blockidx)) (p + cs.blocksize) (some (p, blockidx))) := by
  have hend : p + cs.blocksize ≤ len →
      (blockidx - 1) * cs.blocksize + min cs.blocksize (len - p) = blockidx * cs.blocksize := fun hle => by
    obtain ⟨k, rfl⟩ := Nat.exists_eq_succ_of_ne_zero hne
    rw [Nat.succ_mul, Nat.succ_sub_one]
    omega
  have hready' : ∀ nr', (∀ ur ∈ nr'.head?, ur.off + ur.len = (blockidx - 1) * cs.blocksize + min cs.blocksize (len - p) ∧
      ur.uploadoffset + ur.len = off + p + min cs.blocksize (len - p)) → p + cs.blocksize ≤ len →
      Ready cs off nr' (p + cs.blocksize) (some (p, blockidx)) := fun nr' hlast hle => by
    refine ⟨fun ur hur => ⟨(p, blockidx), rfl, Nat.pos_of_ne_zero hne, ?_, ?_⟩, fun f hf => ?_⟩
    · exact (hlast ur hur).1.trans (hend hle)
    · have h := (hlast ur hur).2
      dsimp only
      omega
    · rw [← Option.some_inj.mp hf]
  have hfresh : ∀ ur ∈ (⟨off + p, (blockidx - 1) * cs.blocksize, min cs.blocksize (len - p)⟩ :: nr : List UploadRange).head?,
      ur.off + ur.len = (blockidx - 1) * cs.blocksize + min cs.blocksize (len - p) ∧
        ur.uploadoffset + ur.len = off + p + min cs.blocksize (len - p) := fun ur hur => by
    rw [← Option.some_inj.mp hur]
    exact ⟨rfl, rfl⟩
  unfold addMatch
  rw [u32_of_lt hsmall]
  cases nr with
  | nil => exact ⟨⟨List.forall_mem_singleton.mpr hnew, List.pairwise_singleton ..⟩, hready' _ hfresh⟩
  | cons ur rest =>
    obtain ⟨hur, hrest⟩ := List.forall_mem_cons.mp h.copies
    obtain ⟨hbefore, horder⟩ := List.pairwise_cons.mp h.order
    obtain ⟨f, hf, hfpos, hoff, hupload⟩ := hready.ended ur rfl
    have hafter := hready.after f hf
    unfold addRange
    dsimp only
    split_ifs with hmerge
    · -- the block after the last one, and so its match after the last match
      have hnext : blockidx = f.2 + 1 := by
        have heq := Nat.eq_of_mul_eq_mul_right hpos (hoff.symm.trans hmerge)
        omega
      have hp := hjoined f hf hnext
      have hjoin : ur.uploadoffset + ur.len = off + p := by omega
      refine ⟨⟨List.forall_mem_cons.mpr ⟨⟨?_, ?_, ?_⟩, hrest⟩, List.pairwise_cons.mpr ⟨hbefore, horder⟩⟩, hready' _ ?_⟩
      · have hwithin := hnew.within
        dsimp only at hwithin ⊢
        omega
      · have hinside := hnew.inside
        have hinside' := hur.inside
        dsimp only at hinside ⊢
        omega
      · rw [pread_add, pread_add, hjoin, hur.same, hmerge]
        exact congrArg _ hnew.same
      · intro ur' hur'
        rw [← Option.some_inj.mp hur']
        dsimp only
        omega
    · refine ⟨⟨List.forall_mem_cons.mpr ⟨hnew, h.copies⟩, List.pairwise_cons.mpr ⟨?_, h.order⟩⟩, hready' _ hfresh⟩
      refine List.forall_mem_cons.mpr ⟨by dsimp only; omega, fun a ha => ?_⟩
      have ha := hbefore a ha
      dsimp only
      omega

theorem Plain.first {last : Option (ℕ × ℕ)} {f : ℕ × ℕ} {found : List (ℕ × ℕ)}
    (h : Plain cs len remote (last.toList ++ f :: found)) :
    (f.2 - 1) * cs.blocksize < 2 ^ 32 ∧ (f.2 - 1) * cs.blocksize + min cs.blocksize (len - f.1) ≤ remote.length ∧
      ∀ g ∈ last, f.2 = g.2 + 1 → f.1 = g.1 + cs.blocksize := by
  have hmem : f ∈ last.toList ++ f :: found := List.mem_append_right _ (List.mem_cons_self ..)
  refine ⟨h.small f hmem, h.ends f hmem, ?_⟩
  rintro g rfl
  exact (List.isChain_cons_cons.mp h.joined).1

theorem Plain.tail {last : Option (ℕ × ℕ)} {f : ℕ × ℕ} {found : List (ℕ × ℕ)}
    (h : Plain cs len remote (last.toList ++ f :: found)) : Plain cs len remote ((some f).toList ++ found) :=
  ⟨fun g hg => h.small g (List.mem_append_right _ hg), fun g hg => h.ends g (List.mem_append_right _ hg),
    h.joined.right_of_append⟩

/-- The matches from a position on, added to ranges that are all right. -/
theorem foldl_addMatch_copies (hpos : 0 < cs.blocksize) (hof : cs.Of sha1 remote) (hrange : off + len ≤ file.length)
    (htotal : ∀ p, (blockAt cs off file sha1 hash p).isSome) {fuel : ℕ} {nr : List UploadRange} {last : Option (ℕ × ℕ)}
    (h : CopiesBack off len file remote nr) (hready : Ready cs off nr p last)
    (hplain : Plain cs len remote (last.toList ++ matchesFrom cs off len file sha1 hash fuel p)) :
    CopiesBack off len file remote ((matchesFrom cs off len file sha1 hash fuel p).foldl (addMatch cs off len) nr) := by
  induction fuel generalizing p nr last with
  | zero => exact h
  | succ fuel ih =>
    rw [matchesFrom] at hplain ⊢
    by_cases hp : p < len ∧ p + cs.blocksize ≤ scanEnd cs off file
    · rw [if_pos hp] at hplain ⊢
      obtain ⟨blockidx, hblock⟩ := Option.isSome_iff_exists.mp (htotal p)
      rw [hblock, Option.getD_some] at hplain ⊢
      dsimp only at hplain ⊢
      by_cases hzero : blockidx = 0
      · rw [if_pos hzero] at hplain ⊢
        refine ih h ⟨hready.ended, fun f hf => ?_⟩ hplain
        have hafter := hready.after f hf
        omega
      · rw [if_neg hzero] at hplain ⊢
        obtain ⟨hsmall, hends, hjoined⟩ := hplain.first
        obtain ⟨hadd, hnext⟩ := addMatch_copies hpos h hready (match_copies hof hrange hp.1 hblock hzero hends) hzero hsmall hjoined
        rw [List.foldl_cons]
        split_ifs at hplain ⊢ with hle
        · exact ih hadd (hnext hle) hplain.tail
        · exact hadd
    · rw [if_neg hp]
      exact h

/-- Two blocks of two bytes. -/
def twoBlocks : Checksums :=
  ⟨4, 2, 2, [⟨[1, 2], adler32 adler32Initial [1, 2]⟩, ⟨[3, 4], adler32 adler32Initial [3, 4]⟩]⟩

theorem twoBlocks_of : twoBlocks.Of id [1, 2, 3, 4] where
  filesize := rfl
  blockcnt := by decide
  blocks := rfl
  unique w k block _ hblock _ hsha1 := by
    rw [id_eq] at hsha1
    rw [← hsha1]
    match k with
    | 0 => rw [← Option.some_inj.mp hblock]; decide
    | 1 => rw [← Option.some_inj.mp hblock]; decide
    | k + 2 => exact nomatch hblock

end Pclsync.Delta
