import Pclsync.Lib.Files
import Pclsync.Lib.Machine
import Mathlib.Data.Nat.Find
import Mathlib.Data.Nat.Prime.Infinite

/-! The table of checksums of a remote file, as a server sends it. -/
namespace Pclsync.Delta
open Lib.Files Lib.Machine

/-- `psync_block_checksum`. -/
structure BlockChecksum where
  sha1 : Bytes
  adler : ℕ
deriving DecidableEq, Repr

/-- `psync_file_checksums`. -/
structure Checksums where
  filesize : ℕ
  blocksize : ℕ
  blockcnt : ℕ
  blocks : List BlockChecksum
deriving DecidableEq, Repr

/-- `sizeof(psync_block_checksum)+sizeof(uint32_t)`. -/
def sizeofChecksum : ℕ := 28

/-- `PSYNC_MAX_CHECKSUMS_SIZE`. -/
def maxChecksumsSize : ℕ := 64 * 1024 * 1024

/-- What `psync_net_get_checksums` makes of a header and the blocks after it. A table that
is too large is left out, and `PSYNC_NET_OK` reported all the same. -/
def getChecksums (filesize blocksize : ℕ) (blocks : List BlockChecksum) : Option Checksums :=
  let i := u32 (u64 (filesize + blocksize - 1) / blocksize)
  if sizeofChecksum * i ≥ maxChecksumsSize then none else some ⟨filesize, blocksize, i, blocks⟩

/-- How many blocks a file has. -/
def ceilBlocks (filesize blocksize : ℕ) : ℕ := (filesize + blocksize - 1) / blocksize

variable {filesize blocksize i : ℕ}

theorem lt_ceilBlocks (hpos : 0 < blocksize) : i < ceilBlocks filesize blocksize ↔ i * blocksize < filesize := by
  rw [ceilBlocks, ← Nat.succ_le_iff, Nat.le_div_iff_mul_le hpos, Nat.succ_mul]
  omega

theorem ceilBlocks_le (hpos : 0 < blocksize) : ceilBlocks filesize blocksize ≤ i ↔ filesize ≤ i * blocksize := by
  rw [← not_lt, lt_ceilBlocks hpos, not_lt]

end Pclsync.Delta

/-! The hash table of the checksums of a remote file, with open addressing. -/
namespace Pclsync.Delta
open Lib.Files Lib.Machine

/-- `psync_file_checksum_hash`: `elements` are indices of blocks plus one, and 0 in free slots. -/
structure ChecksumHash where
  elements : List ℕ
deriving DecidableEq, Repr

def ChecksumHash.elementcnt (hash : ChecksumHash) : ℕ := hash.elements.length

/-- The slot after a slot. -/
def ChecksumHash.nextSlot (hash : ChecksumHash) (o : ℕ) : ℕ := if o + 1 ≥ hash.elementcnt then 0 else o + 1

/-- The loop of a lookup: the element that passes, or 0 at a free slot. -/
def probe (hash : ChecksumHash) (cs : Checksums) (pass : BlockChecksum → Bool) : (fuel o : ℕ) → Option ℕ
  | 0, _ => none
  | fuel + 1, o =>
    let idx := hash.elements.getD o 0
    if idx = 0 then some 0
    else if (cs.blocks[idx - 1]?).any pass then some idx
    else probe hash cs pass fuel (hash.nextSlot o)

/-- `psync_net_hash_has_adler`. -/
def hashHasAdler (hash : ChecksumHash) (cs : Checksums) (adler : ℕ) : Option Bool :=
  (probe hash cs (fun block => block.adler = adler) hash.elementcnt (adler % hash.elementcnt)).map (· ≠ 0)

/-- `psync_net_hash_has_adler_and_sha1`. -/
def hashHasAdlerAndSha1 (hash : ChecksumHash) (cs : Checksums) (adler : ℕ) (sha1 : Bytes) : Option ℕ :=
  probe hash cs (fun block => block.adler = adler ∧ block.sha1 = sha1) hash.elementcnt (adler % hash.elementcnt)

/-! ### The table -/

/-- `psync_is_prime`. -/
def psyncIsPrime (num : ℕ) : Bool := decide (∀ i < num, 5 ≤ i → i % 2 = 1 → i * i ≤ num → num % i ≠ 0)

/-- `psync_net_create_hash` tries the numbers from `cnt` on that are neither even nor multiples of 3. -/
def Tried (cnt num : ℕ) : Prop := cnt ≤ num ∧ (num % 6 = 1 ∨ num % 6 = 5) ∧ psyncIsPrime num

instance (cnt : ℕ) : DecidablePred (Tried cnt) := fun _ => inferInstanceAs (Decidable (_ ∧ _))

theorem tried_exists (cnt : ℕ) : ∃ num, Tried cnt num := by
  obtain ⟨p, hle, hp⟩ := Nat.exists_infinite_primes (cnt + 5)
  refine ⟨p, by omega, ?_, ?_⟩
  · have h2 : ¬2 ∣ p := fun h => by have := (Nat.prime_dvd_prime_iff_eq Nat.prime_two hp).mp h; omega
    have h3 : ¬3 ∣ p := fun h => by have := (Nat.prime_dvd_prime_iff_eq Nat.prime_three hp).mp h; omega
    omega
  · refine decide_eq_true fun i hlt hge _ _ hmod => ?_
    rcases (Nat.dvd_prime hp).mp (Nat.dvd_of_mod_eq_zero hmod) with rfl | rfl
    · omega
    · exact Nat.lt_irrefl _ hlt

/-- `elementcnt` of a new table. -/
def hashSize (blockcnt : ℕ) : ℕ := Nat.find (tried_exists ((blockcnt + 1) / 2 * 6 + 1))

/-- `MAX_ADLER_COLL`. -/
def maxAdlerColl : ℕ := 64

/-- The inner loop of `psync_net_create_hash`, from a slot that is taken: the slot for a block,
unless there are too many collisions. -/
def findSlot (hash : ChecksumHash) (cs : Checksums) (block : BlockChecksum) : (left o : ℕ) → Option ℕ
  | 0, _ => none
  | left + 1, o =>
    if (cs.blocks[hash.elements.getD o 0 - 1]?).any fun other => block.sha1 = other.sha1 then some o
    else
      let o := hash.nextSlot o
      if left = 0 then none
      else if hash.elements.getD o 0 ≠ 0 then findSlot hash cs block left o
      else some o

/-- A round of the loop of `psync_net_create_hash`. -/
def insertBlock (cs : Checksums) (hash : ChecksumHash) (i : ℕ) : ChecksumHash :=
  match cs.blocks[i]? with
  | none => hash
  | some block =>
    let o := block.adler % hash.elementcnt
    let slot := if hash.elements.getD o 0 ≠ 0 then findSlot hash cs block (maxAdlerColl + 1) o else some o
    match slot with
    | none => hash
    | some o => ⟨hash.elements.set o (i + 1)⟩

/-- `psync_net_create_hash`. -/
def createHash (cs : Checksums) : ChecksumHash :=
  (List.range cs.blockcnt).foldl (insertBlock cs) ⟨List.replicate (hashSize cs.blockcnt) 0⟩

/-! ### Lookups -/

variable {hash : ChecksumHash} {cs : Checksums} {pass : BlockChecksum → Bool} {fuel o idx : ℕ}

theorem probe_pass (h : probe hash cs pass fuel o = some idx) (hne : idx ≠ 0) :
    ∃ block, cs.blocks[idx - 1]? = some block ∧ pass block := by
  induction fuel generalizing o with
  | zero => exact nomatch h
  | succ fuel ih =>
    rw [probe] at h
    split_ifs at h with hzero hpass
    · exact absurd (Option.some_inj.mp h).symm hne
    · rw [← Option.some_inj.mp h]
      obtain ⟨block, hblock, hp⟩ := (Option.any_eq_true _ _).mp hpass
      exact ⟨block, hblock, hp⟩
    · exact ih h

/-- A lookup comes to its end when there is a free slot within its rounds. -/
theorem probe_isSome (ho : o < hash.elementcnt)
    (hfree : ∃ j < fuel, hash.elements.getD ((o + j) % hash.elementcnt) 0 = 0) : (probe hash cs pass fuel o).isSome := by
  induction fuel generalizing o with
  | zero =>
    obtain ⟨j, hj, -⟩ := hfree
    exact absurd hj (Nat.not_lt_zero j)
  | succ fuel ih =>
    rw [probe]
    split_ifs with hzero hpass
    · rfl
    · rfl
    · have hnext : hash.nextSlot o = (o + 1) % hash.elementcnt := by
        unfold ChecksumHash.nextSlot
        split_ifs with hlast
        · have heq : o + 1 = hash.elementcnt := Nat.le_antisymm ho hlast
          rw [heq, Nat.mod_self]
        · rw [Nat.mod_eq_of_lt (by omega)]
      rw [hnext]
      refine ih (Nat.mod_lt _ (by omega)) ?_
      obtain ⟨j, hj, hslot⟩ := hfree
      cases j with
      | zero =>
        rw [Nat.add_zero, Nat.mod_eq_of_lt ho] at hslot
        exact absurd hslot hzero
      | succ j => exact ⟨j, by omega, by rwa [Nat.mod_add_mod, Nat.add_right_comm, Nat.add_assoc]⟩

/-- Some slot is free. -/
def ChecksumHash.HasFree (hash : ChecksumHash) : Prop := 0 ∈ hash.elements

theorem probe_total (h : hash.HasFree) (ho : o < hash.elementcnt) : (probe hash cs pass hash.elementcnt o).isSome := by
  obtain ⟨k, hk, hslot⟩ := List.mem_iff_getElem.mp h
  have hget : hash.elements.getD k 0 = 0 := by rw [List.getD_eq_getElem _ _ hk, hslot]
  refine probe_isSome ho ?_
  have hk' : k < hash.elementcnt := hk
  rcases Nat.le_or_ge o k with hle | hge
  · exact ⟨k - o, by omega, by rwa [Nat.add_sub_cancel' hle, Nat.mod_eq_of_lt hk']⟩
  · by_cases heq : k = o
    · subst heq
      exact ⟨0, by omega, by rwa [Nat.add_zero, Nat.mod_eq_of_lt ho]⟩
    · have hround : o + (k + hash.elementcnt - o) = k + hash.elementcnt := by omega
      exact ⟨k + hash.elementcnt - o, by omega, by rwa [hround, Nat.add_mod_right, Nat.mod_eq_of_lt hk']⟩

/-- The number of slots that are taken. -/
def ChecksumHash.used (hash : ChecksumHash) : ℕ := hash.elements.countP (· ≠ 0)

theorem countP_set_le (list : List ℕ) (o v : ℕ) : (list.set o v).countP (· ≠ 0) ≤ list.countP (· ≠ 0) + 1 := by
  induction list generalizing o with
  | nil => exact Nat.zero_le _
  | cons x list ih =>
    cases o with
    | zero =>
      rw [List.set_cons_zero, List.countP_cons, List.countP_cons]
      split_ifs <;> omega
    | succ o =>
      rw [List.set_cons_succ, List.countP_cons, List.countP_cons]
      have h := ih o
      omega

theorem insertBlock_used (i : ℕ) : (insertBlock cs hash i).used ≤ hash.used + 1 ∧
    (insertBlock cs hash i).elementcnt = hash.elementcnt := by
  unfold insertBlock
  split
  · exact ⟨Nat.le_add_right .., rfl⟩
  · dsimp only
    split
    · exact ⟨Nat.le_add_right .., rfl⟩
    · exact ⟨countP_set_le .., List.length_set⟩

theorem foldl_insertBlock (rounds : List ℕ) : (rounds.foldl (insertBlock cs) hash).used ≤ hash.used + rounds.length ∧
    (rounds.foldl (insertBlock cs) hash).elementcnt = hash.elementcnt := by
  induction rounds generalizing hash with
  | nil => exact ⟨Nat.le_refl _, rfl⟩
  | cons i rounds ih =>
    obtain ⟨hused, hcnt⟩ := @insertBlock_used hash cs i
    obtain ⟨hused', hcnt'⟩ := @ih (insertBlock cs hash i)
    rw [List.foldl_cons, List.length_cons]
    exact ⟨by omega, hcnt'.trans hcnt⟩

theorem hashSize_gt (blockcnt : ℕ) : blockcnt < hashSize blockcnt := by
  have h := (Nat.find_spec (tried_exists ((blockcnt + 1) / 2 * 6 + 1))).1
  unfold hashSize
  omega

theorem hashSize_two : hashSize 2 = 7 :=
  Nat.le_antisymm (Nat.find_min' _ (by decide)) (Nat.find_spec (tried_exists 7)).1

/-- After no more rounds than there are blocks, some slot is free. -/
theorem foldl_hasFree (cs : Checksums) {n : ℕ} (hn : n ≤ cs.blockcnt) :
    ((List.range n).foldl (insertBlock cs) ⟨List.replicate (hashSize cs.blockcnt) 0⟩).HasFree := by
  obtain ⟨hused, hcnt⟩ := @foldl_insertBlock ⟨List.replicate (hashSize cs.blockcnt) 0⟩ cs (List.range n)
  generalize (List.range n).foldl (insertBlock cs) ⟨List.replicate (hashSize cs.blockcnt) 0⟩ = hash at *
  have hlength : hash.elements.length = hashSize cs.blockcnt := hcnt.trans (List.length_replicate ..)
  have hstart : ChecksumHash.used ⟨List.replicate (hashSize cs.blockcnt) 0⟩ = 0 := by
    rw [ChecksumHash.used, List.countP_eq_zero]
    intro x hx
    rw [List.eq_of_mem_replicate hx]
    decide
  rw [hstart, List.length_range, Nat.zero_add] at hused
  have hsize := hashSize_gt cs.blockcnt
  by_contra hfull
  have hall : hash.elements.countP (· ≠ 0) = hash.elements.length := by
    refine List.countP_eq_length.mpr fun x hx => decide_eq_true ?_
    rintro rfl
    exact hfull hx
  change hash.elements.countP (· ≠ 0) ≤ n at hused
  omega

/-- A new table has free slots: every lookup in it comes to its end. -/
theorem createHash_hasFree (cs : Checksums) : (createHash cs).HasFree := foldl_hasFree cs (Nat.le_refl _)

end Pclsync.Delta
