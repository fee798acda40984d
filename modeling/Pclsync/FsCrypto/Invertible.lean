import Pclsync.FsCrypto.Layout

/-! The two geometry functions compute one layout.

`plain_layout` runs `psync_fs_crypto_offsets_by_plainsize` level by level from the
bottom, `crypto_layout` runs `psync_fs_crypto_offsets_by_cryptosize` level by
level from the top. Both end with `layout n`, so the geometry of an encrypted
file can be read off its plaintext size or off its own size. -/
namespace Pclsync.FsCrypto
open Lib.Machine Lib.PostOrder

/-! ### Data offsets -/

theorem dataOffsetLoop_eq (fuel m off : ℕ) (hm : m ≤ fuel) (hoff : off + 4096 * above 128 m < 2 ^ 64) :
    dataOffsetLoop fuel m off = off + 4096 * above 128 m := by
  induction fuel generalizing m off with
  | zero =>
    obtain rfl : m = 0 := by omega
    simp [dataOffsetLoop, above]
  | succ fuel ih =>
    rw [dataOffsetLoop, hashTreeSectors_eq]
    by_cases hlt : m < 128
    · simp [hlt, above_of_lt (by decide) hlt]
    · have habove := above_div (b := 128) (by decide) m
      simp only [sectorSize]
      rw [if_neg hlt, u64_of_lt (by omega), ih (m / 128) _ (by omega) (by omega)]
      omega

/-- A sector stands after the sectors before it and the authentication sectors
that are complete by then. -/
theorem dataOffset_eq {m : ℕ} (hm : m < 2 ^ 32) :
    dataOffsetBySectorid m = 4096 * place 128 0 m := by
  have habove := above_le (b := 128) (by decide) m
  simp only [dataOffsetBySectorid, sectorSize]
  rw [u64_of_lt (by omega), dataOffsetLoop_eq m m _ (le_refl m) (by omega), place_zero]
  omega

/-- The end of the last data sector is where the last authentication sectors start. -/
theorem tailOff_zero {n : ℕ} (h : Admitted n) :
    tailOff n 0 = dataOffsetBySectorid (lastSector n) + (n - 4096 * lastSector n) := by
  have := h.lastSector_lt
  rw [dataOffset_eq (by omega), place_zero]
  simp only [tailOff, Finset.range_zero, Finset.sum_empty, lastSector]
  omega

theorem tailOff_lt {n : ℕ} (h : Admitted n) (hn : n ≠ 0) {k : ℕ} (hk : k ≤ levels (lastSector n)) :
    tailOff n k < 2 ^ 48 := by
  have hmono := tailOff_mono n hk
  have := h.forestSize_lt hn
  rw [tailOff_levels] at hmono
  omega

/-! ### The arrays -/

theorem layoutOffs_set_hi (n : ℕ) {lo hi : ℕ} (hle : lo ≤ hi) :
    (layoutOffs n lo hi).setIfInBounds hi (tailOff n hi) = layoutOffs n lo (hi + 1) := by
  ext i hi'
  simp only [layoutOffs, Vector.getElem_setIfInBounds, Vector.getElem_ofFn]
  by_cases h : hi = i
  · subst h
    simp [hle]
  · have : i < hi ↔ i < hi + 1 := by omega
    simp [h, this]

theorem layoutLens_set_hi (n : ℕ) {lo hi : ℕ} (hle : lo ≤ hi) :
    (layoutLens n lo hi).setIfInBounds hi
      (if hi < levels (lastSector n) then lastLen (lastSector n) hi else 32) =
      layoutLens n lo (hi + 1) := by
  ext i hi'
  simp only [layoutLens, Vector.getElem_setIfInBounds, Vector.getElem_ofFn]
  by_cases h : hi = i
  · subst h
    simp [hle]
  · have : i < hi ↔ i < hi + 1 := by omega
    simp [h, this]

theorem layoutOffs_set_lo (n : ℕ) {lo hi : ℕ} (hlt : lo < hi) :
    (layoutOffs n (lo + 1) hi).setIfInBounds lo (tailOff n lo) = layoutOffs n lo hi := by
  ext i hi'
  simp only [layoutOffs, Vector.getElem_setIfInBounds, Vector.getElem_ofFn]
  by_cases h : lo = i
  · subst h
    simp [hlt]
  · have : lo + 1 ≤ i ↔ lo ≤ i := by omega
    simp [h, this]

theorem layoutLens_set_lo (n : ℕ) {lo hi : ℕ} (hlt : lo < hi) :
    (layoutLens n (lo + 1) hi).setIfInBounds lo
      (if lo < levels (lastSector n) then lastLen (lastSector n) lo else 32) =
      layoutLens n lo hi := by
  ext i hi'
  simp only [layoutLens, Vector.getElem_setIfInBounds, Vector.getElem_ofFn]
  by_cases h : lo = i
  · subst h
    simp [hlt]
  · have : lo + 1 ≤ i ↔ lo ≤ i := by omega
    simp [h, this]

theorem layoutOffs_nil (n k : ℕ) : layoutOffs n k k = Vector.replicate _ 0 := by
  ext i hi
  have : ¬ (k ≤ i ∧ i < k) := by omega
  simp [layoutOffs, this]

theorem layoutLens_nil (n k : ℕ) : layoutLens n k k = Vector.replicate _ 0 := by
  ext i hi
  have : ¬ (k ≤ i ∧ i < k) := by omega
  simp [layoutLens, this]

/-! ### Bottom-up -/

/-- From level `k` on the loop fills the levels that are left. -/
theorem plainLoop_eq {n : ℕ} (h : Admitted n) (hn : n ≠ 0) (fuel k : ℕ) (o : Offsets)
    (hk : k < levels (lastSector n)) (hfuel : levels (lastSector n) ≤ k + fuel)
    (hoffs : o.lastauthsectoroff = layoutOffs n 0 k) (hlens : o.lastauthsectorlen = layoutLens n 0 k) :
    plainLoop fuel (entries (lastSector n) k) (tailOff n k) k o =
      some (tailOff n (levels (lastSector n)), levels (lastSector n),
        { o with
          lastauthsectoroff := layoutOffs n 0 (levels (lastSector n))
          lastauthsectorlen := layoutLens n 0 (levels (lastSector n)) }) := by
  have hL := h.levels_le
  induction fuel generalizing k o with
  | zero => omega
  | succ fuel ih =>
    have hentries : entries (lastSector n) k < 2 ^ 33 := by
      have := h.lastSector_lt
      have := Nat.div_le_self (lastSector n) (128 ^ k)
      simp only [entries]
      omega
    have hsize : u64 (entries (lastSector n) k + hashTreeSectors - 1) / hashTreeSectors =
        entries (lastSector n) (k + 1) := by
      rw [hashTreeSectors_eq, u64_of_lt (by omega), ← entries_succ]
      rfl
    have hoff : u64 (tailOff n k + lastLen (lastSector n) k) = tailOff n (k + 1) := by
      have := tailOff_lt h hn (k := k + 1) hk
      rw [← tailOff_succ, u64_of_lt (by omega)]
    have hlen : u16 (lastLen (lastSector n) k) =
        if k < levels (lastSector n) then lastLen (lastSector n) k else 32 := by
      have := lastLen_le (lastSector n) k
      rw [if_pos hk, u16_of_lt (by omega)]
    have hset : o.setLast k (tailOff n k) (lastLen (lastSector n) k) = some
        { o with lastauthsectoroff := layoutOffs n 0 (k + 1), lastauthsectorlen := layoutLens n 0 (k + 1) } := by
      rw [Offsets.setLast, if_pos (by simp only [maxHashTreeLevel]; omega), hoffs, hlens, hlen,
        layoutOffs_set_hi n (Nat.zero_le k), layoutLens_set_hi n (Nat.zero_le k)]
    rw [plainLoop]
    simp only [lastLen_eq, hsize, hoff, hset, Option.bind_some]
    by_cases hmore : k + 1 < levels (lastSector n)
    · rw [if_pos ((one_lt_entries (by omega)).mpr hmore), ih _ _ hmore (by omega) rfl rfl]
    · have hlast : levels (lastSector n) = k + 1 := by omega
      rw [if_neg (by rw [gt_iff_lt, one_lt_entries (by omega)]; exact hmore), hlast]

/-- The plaintext size gives the layout. -/
theorem plain_layout {n : ℕ} (h : Admitted n) : offsetsByPlainsize n = some (layout n) := by
  by_cases hn : n = 0
  · subst hn
    rfl
  have hlt := h.lt
  have hm := h.lastSector_lt
  have hlast : (if n % sectorSize = 0 then (u32 (u32 (n / sectorSize) + 2 ^ 32 - 1), sectorSize)
      else (u32 (n / sectorSize), n % sectorSize)) = (lastSector n, n - 4096 * lastSector n) := by
    simp only [Admitted, maxSectorid] at h
    simp only [lastSector] at hm
    split <;> rename_i hz <;> simp only [sectorSize, lastSector, u32, Prod.mk.injEq] at hz ⊢ <;> omega
  have hoff : u64 (dataOffsetBySectorid (lastSector n) + (n - 4096 * lastSector n)) = tailOff n 0 := by
    have := tailOff_lt h hn (Nat.zero_le _)
    rw [← tailOff_zero h, u64_of_lt (by omega)]
  have hsize : u64 (n + sectorSize - 1) / sectorSize = entries (lastSector n) 0 := by
    simp only [sectorSize, entries, lastSector, pow_zero, Nat.div_one]
    rw [u64_of_lt (by omega)]
    omega
  have hL := h.levels_le
  have hset : ∀ o : Offsets, o.lastauthsectoroff = layoutOffs n 0 (levels (lastSector n)) →
      o.lastauthsectorlen = layoutLens n 0 (levels (lastSector n)) →
      o.setLast (levels (lastSector n)) (tailOff n (levels (lastSector n))) authSize = some
        { o with
          lastauthsectoroff := layoutOffs n 0 (levels (lastSector n) + 1)
          lastauthsectorlen := layoutLens n 0 (levels (lastSector n) + 1) } := by
    intro o hoffs hlens
    have h32 : u16 authSize = if levels (lastSector n) < levels (lastSector n) then
        lastLen (lastSector n) (levels (lastSector n)) else 32 := by
      rw [if_neg (lt_irrefl _)]
      rfl
    rw [Offsets.setLast, if_pos (by simp only [maxHashTreeLevel]; omega), hoffs, hlens, h32,
      layoutOffs_set_hi n (Nat.zero_le _), layoutLens_set_hi n (Nat.zero_le _)]
  rw [offsetsByPlainsize]
  simp only [if_neg hn, hlast, hoff, hsize]
  rw [plainLoop_eq h hn _ 0 _ (levels_pos _) (by simp only [maxHashTreeLevel]; omega)
    (layoutOffs_nil n 0).symm (layoutLens_nil n 0).symm, Option.bind_some, hset _ rfl rfl]
  simp only [Option.map_some, layout, if_neg hn, u8_of_lt (by omega : levels (lastSector n) < 2 ^ 8)]
  rfl

/-! ### Top-down -/

theorem maxLevelSize_lt {k : ℕ} (hk : k ≤ 5) : maxLevelSize k < 2 ^ 48 := by
  interval_cases k <;> decide

/-- The `for` stops at the number of levels. -/
theorem findLevel_eq {n : ℕ} (h : Admitted n) (hn : n ≠ 0) (fuel level : ℕ) (h1 : 1 ≤ level)
    (hlevel : level ≤ levels (lastSector n)) (hfuel : levels (lastSector n) < level + fuel) :
    findLevel fuel (forestSize n (levels (lastSector n))) level = some (levels (lastSector n)) := by
  have hL := h.levels_le
  induction fuel generalizing level with
  | zero => omega
  | succ fuel ih =>
    rw [findLevel]
    rcases Nat.lt_or_ge level (levels (lastSector n)) with hlt | hge
    · obtain ⟨hlo, _⟩ := forestSize_bounds hn (k := level) (by omega)
      have hone := (one_lt_entries (m := lastSector n) (by omega : level ≠ 0)).mpr hlt
      have hmul : 1 * maxLevelSize level ≤ (entries (lastSector n) level - 1) * maxLevelSize level :=
        Nat.mul_le_mul_right _ (by omega)
      have hmono := forestSize_mono n hlevel
      rw [if_neg (by omega), ih (level + 1) (by omega) hlt (by omega)]
    · obtain rfl : level = levels (lastSector n) := by omega
      have hhi := (forestSize_bounds hn (k := levels (lastSector n)) (by omega)).2
      rw [entries_levels, Nat.one_mul] at hhi
      rw [if_pos hhi]

/-- Dividing what is left by a complete tree with its entry counts the level's entries. -/
theorem peel_count {n k : ℕ} (hn : n ≠ 0) (hk : k ≤ 5) :
    (forestSize n (k + 1) + maxLevelSize k + 31) / (maxLevelSize k + 32) = entries (lastSector n) k := by
  obtain ⟨hlo, hhi⟩ := forestSize_bounds hn (k := k) (by omega)
  have hpos : 1 ≤ entries (lastSector n) k := Nat.succ_pos _
  rw [forestSize_succ]
  generalize entries (lastSector n) k = c at *
  rw [Nat.div_eq_iff (by omega)]
  have hc : c * (maxLevelSize k + 32) = c * maxLevelSize k + 32 * c := by ring
  have hc1 : (c - 1) * maxLevelSize k + maxLevelSize k = c * maxLevelSize k := by
    rw [← Nat.succ_mul, Nat.succ_eq_add_one, Nat.sub_add_cancel hpos]
  rw [hc]
  omega

/-- The loop peels the entries of the levels below `k` off. -/
theorem cryptoLoop_eq {n : ℕ} (h : Admitted n) (hn : n ≠ 0) (k : ℕ) (o : Offsets)
    (hk : k ≤ levels (lastSector n))
    (hoffs : o.lastauthsectoroff = layoutOffs n k (levels (lastSector n) + 1))
    (hlens : o.lastauthsectorlen = layoutLens n k (levels (lastSector n) + 1)) :
    cryptoLoop k (forestSize n k) (tailOff n k) o = some (n,
      { o with
        lastauthsectoroff := layoutOffs n 0 (levels (lastSector n) + 1)
        lastauthsectorlen := layoutLens n 0 (levels (lastSector n) + 1) }) := by
  have hL := h.levels_le
  induction k generalizing o with
  | zero => simp [cryptoLoop, forestSize, ← hoffs, ← hlens]
  | succ k ih =>
    have hmax := maxLevelSize_lt (k := k) (by omega)
    have hforest : forestSize n (k + 1) < 2 ^ 48 := by
      have := forestSize_mono n hk
      have := h.forestSize_lt hn
      omega
    have hsucc := forestSize_succ n k
    have hcnt : u64 (forestSize n (k + 1) + maxLevelSize k + authSize - 1) /
        (maxLevelSize k + authSize) = entries (lastSector n) k := by
      rw [show authSize = 32 from rfl, u64_of_lt (by omega), ← peel_count hn (by omega : k ≤ 5)]
      rfl
    have hsize : sub64 (forestSize n (k + 1)) (u64 (entries (lastSector n) k * authSize)) = forestSize n k := by
      rw [show authSize = 32 from rfl, u64_of_lt (by omega), sub64_of_le (by omega) (by omega)]
      omega
    have htail := tailOff_succ n k
    have hoff : sub64 (tailOff n (k + 1)) (lastLen (lastSector n) k) = tailOff n k := by
      have := tailOff_lt h hn hk
      rw [sub64_of_le (by omega) (by omega)]
      omega
    have hlen : u16 (lastLen (lastSector n) k) =
        if k < levels (lastSector n) then lastLen (lastSector n) k else 32 := by
      have := lastLen_le (lastSector n) k
      rw [if_pos (by omega), u16_of_lt (by omega)]
    have hset : o.setLast k (tailOff n k) (lastLen (lastSector n) k) = some
        { o with
          lastauthsectoroff := layoutOffs n k (levels (lastSector n) + 1)
          lastauthsectorlen := layoutLens n k (levels (lastSector n) + 1) } := by
      rw [Offsets.setLast, if_pos (by simp only [maxHashTreeLevel]; omega), hoffs, hlens, hlen,
        layoutOffs_set_lo n (by omega), layoutLens_set_lo n (by omega)]
    rw [cryptoLoop]
    simp only [hcnt, hsize, lastLen_eq, hoff, hset, Option.bind_some]
    rw [ih _ (by omega) rfl rfl]

theorem layout_filesize {n : ℕ} (hn : n ≠ 0) :
    (layout n).filesize = forestSize n (levels (lastSector n)) + if n > 4096 then 32 else 0 := by
  rw [layout, if_neg hn, Offsets.filesize, ← tailOff_levels]
  simp [authSize]

/-- The size of the encrypted file gives the layout back. -/
theorem crypto_layout {n : ℕ} (h : Admitted n) : offsetsByCryptosize (layout n).filesize = some (layout n) := by
  by_cases hn : n = 0
  · subst hn
    rfl
  have hL := h.levels_le
  have hpos : n + 32 ≤ forestSize n (levels (lastSector n)) := by
    have hfirst : forestSize n 1 = n + 32 * (lastSector n + 1) := by simp [forestSize, entries]
    have := forestSize_mono n (Nat.succ_le_of_lt (levels_pos (lastSector n)))
    rw [Nat.succ_eq_add_one, Nat.zero_add, hfirst] at this
    omega
  have hsmall : n ≤ 4096 → forestSize n (levels (lastSector n)) = n + 32 := by
    intro hle
    have hm : lastSector n = 0 := by
      simp only [lastSector]
      omega
    rw [hm]
    simp [forestSize, levels, hm, entries]
  rw [layout_filesize hn]
  generalize hF : forestSize n (levels (lastSector n)) = F at *
  have hmaster : (F + (if n > 4096 then 32 else 0) > sectorSize + authSize) ↔ n > 4096 := by
    simp only [sectorSize, authSize]
    split <;> omega
  have hstrip : (if decide (F + (if n > 4096 then 32 else 0) > sectorSize + authSize) = true
      then F + (if n > 4096 then 32 else 0) - authSize else F + (if n > 4096 then 32 else 0)) = F := by
    simp only [decide_eq_true_eq, hmaster]
    split <;> simp [authSize]
  have hset : ∀ o : Offsets,
      o.lastauthsectoroff = layoutOffs n (levels (lastSector n)) (levels (lastSector n)) →
      o.lastauthsectorlen = layoutLens n (levels (lastSector n)) (levels (lastSector n)) →
      o.setLast (levels (lastSector n)) F authSize = some
        { o with
          lastauthsectoroff := layoutOffs n (levels (lastSector n)) (levels (lastSector n) + 1)
          lastauthsectorlen := layoutLens n (levels (lastSector n)) (levels (lastSector n) + 1) } := by
    intro o hoffs hlens
    have h32 : u16 authSize = if levels (lastSector n) < levels (lastSector n) then
        lastLen (lastSector n) (levels (lastSector n)) else 32 := by
      rw [if_neg (lt_irrefl _)]
      rfl
    rw [Offsets.setLast, if_pos (by simp only [maxHashTreeLevel]; omega), hoffs, hlens, h32, ← hF,
      ← tailOff_levels, layoutOffs_set_hi n (le_refl _), layoutLens_set_hi n (le_refl _)]
  rw [offsetsByCryptosize, if_neg (by simp only [authSize]; omega)]
  simp only [hstrip]
  rw [← hF, findLevel_eq h hn _ 1 (le_refl 1) (levels_pos _) (by simp only [maxHashTreeLevel]; omega),
    Option.bind_some, hF, hset _ (layoutOffs_nil n _).symm (layoutLens_nil n _).symm, Option.bind_some]
  have hloop := cryptoLoop_eq h hn (levels (lastSector n))
  rw [hF, tailOff_levels, hF] at hloop
  rw [hloop _ (le_refl _) rfl rfl]
  simp only [Option.map_some, layout, if_neg hn, tailOff_levels, hF, hmaster, Offsets.zero]

theorem layout_treelevels {n : ℕ} (h : Admitted n) : (layout n).treelevels < maxHashTreeLevel := by
  have := h.levels_le
  rw [layout]
  split
  · decide
  · show levels (lastSector n) < 6
    omega

theorem layout_plainsize (n : ℕ) : (layout n).plainsize = n := by
  rw [layout]
  split
  · rename_i hn
    exact hn.symm
  · rfl

/-- **Geometry is invertible**: the record computed from the size of the encrypted
file is the one computed from the plaintext size, no array index leaves its
bounds, and the plaintext size comes back. -/
theorem offsets_invertible (n : ℕ) (h : (n + 4095) / 4096 ≤ maxSectorid) :
    ∃ (o : Offsets) (c : ℕ), offsetsByPlainsize n = some o ∧ cryptoSize n = some c ∧
      offsetsByCryptosize c = some o ∧ plainSize c = some n ∧ o.treelevels < maxHashTreeLevel := by
  refine ⟨layout n, (layout n).filesize, plain_layout h, ?_, crypto_layout h, ?_, layout_treelevels h⟩
  · rw [cryptoSize, plain_layout h, Option.map_some]
  · rw [plainSize, crypto_layout h, Option.map_some, layout_plainsize]

/-- A file of one sector and one byte. -/
theorem offsets_invertible_second_sector :
    ∃ (o : Offsets) (c : ℕ), offsetsByPlainsize 4097 = some o ∧ cryptoSize 4097 = some c ∧
      offsetsByCryptosize c = some o ∧ plainSize c = some 4097 ∧ o.treelevels < maxHashTreeLevel :=
  offsets_invertible 4097 (by decide)

end Pclsync.FsCrypto

/-! Where the two placement functions agree.

Both sum the quotients of a sector's id by the powers of 128, one in 32 bits and one in 64. The narrow sum is the wide one
until it reaches `2 ^ 32`, which it does for the last 33554430 of the admitted ids. -/
namespace Pclsync.FsCrypto
open Lib.Machine Lib.PostOrder

theorem dataSectoridLoop_eq (fuel m sect : ℕ) (hm : m ≤ fuel) (hsect : sect < 2 ^ 32) :
    dataSectoridLoop fuel m sect = u32 (sect + above 128 m) := by
  induction fuel generalizing m sect with
  | zero =>
    obtain rfl : m = 0 := by omega
    rw [dataSectoridLoop, above_of_lt (by decide) (by decide)]
    exact (u32_of_lt hsect).symm
  | succ fuel ih =>
    rw [dataSectoridLoop, hashTreeSectors_eq]
    by_cases hlt : m < 128
    · rw [if_pos hlt, above_of_lt (by decide) hlt]
      exact (u32_of_lt hsect).symm
    · have habove := above_div (b := 128) (by decide) m
      have hsum : u32 (sect + m / 128) < 2 ^ 32 := Nat.mod_lt _ (by decide)
      rw [if_neg hlt, ih (m / 128) _ (by omega) hsum, habove]
      simp only [u32]
      omega

/-- The narrow sum is the wide one modulo `2 ^ 32`. -/
theorem dataSectorid_eq {m : ℕ} (hm : m < 2 ^ 32) : dataSectoridBySectorid m = u32 (place 128 0 m) := by
  rw [dataSectoridBySectorid, dataSectoridLoop_eq m m m (le_refl m) hm, place_zero]

/-- The first id whose place does not fit 32 bits. -/
def firstWrapping : ℕ := 0xfe000001

theorem place_lt_wrap_iff {m : ℕ} (hm : m < 2 ^ 32) : place 128 0 m < 2 ^ 32 ↔ m < firstWrapping := by
  have hlevels : m < 128 ^ (4 + 1) := by omega
  rw [place_zero, above_eq_sum (by decide) hlevels]
  simp only [Finset.sum_range_succ, Finset.sum_range_zero, firstWrapping]
  omega

/-- An admitted sector has one place exactly if it comes before the first id that wraps. -/
theorem places_agree_iff (sectorid : ℕ) (h : sectorid ≤ maxSectorid) :
    u64 (dataSectoridBySectorid sectorid * sectorSize) = dataOffsetBySectorid sectorid ↔ sectorid < firstWrapping := by
  have hid : sectorid < 2 ^ 32 := lt_of_le_of_lt h (by decide)
  rw [dataOffset_eq hid, dataSectorid_eq hid, ← place_lt_wrap_iff hid, Nat.mul_comm 4096]
  have hnarrow : u32 (place 128 0 sectorid) < 2 ^ 32 := Nat.mod_lt _ (by decide)
  rw [sectorSize, u64_of_lt (by omega), Nat.mul_left_inj (by decide)]
  constructor
  · intro heq
    rwa [heq] at hnarrow
  · exact u32_of_lt

theorem places_agree_first : u64 (dataSectoridBySectorid 0xfe000000 * sectorSize) = dataOffsetBySectorid 0xfe000000 :=
  (places_agree_iff 0xfe000000 (by decide)).mpr (by decide)

/-- The last admitted sector is placed near the start of the file by one of them. -/
theorem last_sector_wraps : ¬∀ sectorid ≤ maxSectorid, u64 (dataSectoridBySectorid sectorid * sectorSize) = dataOffsetBySectorid sectorid := by
  have hid : maxSectorid < 2 ^ 32 := by decide
  have hplace : place 128 0 maxSectorid = 4328785930 := by
    rw [place_zero, above_eq_sum (L := 4) (by decide) (by decide)]
    decide
  have hnarrow : u64 (dataSectoridBySectorid maxSectorid * sectorSize) = 138521124864 := by
    rw [dataSectorid_eq hid, hplace]
    decide
  have hwide : dataOffsetBySectorid maxSectorid = 17730707169280 := by
    rw [dataOffset_eq hid, hplace]
  intro hagree
  have heq := hagree maxSectorid (le_refl _)
  rw [hnarrow, hwide] at heq
  exact absurd heq (by decide)

end Pclsync.FsCrypto
