import Pclsync.FsCrypto.Invertible

/-! The encrypted layout is a tiling.

What an encrypted file holds — data sectors, authentication sectors, the master
record — are its `Region`s, and `Occupies` says where the code puts each. All but
the last region of every kind are whole sectors in the post-order places of the
128-ary forest (`Lib/PostOrder.lean`); the last ones follow one another to the
end of the file. `regions_tile` puts the two together: no two regions overlap and
no byte is left over. -/
namespace Pclsync.FsCrypto
open Lib.Machine Lib.PostOrder

/-- What an encrypted file is made of. -/
inductive Region where
  | data (sectorid : ℕ)
  | auth (level id : ℕ)
  | master
deriving DecidableEq, Repr

/-- Where the code puts a region of a file with record `o`: its offset and its
length. A sector authenticates the data sectors whose id it groups. -/
inductive Occupies (o : Offsets) : Region → ℕ → ℕ → Prop where
  | data {s : ℕ} : s * sectorSize < o.plainsize →
      Occupies o (.data s) (dataOffsetBySectorid s) (min sectorSize (o.plainsize - s * sectorSize))
  | auth {s level off size authid : ℕ} : s * sectorSize < o.plainsize → level < o.treelevels →
      getAuthSectorOff s level o = some (off, size, authid) →
      Occupies o (.auth level (s / hashTreeSectors ^ (level + 1))) off size
  | master : o.needmasterauth = true → Occupies o .master o.masterauthoff authSize

/-! ### Authentication sectors -/

theorem authOffsetLoop_eq (fuel id ret : ℕ) (hid : id ≤ fuel) (hlt : id < 2 ^ 26)
    (hret : ret + 4096 * above 128 id < 2 ^ 64) :
    authOffsetLoop fuel id ret = ret + 4096 * above 128 id := by
  induction fuel generalizing id ret with
  | zero =>
    obtain rfl : id = 0 := by omega
    simp [authOffsetLoop, above]
  | succ fuel ih =>
    rw [authOffsetLoop, hashTreeSectors_eq]
    by_cases h : id < 128
    · simp [h, above_of_lt (by decide) h]
    · have habove := above_div (b := 128) (by decide) id
      simp only [sectorSize]
      rw [if_neg h, u32_of_lt (by omega), u64_of_lt (by omega), ih (id / 128) _ (by omega) (by omega)
        (by omega)]
      omega

/-- A complete authentication sector is the node above its group. -/
theorem authOffset_eq {level id m : ℕ} (hm : m < 2 ^ 32) (hlevel : level ≤ 5)
    (hid : 128 ^ (level + 1) * (id + 1) ≤ m) :
    authOffset level id = 4096 * place 128 (level + 1) id := by
  have hplace := (place_lt_iff (b := 128) (by decide) (level + 1) id m).mpr hid
  have hmabove := above_le (b := 128) (by decide) m
  rw [place_zero] at hplace
  have hone : 0 < full 128 (level + 1) * (id + 1) := Nat.mul_pos (full_pos _ _) (by omega)
  have hid' : 128 * (id + 1) ≤ 128 ^ (level + 1) * (id + 1) := by
    apply Nat.mul_le_mul_right
    rw [pow_succ]
    exact Nat.le_mul_of_pos_left _ (Nat.pow_pos (by decide))
  have hproduct : maxLevelSize (level + 1) * (id + 1) = 4096 * (full 128 (level + 1) * (id + 1)) := by
    rw [maxLevelSize_eq (by omega)]
    ring
  simp only [place] at hplace ⊢
  simp only [authOffset, sectorSize]
  rw [u32_of_lt (by omega), hproduct]
  generalize full 128 (level + 1) * (id + 1) = c at *
  rw [u64_of_lt (by omega), sub64_of_le (by omega) (by omega),
    authOffsetLoop_eq id id _ (le_refl id) (by omega) (by omega)]
  omega

theorem authSectorLoop_eq (level a b c : ℕ) :
    authSectorLoop level a b c = (a / 128 ^ level, b / 128 ^ level,
      if level = 0 then c else b / 128 ^ (level - 1) % 128) := by
  induction level generalizing a b c with
  | zero => simp [authSectorLoop]
  | succ level ih =>
    have hdiv : ∀ x, x / 128 / 128 ^ level = x / 128 ^ (level + 1) := by
      intro x
      rw [Nat.div_div_eq_div_mul, ← Nat.pow_succ']
    rw [authSectorLoop, hashTreeSectors_eq, ih, hdiv, hdiv]
    rcases Nat.eq_zero_or_pos level with rfl | hlevel
    · simp
    · obtain ⟨l, rfl⟩ := Nat.exists_eq_add_of_lt hlevel
      simp [Nat.div_div_eq_div_mul, ← Nat.pow_succ']

/-! ### The closed form of a region -/

/-- The regions of a file of `n` bytes. -/
def Region.In (n : ℕ) : Region → Prop
  | .data s => s ≤ lastSector n
  | .auth level id => level < levels (lastSector n) ∧ id ≤ lastSector n / 128 ^ (level + 1)
  | .master => 4096 < n

/-- Offset and length of a region of a file of `n` bytes. -/
def Region.extent (n : ℕ) : Region → ℕ × ℕ
  | .data s => (4096 * place 128 0 s, if s = lastSector n then n - 4096 * lastSector n else 4096)
  | .auth level id =>
    if id = lastSector n / 128 ^ (level + 1) then (tailOff n level, lastLen (lastSector n) level)
    else (4096 * place 128 (level + 1) id, 4096)
  | .master => (tailOff n (levels (lastSector n)), 32)

/-- A data sector is whole but the last of the file. -/
theorem dataLen_eq {n s : ℕ} (hs : s ≤ lastSector n) :
    (if s = lastSector n then n - 4096 * lastSector n else 4096) = min sectorSize (n - s * sectorSize) := by
  split <;> rename_i hlast <;> simp only [sectorSize, lastSector] at hlast hs ⊢ <;> omega

theorem layout_lastauth {n level : ℕ} (hn : n ≠ 0) (hlevel : level < levels (lastSector n))
    (h6 : level < 6) :
    (layout n).lastauthsectoroff[level]?.getD 0 = tailOff n level ∧
      (layout n).lastauthsectorlen[level]?.getD 0 = lastLen (lastSector n) level := by
  have hlt : ¬ levels (lastSector n) < level := by omega
  simp [layout, hn, layoutOffs, layoutLens, h6, hlevel, hlt]

theorem lastSectorid_layout {n : ℕ} (h : Admitted n) (hn : n ≠ 0) :
    getLastSectoridBySize (layout n).plainsize = lastSector n := by
  have := h.lastSector_lt
  rw [layout_plainsize, getLastSectoridBySize, if_neg hn]
  exact u32_of_lt (by simp only [lastSector] at this; simp only [sectorSize]; omega)

/-- Where a data sector's authentication sector of a level stands, and the entry in it. -/
theorem getAuthSectorOff_eq {n s level : ℕ} (h : Admitted n) (hn : n ≠ 0) (hs : s ≤ lastSector n)
    (hlevel : level < levels (lastSector n)) :
    getAuthSectorOff s level (layout n) =
      some ((Region.auth level (s / 128 ^ (level + 1))).extent n |>.1,
        (Region.auth level (s / 128 ^ (level + 1))).extent n |>.2, s / 128 ^ level % 128) := by
  have hL := h.levels_le
  have hm := h.lastSector_lt
  have hdiv : ∀ x, x / 128 / 128 ^ level = x / 128 ^ (level + 1) := by
    intro x
    rw [Nat.div_div_eq_div_mul, ← Nat.pow_succ']
  have haid : (if level = 0 then s % 128 else s / 128 / 128 ^ (level - 1) % 128) = s / 128 ^ level % 128 := by
    rcases Nat.eq_zero_or_pos level with rfl | hpos
    · simp
    · obtain ⟨l, rfl⟩ := Nat.exists_eq_add_of_lt hpos
      simp [Nat.div_div_eq_div_mul, ← Nat.pow_succ']
  obtain ⟨hoff, hlen⟩ := layout_lastauth hn hlevel (by omega)
  rw [getAuthSectorOff, lastSectorid_layout h hn, hashTreeSectors_eq, authSectorLoop_eq]
  simp only [hdiv, haid, Region.extent]
  by_cases hlast : s / 128 ^ (level + 1) = lastSector n / 128 ^ (level + 1)
  · rw [if_pos hlast, if_pos (by simp only [maxHashTreeLevel]; omega), if_pos hlast, hoff, hlen]
  · have hle : s / 128 ^ (level + 1) ≤ lastSector n / 128 ^ (level + 1) := Nat.div_le_div_right hs
    have hend : 128 ^ (level + 1) * (s / 128 ^ (level + 1) + 1) ≤ lastSector n := by
      rw [Nat.mul_comm, ← Nat.le_div_iff_mul_le (Nat.pow_pos (by decide))]
      omega
    rw [if_neg hlast, if_pos (by omega), if_neg hlast, authOffset_eq (by omega) (by omega) hend]
    rfl

/-- The code puts a region where the closed form says, once. -/
theorem occupies_iff {n : ℕ} (h : Admitted n) (hn : n ≠ 0) (r : Region) (off len : ℕ) :
    Occupies (layout n) r off len ↔ r.In n ∧ r.extent n = (off, len) := by
  have hm := h.lastSector_lt
  have hsector : ∀ s, s * sectorSize < (layout n).plainsize ↔ s ≤ lastSector n := by
    intro s
    rw [layout_plainsize]
    simp only [sectorSize, lastSector]
    omega
  have hlayout : (layout n).treelevels = levels (lastSector n) ∧
      (layout n).masterauthoff = tailOff n (levels (lastSector n)) ∧
      ((layout n).needmasterauth = true ↔ 4096 < n) := by
    simp [layout, hn]
  obtain ⟨hlevels, hmaster, hneed⟩ := hlayout
  constructor
  · intro ho
    cases ho with
    | @data s hs =>
      rw [hsector] at hs
      refine ⟨hs, ?_⟩
      rw [Region.extent, dataOffset_eq (by omega), layout_plainsize, dataLen_eq hs]
    | @auth s level off size aid hs hlevel hget =>
      rw [hsector] at hs
      rw [hlevels] at hlevel
      rw [getAuthSectorOff_eq h hn hs hlevel, Option.some.injEq, Prod.mk.injEq, Prod.mk.injEq] at hget
      exact ⟨⟨hlevel, Nat.div_le_div_right hs⟩, Prod.ext hget.1 hget.2.1⟩
    | master hm => exact ⟨hneed.mp hm, by rw [Region.extent, hmaster]; rfl⟩
  · rintro ⟨hin, hext⟩
    cases r with
    | data s =>
      have ho := Occupies.data (o := layout n) ((hsector s).mpr hin)
      rw [Region.extent, Prod.mk.injEq] at hext
      have hlen : min sectorSize ((layout n).plainsize - s * sectorSize) = len := by
        rw [layout_plainsize, ← dataLen_eq hin, hext.2]
      rwa [dataOffset_eq (by simp only [Region.In] at hin; omega), hext.1, hlen] at ho
    | auth level id =>
      obtain ⟨hlevel, hid⟩ := hin
      have hs : id * 128 ^ (level + 1) ≤ lastSector n :=
        (Nat.le_div_iff_mul_le (Nat.pow_pos (by decide))).mp hid
      have hgroup : id * 128 ^ (level + 1) / 128 ^ (level + 1) = id :=
        Nat.mul_div_cancel _ (Nat.pow_pos (by decide))
      have hget := getAuthSectorOff_eq h hn hs hlevel
      rw [hgroup, hext] at hget
      have ho := Occupies.auth ((hsector _).mpr hs) (by rw [hlevels]; exact hlevel) hget
      rwa [hashTreeSectors_eq, hgroup] at ho
    | master =>
      have ho := Occupies.master (hneed.mpr hin)
      rw [Region.extent, Prod.mk.injEq] at hext
      rwa [hmaster, hext.1, show authSize = len from hext.2] at ho

/-! ### The front and the tail of the file -/

/-- Which region of the front a node of the forest is. -/
def nodeRegion : ℕ → ℕ → Region
  | 0, i => .data i
  | k + 1, i => .auth k i

/-- A region of the front is a whole sector at its node's place, before the last sector. -/
def Front (n : ℕ) (r : Region) : Prop :=
  ∃ k i, r = nodeRegion k i ∧ 128 ^ k * (i + 1) ≤ lastSector n

/-- The last regions in the order they stand: the last data sector, the last
authentication sector of every level, the master record. -/
def tailRegion (n : ℕ) : ℕ → Region
  | 0 => .data (lastSector n)
  | j + 1 => if j < levels (lastSector n) then .auth j (lastSector n / 128 ^ (j + 1)) else .master

/-- Where the tail region `j` starts. -/
def tailStart (n : ℕ) : ℕ → ℕ
  | 0 => 4096 * place 128 0 (lastSector n)
  | j + 1 => tailOff n j

/-- How many tail regions there are. -/
def tailCount (n : ℕ) : ℕ := levels (lastSector n) + if 4096 < n then 2 else 1

theorem end_le_iff (k i m : ℕ) : 128 ^ k * (i + 1) ≤ m ↔ i < m / 128 ^ k := by
  rw [Nat.mul_comm, ← Nat.le_div_iff_mul_le (Nat.pow_pos (by decide))]
  exact Nat.succ_le_iff

theorem front_or_tail {n : ℕ} {r : Region} (h : r.In n) :
    Front n r ∨ ∃ j < tailCount n, r = tailRegion n j := by
  cases r with
  | data s =>
    rcases Nat.lt_or_eq_of_le h with hlt | heq
    · exact .inl ⟨0, s, rfl, by simpa using hlt⟩
    · exact .inr ⟨0, by simp only [tailCount]; split <;> omega, by rw [heq, tailRegion]⟩
  | auth level id =>
    obtain ⟨hlevel, hid⟩ := h
    rcases Nat.lt_or_eq_of_le hid with hlt | heq
    · exact .inl ⟨level + 1, id, rfl, (end_le_iff _ _ _).mpr hlt⟩
    · exact .inr ⟨level + 1, by simp only [tailCount]; split <;> omega, by rw [heq, tailRegion, if_pos hlevel]⟩
  | master =>
    simp only [Region.In] at h
    exact .inr ⟨levels (lastSector n) + 1, by simp [tailCount, h], by simp [tailRegion]⟩

theorem front_extent {n k i : ℕ} (h : 128 ^ k * (i + 1) ≤ lastSector n) :
    (nodeRegion k i).extent n = (4096 * place 128 k i, 4096) ∧ (nodeRegion k i).In n := by
  rw [end_le_iff] at h
  cases k with
  | zero =>
    rw [pow_zero, Nat.div_one] at h
    simp only [nodeRegion, Region.extent, Region.In, if_neg (Nat.ne_of_lt h), true_and]
    omega
  | succ k =>
    simp only [nodeRegion, Region.extent, Region.In, if_neg (Nat.ne_of_lt h), true_and]
    refine ⟨?_, by omega⟩
    by_contra hle
    have hpow : 128 ^ levels (lastSector n) ≤ 128 ^ (k + 1) := Nat.pow_le_pow_right (by decide) (by omega)
    have := lt_pow_levels (lastSector n)
    have hzero : lastSector n / 128 ^ (k + 1) = 0 := Nat.div_eq_of_lt (by omega)
    omega

theorem tailStart_one {n : ℕ} (h : Admitted n) :
    tailStart n 0 + (n - 4096 * lastSector n) = tailStart n 1 := by
  have := h.lastSector_lt
  rw [tailStart, tailStart, tailOff_zero h, dataOffset_eq (by omega)]

/-- A tail region ends where the next one starts. -/
theorem tail_extent {n j : ℕ} (h : Admitted n) (hn : n ≠ 0) (hj : j < tailCount n) :
    ∃ len, (tailRegion n j).extent n = (tailStart n j, len) ∧ (tailRegion n j).In n ∧
      (j + 1 < tailCount n → tailStart n j + len = tailStart n (j + 1)) ∧
      (j + 1 = tailCount n → tailStart n j + len = (layout n).filesize) := by
  have hfile := layout_filesize hn
  rw [← tailOff_levels] at hfile
  have hpos := levels_pos (lastSector n)
  cases j with
  | zero =>
    refine ⟨n - 4096 * lastSector n, by simp [tailRegion, Region.extent, tailStart],
      le_refl (lastSector n), fun _ => tailStart_one h, ?_⟩
    intro hlast
    simp only [tailCount] at hlast
    split at hlast <;> omega
  | succ j =>
    by_cases hlevel : j < levels (lastSector n)
    · refine ⟨lastLen (lastSector n) j, by simp [tailRegion, hlevel, Region.extent, tailStart], ?_, ?_, ?_⟩
      · simp [tailRegion, hlevel, Region.In]
      · exact fun _ => (tailOff_succ n j).symm
      · intro hlast
        simp only [tailCount] at hlast
        have hsmall : ¬ n > 4096 := by
          intro hbig
          rw [if_pos hbig] at hlast
          omega
        rw [if_neg hsmall] at hlast hfile
        obtain hj : levels (lastSector n) = j + 1 := by omega
        rw [hfile, hj]
        exact (tailOff_succ n j).symm
    · have hbig : n > 4096 := by
        by_contra hsmall
        simp only [tailCount, if_neg hsmall] at hj
        omega
      simp only [tailCount, if_pos hbig] at hj ⊢
      obtain rfl : j = levels (lastSector n) := by omega
      refine ⟨32, by simp [tailRegion, Region.extent, tailStart], by simpa [tailRegion, Region.In] using hbig,
        fun hlt => absurd hlt (by omega), fun _ => ?_⟩
      rw [hfile, if_pos hbig, tailStart]

theorem tailStart_mono {n : ℕ} (h : Admitted n) : Monotone (tailStart n) := by
  apply monotone_nat_of_le_succ
  intro j
  cases j with
  | zero => rw [← tailStart_one h]; omega
  | succ j => exact tailOff_mono n (Nat.le_succ j)

/-! ### The tiling -/

/-- Two regions of the front, of the tail, or one of each, do not overlap. -/
theorem extent_disjoint {n : ℕ} (h : Admitted n) (hn : n ≠ 0) {r r' : Region} (hr : r.In n)
    (hr' : r'.In n) (hne : r ≠ r') :
    (r.extent n).1 + (r.extent n).2 ≤ (r'.extent n).1 ∨
      (r'.extent n).1 + (r'.extent n).2 ≤ (r.extent n).1 := by
  have hbefore : ∀ {k i j}, 128 ^ k * (i + 1) ≤ lastSector n →
      4096 * place 128 k i + 4096 ≤ tailStart n j := by
    intro k i j hend
    have hlt := (place_lt_iff (b := 128) (by decide) k i _).mpr hend
    have := tailStart_mono h (Nat.zero_le j)
    rw [tailStart] at this
    omega
  have hnext : ∀ {i j}, j < tailCount n → i < j →
      ((tailRegion n i).extent n).1 + ((tailRegion n i).extent n).2 ≤ tailStart n j := by
    intro i j hj hij
    obtain ⟨len, hext, _, hstep, _⟩ := tail_extent h hn (j := i) (by omega)
    rw [hext, hstep (by omega)]
    exact tailStart_mono h hij
  rcases front_or_tail hr with ⟨k, i, rfl, hend⟩ | ⟨j, hj, rfl⟩ <;>
    rcases front_or_tail hr' with ⟨k', i', rfl, hend'⟩ | ⟨j', hj', rfl⟩
  · rw [(front_extent hend).1, (front_extent hend').1]
    have hplace : place 128 k i ≠ place 128 k' i' := by
      intro heq
      obtain ⟨rfl, rfl⟩ := place_injective (by decide) heq
      exact hne rfl
    show 4096 * place 128 k i + 4096 ≤ 4096 * place 128 k' i' ∨
      4096 * place 128 k' i' + 4096 ≤ 4096 * place 128 k i
    omega
  · obtain ⟨len, hext, _⟩ := tail_extent h hn hj'
    rw [(front_extent hend).1, hext]
    exact .inl (hbefore hend)
  · obtain ⟨len, hext, _⟩ := tail_extent h hn hj
    rw [(front_extent hend').1, hext]
    exact .inr (hbefore hend')
  · obtain ⟨len, hext, _⟩ := tail_extent h hn hj
    obtain ⟨len', hext', _⟩ := tail_extent h hn hj'
    have hjj : j ≠ j' := by
      rintro rfl
      exact hne rfl
    rcases Nat.lt_or_gt_of_ne hjj with hlt | hgt
    · left
      have := hnext hj' hlt
      rwa [hext'] 
    · right
      have := hnext hj hgt
      rwa [hext]

/-- The tail regions from `j` on cover the rest of the file. -/
theorem tail_cover {n : ℕ} (h : Admitted n) (hn : n ≠ 0) {j x : ℕ} (hj : j < tailCount n)
    (hlo : tailStart n j ≤ x) (hhi : x < (layout n).filesize) :
    ∃ r : Region, r.In n ∧ (r.extent n).1 ≤ x ∧ x < (r.extent n).1 + (r.extent n).2 := by
  induction hd : tailCount n - j generalizing j with
  | zero => omega
  | succ d ih =>
    obtain ⟨len, hext, hin, hstep, hlast⟩ := tail_extent h hn hj
    by_cases hx : x < tailStart n j + len
    · exact ⟨_, hin, by rw [hext]; exact hlo, by rw [hext]; exact hx⟩
    · rcases Nat.lt_or_ge (j + 1) (tailCount n) with hlt | hge
      · exact ih hlt (by rw [← hstep hlt]; omega) (by omega)
      · rw [hlast (by omega)] at hx
        omega

theorem extent_cover {n : ℕ} (h : Admitted n) (hn : n ≠ 0) (x : ℕ) :
    (∃ r : Region, r.In n ∧ (r.extent n).1 ≤ x ∧ x < (r.extent n).1 + (r.extent n).2) ↔
      x < (layout n).filesize := by
  have hcount : 0 < tailCount n := by
    have := levels_pos (lastSector n)
    simp only [tailCount]
    omega
  have hend : ∀ j < tailCount n, ((tailRegion n j).extent n).1 + ((tailRegion n j).extent n).2 ≤
      (layout n).filesize := by
    intro j hj
    induction hd : tailCount n - j generalizing j with
    | zero => omega
    | succ d ih =>
      obtain ⟨len, hext, _, hstep, hlast⟩ := tail_extent h hn hj
      rcases Nat.lt_or_ge (j + 1) (tailCount n) with hlt | hge
      · obtain ⟨len', hext', _⟩ := tail_extent h hn hlt
        have := ih (j + 1) hlt (by omega)
        rw [hext'] at this
        rw [hext, hstep hlt]
        exact le_trans (Nat.le_add_right _ _) this
      · rw [hext, hlast (by omega)]
  constructor
  · rintro ⟨r, hin, hlo, hhi⟩
    rcases front_or_tail hin with ⟨k, i, rfl, hle⟩ | ⟨j, hj, rfl⟩
    · have hlt := (place_lt_iff (b := 128) (by decide) k i _).mpr hle
      obtain ⟨len, hext, _⟩ := tail_extent h hn hcount
      have hlast := hend 0 hcount
      rw [hext, tailStart] at hlast
      rw [(front_extent hle).1] at hhi
      simp only at hhi hlast
      omega
    · exact lt_of_lt_of_le hhi (hend j hj)
  · intro hx
    rcases Nat.lt_or_ge x (tailStart n 0) with hlt | hge
    · rw [tailStart] at hlt
      obtain ⟨k, i, hle, hplace⟩ := place_surjective (b := 128) (by decide) (lastSector n) (x / 4096) (by omega)
      obtain ⟨hext, hin⟩ := front_extent hle
      refine ⟨_, hin, ?_, ?_⟩ <;> rw [hext, hplace] <;> simp only <;> omega
    · exact tail_cover h hn hcount hge hx

/-- **The encrypted layout is a tiling.** Every sector has one place, every
authentication sector gets it from any sector it authenticates, no two regions
overlap, and together they are the bytes of the file. -/
theorem regions_tile (n : ℕ) (hn : 0 < n) (h : (n + 4095) / 4096 ≤ maxSectorid) :
    ∃ o : Offsets, offsetsByPlainsize n = some o ∧ cryptoSize n = some o.filesize ∧
      (∀ s level, s * sectorSize < n → level < o.treelevels →
        ∃ off size, getAuthSectorOff s level o =
          some (off, size, s / hashTreeSectors ^ level % hashTreeSectors)) ∧
      (∀ r off len off' len', Occupies o r off len → Occupies o r off' len' → off = off' ∧ len = len') ∧
      (∀ r off len r' off' len', Occupies o r off len → Occupies o r' off' len' → r ≠ r' →
        off + len ≤ off' ∨ off' + len' ≤ off) ∧
      ∀ x, (∃ r off len, Occupies o r off len ∧ off ≤ x ∧ x < off + len) ↔ x < o.filesize := by
  have hn0 : n ≠ 0 := by omega
  have hocc := occupies_iff (n := n) h hn0
  refine ⟨layout n, plain_layout h, by rw [cryptoSize, plain_layout h, Option.map_some], ?_, ?_, ?_, ?_⟩
  · intro s level hs hlevel
    have hs' : s ≤ lastSector n := by
      simp only [sectorSize] at hs
      simp only [lastSector]
      omega
    have hlevel' : level < levels (lastSector n) := by simpa [layout, hn0] using hlevel
    exact ⟨_, _, getAuthSectorOff_eq h hn0 hs' hlevel'⟩
  · intro r off len off' len' ho ho'
    rw [hocc] at ho ho'
    have := ho.2.symm.trans ho'.2
    exact ⟨congrArg Prod.fst this, congrArg Prod.snd this⟩
  · intro r off len r' off' len' ho ho' hne
    rw [hocc] at ho ho'
    have := extent_disjoint h hn0 ho.1 ho'.1 hne
    rwa [ho.2, ho'.2] at this
  · intro x
    rw [← extent_cover h hn0]
    constructor
    · rintro ⟨r, off, len, ho, hlo, hhi⟩
      rw [hocc] at ho
      exact ⟨r, ho.1, by rw [ho.2]; exact hlo, by rw [ho.2]; exact hhi⟩
    · rintro ⟨r, hin, hlo, hhi⟩
      exact ⟨r, _, _, (hocc r _ _).mpr ⟨hin, rfl⟩, hlo, hhi⟩

/-- A file of two sectors: 4097 bytes, two authentication entries and the master record. -/
theorem regions_tile_second_sector :
    ∃ o : Offsets, offsetsByPlainsize 4097 = some o ∧ cryptoSize 4097 = some o.filesize ∧
      (∀ s level, s * sectorSize < 4097 → level < o.treelevels →
        ∃ off size, getAuthSectorOff s level o =
          some (off, size, s / hashTreeSectors ^ level % hashTreeSectors)) ∧
      (∀ r off len off' len', Occupies o r off len → Occupies o r off' len' → off = off' ∧ len = len') ∧
      (∀ r off len r' off' len', Occupies o r off len → Occupies o r' off' len' → r ≠ r' →
        off + len ≤ off' ∨ off' + len' ≤ off) ∧
      ∀ x, (∃ r off len, Occupies o r off len ∧ off ≤ x ∧ x < off + len) ↔ x < o.filesize :=
  regions_tile 4097 (by decide) (by decide)

end Pclsync.FsCrypto
