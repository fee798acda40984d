import Pclsync.Lib.Machine

/-! `psync_fs_do_check_write_space` of `pfs.c`: what becomes of a write when the disk of the cache is almost full. -/
namespace Pclsync.OpenFile.Shaper
open Lib.Machine

def pageSize : ℕ := 4096
def minInitialWriteShaper : ℕ := 200 * 1024
def eintr : ℤ := 4

/-- What the function reads. `freed₁` and `freed₂` are what its calls of `psync_pagecache_free_from_read_cache`
return, and `uploadspeed₂` is the upload speed where it is read again. -/
structure Request where
  freespc : ℤ
  minlocal : ℕ
  size : ℕ
  freed₁ : ℕ
  freed₂ : ℕ
  uploadspeed : ℕ
  uploadspeed₂ : ℕ
  minlocal_lt : minlocal < 2 ^ 64
  size_lt : size < 2 ^ 64

inductive Fault where
  | division
  | uninitialised
  | assertion
deriving DecidableEq, Repr

inductive Outcome where
  | returns (ret : ℤ)
  /-- `psync_fs_throttle` is called. -/
  | throttles (mult speed : ℕ)
  | faults (fault : Fault)
deriving DecidableEq, Repr

variable (r : Request)

/-- `speed`, all of it but the first factor on `uint64_t`. -/
def speed (uploadspeed mult : ℕ) : ℕ :=
  let speed := u32 (uploadspeed * 3) / 2
  let speed := if speed < minInitialWriteShaper then minInitialWriteShaper else speed
  u64 (speed * mult) / 1024

/-- From the division on. -/
def Request.divide (freespc : ℕ) : Outcome :=
  let minlocal := r.minlocal / 2
  if minlocal = 0 then .faults .division
  else
    let mult := u64 (u64 (sub64 freespc minlocal * 1023) / minlocal + 1)
    if 1 ≤ mult ∧ mult ≤ 1024 then .throttles mult (speed r.uploadspeed₂ mult) else .faults .assertion

/-- From where the upload speed is looked at. `freed` has no value where none was given to it. -/
def Request.shape (freespc : ℕ) : Option Bool → Outcome
  | none => if r.uploadspeed = 0 then .faults .uninitialised else r.divide freespc
  | some freed => if r.uploadspeed = 0 ∧ (freed = true ∨ r.size ≤ r.freed₂) then .returns 1 else r.divide freespc

/-- There is less than half of the minimum, or it is small. -/
def Request.Low : Prop :=
  u64OfS64 r.freespc ≤ r.minlocal / 2 ∨ r.minlocal ≤ pageSize ∨ u64OfS64 r.freespc ≤ r.size

instance : Decidable r.Low := inferInstanceAs (Decidable (_ ∨ _))

/-- `psync_fs_do_check_write_space`. -/
def Request.checkWriteSpace : Outcome :=
  if r.freespc = -1 then .returns 1
  else if u64 (r.minlocal + r.size) ≤ u64OfS64 r.freespc then .returns 1
  else if r.Low then
    if r.freed₁ < u64 (r.size * 2) then .returns (-eintr) else r.shape (u64 (r.minlocal / 2 + 1)) (some true)
  else if u64OfS64 r.freespc ≤ r.minlocal / 4 * 3 then r.shape (u64OfS64 r.freespc) (some (r.size ≤ r.freed₁))
  else r.shape (u64OfS64 r.freespc) (some false)

/-- No fault, and what is passed on is in range. -/
def Outcome.Safe : Outcome → Prop
  | .returns _ => True
  | .throttles mult speed => 1 ≤ mult ∧ mult ≤ 1024 ∧ 0 < speed
  | .faults _ => False

instance : (o : Outcome) → Decidable o.Safe
  | .returns _ => .isTrue trivial
  | .throttles _ _ => inferInstanceAs (Decidable (_ ∧ _))
  | .faults _ => .isFalse id

/-! ## When it is safe -/

/-- There is less than the minimum and the write. -/
def Request.Short : Prop := r.freespc ≠ -1 ∧ u64OfS64 r.freespc < u64 (r.minlocal + r.size)

/-- What goes wrong. -/
inductive Request.Bad : Prop
  /-- There is no minimum to speak of, and the read cache gave way. -/
  | small (hshort : r.Short) (hsmall : r.minlocal < 2) (hfreed : u64 (r.size * 2) ≤ r.freed₁) (hupload : r.uploadspeed ≠ 0)
  /-- There is so much more than half of the minimum that the multiplier is too large. -/
  | above (hshort : r.Short) (hlow : ¬r.Low)
    (hgoes : r.uploadspeed = 0 → ¬(u64OfS64 r.freespc ≤ r.minlocal / 4 * 3 ∧ r.size ≤ r.freed₁) ∧ r.freed₂ < r.size)
    (habove : 1024 * (r.minlocal / 2) ≤ 1023 * (u64OfS64 r.freespc - r.minlocal / 2) % 2 ^ 64)

theorem u64OfS64_lt (x : ℤ) : u64OfS64 x < 2 ^ 64 := by
  have := Int.emod_nonneg x (show (2 ^ 64 : ℤ) ≠ 0 by decide)
  have := Int.emod_lt_of_pos x (show (0 : ℤ) < 2 ^ 64 by decide)
  unfold u64OfS64
  omega

theorem speed_pos {uploadspeed mult : ℕ} (hlo : 1 ≤ mult) (hhi : mult ≤ 1024) : 0 < speed uploadspeed mult := by
  unfold speed
  simp only
  have hlt : u32 (uploadspeed * 3) < 2 ^ 32 := Nat.mod_lt _ (by decide)
  have hbase : ∀ base, minInitialWriteShaper ≤ base → base < 2 ^ 32 → 0 < u64 (base * mult) / 1024 := by
    intro base hmin hmax
    have hprod : base * mult ≤ 2 ^ 32 * 1024 := Nat.mul_le_mul (Nat.le_of_lt hmax) hhi
    have hge : minInitialWriteShaper * 1 ≤ base * mult := Nat.mul_le_mul hmin hlo
    rw [u64_of_lt (lt_of_le_of_lt hprod (by decide))]
    refine Nat.div_pos (le_trans ?_ hge) (by decide)
    decide
  split
  · exact hbase _ le_rfl (by decide)
  next hbig => exact hbase _ (not_lt.mp hbig) (lt_of_le_of_lt (Nat.div_le_self _ 2) hlt)

/-- The division goes well, but for two cases. -/
theorem divide_safe {freespc : ℕ} (hle : r.minlocal / 2 ≤ freespc) (hlt : freespc < 2 ^ 64) :
    (r.divide freespc).Safe ↔
      r.minlocal / 2 ≠ 0 ∧ 1023 * (freespc - r.minlocal / 2) % 2 ^ 64 < 1024 * (r.minlocal / 2) := by
  unfold Request.divide
  simp only
  by_cases hzero : r.minlocal / 2 = 0
  · rw [if_pos hzero]
    exact ⟨False.elim, fun h => h.1 hzero⟩
  rw [if_neg hzero, sub64_of_le hle hlt, Nat.mul_comm (freespc - r.minlocal / 2)]
  have hpos : 0 < r.minlocal / 2 := Nat.pos_of_ne_zero hzero
  have hproduct : 1023 * (freespc - r.minlocal / 2) % 2 ^ 64 < 2 ^ 64 := Nat.mod_lt _ (by decide)
  rw [show u64 (1023 * (freespc - r.minlocal / 2)) = 1023 * (freespc - r.minlocal / 2) % 2 ^ 64 from rfl]
  generalize 1023 * (freespc - r.minlocal / 2) % 2 ^ 64 = product at hproduct ⊢
  have hquotient : product / (r.minlocal / 2) < 1024 ↔ product < 1024 * (r.minlocal / 2) := Nat.div_lt_iff_lt_mul hpos
  have hle : product / (r.minlocal / 2) ≤ product := Nat.div_le_self _ _
  have hmult : (1 ≤ u64 (product / (r.minlocal / 2) + 1) ∧ u64 (product / (r.minlocal / 2) + 1) ≤ 1024) ↔
      product / (r.minlocal / 2) < 1024 := by
    unfold u64
    generalize product / (r.minlocal / 2) = quotient at hle ⊢
    omega
  by_cases hrange : 1 ≤ u64 (product / (r.minlocal / 2) + 1) ∧ u64 (product / (r.minlocal / 2) + 1) ≤ 1024
  · rw [if_pos hrange]
    exact ⟨fun _ => ⟨hzero, hquotient.mp (hmult.mp hrange)⟩, fun _ => ⟨hrange.1, hrange.2, speed_pos hrange.1 hrange.2⟩⟩
  · rw [if_neg hrange]
    exact ⟨False.elim, fun h => hrange (hmult.mpr (hquotient.mpr h.2))⟩

/-- With what was freed, the multiplier is in range where there is a minimum. -/
theorem divide_freed : (r.divide (u64 (r.minlocal / 2 + 1))).Safe ↔ 2 ≤ r.minlocal := by
  have hlt := r.minlocal_lt
  have hfreespc : u64 (r.minlocal / 2 + 1) = r.minlocal / 2 + 1 := u64_of_lt (by omega)
  rw [hfreespc, divide_safe r (Nat.le_succ _) (by omega)]
  omega

theorem shape_safe {freespc : ℕ} {freed : Bool} : (r.shape freespc (some freed)).Safe ↔
    (r.uploadspeed = 0 ∧ (freed = true ∨ r.size ≤ r.freed₂)) ∨ (r.divide freespc).Safe := by
  unfold Request.shape
  simp only
  split
  next h => exact ⟨fun _ => .inl h, fun _ => trivial⟩
  next h => exact ⟨.inr, fun hsafe => hsafe.resolve_left h⟩

/-- The function is safe exactly where nothing of that is so. -/
theorem checkWriteSpace_safe : r.checkWriteSpace.Safe ↔ ¬r.Bad := by
  have hfreespc := u64OfS64_lt r.freespc
  unfold Request.checkWriteSpace
  by_cases hshort : r.Short
  swap
  · have hsafe : ¬r.Bad := fun hbad => by
      cases hbad with
      | small h => exact hshort h
      | above h => exact hshort h
    unfold Request.Short at hshort
    split
    · exact iff_of_true trivial hsafe
    next herror =>
      rw [if_pos (not_lt.mp fun hlt => hshort ⟨herror, hlt⟩)]
      exact iff_of_true trivial hsafe
  rw [if_neg hshort.1, if_neg (not_le.mpr hshort.2)]
  by_cases hlow : r.Low
  · rw [if_pos hlow]
    by_cases hfreed : r.freed₁ < u64 (r.size * 2)
    · rw [if_pos hfreed]
      refine iff_of_true trivial fun hbad => ?_
      cases hbad with
      | small _ _ h => exact absurd hfreed (not_lt.mpr h)
      | above _ h => exact h hlow
    · rw [if_neg hfreed, shape_safe, divide_freed]
      constructor
      · intro hsafe hbad
        cases hbad with
        | small _ hsmall _ hupload =>
          rcases hsafe with hidle | hlarge
          · exact hupload hidle.1
          · omega
        | above _ h => exact h hlow
      · intro hgood
        by_cases hupload : r.uploadspeed = 0
        · exact .inl ⟨hupload, .inl rfl⟩
        · exact .inr (not_lt.mp fun hsmall => hgood (.small hshort hsmall (not_lt.mp hfreed) hupload))
  · rw [if_neg hlow]
    have hhalf : r.minlocal / 2 ≤ u64OfS64 r.freespc := Nat.le_of_lt (not_le.mp fun h => hlow (.inl h))
    have hlarge : r.minlocal / 2 ≠ 0 := by
      have : ¬r.minlocal ≤ pageSize := fun h => hlow (.inr (.inl h))
      unfold pageSize at this
      omega
    have hdivide := divide_safe r hhalf hfreespc
    have hbranch : ∀ freed : Bool,
        (freed = true ↔ u64OfS64 r.freespc ≤ r.minlocal / 4 * 3 ∧ r.size ≤ r.freed₁) →
        ((r.shape (u64OfS64 r.freespc) (some freed)).Safe ↔ ¬r.Bad) := by
      intro freed hfreed
      rw [shape_safe, hdivide]
      constructor
      · intro hsafe hbad
        cases hbad with
        | small _ hsmall _ _ => omega
        | above _ _ hgoes habove =>
          rcases hsafe with ⟨hidle, hgave⟩ | ⟨_, hbelow⟩
          · obtain ⟨hnot, hless⟩ := hgoes hidle
            exact hgave.elim (fun h => hnot (hfreed.mp h)) fun h => absurd hless (not_lt.mpr h)
          · exact absurd habove (not_le.mpr hbelow)
      · intro hgood
        by_cases hidle : r.uploadspeed = 0 ∧ (freed = true ∨ r.size ≤ r.freed₂)
        · exact .inl hidle
        · refine .inr ⟨hlarge, not_le.mp fun habove => hgood (.above hshort hlow (fun hupload => ?_) habove)⟩
          have hnone := not_or.mp fun h => hidle ⟨hupload, h⟩
          exact ⟨fun h => hnone.1 (hfreed.mpr h), not_le.mp hnone.2⟩
    split
    next hquarter => exact hbranch _ (by rw [decide_eq_true_iff, and_iff_right hquarter])
    next hquarter => exact hbranch _ ⟨nofun, fun h => absurd h.1 hquarter⟩

end Pclsync.OpenFile.Shaper
