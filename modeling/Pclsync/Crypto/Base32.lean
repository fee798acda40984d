import Pclsync.Lib.BitStrings
import Pclsync.Lib.Files
import Pclsync.Lib.Machine

/-! Base32, as encoded names are spelt: the bits of the bytes, five at a time.

`buff` holds the bits that were read last, of which the lowest `bits` are still to be
written. -/
namespace Pclsync.Crypto
open Lib.Files Lib.Machine Lib.BitStrings

/-- `ABCDEFGHIJKLMNOPQRSTUVWXYZ234567`. -/
def base32Table : Bytes := (List.range 26).map (fun i => UInt8.ofNat (65 + i)) ++ (List.range 6).map fun i => UInt8.ofNat (50 + i)

def base32Digit (buff bits : ℕ) : UInt8 := get base32Table (0x1f &&& (buff >>> bits))

/-- The first loop of `psync_base32_encode`: what it writes, `bits` and `buff`. -/
def base32EncodeLoop : Bytes → ℕ → ℕ → Bytes × ℕ × ℕ
  | [], bits, buff => ([], bits, buff)
  | b :: str, bits, buff =>
    if bits < 5 then
      let buff := u32 (buff <<< 8 ||| b.toNat)
      let bits := bits + 8 - 5
      let (p, rest) := base32EncodeLoop str bits buff
      (base32Digit buff bits :: p, rest)
    else
      let bits := bits - 5
      let (p, rest) := base32EncodeLoop (b :: str) bits buff
      (base32Digit buff bits :: p, rest)
termination_by str bits => (str.length, bits)

/-- The second loop. -/
def base32EncodeRest (bits buff : ℕ) : Bytes :=
  if bits = 0 then []
  else if bits < 5 then [base32Digit (u32 (buff <<< (5 - bits))) 0]
  else base32Digit buff (bits - 5) :: base32EncodeRest (bits - 5) buff

/-- `psync_base32_encode`. -/
def base32Encode (str : Bytes) : Bytes :=
  let (p, bits, buff) := base32EncodeLoop str 0 0
  p ++ base32EncodeRest bits buff

/-- The value of a character. -/
def base32Value (ch : UInt8) : Option ℕ :=
  if 65 ≤ ch.toNat ∧ ch.toNat ≤ 90 then some ((ch.toNat &&& 0x1f) - 1)
  else if 50 ≤ ch.toNat ∧ ch.toNat ≤ 55 then some (ch.toNat - (50 - 26))
  else none

/-- The loop of `psync_base32_decode`. -/
def base32DecodeLoop : Bytes → ℕ → ℕ → Option Bytes
  | [], _, _ => some []
  | ch :: str, bits, buff =>
    (base32Value ch).bind fun v =>
      let buff := u32 (u32 (buff <<< 5) + v)
      let bits := bits + 5
      if bits ≥ 8 then
        let bits := bits - 8
        (base32DecodeLoop str bits buff).map (UInt8.ofNat (buff >>> bits) :: ·)
      else base32DecodeLoop str bits buff

/-- `psync_base32_decode`. -/
def base32Decode (str : Bytes) : Option Bytes := base32DecodeLoop str 0 0

/-! ### What the loops write -/

/-- The bits of some bytes. -/
def byteBits (str : Bytes) : List Bool := str.flatMap fun b => bitsOf 8 b.toNat

/-- The values of the characters of a base32 text. -/
def Spells (p : Bytes) (values : List ℕ) : Prop := p = values.map (fun v => get base32Table v) ∧ ∀ v ∈ values, v < 32

variable {bits buff : ℕ} {str p q : Bytes} {vs ws : List ℕ}

theorem Spells.append (hp : Spells p vs) (hq : Spells q ws) : Spells (p ++ q) (vs ++ ws) := by
  obtain ⟨rfl, hv⟩ := hp
  obtain ⟨rfl, hw⟩ := hq
  refine ⟨List.map_append.symm, fun v hmem => ?_⟩
  rcases List.mem_append.mp hmem with h | h
  · exact hv v h
  · exact hw v h

theorem spells_nil : Spells [] [] := ⟨rfl, nofun⟩

theorem digit_lt (buff bits : ℕ) : 0x1f &&& (buff >>> bits) < 32 := Nat.lt_succ_of_le Nat.and_le_left

theorem Spells.cons (hp : Spells p vs) : Spells (base32Digit buff bits :: p) ((0x1f &&& (buff >>> bits)) :: vs) := by
  obtain ⟨rfl, hv⟩ := hp
  exact ⟨rfl, List.forall_mem_cons.mpr ⟨digit_lt .., hv⟩⟩

/-- A digit is the five highest of the bits. -/
theorem bitsOf_digit (buff bits : ℕ) : bitsOf 5 (0x1f &&& (buff >>> bits)) ++ bitsOf bits buff = bitsOf (5 + bits) buff := by
  have hmask : (0x1f : ℕ) = 2 ^ 5 - 1 := rfl
  rw [Nat.and_comm, hmask, Nat.and_two_pow_sub_one_eq_mod, bitsOf_mod (Nat.le_refl _), bitsOf_add]

/-- One more byte below the bits. -/
theorem bitsOf_load (buff : ℕ) (b : UInt8) (hbits : bits ≤ 24) :
    bitsOf (bits + 8) (u32 (buff <<< 8 ||| b.toNat)) = bitsOf bits buff ++ bitsOf 8 b.toNat := by
  rw [u32, bitsOf_mod (by omega), bitsOf_shiftLeft_or b.toNat_lt]

theorem encodeLoop_spec (str : Bytes) (bits buff : ℕ) (hbits : bits < 13) :
    ∃ p vs bits' buff', base32EncodeLoop str bits buff = (p, bits', buff') ∧ Spells p vs ∧ bits' < 13 ∧
      vs.flatMap (bitsOf 5) ++ bitsOf bits' buff' = bitsOf bits buff ++ byteBits str := by
  fun_induction base32EncodeLoop str bits buff with
  | case1 bits buff => exact ⟨[], [], bits, buff, rfl, spells_nil, hbits, by simp [byteBits]⟩
  | case2 b str bits buff hlt buff₁ bits₁ p rest hrest ih =>
    obtain ⟨p', vs, bits', buff', hp, hspells, hbits', hsame⟩ := ih (by omega)
    obtain ⟨rfl, rfl⟩ := Prod.mk.inj (hrest.symm.trans hp)
    refine ⟨_, _, bits', buff', rfl, hspells.cons, hbits', ?_⟩
    have hload := bitsOf_load buff b (Nat.le_of_lt (Nat.lt_of_lt_of_le hlt (by decide)))
    have hcount : 5 + bits₁ = bits + 8 := by omega
    rw [List.flatMap_cons, List.append_assoc, hsame, ← List.append_assoc, bitsOf_digit, hcount, hload, List.append_assoc,
      byteBits, byteBits, List.flatMap_cons]
  | case3 b str bits buff hge bits₁ p rest hrest ih =>
    obtain ⟨p', vs, bits', buff', hp, hspells, hbits', hsame⟩ := ih (by omega)
    obtain ⟨rfl, rfl⟩ := Prod.mk.inj (hrest.symm.trans hp)
    refine ⟨_, _, bits', buff', rfl, hspells.cons, hbits', ?_⟩
    have hcount : 5 + bits₁ = bits := by omega
    rw [List.flatMap_cons, List.append_assoc, hsame, ← List.append_assoc, bitsOf_digit, hcount]

/-- The last digit is filled up with zeros. -/
theorem encodeRest_spec (bits buff : ℕ) (hbits : bits < 13) :
    ∃ vs k, Spells (base32EncodeRest bits buff) vs ∧ k < 5 ∧
      vs.flatMap (bitsOf 5) = bitsOf bits buff ++ List.replicate k false := by
  fun_induction base32EncodeRest bits buff with
  | case1 => exact ⟨[], 0, spells_nil, by decide, rfl⟩
  | case2 bits hne hlt =>
    refine ⟨_, 5 - bits, spells_nil.cons, by omega, ?_⟩
    have hdigit := bitsOf_digit (u32 (buff <<< (5 - bits))) 0
    have hfill := bitsOf_shiftLeft_or (m := bits) (v := buff) (Nat.two_pow_pos (5 - bits))
    rw [Nat.or_zero, bitsOf_zero, Nat.add_sub_cancel' (Nat.le_of_lt hlt)] at hfill
    rw [bitsOf, List.append_nil, u32, bitsOf_mod (by decide), hfill] at hdigit
    rw [List.flatMap_cons, List.flatMap_nil, List.append_nil]
    exact hdigit
  | case3 bits hne hge ih =>
    obtain ⟨vs, k, hspells, hk, hsame⟩ := ih (by omega)
    refine ⟨_, k, hspells.cons, hk, ?_⟩
    rw [List.flatMap_cons, hsame, ← List.append_assoc, bitsOf_digit, Nat.add_sub_cancel' (Nat.not_lt.mp hge)]

/-- Each character has its value. -/
theorem base32Value_digit : ∀ v < 32, base32Value (get base32Table v) = some v := by decide

/-- One more character below the bits. -/
theorem bitsOf_take (buff : ℕ) {v : ℕ} (hv : v < 32) (hbits : bits ≤ 27) :
    bitsOf (bits + 5) (u32 (u32 (buff <<< 5) + v)) = bitsOf bits buff ++ bitsOf 5 v := by
  have hor : buff <<< 5 + v = buff <<< 5 ||| v := Nat.shiftLeft_add_eq_or_of_lt hv buff
  rw [u32, u32, Nat.mod_add_mod, bitsOf_mod (by omega), hor, bitsOf_shiftLeft_or hv]

theorem decodeLoop_spec (hspells : Spells p vs) (bits buff : ℕ) (hbits : bits < 8) :
    ∃ out r, base32DecodeLoop p bits buff = some out ∧ r.length < 8 ∧
      byteBits out ++ r = bitsOf bits buff ++ vs.flatMap (bitsOf 5) := by
  obtain ⟨rfl, hvs⟩ := hspells
  induction vs generalizing bits buff with
  | nil =>
    refine ⟨[], bitsOf bits buff, rfl, ?_, by simp [byteBits]⟩
    rwa [length_bitsOf]
  | cons v vs ih =>
    obtain ⟨hv, hvs⟩ := List.forall_mem_cons.mp hvs
    have htake := bitsOf_take buff hv (Nat.le_of_lt (Nat.lt_of_lt_of_le hbits (by decide)))
    rw [List.map_cons, base32DecodeLoop, base32Value_digit v hv, Option.bind_some, List.flatMap_cons, ← List.append_assoc, ← htake]
    generalize u32 (u32 (buff <<< 5) + v) = buff
    by_cases hfull : bits + 5 ≥ 8
    · have hsplit : bits + 5 = 8 + (bits + 5 - 8) := by omega
      obtain ⟨out, r, hout, hr, hsame⟩ := ih (bits + 5 - 8) buff (by omega) hvs
      refine ⟨UInt8.ofNat (buff >>> (bits + 5 - 8)) :: out, r, ?_, hr, ?_⟩
      · rw [if_pos hfull]
        show Option.map _ (base32DecodeLoop _ (bits + 5 - 8) buff) = _
        rw [hout, Option.map_some]
      · rw [byteBits, List.flatMap_cons, ← byteBits, List.append_assoc, hsame, ← List.append_assoc, UInt8.toNat_ofNat',
          bitsOf_mod (Nat.le_refl _), ← bitsOf_add, ← hsplit]
    · obtain ⟨out, r, hout, hr, hsame⟩ := ih (bits + 5) buff (Nat.not_le.mp hfull) hvs
      exact ⟨out, r, by rw [if_neg hfull, hout], hr, hsame⟩

/-- The bits of the bytes determine them, up to a tail shorter than a byte. -/
theorem byteBits_inj {r s : List Bool} (hr : r.length < 8) (hs : s.length < 8) (h : byteBits p ++ r = byteBits q ++ s) : p = q := by
  have hflat : ∀ str : Bytes, byteBits str = (str.map UInt8.toNat).flatMap (bitsOf 8) := fun str => (List.flatMap_map ..).symm
  rw [hflat, hflat] at h
  have hlt : ∀ str : Bytes, ∀ v ∈ str.map UInt8.toNat, v < 2 ^ 8 := by
    intro str v hv
    obtain ⟨b, -, rfl⟩ := List.mem_map.mp hv
    exact b.toNat_lt
  have hsame := flatMap_bitsOf_inj (hlt p) (hlt q) hr hs h
  exact List.map_inj_right (fun _ _ => UInt8.toNat_inj.mp) |>.mp hsame

theorem base32_round_trip (str : Bytes) : base32Decode (base32Encode str) = some str := by
  obtain ⟨p, vs, bits, buff, hloop, hspells, hbits, hsame⟩ := encodeLoop_spec str 0 0 (by decide)
  obtain ⟨ws, k, hrest, hk, hfill⟩ := encodeRest_spec bits buff hbits
  obtain ⟨out, r, hout, hr, hback⟩ := decodeLoop_spec (hspells.append hrest) 0 0 (by decide)
  have hencode : base32Encode str = p ++ base32EncodeRest bits buff := by rw [base32Encode, hloop]
  have hbits : byteBits out ++ r = byteBits str ++ List.replicate k false := by
    rw [hback, List.flatMap_append, hfill, ← List.append_assoc (vs.flatMap _), hsame]
    simp [bitsOf]
  have hstr : out = str := byteBits_inj hr (by rw [List.length_replicate]; omega) hbits
  rw [base32Decode, hencode, hout, hstr]

end Pclsync.Crypto
