import Pclsync.Password.Overflow

/-! What `uint_sqrt` returns, and where its wrapped squares lead it away from the root. -/
namespace Pclsync.Password
open Lib.Machine

/-- What is asked of a root of `n`. -/
structure IsRoot (n m : ℕ) : Prop where
  pos : 1 ≤ m
  le : (m - 1) ^ 2 ≤ n
  lt : n < (m + 2) ^ 2

def RootRight (n : ℕ) : Prop := ∃ m, uintSqrt machine n = some m ∧ IsRoot n m

/-- The upper ends and the midpoints that a bisection with squares of natural numbers comes to. -/
def midpoints (n l h : ℕ) : List (ℕ × ℕ) :=
  if l + 1 < h then
    let m := (h + l) / 2
    (h, m) :: if m * m > n then midpoints n l m else if m * m < n then midpoints n m h else []
  else []
termination_by h - l

/-- A midpoint from `2 ^ 32` on has a wrapped square above `n`, or is the last one. -/
def SteeredAt (n : ℕ) (p : ℕ × ℕ) : Prop := 2 ^ 32 ≤ p.2 → n < u64 (p.2 * p.2) ∨ p.1 ≤ p.2 + 1

def Steered (n : ℕ) : Prop := ∀ p ∈ midpoints n 1 (n / 2), SteeredAt n p

variable {n l h m v : ℕ}

theorem midpoints_cons (hlt : l + 1 < h) : midpoints n l h = (h, (h + l) / 2) ::
    if (h + l) / 2 * ((h + l) / 2) > n then midpoints n l ((h + l) / 2)
    else if (h + l) / 2 * ((h + l) / 2) < n then midpoints n ((h + l) / 2) h else [] := by
  rw [midpoints, if_pos hlt]

theorem machineLoop (hlt : l + 1 < h) : uintSqrtLoop machine n l h m =
    if u64 ((h + l) / 2 * ((h + l) / 2)) > n then uintSqrtLoop machine n l ((h + l) / 2) ((h + l) / 2)
    else if u64 ((h + l) / 2 * ((h + l) / 2)) < n then uintSqrtLoop machine n ((h + l) / 2) h ((h + l) / 2)
    else some ((h + l) / 2) := by
  rw [uintSqrtLoop, if_pos hlt]
  rfl

theorem machineLoop_end (hge : ¬l + 1 < h) : uintSqrtLoop machine n l h m = some m := by rw [uintSqrtLoop, if_neg hge]

/-- No result is above the upper end. -/
theorem machineLoop_le (hm : m ≤ h) (hroot : uintSqrtLoop machine n l h m = some v) : v ≤ h := by
  induction l, h, m using uintSqrtLoop.induct with
  | case1 l h m hlt m' ihLow ihHigh =>
    have hmid : m' ≤ h := by omega
    rw [machineLoop hlt] at hroot
    split_ifs at hroot
    · exact (ihLow le_rfl hroot).trans hmid
    · exact ihHigh hmid hroot
    · exact Option.some.inj hroot ▸ hmid
  | case2 l h m hge =>
    rw [machineLoop_end hge] at hroot
    exact Option.some.inj hroot ▸ hm

/-- No result of a loop that is entered is at the lower end or below it. -/
theorem lt_machineLoop (hlt : l + 1 < h) (hroot : uintSqrtLoop machine n l h m = some v) : l < v := by
  induction l, h, m using uintSqrtLoop.induct with
  | case1 l h m hlt' m' ihLow ihHigh =>
    have hmid : l < m' := by omega
    rw [machineLoop hlt] at hroot
    split_ifs at hroot
    · by_cases hmore : l + 1 < m'
      · exact ihLow hmore hroot
      · rw [machineLoop_end hmore] at hroot
        exact Option.some.inj hroot ▸ hmid
    · by_cases hmore : m' + 1 < h
      · exact hmid.trans (ihHigh hmore hroot)
      · rw [machineLoop_end hmore] at hroot
        exact Option.some.inj hroot ▸ hmid
    · exact Option.some.inj hroot ▸ hmid
  | case2 l h m hge => exact absurd hlt hge

/-- What holds between the ends of a bisection that was not led away. -/
structure Bracket (n l h m : ℕ) : Prop where
  pos : 1 ≤ l
  low : l * l ≤ n
  high : n < (h + 1) * (h + 1)
  mid : m = l ∨ m = h

theorem Bracket.isRoot (hb : Bracket n l h m) (hge : ¬l + 1 < h) (hle : l ≤ h) : IsRoot n m := by
  obtain ⟨hpos, hlow, hhigh, hmid⟩ := hb
  have hm : m - 1 ≤ l ∧ h + 1 ≤ m + 2 ∧ 1 ≤ m := by omega
  refine ⟨hm.2.2, ?_, ?_⟩
  · rw [Nat.pow_two]
    exact (Nat.mul_le_mul hm.1 hm.1).trans hlow
  · rw [Nat.pow_two]
    exact hhigh.trans_le (Nat.mul_le_mul hm.2.1 hm.2.1)

/-- From `2 ^ 32` on, squares are above all numbers of 64 bits. -/
theorem not_root_of_large (hn : n < 2 ^ 64) (hv : 2 ^ 32 + 1 ≤ v) : ¬IsRoot n v := by
  intro hroot
  have hle := hroot.le
  have hsquare : 2 ^ 32 * 2 ^ 32 ≤ (v - 1) * (v - 1) := Nat.mul_le_mul (by omega) (by omega)
  rw [Nat.pow_two] at hle
  omega

theorem machineLoop_spec (hn : n < 2 ^ 64) (hh : h < 2 ^ 64) (hb : Bracket n l h m) (hle : l ≤ h) :
    ∃ v, uintSqrtLoop machine n l h m = some v ∧ (IsRoot n v ↔ ∀ p ∈ midpoints n l h, SteeredAt n p) := by
  induction l, h, m using uintSqrtLoop.induct with
  | case2 l h m hge =>
    refine ⟨m, machineLoop_end hge, iff_of_true (hb.isRoot hge hle) ?_⟩
    rw [midpoints, if_neg hge]
    exact List.forall_mem_nil _
  | case1 l h m hlt m' ihLow ihHigh =>
    have hmid : l < m' ∧ m' < h := by omega
    have hlow : n < m' * m' → Bracket n l m' m' := fun hgt =>
      ⟨hb.pos, hb.low, hgt.trans_le (Nat.mul_le_mul (Nat.le_succ m') (Nat.le_succ m')), .inr rfl⟩
    have hhigh : m' * m' < n → Bracket n m' h m' := fun hless => ⟨by omega, hless.le, hb.high, .inl rfl⟩
    rw [machineLoop hlt, midpoints_cons hlt, List.forall_mem_cons]
    change ∃ v, (if u64 (m' * m') > n then _ else if u64 (m' * m') < n then _ else some m') = some v ∧ (_ ↔ SteeredAt n (h, m') ∧ _)
    by_cases hsmall : m' < 2 ^ 32
    · -- the square is not wrapped
      have hbelow : m' * m' < 2 ^ 32 * 2 ^ 32 := Nat.mul_lt_mul'' hsmall hsmall
      have hsquare : m' * m' < 2 ^ 64 := hbelow
      have hsteered : SteeredAt n (h, m') := fun hlarge => absurd hsmall (not_lt.mpr hlarge)
      rw [u64_of_lt hsquare]
      split_ifs with hgt hless
      · obtain ⟨v, hv, hiff⟩ := ihLow (by omega) (hlow hgt) hmid.1.le
        exact ⟨v, hv, hiff.trans (and_iff_right hsteered).symm⟩
      · obtain ⟨v, hv, hiff⟩ := ihHigh hh (hhigh hless) hmid.2.le
        exact ⟨v, hv, hiff.trans (and_iff_right hsteered).symm⟩
      · have hexact : m' * m' = n := Nat.le_antisymm (not_lt.mp hgt) (not_lt.mp hless)
        refine ⟨m', rfl, iff_of_true ⟨by omega, ?_, ?_⟩ ⟨hsteered, List.forall_mem_nil _⟩⟩
        · rw [Nat.pow_two, ← hexact]
          exact Nat.mul_le_mul (Nat.sub_le m' 1) (Nat.sub_le m' 1)
        · rw [Nat.pow_two, ← hexact]
          exact Nat.mul_lt_mul'' (by omega) (by omega)
    · have hlarge : 2 ^ 32 ≤ m' := not_lt.mp hsmall
      have habove : 2 ^ 32 * 2 ^ 32 ≤ m' * m' := Nat.mul_le_mul hlarge hlarge
      have hsquare : n < m' * m' := hn.trans_le habove
      have hless : l < 2 ^ 32 := by
        by_contra hge
        have hlow := Nat.mul_le_mul (not_lt.mp hge) (not_lt.mp hge)
        have hlow' := hb.low
        omega
      have hright : (if m' * m' > n then midpoints n l m' else if m' * m' < n then midpoints n m' h else []) = midpoints n l m' :=
        if_pos hsquare
      change ∃ v, _ ∧ (_ ↔ _ ∧ ∀ p ∈ (if m' * m' > n then midpoints n l m' else if m' * m' < n then midpoints n m' h else []), SteeredAt n p)
      rw [hright]
      by_cases hwrapped : n < u64 (m' * m')
      · obtain ⟨v, hv, hiff⟩ := ihLow (by omega) (hlow hsquare) hmid.1.le
        rw [if_pos hwrapped]
        exact ⟨v, hv, hiff.trans (and_iff_right fun _ => .inl hwrapped).symm⟩
      · rw [if_neg hwrapped]
        by_cases hlast : h ≤ m' + 1
        · -- whatever the comparison says, the loop ends here
          have hend : ¬l + 1 < m' := by omega
          have hresult : (if u64 (m' * m') < n then uintSqrtLoop machine n m' h m' else some m') = some m' := by
            split_ifs
            · exact machineLoop_end (by omega)
            · rfl
          refine ⟨m', hresult, iff_of_true ((hlow hsquare).isRoot hend hmid.1.le) ⟨fun _ => .inr hlast, ?_⟩⟩
          rw [midpoints, if_neg hend]
          exact List.forall_mem_nil _
        · have hnot : ¬SteeredAt n (h, m') := fun hsteered => (hsteered hlarge).elim hwrapped hlast
          have hpos := hb.pos
          have hlowpos : 1 * 1 ≤ l * l := Nat.mul_le_mul hpos hpos
          have hbound := hb.low
          by_cases haway : u64 (m' * m') < n
          · rw [if_pos haway]
            obtain ⟨v, -, hv⟩ := uintSqrtLoop_lt (n := n) (l := m') hh (hmid.2.trans hh)
            have hlt' := lt_machineLoop (by omega) hv
            exact ⟨v, hv, iff_of_false (not_root_of_large hn (by omega)) fun hall => hnot hall.1⟩
          · rw [if_neg haway]
            have hne : m' ≠ 2 ^ 32 := fun heq => by
              rw [heq] at haway
              exact haway (show 0 < n by omega)
            exact ⟨m', rfl, iff_of_false (not_root_of_large hn (by omega)) fun hall => hnot hall.1⟩

/-- `uint_sqrt` returns a number up to its argument, and it is a root exactly where no wrapped square leads the bisection away. -/
theorem uintSqrt_right_iff (hpos : 1 ≤ n) (hn : n < 2 ^ 64) :
    (∃ m, uintSqrt machine n = some m ∧ m ≤ n) ∧ (RootRight n ↔ Steered n) := by
  unfold RootRight Steered
  by_cases hone : n = 1
  · have hroot : uintSqrt machine n = some 1 := by rw [uintSqrt, if_pos hone]
    have hmid : midpoints n 1 (n / 2) = [] := by rw [midpoints, if_neg (by omega)]
    rw [hmid]
    refine ⟨⟨1, hroot, hpos⟩, iff_of_true ⟨1, hroot, le_rfl, Nat.zero_le _, ?_⟩ (List.forall_mem_nil _)⟩
    rw [hone]
    decide
  · have hb : Bracket n 1 (n / 2) 1 := by
      refine ⟨le_rfl, hpos, ?_, .inl rfl⟩
      have hsquare : (n / 2 + 1) * 2 ≤ (n / 2 + 1) * (n / 2 + 1) := Nat.mul_le_mul_left _ (by omega)
      omega
    obtain ⟨v, hv, hiff⟩ := machineLoop_spec hn (by omega) hb (by omega)
    have hroot : uintSqrt machine n = some v := by rw [uintSqrt, if_neg hone, hv]
    have hle := machineLoop_le (by omega) hv
    refine ⟨⟨v, hroot, by omega⟩, ?_⟩
    rw [← hiff, hroot]
    constructor
    · rintro ⟨m, hm, hright⟩
      exact Option.some.inj hm ▸ hright
    · exact fun hright => ⟨v, rfl, hright⟩

theorem uintSqrt_right_iff_hundred : (∃ m, uintSqrt machine 100 = some m ∧ m ≤ 100) ∧ (RootRight 100 ↔ Steered 100) :=
  uintSqrt_right_iff (by decide) (by decide)

/-- A score of 63 trailing ones. -/
theorem root_of_ones_wrong : ¬∀ n, 1 ≤ n → n < 2 ^ 64 → RootRight n := by
  intro hall
  obtain ⟨v, hv, hright⟩ := hall (2 ^ 63) (by decide) (by decide)
  have hmid : (2 ^ 63 / 2 + 1) / 2 = 2 ^ 61 := by decide
  have hloop : uintSqrtLoop machine (2 ^ 63) (2 ^ 61) (2 ^ 63 / 2) (2 ^ 61) = some v := by
    rw [uintSqrt, if_neg (by decide), machineLoop (by decide), hmid, if_neg (by decide), if_pos (by decide)] at hv
    exact hv
  have hlt := lt_machineLoop (by decide) hloop
  exact not_root_of_large (by decide) (by omega) hright

end Pclsync.Password
