import Mathlib.Data.Nat.Bitwise
import Mathlib.Data.Nat.Digits.Defs
import Mathlib.Tactic.Ring

/-! The low bits of a number as a string of bits, the highest first. -/
namespace Pclsync.Lib.BitStrings

def bitsOf : ℕ → ℕ → List Bool
  | 0, _ => []
  | n + 1, v => v.testBit n :: bitsOf n v

variable {m n v w : ℕ}

theorem length_bitsOf : (bitsOf n v).length = n := by
  induction n with
  | zero => rfl
  | succ n ih => rw [bitsOf, List.length_cons, ih]

theorem bitsOf_congr (h : ∀ i < n, v.testBit i = w.testBit i) : bitsOf n v = bitsOf n w := by
  induction n with
  | zero => rfl
  | succ n ih => rw [bitsOf, bitsOf, h n (Nat.lt_succ_self n), ih fun i hi => h i (Nat.lt_succ_of_lt hi)]

/-- The high bits, then the low ones. -/
theorem bitsOf_add : bitsOf (m + n) v = bitsOf m (v >>> n) ++ bitsOf n v := by
  induction m with
  | zero => rw [Nat.zero_add, bitsOf, List.nil_append]
  | succ m ih => rw [Nat.succ_add, bitsOf, bitsOf, ih, Nat.testBit_shiftRight, Nat.add_comm n, List.cons_append]

theorem testBit_of_bitsOf (h : bitsOf n v = bitsOf n w) : ∀ i < n, v.testBit i = w.testBit i := by
  induction n with
  | zero => nofun
  | succ n ih =>
    obtain ⟨hhead, htail⟩ := List.cons.inj h
    intro i hi
    rcases Nat.lt_succ_iff_lt_or_eq.mp hi with hlt | rfl
    · exact ih htail i hlt
    · exact hhead

theorem bitsOf_inj (hv : v < 2 ^ n) (hw : w < 2 ^ n) (h : bitsOf n v = bitsOf n w) : v = w := by
  refine Nat.eq_of_testBit_eq fun i => ?_
  by_cases hi : i < n
  · exact testBit_of_bitsOf h i hi
  · have hle : 2 ^ n ≤ 2 ^ i := Nat.pow_le_pow_right (by decide) (Nat.not_lt.mp hi)
    rw [Nat.testBit_lt_two_pow (Nat.lt_of_lt_of_le hv hle), Nat.testBit_lt_two_pow (Nat.lt_of_lt_of_le hw hle)]

theorem bitsOf_mod {k : ℕ} (h : n ≤ k) : bitsOf n (v % 2 ^ k) = bitsOf n v :=
  bitsOf_congr fun i hi => by rw [Nat.testBit_mod_two_pow, decide_eq_true (Nat.lt_of_lt_of_le hi h), Bool.true_and]

theorem bitsOf_zero : bitsOf n 0 = List.replicate n false := by
  induction n with
  | zero => rfl
  | succ n ih => rw [bitsOf, ih, Nat.zero_testBit, List.replicate_succ]

/-- A number shifted up, with another one below it. -/
theorem bitsOf_shiftLeft_or (hw : w < 2 ^ n) : bitsOf (m + n) (v <<< n ||| w) = bitsOf m v ++ bitsOf n w := by
  rw [bitsOf_add]
  congr 1
  · refine bitsOf_congr fun i _ => ?_
    have hhigh : w.testBit (n + i) = false :=
      Nat.testBit_lt_two_pow (Nat.lt_of_lt_of_le hw (Nat.pow_le_pow_right (by decide) (Nat.le_add_right ..)))
    rw [Nat.testBit_shiftRight, Nat.testBit_or, Nat.testBit_shiftLeft, hhigh]
    simp
  · refine bitsOf_congr fun i hi => ?_
    rw [Nat.testBit_or, Nat.testBit_shiftLeft, decide_eq_false (Nat.not_le.mpr hi), Bool.false_and, Bool.false_or]

/-- The strings of numbers of one width determine the numbers. -/
theorem flatMap_bitsOf_inj {vs ws : List ℕ} (hv : ∀ v ∈ vs, v < 2 ^ n) (hw : ∀ w ∈ ws, w < 2 ^ n)
    {r s : List Bool} (hr : r.length < n) (hs : s.length < n) (h : vs.flatMap (bitsOf n) ++ r = ws.flatMap (bitsOf n) ++ s) :
    vs = ws := by
  induction vs generalizing ws with
  | nil =>
    cases ws with
    | nil => rfl
    | cons w ws =>
      have hlength := congrArg List.length h
      simp only [List.flatMap_nil, List.nil_append, List.flatMap_cons, List.length_append, length_bitsOf] at hlength
      omega
  | cons v vs ih =>
    cases ws with
    | nil =>
      have hlength := congrArg List.length h
      simp only [List.flatMap_nil, List.nil_append, List.flatMap_cons, List.length_append, length_bitsOf] at hlength
      omega
    | cons w ws =>
      obtain ⟨hv₀, hv⟩ := List.forall_mem_cons.mp hv
      obtain ⟨hw₀, hw⟩ := List.forall_mem_cons.mp hw
      rw [List.flatMap_cons, List.flatMap_cons, List.append_assoc, List.append_assoc] at h
      obtain ⟨hhead, htail⟩ := List.append_inj h (by rw [length_bitsOf, length_bitsOf])
      rw [bitsOf_inj hv₀ hw₀ hhead, ih hv hw htail]

end Pclsync.Lib.BitStrings

/-! Bits regrouped: the bits of digits of one width taken as digits of another width, the
highest first. -/
namespace Pclsync.Lib.Groups

/-- The number with the digits `ds` to the base `b`, the highest first. -/
def value (b : ℕ) (ds : List ℕ) : ℕ := Nat.ofDigits b ds.reverse

variable {b d v w n total bits pad : ℕ} {xs ys ds : List ℕ}

theorem value_concat : value b (ds ++ [d]) = value b ds * b + d := by
  rw [value, List.reverse_append, List.reverse_singleton, List.singleton_append, Nat.ofDigits_cons, value, Nat.add_comm,
    Nat.mul_comm]

theorem value_inj (hb : 1 < b) (hlen : xs.length = ys.length) (hxs : ∀ d ∈ xs, d < b) (hys : ∀ d ∈ ys, d < b)
    (h : value b xs = value b ys) : xs = ys := by
  have hrev := Nat.ofDigits_inj_of_len_eq hb (by simpa using hlen) (fun d hd => hxs d (by simpa using hd))
    (fun d hd => hys d (by simpa using hd)) h
  exact List.reverse_inj.mp hrev

/-- The digits `ys` of width `v` are the bits of the number `n` of `total` bits, up to the
last `bits` ones. -/
structure Top (v total n : ℕ) (ys : List ℕ) (bits : ℕ) : Prop where
  length : v * ys.length + bits = total
  value_eq : value (2 ^ v) ys = n / 2 ^ bits
  small : ∀ d ∈ ys, d < 2 ^ v

theorem Top.start : Top v 0 0 [] 0 := ⟨rfl, rfl, nofun⟩

/-- More bits come in below. -/
theorem Top.more (h : Top v total n ys bits) (hd : d < 2 ^ w) : Top v (total + w) (n * 2 ^ w + d) ys (bits + w) where
  length := by have := h.length; omega
  value_eq := by
    rw [h.value_eq, Nat.add_comm bits w, Nat.pow_add, ← Nat.div_div_eq_div_mul, Nat.mul_comm n,
      Nat.mul_add_div (Nat.two_pow_pos w), Nat.div_eq_of_lt hd, Nat.add_zero]
  small := h.small

/-- A group goes out. -/
theorem Top.emit (h : Top v total n ys bits) (hv : v ≤ bits) :
    Top v total n (ys ++ [n / 2 ^ (bits - v) % 2 ^ v]) (bits - v) where
  length := by
    have := h.length
    rw [List.length_append, List.length_singleton, Nat.mul_add, Nat.mul_one]
    omega
  value_eq := by
    have hsplit : 2 ^ bits = 2 ^ (bits - v) * 2 ^ v := by rw [← Nat.pow_add, Nat.sub_add_cancel hv]
    rw [value_concat, h.value_eq, hsplit, ← Nat.div_div_eq_div_mul, Nat.div_add_mod']
  small d hd := by
    rcases List.mem_append.mp hd with hd | hd
    · exact h.small d hd
    · rw [List.mem_singleton.mp hd]
      exact Nat.mod_lt _ (Nat.two_pow_pos v)

/-- An accumulator that keeps the low bits has the next group. -/
theorem div_mod_of_acc {acc width : ℕ} (hacc : acc = n % 2 ^ width) (hv : v ≤ bits) (hbits : bits ≤ width) :
    acc / 2 ^ (bits - v) % 2 ^ v = n / 2 ^ (bits - v) % 2 ^ v := by
  have hsplit : 2 ^ width = 2 ^ (bits - v) * 2 ^ (width - (bits - v)) := by
    rw [← Nat.pow_add, Nat.add_sub_cancel' (by omega)]
  rw [hacc, hsplit, Nat.mod_mul_right_div_self, Nat.mod_mod_of_dvd]
  exact Nat.pow_dvd_pow 2 (by omega)

/-- **Regrouping inverts**: digits regrouped into groups of another width, the last one
padded, and back again, what is left over dropped. -/
theorem Top.inverse (hw : 0 < w) (hxs : ∀ d ∈ xs, d < 2 ^ w)
    (hto : Top v (w * xs.length + pad) (value (2 ^ w) xs * 2 ^ pad) ds 0) (hpad : pad < w)
    (hback : Top w (v * ds.length) (value (2 ^ v) ds) ys bits) (hbits : bits < w) : ys = xs := by
  have htotal : v * ds.length = w * xs.length + pad := by
    have := hto.length
    omega
  have hback' := hback.length
  rw [htotal] at hback'
  have hlen : ys.length = xs.length := by
    rcases Nat.lt_trichotomy ys.length xs.length with hlt | heq | hlt
    · have := Nat.mul_le_mul_left w hlt
      rw [Nat.mul_succ] at this
      omega
    · exact heq
    · have := Nat.mul_le_mul_left w hlt
      rw [Nat.mul_succ] at this
      omega
  have hsame : bits = pad := by
    rw [hlen] at hback'
    omega
  refine value_inj (Nat.one_lt_two_pow hw.ne') hlen hback.small hxs ?_
  rw [hback.value_eq, hto.value_eq, Nat.pow_zero, Nat.div_one, hsame, Nat.mul_div_cancel _ (Nat.two_pow_pos pad)]

end Pclsync.Lib.Groups
