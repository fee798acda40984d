import Pclsync.Lib.Products
import Pclsync.Password.Score

/-! When an overflow of the score is noticed. -/
namespace Pclsync.Password
open Lib.Machine Lib.Products

variable {A : Arith} {look : Lookups} {password : List UInt8} {cut : Cut} {n s v : ℕ} {factors : List ℕ}

/-- No product reaches `2 ^ 64`: neither one of a score nor a square on the way to a root of one. -/
def Contained (look : Lookups) (password : List UInt8) : Prop := ∃ v, passwordScore bounded look password = some v

def trueScore (look : Lookups) (password : List UInt8) : ℕ := (passwordScore unbounded look password).getD 0

/-- What the score is asked to be. -/
structure Meets (look : Lookups) (password : List UInt8) : Prop where
  exact : Contained look password → psyncPasswordScore look password = trueScore look password
  capped : ¬ Contained look password → psyncPasswordScore look password = overflow
  quality : 2 ^ 40 ≤ trueScore look password → psyncPasswordQuality look password = 2

/-- What `psync_password_score` multiplies by behind the roots. -/
def lastFactors (look : Lookups) (cut : Cut) : List ℕ :=
  List.replicate cut.puncts 10 ++
    ((if cut.digits = [] then []
      else (trailingNumScore machine (readNum machine cut.digits) cut.digits.length cut.digits).getD overflow :: List.replicate cut.morePuncts 10) ++
    if cut.rest = [] then [] else [(scoreVariants machine look cut.rest).getD overflow])

/-- There are 64 twos, or one of the products behind the roots is below the one before it modulo `2 ^ 64`, or the last is all ones there. -/
def Noticed (look : Lookups) (password : List UInt8) : Prop :=
  let cut := Cut.of password
  64 ≤ cut.bangs + cut.ones ∨ ∃ s, sqrtOnes machine cut.ones (2 ^ (cut.bangs + cut.ones)) = some s ∧
    (Drops (2 ^ 64) s (lastFactors look cut) ∨ s * (lastFactors look cut).prod % 2 ^ 64 = overflow)

/-! ### Where nothing reaches `2 ^ 64` -/

/-- Other arithmetic that agrees below `2 ^ 64`. -/
structure Refines (A : Arith) : Prop where
  mul : ∀ s n v, 0 < n → bounded.mul s n = some v → A.mul s n = some v
  square : ∀ m q, bounded.square m = some q → A.square m = some q
  word : ∀ x < 2 ^ 64, A.word x = x
  answer : ∀ v, A.answer (some v) = some v

theorem bounded_mul : bounded.mul s n = some v ↔ s * n < 2 ^ 64 ∧ s * n = v := by
  rw [bounded, Option.ite_none_right_eq_some, Option.some.injEq]

theorem bounded_square {m q : ℕ} : bounded.square m = some q ↔ m * m < 2 ^ 64 ∧ m * m = q := bounded_mul

theorem refines_unbounded : Refines unbounded where
  mul _ _ _ _ hmul := congrArg some (bounded_mul.mp hmul).2
  square _ _ hsquare := congrArg some (bounded_square.mp hsquare).2
  word _ _ := rfl
  answer _ := rfl

theorem machine_mul : machine.mul = noticed (2 ^ 64) := rfl

theorem refines_machine : Refines machine where
  mul s n v hn hmul := by
    obtain ⟨hlt, rfl⟩ := bounded_mul.mp hmul
    rw [machine_mul, noticed, Nat.mod_eq_of_lt hlt, if_neg (not_lt.mpr (Nat.le_mul_of_pos_right s hn))]
  square m q hsquare := by
    obtain ⟨hlt, rfl⟩ := bounded_square.mp hsquare
    exact congrArg some (u64_of_lt hlt)
  word _ hx := u64_of_lt hx
  answer _ := rfl

theorem Refines.foldlM (hA : Refines A) (hpos : ∀ f ∈ factors, 0 < f) (hfold : factors.foldlM bounded.mul s = some v) :
    factors.foldlM A.mul s = some v := by
  induction factors generalizing s with
  | nil => exact hfold
  | cons f factors ih =>
    obtain ⟨p, hp, hfold⟩ := Option.bind_eq_some_iff.mp hfold
    rw [List.foldlM_cons, hA.mul s f p (hpos f List.mem_cons_self) hp]
    exact ih (fun g hg => hpos g (List.mem_cons_of_mem _ hg)) hfold

theorem Refines.replicate (hA : Refines A) {count f : ℕ} (hf : 0 < f) (hfold : (List.replicate count f).foldlM bounded.mul s = some v) :
    (List.replicate count f).foldlM A.mul s = some v :=
  hA.foldlM (fun g hg => by rwa [List.eq_of_mem_replicate hg]) hfold

theorem foldlM_pos (hs : 0 < s) (hpos : ∀ f ∈ factors, 0 < f) (hfold : factors.foldlM bounded.mul s = some v) : 0 < v := by
  induction factors generalizing s with
  | nil => exact Option.some.inj hfold ▸ hs
  | cons f factors ih =>
    obtain ⟨p, hp, hfold⟩ := Option.bind_eq_some_iff.mp hfold
    obtain ⟨-, rfl⟩ := bounded_mul.mp hp
    exact ih (Nat.mul_pos hs (hpos f List.mem_cons_self)) (fun g hg => hpos g (List.mem_cons_of_mem _ hg)) hfold

theorem Refines.uintSqrtLoop (hA : Refines A) {l h m : ℕ} (hroot : uintSqrtLoop bounded n l h m = some v) :
    uintSqrtLoop A n l h m = some v := by
  induction l, h, m using uintSqrtLoop.induct with
  | case1 l h m hlt m' ihLow ihHigh =>
    rw [Password.uintSqrtLoop, if_pos hlt] at hroot ⊢
    obtain ⟨m2, hm2, hroot⟩ := Option.bind_eq_some_iff.mp hroot
    have hsquare : A.square ((h + l) / 2) = some m2 := hA.square _ _ hm2
    simp only [hsquare, Option.bind_eq_bind, Option.bind_some]
    split_ifs at hroot ⊢ with hgt hless
    · exact ihLow hroot
    · exact ihHigh hroot
    · exact hroot
  | case2 l h m hge =>
    rw [Password.uintSqrtLoop, if_neg hge] at hroot ⊢
    exact hroot

theorem Refines.uintSqrt (hA : Refines A) (hroot : uintSqrt bounded n = some v) : uintSqrt A n = some v := by
  rw [Password.uintSqrt] at hroot ⊢
  split_ifs at hroot ⊢ with hone
  · exact hroot
  · exact hA.uintSqrtLoop hroot

theorem Refines.sqrtOnes (hA : Refines A) {nlen : ℕ} (hroot : sqrtOnes bounded nlen s = some v) : sqrtOnes A nlen s = some v := by
  induction nlen, s using sqrtOnes.induct with
  | case1 nlen s hle ih =>
    rw [Password.sqrtOnes, if_pos hle] at hroot ⊢
    obtain ⟨r, hr, hroot⟩ := Option.bind_eq_some_iff.mp hroot
    rw [hA.uintSqrt hr]
    exact ih r hroot
  | case2 nlen s hgt =>
    rw [Password.sqrtOnes, if_neg hgt] at hroot ⊢
    exact hroot

theorem Refines.startScore (hA : Refines A) (hstart : startScore bounded cut = some v) : startScore A cut = some v := by
  obtain ⟨s, hs, hstart⟩ := Option.bind_eq_some_iff.mp hstart
  obtain ⟨t, ht, hstart⟩ := Option.bind_eq_some_iff.mp hstart
  rw [Password.startScore, hA.replicate (Nat.succ_pos 1) hs, Option.bind_eq_bind, Option.bind_some, hA.replicate (Nat.succ_pos 1) ht]
  exact hA.sqrtOnes hstart

/-! ### The factors -/

theorem trailingFactors_pos (nstr : List UInt8) (numlen i : ℕ) : ∀ f ∈ trailingFactors nstr numlen i, 0 < f := by
  induction i using trailingFactors.induct nstr numlen with
  | case1 i hlt j hfound ih =>
    rw [trailingFactors, if_pos hlt, hfound]
    exact List.forall_mem_cons.mpr ⟨Nat.succ_pos 1, ih⟩
  | case2 i hlt hnone ih =>
    rw [trailingFactors, if_pos hlt, hnone]
    refine List.forall_mem_cons.mpr ⟨?_, ih⟩
    split_ifs <;> decide
  | case3 i hge =>
    rw [trailingFactors, if_neg hge]
    exact fun f hf => (nomatch hf)

/-- What a round gives: factors that are not zero, and a character is only counted where it was seen. -/
structure Round.Fair (round : Round) : Prop where
  pos : ∀ f ∈ round.factors, 0 < f
  seen : round.counted → round.seen.isSome

theorem Round.fair_factor {f more : ℕ} {c : Class} (hf : 0 < f) : (⟨[f], some c, false, more⟩ : Round).Fair :=
  ⟨fun g hg => by rwa [List.mem_singleton.mp hg], nofun⟩

theorem Round.fair_counted {c : Class} : (⟨[], some c, true, 0⟩ : Round).Fair := ⟨fun _ hf => (nomatch hf), fun _ => rfl⟩

theorem charRound_fair (password lpassword : List UInt8) (plen off : ℕ) : (charRound password lpassword plen off).Fair := by
  unfold charRound
  dsimp only
  by_cases hoff : off = 0
  · rw [if_pos hoff]
    split_ifs
    any_goals exact Round.fair_factor (by decide)
    exact Round.fair_counted
  · rw [if_neg hoff]
    cases findRepeat (fun j => j ≤ plen - off && (repeats password off j || repeats lpassword off j)) off with
    | some j =>
      refine Round.fair_factor ?_
      split_ifs <;> omega
    | none =>
      dsimp only
      split_ifs
      any_goals exact Round.fair_factor (by decide)
      exact Round.fair_counted

theorem variantRound_fair (look : Lookups) (password lpassword : List UInt8) (plen off : ℕ) :
    (variantRound look password lpassword plen off).Fair := by
  have hword : ∀ size d : ℕ, 0 < size → d ≠ 0 → (wordRound size d).Fair := fun size d hsize hd =>
    ⟨fun f hf => by rw [List.mem_singleton.mp hf]; exact Nat.mul_pos hsize (Nat.pos_of_ne_zero hd), nofun⟩
  rw [variantRound]
  split_ifs with hpassword hlpassword hnpassword
  · exact hword _ _ (by decide) (Fin.val_ne_of_ne hpassword)
  · exact hword _ _ (by decide) (Fin.val_ne_of_ne hlpassword)
  · exact hword _ _ (by decide) (Fin.val_ne_of_ne hnpassword)
  · exact charRound_fair password lpassword plen off

theorem variantRounds_fair (look : Lookups) (password lpassword : List UInt8) (plen off : ℕ) :
    ∀ round ∈ variantRounds look password lpassword plen off, round.Fair := by
  induction off using variantRounds.induct look password lpassword plen with
  | case1 off hlt round ih =>
    rw [variantRounds, if_pos hlt]
    exact List.forall_mem_cons.mpr ⟨variantRound_fair look password lpassword plen off, ih⟩
  | case2 off hge =>
    rw [variantRounds, if_neg hge]
    exact fun round hround => (nomatch hround)

theorem alphabet_pos {seen : List Class} {c : Class} (hc : c ∈ seen) : 0 < alphabet seen := by
  have hsize : 0 < c.size := by cases c <;> decide
  have hall : c ∈ [Class.low, .up, .num, .punct, .space, .other] := by cases c <;> decide
  have hmem : c ∈ [Class.low, .up, .num, .punct, .space, .other].filter (· ∈ seen) := List.mem_filter.mpr ⟨hall, decide_eq_true hc⟩
  exact List.sum_pos_iff_exists_pos_nat.mpr ⟨c.size, List.mem_map_of_mem hmem, hsize⟩

theorem variantFactors_pos (look : Lookups) (password : List UInt8) : ∀ f ∈ variantFactors look password, 0 < f := by
  intro f hf
  have hfair := variantRounds_fair look password (password.map toLower) password.length 0
  rcases List.mem_append.mp hf with hf | hf
  · obtain ⟨round, hround, hf⟩ := List.mem_flatMap.mp hf
    exact (hfair round hround).pos f hf
  · obtain ⟨hcount, rfl⟩ := List.mem_replicate.mp hf
    obtain ⟨round, hround, hcounted⟩ := List.countP_pos_iff.mp (Nat.pos_of_ne_zero hcount)
    obtain ⟨c, hc⟩ := Option.isSome_iff_exists.mp ((hfair round hround).seen hcounted)
    exact alphabet_pos (List.mem_filterMap.mpr ⟨round, hround, hc⟩)

/-! ### The whole, where nothing reaches `2 ^ 64` -/

/-- The number is read only where it has at most four digits. -/
theorem trailing_congr {num num' numlen : ℕ} {nstr : List UInt8} (hnum : numlen ≤ 4 → num = num') :
    trailingNumScore A num numlen nstr = trailingNumScore A num' numlen nstr := by
  by_cases hle : numlen ≤ 4
  · rw [hnum hle]
  · rw [trailingNumScore, trailingNumScore, if_neg (by omega), if_neg (by omega), if_neg (by omega), if_neg (by omega), if_neg (by omega),
      if_neg (by omega)]

theorem Refines.trailingNumScore (hA : Refines A) {num numlen : ℕ} {nstr : List UInt8}
    (hscore : trailingNumScore bounded num numlen nstr = some v) : trailingNumScore A num numlen nstr = some v := by
  rw [Password.trailingNumScore] at hscore ⊢
  split_ifs at hscore ⊢
  any_goals exact hscore
  exact hA.foldlM (trailingFactors_pos nstr numlen 1) hscore

theorem Refines.foldl_word (hA : Refines A) {digits : List UInt8} (hdigits : ∀ c ∈ digits, isDigit c.toNat) {num : ℕ}
    (hnum : (num + 1) * 10 ^ digits.length ≤ 2 ^ 64) :
    digits.foldl (fun num c => A.word (num * 10 + (c.toNat - 48))) num = digits.foldl (fun num c => num * 10 + (c.toNat - 48)) num := by
  induction digits generalizing num with
  | nil => rfl
  | cons c digits ih =>
    have hdigit : c.toNat - 48 < 10 := by
      have hc := hdigits c List.mem_cons_self
      rw [isDigit, Bool.and_eq_true, decide_eq_true_eq, decide_eq_true_eq] at hc
      omega
    rw [List.length_cons, Nat.pow_succ', ← Nat.mul_assoc] at hnum
    have hpow : 0 < 10 ^ digits.length := Nat.pow_pos (Nat.succ_pos 9)
    have hle : (num * 10 + (c.toNat - 48) + 1) * 10 ^ digits.length ≤ (num + 1) * 10 * 10 ^ digits.length := Nat.mul_le_mul_right _ (by omega)
    have hlt : num * 10 + (c.toNat - 48) < 2 ^ 64 :=
      calc num * 10 + (c.toNat - 48) < (num + 1) * 10 := by omega
        _ ≤ (num + 1) * 10 * 10 ^ digits.length := Nat.le_mul_of_pos_right _ hpow
        _ ≤ 2 ^ 64 := hnum
    rw [List.foldl_cons, List.foldl_cons, hA.word _ hlt]
    exact ih (fun d hd => hdigits d (List.mem_cons_of_mem _ hd)) (le_trans hle hnum)

theorem Refines.readNum (hA : Refines A) {digits : List UInt8} (hdigits : ∀ c ∈ digits, isDigit c.toNat) (hle : digits.length ≤ 4) :
    readNum A digits = readNum bounded digits := by
  have hpow : 10 ^ digits.reverse.length ≤ 10 ^ 4 := Nat.pow_le_pow_right (by decide) (by rwa [List.length_reverse])
  exact hA.foldl_word (fun c hc => hdigits c (List.mem_reverse.mp hc)) (by omega)

theorem Cut.digits_digit (password : List UInt8) : ∀ c ∈ (Cut.of password).digits, isDigit c.toNat := fun _ hc =>
  List.mem_rtakeWhile_imp (p := fun c : UInt8 => isDigit c.toNat) hc

theorem trailingNumScore_pos {num numlen : ℕ} {nstr : List UInt8} (hscore : trailingNumScore bounded num numlen nstr = some v) : 0 < v := by
  rw [Password.trailingNumScore] at hscore
  split_ifs at hscore
  any_goals
    obtain rfl := Option.some.inj hscore
    decide
  refine foldlM_pos ?_ (trailingFactors_pos nstr numlen 1) hscore
  rw [trailingStart]
  split_ifs <;> decide

theorem Refines.digitScore (hA : Refines A) (hdigits : ∀ c ∈ cut.digits, isDigit c.toNat) (hscore : digitScore bounded cut s = some v) :
    digitScore A cut s = some v := by
  rw [Password.digitScore] at hscore ⊢
  split_ifs at hscore ⊢
  · exact hscore
  · obtain ⟨num, hnum, hscore⟩ := Option.bind_eq_some_iff.mp hscore
    obtain ⟨t, ht, hscore⟩ := Option.bind_eq_some_iff.mp hscore
    have hnum : Password.trailingNumScore bounded (Password.readNum bounded cut.digits) cut.digits.length cut.digits = some num := hnum
    rw [trailing_congr (hA.readNum hdigits), hA.trailingNumScore hnum, hA.answer, Option.bind_eq_bind, Option.bind_some,
      hA.mul s num t (trailingNumScore_pos hnum) ht]
    exact hA.replicate (Nat.succ_pos 9) hscore

theorem Refines.restScore (hA : Refines A) (hscore : restScore bounded look cut s = some v) : restScore A look cut s = some v := by
  rw [Password.restScore] at hscore ⊢
  split_ifs at hscore ⊢
  · exact hscore
  · obtain ⟨num, hnum, hscore⟩ := Option.bind_eq_some_iff.mp hscore
    have hnum : Password.scoreVariants bounded look cut.rest = some num := hnum
    have hvariants : Password.scoreVariants A look cut.rest = some num := hA.foldlM (variantFactors_pos look cut.rest) hnum
    rw [hvariants, hA.answer]
    exact hA.mul s num v (foldlM_pos Nat.one_pos (variantFactors_pos look cut.rest) hnum) hscore

/-- A run in which no product reaches `2 ^ 64` is one of any such arithmetic. -/
theorem Refines.passwordScore (hA : Refines A) (hscore : passwordScore bounded look password = some v) :
    passwordScore A look password = some v := by
  obtain ⟨s, hs, hscore⟩ := Option.bind_eq_some_iff.mp hscore
  obtain ⟨t, ht, hscore⟩ := Option.bind_eq_some_iff.mp hscore
  obtain ⟨u, hu, hscore⟩ := Option.bind_eq_some_iff.mp hscore
  have hpuncts : punctScore A (Cut.of password).puncts s = some t := hA.replicate (Nat.succ_pos 9) ht
  simp only [Password.passwordScore, Option.bind_eq_bind, hA.startScore hs, Option.bind_some, hpuncts,
    hA.digitScore (Cut.digits_digit password) hu]
  exact hA.restScore hscore

/-! ### What the machine returns -/

theorem uintSqrtLoop_lt {l h m : ℕ} (hh : h < 2 ^ 64) (hm : m < 2 ^ 64) : ∃ v < 2 ^ 64, uintSqrtLoop machine n l h m = some v := by
  induction l, h, m using uintSqrtLoop.induct with
  | case1 l h m hlt m' ihLow ihHigh =>
    have hmid : m' < 2 ^ 64 := by omega
    obtain ⟨low, hlow⟩ := ihLow hmid hmid
    obtain ⟨high, hhigh⟩ := ihHigh hh hmid
    have hsquare : machine.square ((h + l) / 2) = some (u64 ((h + l) / 2 * ((h + l) / 2))) := rfl
    rw [uintSqrtLoop, if_pos hlt]
    simp only [hsquare, Option.bind_eq_bind, Option.bind_some]
    split_ifs
    · exact ⟨low, hlow⟩
    · exact ⟨high, hhigh⟩
    · exact ⟨m', hmid, rfl⟩
  | case2 l h m hge =>
    rw [uintSqrtLoop, if_neg hge]
    exact ⟨m, hm, rfl⟩

theorem uintSqrt_lt (hn : n < 2 ^ 64) : ∃ v < 2 ^ 64, uintSqrt machine n = some v := by
  rw [uintSqrt]
  split_ifs
  · exact ⟨1, by decide, rfl⟩
  · exact uintSqrtLoop_lt (by omega) (by decide)

theorem sqrtOnes_lt {nlen : ℕ} (hs : s < 2 ^ 64) : ∃ v < 2 ^ 64, sqrtOnes machine nlen s = some v := by
  induction nlen, s using sqrtOnes.induct with
  | case1 nlen s hle ih =>
    obtain ⟨r, hr, hroot⟩ := uintSqrt_lt hs
    rw [sqrtOnes, if_pos hle, hroot]
    exact ih r hr
  | case2 nlen s hgt =>
    rw [sqrtOnes, if_neg hgt]
    exact ⟨s, hs, rfl⟩

theorem twos_noticed (count k : ℕ) (hk : k < 64) :
    (List.replicate count 2).foldlM (noticed (2 ^ 64)) (2 ^ k) = if 64 ≤ k + count then none else some (2 ^ (k + count)) := by
  induction count generalizing k with
  | zero =>
    rw [if_neg (by omega)]
    rfl
  | succ count ih =>
    rw [List.replicate_succ, List.foldlM_cons, noticed, ← Nat.pow_succ]
    by_cases hlast : k + 1 < 64
    · rw [Nat.mod_eq_of_lt (Nat.pow_lt_pow_right (by decide) hlast), if_neg (not_lt.mpr (Nat.pow_le_pow_right (by decide) (Nat.le_succ k)))]
      rw [Option.bind_eq_bind, Option.bind_some, ih (k + 1) hlast, Nat.add_right_comm, ← Nat.add_assoc]
    · obtain rfl : k = 63 := by omega
      rw [Nat.mod_self, if_pos (by decide), if_pos (by omega)]
      rfl

theorem startScore_machine : startScore machine cut =
    if 64 ≤ cut.bangs + cut.ones then none else sqrtOnes machine cut.ones (2 ^ (cut.bangs + cut.ones)) := by
  have hbangs := twos_noticed cut.bangs 0 (by decide)
  rw [Nat.zero_add, Nat.pow_zero] at hbangs
  rw [startScore, machine_mul, hbangs]
  by_cases hfirst : 64 ≤ cut.bangs
  · rw [if_pos hfirst, if_pos (by omega)]
    rfl
  · rw [if_neg hfirst, Option.bind_eq_bind, Option.bind_some, twos_noticed _ _ (not_le.mp hfirst)]
    split_ifs
    · rfl
    · rfl

/-- The numbers behind the roots are multiplied with one after another. -/
theorem last_machine (look : Lookups) (cut : Cut) (s : ℕ) : (do
      let score ← punctScore machine cut.puncts s
      let score ← digitScore machine cut score
      restScore machine look cut score) = (lastFactors look cut).foldlM (noticed (2 ^ 64)) s := by
  have hdigits : ∀ t, digitScore machine cut t = (if cut.digits = [] then []
      else (trailingNumScore machine (readNum machine cut.digits) cut.digits.length cut.digits).getD overflow ::
        List.replicate cut.morePuncts 10).foldlM (noticed (2 ^ 64)) t := by
    intro t
    rw [digitScore]
    split_ifs
    · rfl
    · rw [List.foldlM_cons, ← machine_mul]
      rfl
  have hrest : ∀ t, restScore machine look cut t =
      (if cut.rest = [] then [] else [(scoreVariants machine look cut.rest).getD overflow]).foldlM (noticed (2 ^ 64)) t := by
    intro t
    rw [restScore]
    split_ifs
    · rfl
    · rw [List.foldlM_cons, ← machine_mul]
      exact (bind_pure _).symm
  simp only [lastFactors, List.foldlM_append, hdigits, hrest, punctScore, machine_mul]

theorem score_overflow_iff : psyncPasswordScore look password = overflow ↔ Noticed look password := by
  have hscore : passwordScore machine look password = (startScore machine (Cut.of password)).bind
      ((lastFactors look (Cut.of password)).foldlM (noticed (2 ^ 64))) := by
    rw [passwordScore]
    exact congrArg _ (funext fun s => last_machine look (Cut.of password) s)
  rw [psyncPasswordScore, hscore, startScore_machine, Noticed]
  by_cases htwos : 64 ≤ (Cut.of password).bangs + (Cut.of password).ones
  · rw [if_pos htwos]
    exact ⟨fun _ => .inl htwos, fun _ => rfl⟩
  · obtain ⟨s, hs, hroot⟩ := @sqrtOnes_lt _ (Cut.of password).ones (Nat.pow_lt_pow_right (by decide : 1 < 2) (not_le.mp htwos))
    have hnoticed : (∃ t, sqrtOnes machine (Cut.of password).ones (2 ^ ((Cut.of password).bangs + (Cut.of password).ones)) = some t ∧
        (Drops (2 ^ 64) t (lastFactors look (Cut.of password)) ∨ t * (lastFactors look (Cut.of password)).prod % 2 ^ 64 = overflow)) ↔
        Drops (2 ^ 64) s (lastFactors look (Cut.of password)) ∨ s * (lastFactors look (Cut.of password)).prod % 2 ^ 64 = overflow := by
      rw [hroot]
      exact ⟨fun ⟨t, ht, h⟩ => Option.some.inj ht ▸ h, fun h => ⟨s, rfl, h⟩⟩
    rw [if_neg htwos, hroot, Option.bind_some, or_iff_right htwos, ← hroot, hnoticed, ← foldlM_noticed hs]
    cases hfold : (lastFactors look (Cut.of password)).foldlM (noticed (2 ^ 64)) s with
    | none => exact ⟨fun _ => .inl rfl, fun _ => rfl⟩
    | some v =>
      rw [← foldlM_eq_some hs hfold]
      exact ⟨.inr, fun h => h.resolve_left nofun⟩

/-- Eighteen characters `@` and five `!`. -/
def atsAndBangs : List UInt8 := List.replicate 18 64 ++ List.replicate 5 33

theorem score_atsAndBangs : passwordScore A look atsAndBangs = (do
    let score ← (List.replicate 5 2).foldlM A.mul 1
    (List.replicate 18 10).foldlM A.mul score) := by
  have hcut : Cut.of atsAndBangs = ⟨5, 0, 18, [], 0, []⟩ := rfl
  have hroot : ∀ s, sqrtOnes A 0 s = some s := fun s => by rw [sqrtOnes, if_neg (by decide)]
  have hbind : ∀ r : Option ℕ, (r.bind fun score => some score) = r := bind_pure
  simp only [passwordScore, startScore, hcut, hroot, List.replicate_zero, List.foldlM_nil, punctScore, digitScore, restScore, if_true,
    Option.bind_eq_bind, Option.pure_def, Option.bind_some, hbind]

def noWords : Lookups := ⟨fun _ => ⟨0, by decide⟩, fun _ => ⟨0, by decide⟩, fun _ => ⟨0, by decide⟩⟩

end Pclsync.Password
