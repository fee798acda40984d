import Pclsync.Lib.Machine
import Pclsync.Password.Dictionary
import Mathlib.Data.List.DropRight

/-! The score of a password.

`ppassword.c` multiplies a score by one factor after another; which factors these are
does not depend on the score. The arithmetic is a parameter, so that the same algorithm
can be taken over `uint64_t` and over the natural numbers. What `find_in_dict` answers
at each place is one as well, as it reads behind the texts that it is given. -/
namespace Pclsync.Password
open Lib.Machine

/-- What the algorithm computes with. -/
structure Arith where
  /-- `mul_score`; `none` is the return in it. -/
  mul : ℕ → ℕ → Option ℕ
  /-- `m*m` -/
  square : ℕ → Option ℕ
  /-- A number made of digits. -/
  word : ℕ → ℕ
  /-- What a caller gets of what a function came to. -/
  answer : Option ℕ → Option ℕ

/-- `~((uint64_t)0)`. -/
def overflow : ℕ := 2 ^ 64 - 1

def machine : Arith where
  mul oscore num :=
    let score := u64 (oscore * num)
    if oscore > score then none else some score
  square m := some (u64 (m * m))
  word := u64
  answer r := some (r.getD overflow)

/-- Over the natural numbers. -/
def unbounded : Arith where
  mul score num := some (score * num)
  square m := some (m * m)
  word := id
  answer := id

/-- Over the natural numbers, up to the first product that reaches `2 ^ 64`. -/
def bounded : Arith where
  mul score num := if score * num < 2 ^ 64 then some (score * num) else none
  square m := if m * m < 2 ^ 64 then some (m * m) else none
  word := id
  answer := id

/-! ### Characters -/

/-- The string `!@#$%^&*()_+[]{},.<>:;'"` with a backquote, a backslash and `/~|` behind it. -/
def punctuation : List ℕ :=
  [33, 64, 35, 36, 37, 94, 38, 42, 40, 41, 95, 43, 91, 93, 123, 125, 44, 46, 60, 62, 58, 59, 39, 34, 96, 92, 47, 126, 124]

def isPunct (c : ℕ) : Bool := c ∈ punctuation
def isDigit (c : ℕ) : Bool := 48 ≤ c && c ≤ 57
def isLower (c : ℕ) : Bool := 97 ≤ c && c ≤ 122
def isUpper (c : ℕ) : Bool := 65 ≤ c && c ≤ 90
def isSpace (c : ℕ) : Bool := c = 32 || (9 ≤ c && c ≤ 13)

def toLower (c : UInt8) : UInt8 := if isUpper c.toNat then c + 32 else c

/-- A byte as `char`. -/
def charOf (c : ℕ) : ℤ := if c < 128 then c else c - 256

/-- The rows of a keyboard. -/
def kb : List ℕ :=
  [113, 119, 101, 114, 116, 121, 117, 105, 111, 112, 91, 93, 97, 115, 100, 102, 103, 104, 106, 107, 108, 59, 39, 92,
   122, 120, 99, 118, 98, 110, 109, 44, 46, 47, 81, 87, 69, 82, 84, 89, 85, 73, 79, 80, 123, 125, 65, 83, 68, 70, 71, 72,
   74, 75, 76, 58, 34, 124, 90, 88, 67, 86, 66, 78, 77, 60, 62, 63, 126, 33, 64, 35, 36, 37, 94, 38, 42, 40, 41, 95, 43]

def keyboardBuddies (ch1 ch2 : ℕ) : Bool :=
  match kb.idxOf? ch1 with
  | none => false
  | some f => kb[f + 1]? = some ch2 || (f > 0 && kb[f - 1]? = some ch2)

/-- `!memcmp(s+i, s+i-j, j)`. -/
def repeats (s : List UInt8) (i j : ℕ) : Bool := decide (∀ k < j, byteAt s (i + k) = byteAt s (i - j + k))

/-- The first of the lengths from `j` down for which `found` holds, less one. -/
def findRepeat (found : ℕ → Bool) : ℕ → Option ℕ
  | 0 => none
  | j + 1 => if found (j + 1) then some j else findRepeat found j

/-! ### A number at the end -/

/-- What the loop of `trailing_num_score` multiplies by. -/
def trailingFactors (nstr : List UInt8) (numlen i : ℕ) : List ℕ :=
  if i < numlen then
    match findRepeat (fun j => i + j ≤ numlen && repeats nstr i j) i with
    | some j => 2 :: trailingFactors nstr numlen (i + (j + 1))
    | none =>
      let ch := byteAt nstr i
      let pch := byteAt nstr (i - 1)
      (if ch = pch ∨ ch = pch + 1 ∨ ch + 1 = pch then 2 else 10) :: trailingFactors nstr numlen (i + 1)
  else []
termination_by numlen - i

/-- Of a number of more than two digits. -/
def trailingStart (nstr : List UInt8) : ℕ := if byteAt nstr 0 = 49 then 1 else if byteAt nstr 0 = 48 then 2 else 8

def trailingNumScore (A : Arith) (num numlen : ℕ) (nstr : List UInt8) : Option ℕ :=
  if numlen = 1 then some (if num ≤ 1 then 2 else 5)
  else if numlen = 2 then
    some (if num = 11 then 2 else if num = 69 ∨ num % 10 = num / 10 ∨ num % 10 + 1 = num / 10 then 4 else 8)
  else if numlen = 4 ∧ 1900 ≤ num ∧ num ≤ 2030 then some 10
  else (trailingFactors nstr numlen 1).foldlM A.mul (trailingStart nstr)

/-- The digits from the last one on. -/
def readNum (A : Arith) (digits : List UInt8) : ℕ := digits.reverse.foldl (fun num c => A.word (num * 10 + (c.toNat - 48))) 0

/-! ### The rest -/

/-- The rows of `passworddict`. -/
def passworddictSize : ℕ := 8525

/-- What `find_in_dict` answers at each offset of the three spellings of a password. -/
structure Lookups where
  password : ℕ → Fin 9
  lpassword : ℕ → Fin 9
  npassword : ℕ → Fin 9

inductive Class
  | low | up | num | punct | space | other
deriving DecidableEq, Repr

def Class.size : Class → ℕ
  | .low => 26
  | .up => 26
  | .num => 10
  | .punct => 20
  | .space => 2
  | .other => 10

def classOf (c : ℕ) : Class :=
  if isLower c then .low else if isUpper c then .up else if isDigit c then .num else if isPunct c then .punct
  else if isSpace c then .space else .other

/-- One round of the loop of `score_variants`. -/
structure Round where
  factors : List ℕ
  seen : Option Class
  counted : Bool
  /-- By how much `off` moves, less one. -/
  more : ℕ

/-- The round at a character that is no start of a word. -/
def charRound (password lpassword : List UInt8) (plen off : ℕ) : Round :=
  let ch := byteAt password off
  let seen := some (classOf ch)
  if off = 0 then
    if ch = 97 then ⟨[2], seen, false, 0⟩
    else if ch = 113 then ⟨[2], seen, false, 0⟩
    else if ch = 122 then ⟨[4], seen, false, 0⟩
    else if ch = 49 then ⟨[2], seen, false, 0⟩
    else ⟨[], seen, true, 0⟩
  else
    match findRepeat (fun j => j ≤ plen - off && (repeats password off j || repeats lpassword off j)) off with
    | some j => ⟨[if repeats password off (j + 1) then 1 + (j + 1) else 2 + (j + 1)], seen, false, j⟩
    | none =>
      let pch := byteAt password (off - 1)
      if charOf pch + 1 = charOf ch ∨ charOf pch - 1 = charOf ch then ⟨[2], seen, false, 0⟩
      else if keyboardBuddies pch ch then ⟨[2], seen, false, 0⟩
      else if keyboardBuddies (byteAt lpassword (off - 1)) (byteAt lpassword off) then ⟨[4], seen, false, 0⟩
      else ⟨[], seen, true, 0⟩

def wordRound (size d : ℕ) : Round := ⟨[size * d], none, false, d - 1⟩

def variantRound (look : Lookups) (password lpassword : List UInt8) (plen off : ℕ) : Round :=
  if look.password off ≠ 0 then wordRound (passworddictSize / 32) (look.password off)
  else if look.lpassword off ≠ 0 then wordRound (passworddictSize / 16) (look.lpassword off)
  else if look.npassword off ≠ 0 then wordRound (passworddictSize / 8) (look.npassword off)
  else charRound password lpassword plen off

def variantRounds (look : Lookups) (password lpassword : List UInt8) (plen off : ℕ) : List Round :=
  if off < plen then
    let round := variantRound look password lpassword plen off
    round :: variantRounds look password lpassword plen (off + (round.more + 1))
  else []
termination_by plen - off

/-- The number of characters of the classes that were seen. -/
def alphabet (seen : List Class) : ℕ :=
  (([.low, .up, .num, .punct, .space, .other].filter (· ∈ seen)).map Class.size).sum

/-- What `score_variants` multiplies by. -/
def variantFactors (look : Lookups) (password : List UInt8) : List ℕ :=
  let rounds := variantRounds look password (password.map toLower) password.length 0
  rounds.flatMap (·.factors) ++ List.replicate (rounds.countP (·.counted)) (alphabet (rounds.filterMap (·.seen)))

def scoreVariants (A : Arith) (look : Lookups) (password : List UInt8) : Option ℕ := (variantFactors look password).foldlM A.mul 1

/-! ### The whole -/

def uintSqrtLoop (A : Arith) (n l h m : ℕ) : Option ℕ :=
  if l + 1 < h then do
    let m := (h + l) / 2
    let m2 ← A.square m
    if m2 > n then uintSqrtLoop A n l m m
    else if m2 < n then uintSqrtLoop A n m h m
    else some m
  else some m
termination_by h - l

def uintSqrt (A : Arith) (n : ℕ) : Option ℕ := if n = 1 then some 1 else uintSqrtLoop A n 1 (n / 2) 1

/-- A square root for each time that the number of ones can be halved. -/
def sqrtOnes (A : Arith) (nlen score : ℕ) : Option ℕ :=
  if 2 ≤ nlen then do sqrtOnes A (nlen / 2) (← uintSqrt A score) else some score
termination_by nlen

/-- A password cut at what `psync_password_score` takes off its end. -/
structure Cut where
  bangs : ℕ
  ones : ℕ
  puncts : ℕ
  digits : List UInt8
  morePuncts : ℕ
  rest : List UInt8

def Cut.of (password : List UInt8) : Cut :=
  let bang : UInt8 → Bool := fun c => c.toNat = 33
  let one : UInt8 → Bool := fun c => c.toNat = 49
  let punct : UInt8 → Bool := fun c => isPunct c.toNat
  let digit : UInt8 → Bool := fun c => isDigit c.toNat
  let unbanged := password.rdropWhile bang
  let unoned := unbanged.rdropWhile one
  let unpuncted := unoned.rdropWhile punct
  let digits := unpuncted.rtakeWhile digit
  let undigited := unpuncted.rdropWhile digit
  { bangs := (password.rtakeWhile bang).length
    ones := (unbanged.rtakeWhile one).length
    puncts := (unoned.rtakeWhile punct).length
    digits := digits
    morePuncts := if digits = [] then 0 else (undigited.rtakeWhile punct).length
    rest := if digits = [] then undigited else undigited.rdropWhile punct }

/-- What is left of the score behind the ones. -/
def startScore (A : Arith) (cut : Cut) : Option ℕ := do
  let score ← (List.replicate cut.bangs 2).foldlM A.mul 1
  let score ← (List.replicate cut.ones 2).foldlM A.mul score
  sqrtOnes A cut.ones score

/-- Punctuation in the end; `ch` is zero throughout, so that no character is like the one before. -/
def punctScore (A : Arith) (count score : ℕ) : Option ℕ := (List.replicate count 10).foldlM A.mul score

def digitScore (A : Arith) (cut : Cut) (score : ℕ) : Option ℕ :=
  if cut.digits = [] then some score
  else do
    let num ← A.answer (trailingNumScore A (readNum A cut.digits) cut.digits.length cut.digits)
    let score ← A.mul score num
    punctScore A cut.morePuncts score

def restScore (A : Arith) (look : Lookups) (cut : Cut) (score : ℕ) : Option ℕ :=
  if cut.rest = [] then some score
  else do
    let num ← A.answer (scoreVariants A look cut.rest)
    A.mul score num

/-- `psync_password_score`, up to the return in `mul_score`. -/
def passwordScore (A : Arith) (look : Lookups) (password : List UInt8) : Option ℕ := do
  let cut := Cut.of password
  let score ← startScore A cut
  let score ← punctScore A cut.puncts score
  let score ← digitScore A cut score
  restScore A look cut score

/-- `psync_password_score` -/
def psyncPasswordScore (look : Lookups) (password : List UInt8) : ℕ := (passwordScore machine look password).getD overflow

/-- `psync_password_quality` -/
def psyncPasswordQuality (look : Lookups) (password : List UInt8) : ℕ :=
  let score := psyncPasswordScore look password
  if score < 2 ^ 30 then 0 else if score < 2 ^ 40 then 1 else 2

end Pclsync.Password
