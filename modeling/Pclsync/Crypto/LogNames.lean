import Pclsync.Lib.Machine

/-! The names of the logs in the cache directory, and what a task is paused by when a log cannot be read. -/
namespace Pclsync.Crypto.LogNames
open Lib.Machine

/-! ### The code -/

/-- The row of `__hex_lookup` of a byte, one of its two characters. -/
def hexDigit (n : ℕ) : ℕ := if n < 10 then 48 + n else 87 + n

/-- A byte of the task id in memory. -/
def idByte (taskid i : ℕ) : ℕ := taskid / 256 ^ i % 256

/-- `psync_binhex(fileidhex, &fileid, sizeof(psync_fsfileid_t))` -/
def binhex (taskid : ℕ) (i : ℕ) : ℕ :=
  if i % 2 = 0 then hexDigit (idByte taskid (i / 2) / 16) else hexDigit (idByte taskid (i / 2) % 16)

/-- `sizeof(psync_fsfileid_t)` -/
def sizeofFsfileid : ℕ := 8

/-- `fileidhex`, with a letter and a zero put behind `sizeof(psync_fsfileid_t)` characters. -/
def fileidhex (taskid letter : ℕ) : ℕ → ℕ :=
  Function.update (Function.update (binhex taskid) sizeofFsfileid letter) (sizeofFsfileid + 1) 0

def isxdigit (c : ℕ) : Bool := (48 ≤ c && c ≤ 57) || (97 ≤ c && c ≤ 102) || (65 ≤ c && c ≤ 70)

/-- `conv_xdigit`, of a character below 128. -/
def convXdigit (dig : ℕ) : ℕ :=
  if 48 ≤ dig ∧ dig ≤ 57 then dig - 48
  else if 97 ≤ dig ∧ dig ≤ 102 then dig - 97 + 10
  else u32 (2 ^ 32 + dig - 65 + 10)

/-- The loop of `psync_fs_pause_task_by_name`. -/
def taskidFrom (fn : ℕ → ℕ) : (fuel pos taskid mul : ℕ) → Option ℕ
  | 0, _, _, _ => none
  | fuel + 1, pos, taskid, mul =>
    if isxdigit (fn pos) && isxdigit (fn (pos + 1)) then
      let pos := pos + 2
      let taskid := u64 (taskid + u64 (mul * u32 (convXdigit (fn pos) * 16 + convXdigit (fn (pos + 1)))))
      taskidFrom fn fuel pos taskid (u64 (mul * 256))
    else some taskid

/-- The task that `psync_fs_pause_task_by_name` pauses. -/
def pausedTask (fuel : ℕ) (fn : ℕ → ℕ) : Option ℕ := taskidFrom fn fuel 0 0 1

/-- `l` and `f` -/
def letterL : ℕ := 108
def letterF : ℕ := 102

/-! ### Which task is paused -/

/-- By the name of its log a task is paused itself, whatever is behind the name. -/
def PausesOwn (letter taskid : ℕ) : Prop :=
  ∀ fuel fn, 10 ≤ fuel → (∀ i ≤ sizeofFsfileid + 1, fn i = fileidhex taskid letter i) → pausedTask fuel fn = some taskid

variable {taskid letter fuel pos mul n : ℕ} {fn : ℕ → ℕ}

theorem isxdigit_hexDigit (hn : n < 16) : isxdigit (hexDigit n) = true := by
  revert n
  decide

theorem convXdigit_hexDigit (hn : n < 16) : convXdigit (hexDigit n) = n := by
  revert n
  decide

theorem idByte_lt {i : ℕ} : idByte taskid i < 256 := Nat.mod_lt _ (by decide)

/-- The two characters of a byte. -/
theorem binhex_pair (i : ℕ) : binhex taskid (2 * i) = hexDigit (idByte taskid i / 16) ∧ binhex taskid (2 * i + 1) = hexDigit (idByte taskid i % 16) := by
  constructor
  · rw [binhex, if_pos (by omega), show 2 * i / 2 = i by omega]
  · rw [binhex, if_neg (by omega), show (2 * i + 1) / 2 = i by omega]

/-- A name up to its letter is that of the four low bytes. -/
theorem fileidhex_pair {i : ℕ} (hi : i < 4) : fileidhex taskid letter (2 * i) = hexDigit (idByte taskid i / 16) ∧
    fileidhex taskid letter (2 * i + 1) = hexDigit (idByte taskid i % 16) := by
  have hsize : sizeofFsfileid = 8 := rfl
  unfold fileidhex
  rw [Function.update_of_ne (by omega), Function.update_of_ne (by omega), Function.update_of_ne (by omega), Function.update_of_ne (by omega)]
  exact binhex_pair i

/-- The letter and the zero behind it as a pair of digits. -/
def letterPair (letter : ℕ) : ℕ := u32 (convXdigit letter * 16 + convXdigit 0)

/-- A name of which the function reads the pairs behind the first one. -/
structure Reads (fn : ℕ → ℕ) (taskid letter : ℕ) : Prop where
  digits : ∀ i < 4, isxdigit (fn (2 * i)) && isxdigit (fn (2 * i + 1))
  value : ∀ i < 4, u32 (convXdigit (fn (2 * i)) * 16 + convXdigit (fn (2 * i + 1))) = idByte taskid i
  last : u32 (convXdigit (fn 8) * 16 + convXdigit (fn 9)) = letterPair letter
  ends : ¬(isxdigit (fn 8) && isxdigit (fn 9))

theorem reads_of_name (hname : ∀ i ≤ sizeofFsfileid + 1, fn i = fileidhex taskid letter i) : Reads fn taskid letter := by
  have hsize : sizeofFsfileid = 8 := rfl
  have hpair : ∀ i < 4, fn (2 * i) = hexDigit (idByte taskid i / 16) ∧ fn (2 * i + 1) = hexDigit (idByte taskid i % 16) := fun i hi => by
    rw [hname _ (by omega), hname _ (by omega)]
    exact fileidhex_pair hi
  have hletter : fn 8 = letter := by
    rw [hname 8 (by omega), fileidhex, Function.update_of_ne (by omega)]
    exact Function.update_self ..
  have hzero : fn 9 = 0 := by
    rw [hname 9 (by omega)]
    exact Function.update_self ..
  have hbyte : ∀ i, idByte taskid i / 16 < 16 ∧ idByte taskid i % 16 < 16 := fun i => by
    have hlt := @idByte_lt taskid i
    omega
  refine ⟨fun i hi => ?_, fun i hi => ?_, ?_, ?_⟩
  · obtain ⟨hhigh, hlow⟩ := hpair i hi
    rw [hhigh, hlow, isxdigit_hexDigit (hbyte i).1, isxdigit_hexDigit (hbyte i).2]
    rfl
  · obtain ⟨hhigh, hlow⟩ := hpair i hi
    have hlt := @idByte_lt taskid i
    rw [hhigh, hlow, convXdigit_hexDigit (hbyte i).1, convXdigit_hexDigit (hbyte i).2, u32_of_lt (by omega)]
    omega
  · rw [hletter, hzero, letterPair]
  · rw [hzero, Bool.and_eq_true]
    exact fun h => absurd h.2 (by decide)

theorem taskidFrom_step (hdigits : isxdigit (fn pos) && isxdigit (fn (pos + 1))) : taskidFrom fn (fuel + 1) pos taskid mul =
    taskidFrom fn fuel (pos + 2) (u64 (taskid + u64 (mul * u32 (convXdigit (fn (pos + 2)) * 16 + convXdigit (fn (pos + 2 + 1))))))
      (u64 (mul * 256)) := by
  rw [taskidFrom, if_pos hdigits]

/-- The pair of digits of each byte is taken for that of the byte before. -/
theorem Reads.paused (hr : Reads fn taskid letter) (hletter : letterPair letter < 2 ^ 16) (hfuel : 10 ≤ fuel) : pausedTask fuel fn =
    some (idByte taskid 1 + 256 * idByte taskid 2 + 65536 * idByte taskid 3 + 16777216 * letterPair letter) := by
  obtain ⟨fuel, rfl⟩ := Nat.exists_eq_add_of_le hfuel
  have h1 := @idByte_lt taskid 1
  have h2 := @idByte_lt taskid 2
  have h3 := @idByte_lt taskid 3
  rw [pausedTask, show 10 + fuel = fuel + 5 + 1 + 1 + 1 + 1 + 1 by omega, taskidFrom_step (hr.digits 0 (by decide)),
    taskidFrom_step (hr.digits 1 (by decide)), taskidFrom_step (hr.digits 2 (by decide)), taskidFrom_step (hr.digits 3 (by decide)),
    taskidFrom, if_neg hr.ends]
  have hv1 : u32 (convXdigit (fn (0 + 2)) * 16 + convXdigit (fn (0 + 2 + 1))) = idByte taskid 1 := hr.value 1 (by decide)
  have hv2 : u32 (convXdigit (fn (0 + 2 + 2)) * 16 + convXdigit (fn (0 + 2 + 2 + 1))) = idByte taskid 2 := hr.value 2 (by decide)
  have hv3 : u32 (convXdigit (fn (0 + 2 + 2 + 2)) * 16 + convXdigit (fn (0 + 2 + 2 + 2 + 1))) = idByte taskid 3 := hr.value 3 (by decide)
  have hv4 : u32 (convXdigit (fn (0 + 2 + 2 + 2 + 2)) * 16 + convXdigit (fn (0 + 2 + 2 + 2 + 2 + 1))) = letterPair letter := hr.last
  have hm1 : u64 (1 * 256) = 256 := by decide
  have hm2 : u64 (256 * 256) = 65536 := by decide
  have hm3 : u64 (65536 * 256) = 16777216 := by decide
  rw [hv1, hv2, hv3, hv4, hm1, hm2, hm3]
  simp only [u64]
  exact congrArg some (by omega)

/-- For every task id the function pauses another task, but for two ids that the letter and the zero behind it happen to spell. -/
theorem pausesOwn_iff (hletter : letter = letterL ∨ letter = letterF) :
    PausesOwn letter taskid ↔ letter = letterL ∧ taskid = 0x319191919 ∨ letter = letterF ∧ taskid = 0xb9b9b9b9 := by
  have hpair : letterPair letterL = 793 ∧ letterPair letterF = 185 := by decide
  have hsmall : letterPair letter < 2 ^ 16 := by
    rcases hletter with rfl | rfl
    · rw [hpair.1]
      decide
    · rw [hpair.2]
      decide
  have hne : letterL ≠ letterF := by decide
  have hbyte1 : idByte taskid 1 = taskid / 256 % 256 := rfl
  have hbyte2 : idByte taskid 2 = taskid / 65536 % 256 := rfl
  have hbyte3 : idByte taskid 3 = taskid / 16777216 % 256 := rfl
  have hown : PausesOwn letter taskid ↔
      idByte taskid 1 + 256 * idByte taskid 2 + 65536 * idByte taskid 3 + 16777216 * letterPair letter = taskid := by
    constructor
    · intro howns
      have hread := (reads_of_name fun i _ => rfl : Reads (fileidhex taskid letter) taskid letter)
      exact Option.some.inj ((hread.paused hsmall le_rfl).symm.trans (howns 10 _ le_rfl fun i _ => rfl))
    · intro heq fuel fn hfuel hname
      rw [(reads_of_name hname).paused hsmall hfuel, heq]
  rw [hown, hbyte1, hbyte2, hbyte3]
  clear hown
  rcases hletter with rfl | rfl
  · rw [hpair.1]
    have hfalse : ¬(letterL = letterF ∧ taskid = 0xb9b9b9b9) := fun h => hne h.1
    rw [or_iff_left hfalse, and_iff_right rfl]
    refine ⟨fun heq => ?_, fun heq => by rw [heq]⟩
    have hhigh : taskid / 16777216 = 793 := by omega
    have hmid : taskid / 65536 = 793 * 256 + 25 := by omega
    have hlow : taskid / 256 = (793 * 256 + 25) * 256 + 25 := by omega
    omega
  · rw [hpair.2]
    have hfalse : ¬(letterF = letterL ∧ taskid = 0x319191919) := fun h => hne h.1.symm
    rw [or_iff_right hfalse, and_iff_right rfl]
    refine ⟨fun heq => ?_, fun heq => by rw [heq]⟩
    have hhigh : taskid / 16777216 = 185 := by omega
    have hmid : taskid / 65536 = 185 * 256 + 185 := by omega
    have hlow : taskid / 256 = (185 * 256 + 185) * 256 + 185 := by omega
    omega

theorem pausesOwn_iff_one : PausesOwn letterF 1 ↔ letterF = letterL ∧ 1 = 0x319191919 ∨ letterF = letterF ∧ 1 = 0xb9b9b9b9 :=
  pausesOwn_iff (.inr rfl)

/-- The log of task 1. -/
theorem first_task_not_paused : ¬∀ taskid < 2 ^ 64, PausesOwn letterF taskid := by
  intro hall
  have hread := (reads_of_name fun i _ => rfl : Reads (fileidhex 1 letterF) 1 letterF)
  have hpaused := (hread.paused (by decide) le_rfl).symm.trans (hall 1 (by decide) 10 _ le_rfl fun i _ => rfl)
  exact absurd hpaused (by decide)

end Pclsync.Crypto.LogNames
