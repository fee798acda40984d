import Mathlib.Algebra.BigOperators.Fin
import Mathlib.Algebra.Order.BigOperators.Group.Finset
import Pclsync.Lib.Transition

/-! The speed of the transfers, and the limits that a user sets for it: `account_downloaded_bytes` and
`account_uploaded_bytes` of `pnetlibs.c`, and the loops that keep a limit in `psync_socket_readall_download` and
`psync_socket_writeall_upload`. -/
namespace Pclsync.Transfers.Speed
open Lib.Transition

structure TimeBytes where
  tm : ℕ
  bytes : ℕ

/-- The counters of a direction. `PSYNC_SPEED_CALC_AVERAGE_SEC` is 8. -/
structure Meter where
  bytesSec : Fin 8 → TimeBytes
  bytesOff : Fin 8
  currentSec : ℕ
  bytesThisSec : ℕ
  speed : ℕ

theorem eight_pos : 0 < 8 := by decide

def Meter.start : Meter := ⟨fun _ => ⟨0, 0⟩, ⟨0, eight_pos⟩, 0, 0, 0⟩

/-- `(off+1)%PSYNC_SPEED_CALC_AVERAGE_SEC` -/
def nextOff (off : Fin 8) : Fin 8 := ⟨(off.val + 1) % 8, Nat.mod_lt _ eight_pos⟩

/-- The bytes of the seconds from `from` on that the array has. -/
def recent (bytesSec : Fin 8 → TimeBytes) (since : ℕ) : ℕ := ∑ i, if since ≤ (bytesSec i).tm then (bytesSec i).bytes else 0

def Meter.account (m : Meter) (now bytes : ℕ) : Meter :=
  if m.currentSec = now then { m with bytesThisSec := m.bytesThisSec + bytes }
  else
    let bytesSec := Function.update m.bytesSec m.bytesOff ⟨m.currentSec, m.bytesThisSec⟩
    { bytesSec, bytesOff := nextOff m.bytesOff, currentSec := now, bytesThisSec := bytes, speed := recent bytesSec (now - 8) / 8 }

/-- `get_download_bytes_this_sec` and `get_upload_bytes_this_sec` -/
def Meter.thisSec (m : Meter) (now : ℕ) : ℕ := if m.currentSec = now then m.bytesThisSec else 0

/-- The bytes of the calls from one second on and before another. -/
def between (calls : List (ℕ × ℕ)) (since stop : ℕ) : ℕ :=
  ((calls.filter fun c => since ≤ c.1 ∧ c.1 < stop).map Prod.snd).sum

variable {m : Meter} {calls : List (ℕ × ℕ)} {now bytes since mid stop : ℕ}

theorem between_cons : between ((now, bytes) :: calls) since stop =
    (if since ≤ now ∧ now < stop then bytes else 0) + between calls since stop := by
  unfold between
  rw [List.filter_cons]
  split_ifs with h h' h'
  · rw [List.map_cons, List.sum_cons]
  · exact absurd (of_decide_eq_true h) h'
  · exact absurd (decide_eq_true h') h
  · rw [Nat.zero_add]

theorem between_split (hmid : since ≤ mid) (hstop : mid ≤ stop) :
    between calls since stop = between calls since mid + between calls mid stop := by
  induction calls with
  | nil => rfl
  | cons c calls ih =>
    rw [between_cons, between_cons, between_cons, ih]
    split_ifs <;> omega

theorem between_none (h : ∀ c ∈ calls, c.1 < since ∨ stop ≤ c.1) : between calls since stop = 0 := by
  induction calls with
  | nil => rfl
  | cons c calls ih =>
    obtain ⟨hc, hcalls⟩ := List.forall_mem_cons.mp h
    rw [between_cons, ih hcalls, if_neg (by omega)]

/-- The counters are those of the calls, the last one first. An entry of the array that is to be overwritten is too old
to be counted again. -/
structure Metered (calls : List (ℕ × ℕ)) (m : Meter) : Prop where
  past : ∀ c ∈ calls, c.1 ≤ m.currentSec
  this : m.bytesThisSec = between calls m.currentSec (m.currentSec + 1)
  ages : ∀ k : Fin 8, (m.bytesSec (m.bytesOff + k)).bytes = 0 ∨ (m.bytesSec (m.bytesOff + k)).tm + (8 - k) ≤ m.currentSec
  window : ∀ since, m.currentSec ≤ since + 8 → recent m.bytesSec since = between calls since m.currentSec
  speed : m.speed = between calls (m.currentSec - 8) m.currentSec / 8

theorem Metered.start : Metered [] .start := by
  refine ⟨by simp, rfl, fun _ => .inl rfl, fun since _ => ?_, rfl⟩
  simp [recent, Meter.start, between]

/-- An entry in the place of one that is not counted. -/
theorem recent_update {bytesSec : Fin 8 → TimeBytes} {i : Fin 8} {e : TimeBytes}
    (h : (bytesSec i).bytes = 0 ∨ (bytesSec i).tm < since) :
    recent (Function.update bytesSec i e) since = (if since ≤ e.tm then e.bytes else 0) + recent bytesSec since := by
  unfold recent
  rw [← Finset.add_sum_erase _ _ (Finset.mem_univ i), ← Finset.add_sum_erase _ _ (Finset.mem_univ i), Function.update_self]
  have hold : (if since ≤ (bytesSec i).tm then (bytesSec i).bytes else 0) = 0 := by
    rcases h with h | h
    · rw [h, ite_self]
    · exact if_neg (Nat.not_le.mpr h)
  rw [hold, Nat.zero_add]
  congr 1
  refine Finset.sum_congr rfl fun j hj => ?_
  rw [Function.update_of_ne (Finset.ne_of_mem_erase hj)]

/-- The places of the array after the next one, and the one that was written. -/
theorem next_place (off k : Fin 8) : (nextOff off + k = off ∧ k.val = 7) ∨
    ∃ j : Fin 8, nextOff off + k = off + j ∧ off + j ≠ off ∧ j.val = k.val + 1 := by
  have hoff := off.isLt
  have hk := k.isLt
  by_cases hlast : k.val = 7
  · refine .inl ⟨Fin.ext ?_, hlast⟩
    simp only [Fin.val_add, nextOff]
    omega
  · refine .inr ⟨⟨k.val + 1, by omega⟩, Fin.ext ?_, fun heq => ?_, rfl⟩
    · simp only [Fin.val_add, nextOff]
      omega
    · have heq := congrArg Fin.val heq
      simp only [Fin.val_add] at heq
      omega

theorem account_currentSec : (m.account now bytes).currentSec = now := by
  unfold Meter.account
  split_ifs with h
  · exact h
  · rfl

theorem Metered.account (h : Metered calls m) (hnow : m.currentSec ≤ now) : Metered ((now, bytes) :: calls) (m.account now bytes) := by
  unfold Meter.account
  split_ifs with hsec
  · subst hsec
    have hwindow : ∀ since, between ((m.currentSec, bytes) :: calls) since m.currentSec = between calls since m.currentSec :=
      fun since => by rw [between_cons, if_neg (by omega), Nat.zero_add]
    refine ⟨List.forall_mem_cons.mpr ⟨le_rfl, h.past⟩, ?_, h.ages, fun since hs => ?_, ?_⟩
    · rw [between_cons, if_pos ⟨le_rfl, Nat.lt_succ_self _⟩, ← h.this, Nat.add_comm]
    · rw [hwindow]
      exact h.window since hs
    · rw [hwindow]
      exact h.speed
  · have hlt : m.currentSec < now := Nat.lt_of_le_of_ne hnow hsec
    have hsum : ∀ since, now ≤ since + 8 →
        recent (Function.update m.bytesSec m.bytesOff ⟨m.currentSec, m.bytesThisSec⟩) since =
          between ((now, bytes) :: calls) since now := fun since hs => by
      have hoff := h.ages 0
      rw [Fin.add_zero] at hoff
      have hold : (m.bytesSec m.bytesOff).bytes = 0 ∨ (m.bytesSec m.bytesOff).tm < since := by
        refine hoff.imp_right fun hoff => ?_
        have hzero : ((0 : Fin 8) : ℕ) = 0 := rfl
        omega
      have hlast : between ((now, bytes) :: calls) since now = between calls since now := by
        rw [between_cons, if_neg (by omega), Nat.zero_add]
      rw [recent_update hold, h.window since (by omega), hlast]
      -- the seconds since the last call had no bytes
      have hquiet : between calls (m.currentSec + 1) now = 0 :=
        between_none fun c hc => .inl (Nat.lt_succ_of_le (h.past c hc))
      split_ifs with hin
      · rw [between_split hin (Nat.le_of_lt hlt), between_split (Nat.le_succ _) hlt, hquiet, Nat.add_zero, ← h.this, Nat.add_comm]
      · rw [between_none fun c hc => ?_, between_none fun c hc => ?_]
        all_goals
          have hc := h.past c hc
          dsimp only at hin
          omega
    refine ⟨List.forall_mem_cons.mpr ⟨le_rfl, fun c hc => (h.past c hc).trans hnow⟩, ?_, fun k => ?_, hsum, ?_⟩
    · rw [between_cons, if_pos ⟨le_rfl, Nat.lt_succ_self _⟩, between_none fun c hc => .inl ((h.past c hc).trans_lt hlt), Nat.add_zero]
    · dsimp only
      rcases next_place m.bytesOff k with ⟨heq, hk⟩ | ⟨j, heq, hne, hj⟩
      · rw [heq, Function.update_self]
        refine .inr ?_
        dsimp only
        omega
      · rw [heq, Function.update_of_ne hne]
        refine (h.ages j).imp_right fun hage => ?_
        omega
    · exact congrArg (· / 8) (hsum (now - 8) (by omega))

/-- The counters after some calls, the last one first. -/
def Meter.after : List (ℕ × ℕ) → Meter
  | [] => .start
  | (now, bytes) :: calls => (Meter.after calls).account now bytes

theorem metered_after (h : calls.Pairwise fun a b => b.1 ≤ a.1) : Metered calls (.after calls) := by
  induction calls with
  | nil => exact .start
  | cons c calls ih =>
    obtain ⟨hc, hcalls⟩ := List.pairwise_cons.mp h
    refine (ih hcalls).account ?_
    cases calls with
    | nil => exact Nat.zero_le _
    | cons d calls =>
      exact account_currentSec.le.trans (hc d (List.mem_cons_self ..))

/-- The speed is the mean of the eight seconds before the one of the last call. -/
theorem speed_is_mean (h : ((now, bytes) :: calls).Pairwise fun a b => b.1 ≤ a.1) :
    (Meter.after ((now, bytes) :: calls)).speed = between calls (now - 8) now / 8 := by
  have hspeed := (metered_after h).speed
  rw [show (Meter.after ((now, bytes) :: calls)).currentSec = now from account_currentSec, between_cons, if_neg (by omega), Nat.zero_add] at hspeed
  exact hspeed

/-- Two seconds of transfers, and a call in a later one. -/
theorem speed_is_mean_three : (Meter.after [(14, 9), (7, 16), (5, 32)]).speed = between [(7, 16), (5, 32)] 6 14 / 8 :=
  speed_is_mean (by simp)

/-! ### The limit -/

inductive Direction where
  | download
  | upload
deriving DecidableEq

/-- Where a thread is in the loop. -/
inductive Phase where
  /-- Not in the function, with what it returned last. -/
  | out (ret : ℤ)
  | loop (num sofar : ℕ)
  /-- In `psync_socket_read` or `psync_socket_write`. -/
  | asked (num sofar amount : ℕ)

def Phase.amount : Phase → ℕ
  | .asked _ _ amount => amount
  | _ => 0

structure State (R : Type) where
  meter : Meter
  /-- `psync_current_time` -/
  now : ℕ
  phase : R → Phase
  /-- The calls that counted bytes, the last one first. -/
  calls : List (ℕ × ℕ)

variable {R : Type}

structure Initial (s : State R) : Prop where
  meter : s.meter = .start
  phase : ∀ r, ∃ ret, s.phase r = .out ret
  calls : s.calls = []

def State.account (s : State R) (bytes : ℕ) : State R :=
  { s with meter := s.meter.account s.now bytes, calls := (s.now, bytes) :: s.calls }

section
variable [DecidableEq R]

def State.to (s : State R) (r : R) (phase : Phase) : State R := { s with phase := Function.update s.phase r phase }

/-- The steps of the threads `some r` that transfer under the limit, and of the clock and `psync_netlibs_timer`. -/
inductive Step (direction : Direction) (limit : ℕ) (s : State R) : Option R → State R → Prop where
  | pass (seconds : ℕ) : Step direction limit s none { s with now := s.now + seconds }
  | timer : Step direction limit s none (s.account 0)
  | call {r : R} {ret : ℤ} (num : ℕ) : s.phase r = .out ret → Step direction limit s (some r) (s.to r (.loop num 0))
  | ask {r : R} {num sofar : ℕ} : s.phase r = .loop num sofar → 0 < num → s.meter.thisSec s.now < limit →
      Step direction limit s (some r) (s.to r (.asked num sofar (min num (limit - s.meter.thisSec s.now))))
  /-- A read of nothing is the end, a write of nothing is not. -/
  | transfer {r : R} {num sofar amount : ℕ} (bytes : ℕ) : s.phase r = .asked num sofar amount → bytes ≤ amount →
      (direction = .download → 0 < bytes) →
      Step direction limit s (some r) ((s.account bytes).to r (.loop (num - bytes) (sofar + bytes)))
  | fail {r : R} {num sofar amount : ℕ} {ret : ℤ} : s.phase r = .asked num sofar amount →
      ret = -1 ∨ direction = .download ∧ ret ≤ 0 →
      Step direction limit s (some r) (s.to r (.out (if sofar = 0 then ret else sofar)))
  | finish {r : R} {sofar : ℕ} : s.phase r = .loop 0 sofar → Step direction limit s (some r) (s.to r (.out sofar))

end

variable [Fintype R]

/-- What the threads asked for fits in their limits with what was counted in this second. -/
structure Limited (limit : ℕ) (s : State R) : Prop where
  metered : Metered s.calls s.meter
  current : s.meter.currentSec ≤ s.now
  asked : ∀ r, (s.phase r).amount ≤ limit
  room : s.meter.thisSec s.now + ∑ r, (s.phase r).amount ≤ Fintype.card R * limit
  seconds : ∀ second, between s.calls second (second + 1) ≤ Fintype.card R * limit

variable {direction : Direction} {limit : ℕ} {s s' : State R} {r : R} {t : Option R} {phase : R → Phase}

theorem Initial.limited (h : Initial s) : Limited limit s := by
  have hidle : ∀ r, (s.phase r).amount = 0 := fun r => by
    obtain ⟨ret, hret⟩ := h.phase r
    rw [hret]
    rfl
  refine ⟨?_, ?_, fun r => ?_, ?_, fun second => ?_⟩
  · rw [h.calls, h.meter]
    exact .start
  · rw [h.meter]
    exact Nat.zero_le _
  · rw [hidle]
    exact Nat.zero_le _
  · rw [h.meter, Finset.sum_eq_zero fun r _ => hidle r, Meter.thisSec, Meter.start, ite_self]
    exact Nat.zero_le _
  · rw [h.calls]
    exact Nat.zero_le _

/-- Bytes that were asked for are counted. -/
theorem Limited.count (h : Limited limit s) (hasked : ∀ r, (phase r).amount ≤ limit)
    (hsum : bytes + ∑ r, (phase r).amount ≤ ∑ r, (s.phase r).amount) : Limited limit { s.account bytes with phase } := by
  have hmetered : Metered ((s.now, bytes) :: s.calls) (s.meter.account s.now bytes) := h.metered.account h.current
  have hroom : (s.meter.account s.now bytes).bytesThisSec + ∑ r, (phase r).amount ≤ Fintype.card R * limit := by
    have hamounts : ∑ r, (s.phase r).amount ≤ Fintype.card R * limit := Finset.sum_le_card_nsmul _ _ _ fun r _ => h.asked r
    have hroom := h.room
    rw [Meter.thisSec] at hroom
    unfold Meter.account
    split_ifs at hroom ⊢
    · dsimp only
      omega
    · dsimp only
      omega
  refine ⟨hmetered, account_currentSec.le, hasked, ?_, fun second => ?_⟩
  · rw [Meter.thisSec]
    split_ifs
    · exact hroom
    · exact (Nat.zero_add _).le.trans ((Nat.le_add_left ..).trans hroom)
  · by_cases hsecond : second = s.now
    · have hthis := hmetered.this
      rw [account_currentSec] at hthis
      rw [hsecond]
      exact hthis.symm.le.trans ((Nat.le_add_right ..).trans hroom)
    · show between ((s.now, bytes) :: s.calls) second (second + 1) ≤ _
      rw [between_cons, if_neg (by omega), Nat.zero_add]
      exact h.seconds second

variable [DecidableEq R]

theorem sum_to {p : Phase} : ∑ q, (Function.update s.phase r p q).amount = p.amount + ∑ q ∈ Finset.univ.erase r, (s.phase q).amount := by
  rw [← Finset.add_sum_erase _ _ (Finset.mem_univ r), Function.update_self]
  congr 1
  refine Finset.sum_congr rfl fun q hq => ?_
  rw [Function.update_of_ne (Finset.ne_of_mem_erase hq)]

/-- What the other threads asked for leaves a limit. -/
theorem Limited.others_le (h : Limited limit s) (r : R) :
    limit + ∑ q ∈ Finset.univ.erase r, (s.phase q).amount ≤ Fintype.card R * limit := by
  have hle := Finset.sum_le_sum fun q (_ : q ∈ Finset.univ.erase r) => h.asked q
  have hall : limit + ∑ _ ∈ Finset.univ.erase r, limit = Fintype.card R * limit := by
    rw [Finset.add_sum_erase _ (fun _ => limit) (Finset.mem_univ r), Finset.sum_const, Finset.card_univ, smul_eq_mul]
  omega

theorem Limited.asked_to {p : Phase} (h : Limited limit s) (hp : p.amount ≤ limit) (q : R) :
    (Function.update s.phase r p q).amount ≤ limit := by
  by_cases hq : q = r
  · rw [hq, Function.update_self]
    exact hp
  · rw [Function.update_of_ne hq]
    exact h.asked q

/-- A thread goes on, and asks for no more than there is. -/
theorem Limited.to {p : Phase} (h : Limited limit s) (hp : p.amount ≤ limit - s.meter.thisSec s.now) : Limited limit (s.to r p) := by
  refine ⟨h.metered, h.current, h.asked_to (hp.trans (Nat.sub_le ..)), ?_, h.seconds⟩
  have hothers := h.others_le r
  have hroom := h.room
  rw [← Finset.add_sum_erase _ _ (Finset.mem_univ r)] at hroom
  show s.meter.thisSec s.now + ∑ q, (Function.update s.phase r p q).amount ≤ _
  rw [sum_to]
  omega

theorem Limited.step (h : Limited limit s) (hstep : Step direction limit s t s') : Limited limit s' := by
  cases hstep with
  | pass seconds =>
    refine ⟨h.metered, h.current.trans (Nat.le_add_right ..), h.asked, ?_, h.seconds⟩
    have hroom := h.room
    have hcurrent := h.current
    unfold Meter.thisSec at hroom ⊢
    dsimp only
    split_ifs at hroom ⊢ <;> omega
  | timer => exact h.count h.asked (Nat.zero_add _).le
  | call num hphase => exact h.to (Nat.zero_le _)
  | ask hphase hnum hthis => exact h.to (Nat.min_le_right ..)
  | @transfer r num sofar amount bytes hphase hbytes hsome =>
    refine h.count (h.asked_to (Nat.zero_le _)) ?_
    rw [sum_to, ← Finset.add_sum_erase _ (fun q => (s.phase q).amount) (Finset.mem_univ r), hphase]
    exact Nat.add_le_add (by exact hbytes) (Nat.zero_add _).le
  | fail hphase hret => exact h.to (Nat.zero_le _)
  | finish hphase => exact h.to (Nat.zero_le _)

end Pclsync.Transfers.Speed
