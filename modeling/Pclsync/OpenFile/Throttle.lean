import Mathlib.Order.Nat
import Mathlib.Tactic.Common
import Pclsync.Lib.Transition
import Pclsync.OpenFile.WriteSpace

/-! `psync_fs_throttle` of `pfs.c`, called by any number of writers. -/
namespace Pclsync.OpenFile.Shaper
open Lib.Machine Lib.Transition

def maxShaperSleepSec : ℕ := 8

/-- A call. `currsec` is what it read of the clock, once it has. -/
structure Writer where
  size : ℕ
  speed : ℕ
  cnt : ℕ
  currsec : Option ℕ
deriving DecidableEq, Repr

/-- A call charged bytes to a second, and left `writtenthissec`. -/
structure Charge where
  sec : ℕ
  speed : ℕ
  bytes : ℕ
  written : ℕ
deriving DecidableEq, Repr

structure State where
  now : ℕ
  thissec : ℕ
  writtenthissec : ℕ
  writers : List Writer
  charges : List Charge
  /-- A fault, or an assertion that failed. -/
  failed : Bool
deriving DecidableEq, Repr

inductive Event where
  /-- A write comes to `psync_fs_do_check_write_space`. -/
  | write (r : Request)
  /-- The clock shows something else. -/
  | clock (now : ℕ)
  /-- A writer reads the clock. -/
  | read (i : ℕ)
  /-- A writer does what it does under the mutex. -/
  | charge (i : ℕ)

/-- `currsec!=thissec`. -/
def State.atSecond (st : State) (currsec : ℕ) : State :=
  if currsec ≠ st.thissec then { st with thissec := currsec, writtenthissec := 0 } else st

/-- The call waits for the next second, and may have waited often enough. -/
def State.again (st : State) (i : ℕ) (w : Writer) : State :=
  if w.cnt < maxShaperSleepSec then { st with writers := st.writers.set i { w with cnt := w.cnt + 1, currsec := none } }
  else { st with writers := st.writers.eraseIdx i }

/-- What is done under the mutex. -/
def State.locked (st : State) (i : ℕ) (w : Writer) (currsec : ℕ) : State :=
  let st := st.atSecond currsec
  if st.writtenthissec < w.speed then
    if w.speed < u64 (st.writtenthissec + w.size) then
      let bytes := w.speed - st.writtenthissec
      { st with
        writtenthissec := w.speed
        charges := ⟨currsec, w.speed, bytes, w.speed⟩ :: st.charges }.again i { w with size := sub64 w.size bytes }
    else
      { st with
        writtenthissec := u64 (st.writtenthissec + w.size)
        charges := ⟨currsec, w.speed, w.size, u64 (st.writtenthissec + w.size)⟩ :: st.charges
        writers := st.writers.eraseIdx i
        failed := st.failed || !decide (w.size ≤ w.speed) }
  else st.again i w

def State.run (st : State) : Event → State
  | .write r =>
    match r.checkWriteSpace with
    | .returns _ => st
    | .throttles mult speed =>
      { st with
        writers := st.writers ++ [⟨r.size, speed, 1, none⟩]
        failed := st.failed || !decide (0 < speed ∧ 1 ≤ mult ∧ mult ≤ 1024) }
    | .faults _ => { st with failed := true }
  | .clock now => { st with now }
  | .read i =>
    match st.writers[i]? with
    | some w => { st with writers := st.writers.set i { w with currsec := some st.now } }
    | none => st
  | .charge i =>
    match st.writers[i]? with
    | some w =>
      match w.currsec with
      | some currsec => st.locked i w currsec
      | none => st
    | none => st

def step (st : State) (e : Event) (st' : State) : Prop := st' = st.run e

def Start (st : State) : Prop :=
  st.writtenthissec = 0 ∧ st.writers = [] ∧ st.charges = [] ∧ st.failed = false

/-! ## What is kept -/

def State.chargesAt (st : State) (sec : ℕ) : List Charge := st.charges.filter fun c => c.sec = sec

/-- The bytes that were charged to a second. -/
def State.charged (st : State) (sec : ℕ) : ℕ := ((st.chargesAt sec).map Charge.bytes).sum

/-- No fault, no charge beyond the speed of its call, and no second with more than the highest of its speeds. -/
structure Shaped (st : State) : Prop where
  failed : st.failed = false
  written : ∀ c ∈ st.charges, c.written ≤ c.speed
  second : ∀ sec, st.chargesAt sec ≠ [] → ∃ c ∈ st.chargesAt sec, st.charged sec ≤ c.speed

/-- What goes wrong: a write whose arithmetic does, a writer that was late, and a sum that does not fit. -/
inductive Drift (st : State) : Event → Prop
  | write {r : Request} (h : r.Bad) : Drift st (.write r)
  | late {i : ℕ} {w : Writer} {currsec : ℕ} (hw : st.writers[i]? = some w) (hsec : w.currsec = some currsec)
    (h : currsec < st.thissec) : Drift st (.charge i)
  | wraps {i : ℕ} {w : Writer} {currsec : ℕ} (hw : st.writers[i]? = some w) (hsec : w.currsec = some currsec)
    (hgoes : (st.atSecond currsec).writtenthissec < w.speed)
    (h : 2 ^ 64 ≤ (st.atSecond currsec).writtenthissec + w.size) : Drift st (.charge i)

/-- And what carries it: the seconds with charges are past, but for the last one, where the counter is their sum. -/
structure Holds (st : State) : Prop extends Shaped st where
  sum : st.charged st.thissec = st.writtenthissec
  past : ∀ c ∈ st.charges, c.sec ≤ st.thissec

variable {st st' : State} {sec : ℕ}

theorem Holds.writers (h : Holds st) (writers : List Writer) : Holds { st with writers } :=
  ⟨⟨h.failed, h.written, h.second⟩, h.sum, h.past⟩

theorem Holds.again (h : Holds st) (i : ℕ) (w : Writer) : Holds (st.again i w) := by
  unfold State.again
  split
  · exact h.writers _
  · exact h.writers _

/-- Where the writer is not late, a new second has no charges. -/
theorem Holds.atSecond (h : Holds st) (hlate : st.thissec ≤ sec) : Holds (st.atSecond sec) ∧ (st.atSecond sec).thissec = sec := by
  unfold State.atSecond
  split
  next hne =>
    refine ⟨⟨⟨h.failed, h.written, h.second⟩, ?_, fun c hc => (h.past c hc).trans hlate⟩, rfl⟩
    have hnone : st.chargesAt sec = [] := List.filter_eq_nil_iff.mpr fun c hc heq => by
      have := h.past c hc
      have := of_decide_eq_true heq
      omega
    show ((st.chargesAt sec).map Charge.bytes).sum = 0
    rw [hnone]
    rfl
  next heq => exact ⟨h, (not_not.mp heq).symm⟩

/-- A charge that fits. -/
theorem Holds.charge (h : Holds st) {speed bytes : ℕ} (hfits : st.writtenthissec + bytes ≤ speed) (writers : List Writer) :
    Holds { st with
      writtenthissec := st.writtenthissec + bytes
      charges := ⟨st.thissec, speed, bytes, st.writtenthissec + bytes⟩ :: st.charges
      writers } := by
  have hother : ∀ sec, sec ≠ st.thissec → State.chargesAt { st with
      writtenthissec := st.writtenthissec + bytes
      charges := ⟨st.thissec, speed, bytes, st.writtenthissec + bytes⟩ :: st.charges
      writers } sec = st.chargesAt sec := fun sec hne => List.filter_cons_of_neg (by simpa using Ne.symm hne)
  have hthis : State.chargesAt { st with
      writtenthissec := st.writtenthissec + bytes
      charges := ⟨st.thissec, speed, bytes, st.writtenthissec + bytes⟩ :: st.charges
      writers } st.thissec = ⟨st.thissec, speed, bytes, st.writtenthissec + bytes⟩ :: st.chargesAt st.thissec :=
    List.filter_cons_of_pos (by simp)
  have hsum : State.charged { st with
      writtenthissec := st.writtenthissec + bytes
      charges := ⟨st.thissec, speed, bytes, st.writtenthissec + bytes⟩ :: st.charges
      writers } st.thissec = st.writtenthissec + bytes := by
    unfold State.charged
    rw [hthis, List.map_cons, List.sum_cons, Nat.add_comm]
    exact congrArg (· + bytes) h.sum
  refine ⟨⟨h.failed, fun c hc => ?_, fun sec hsome => ?_⟩, hsum, fun c hc => ?_⟩
  · rcases List.mem_cons.mp hc with rfl | hc
    · exact hfits
    · exact h.written c hc
  · by_cases hsec : sec = st.thissec
    · subst hsec
      rw [hthis, hsum]
      exact ⟨_, .head _, hfits⟩
    · unfold State.charged
      rw [hother sec hsec] at hsome ⊢
      exact h.second sec hsome
  · rcases List.mem_cons.mp hc with rfl | hc
    · exact le_rfl
    · exact h.past c hc

theorem Holds.locked (h : Holds st) {i : ℕ} {w : Writer} (hlate : st.thissec ≤ sec)
    (hfits : (st.atSecond sec).writtenthissec < w.speed → (st.atSecond sec).writtenthissec + w.size < 2 ^ 64) :
    Holds (st.locked i w sec) := by
  obtain ⟨hat, hsec⟩ := h.atSecond hlate
  unfold State.locked
  generalize st.atSecond sec = st' at hat hsec hfits ⊢
  subst hsec
  simp only
  split
  next hgoes =>
    rw [u64_of_lt (hfits hgoes)]
    split
    · have hsum : st'.writtenthissec + (w.speed - st'.writtenthissec) = w.speed := Nat.add_sub_cancel' hgoes.le
      have hcharge := hat.charge hsum.le st'.writers
      rw [hsum] at hcharge
      exact hcharge.again i _
    next hall =>
      have hcharge := hat.charge (not_lt.mp hall) (st'.writers.eraseIdx i)
      have hassert : w.size ≤ w.speed := (Nat.le_add_left _ _).trans (not_lt.mp hall)
      simp only [decide_eq_true hassert, Bool.not_true, Bool.or_false]
      exact hcharge
  · exact hat.again i w

/-- What one event keeps. -/
theorem step_holds {e : Event} (h : Holds st) (hstep : step st e st') (hdrift : ¬Drift st e) : Holds st' := by
  subst hstep
  cases e with
  | write r =>
    have hsafe := (checkWriteSpace_safe r).mpr fun hbad => hdrift (.write hbad)
    unfold State.run
    cases houtcome : r.checkWriteSpace with
    | returns ret =>
      simp only [houtcome]
      exact h
    | throttles mult speed =>
      rw [houtcome] at hsafe
      obtain ⟨hlo, hhi, hpos⟩ := hsafe
      simp only [houtcome, decide_eq_true (And.intro hpos (And.intro hlo hhi)), Bool.not_true, Bool.or_false]
      exact h.writers _
    | faults fault =>
      rw [houtcome] at hsafe
      exact hsafe.elim
  | clock now => exact ⟨⟨h.failed, h.written, h.second⟩, h.sum, h.past⟩
  | read i =>
    unfold State.run
    cases hw : st.writers[i]? with
    | none =>
      simp only [hw]
      exact h
    | some w =>
      simp only [hw]
      exact h.writers _
  | charge i =>
    unfold State.run
    cases hw : st.writers[i]? with
    | none =>
      simp only [hw]
      exact h
    | some w =>
      cases hsec : w.currsec with
      | none =>
        simp only [hw, hsec]
        exact h
      | some currsec =>
        simp only [hw, hsec]
        refine h.locked (not_lt.mp fun hlate => hdrift (.late hw hsec hlate)) fun hgoes => ?_
        exact not_le.mp fun hwraps => hdrift (.wraps hw hsec hgoes hwraps)

theorem Start.holds (h : Start st) : Holds st := by
  obtain ⟨hwritten, _, hcharges, hfailed⟩ := h
  have hnone : ∀ sec, st.chargesAt sec = [] := fun sec => by
    unfold State.chargesAt
    rw [hcharges]
    rfl
  refine ⟨⟨hfailed, fun c hc => ?_, fun sec hsome => absurd (hnone sec) hsome⟩, ?_, fun c hc => ?_⟩
  · rw [hcharges] at hc
    cases hc
  · unfold State.charged
    rw [hnone, hwritten]
    rfl
  · rw [hcharges] at hc
    cases hc

/-- The arithmetic of a write is safe exactly where none of the bad cases is met, and in the runs that avoid them,
late writers and sums that do not fit, the shaper keeps to its speeds. -/
theorem shaper_safe (r : Request) : (r.checkWriteSpace.Safe ↔ ¬r.Bad) ∧
    ∀ st, Reachable Start (Avoiding step Drift) st → Shaped st :=
  ⟨checkWriteSpace_safe r, fun _ h =>
    (h.invariant (fun _ => Start.holds) fun _ _ _ h hstep => step_holds h hstep.1 hstep.2).toShaped⟩

/-! ## Two runs -/

/-- No minimum, an upload that goes on, and a read cache that can be freed. -/
def Request.unlimited : Request where
  freespc := 0
  minlocal := 0
  size := 4096
  freed₁ := 8192
  freed₂ := 0
  uploadspeed := 1
  uploadspeed₂ := 1
  minlocal_lt := by decide
  size_lt := by decide

/-- Just under a minimum of a gigabyte, with no upload. -/
def Request.scarce : Request where
  freespc := 2 ^ 30 - 1
  minlocal := 2 ^ 30
  size := 131072
  freed₁ := 0
  freed₂ := 0
  uploadspeed := 0
  uploadspeed₂ := 0
  minlocal_lt := by decide
  size_lt := by decide

def State.idle : State := ⟨100, 0, 0, [], [], false⟩

/-- One write that waits, and is charged. -/
def State.charged₁ : State := ((State.idle.run (.write .scarce)).run (.read 0)).run (.charge 0)

theorem scarce_shaped : State.charged₁.charges = [⟨100, 204600, 131072, 131072⟩] ∧ Shaped State.charged₁ := by
  refine ⟨by decide, (shaper_safe .scarce).2 State.charged₁ (.next (.next (.next (.start ⟨rfl, rfl, rfl, rfl⟩)
    (a := .write .scarce) ⟨rfl, fun hdrift => ?_⟩) (a := .read 0) ⟨rfl, nofun⟩) (a := .charge 0) ⟨rfl, fun hdrift => ?_⟩)⟩
  · cases hdrift with
    | write h => exact (shaper_safe .scarce).1.mp (by decide) h
  · cases hdrift with
    | late hw hsec h =>
      cases hw
      cases hsec
      exact absurd h (by decide)
    | wraps hw hsec _ h =>
      cases hw
      cases hsec
      exact absurd h (by decide)

theorem unlimited_divides : ¬((∀ r : Request, r.checkWriteSpace.Safe) ∧ ∀ st, Reachable Start step st → Shaped st) := by
  intro h
  have houtcome : Request.unlimited.checkWriteSpace = .faults .division := by decide
  have := h.1 .unlimited
  rw [houtcome] at this
  exact this

end Pclsync.OpenFile.Shaper
