import Pclsync.Lib.TimingWheel
import Mathlib.Logic.Function.Basic
import Mathlib.Data.List.Basic

/-! The wheel of `ptimer.c`: three levels of lists of timers, a timer being in the slot of its
deadline. When a slot's time comes, its timers move to the level below, and from the lowest
one to the list of those to run. -/
namespace Pclsync.Timers
open Lib.TimingWheel

/-- `TIMER_ARRAY_SIZE`. -/
def timerArraySize : ℕ := 64
/-- `TIMER_ARRAY_SIZE_SHIFT`. -/
def timerArraySizeShift : ℕ := 6
/-- `TIMER_LEVELS`. -/
def timerLevels : ℕ := 3

/-- A timer's address. -/
abbrev Id := ℕ

/-- `timerlists`. -/
abbrev Lists := ℕ → ℕ → List Id

/-- `psync_list_init`. -/
def Lists.init (lists : Lists) (level m : ℕ) : Lists := Function.update lists level (Function.update (lists level) m [])

/-- `psync_list_add_tail`. -/
def Lists.addTail (lists : Lists) (level m : ℕ) (id : Id) : Lists :=
  Function.update lists level (Function.update (lists level) m (lists level m ++ [id]))

/-- `psync_list_del`, of a timer in any of the lists. -/
def Lists.del (lists : Lists) (id : Id) : Lists := fun level m => (lists level m).filter (· ≠ id)

/-- The body of `timer_check_upper_levels`. -/
def cascade (runat : Id → ℕ) (lists : Lists) (m level sh : ℕ) : Lists :=
  Lists.init ((lists (level + 1) m).foldl (fun lists id => lists.addTail level ((runat id >>> sh) % timerArraySize) id) lists) (level + 1) m

/-- `timer_check_upper_levels`. -/
def checkUpperLevels (runat : Id → ℕ) (lists : Lists) (tmdiv level sh : ℕ) : Lists :=
  let m := tmdiv % timerArraySize
  if m = 0 ∧ level < timerLevels - 2 then
    cascade runat (checkUpperLevels runat lists (tmdiv / timerArraySize) (level + 1) (sh + timerArraySizeShift)) m level sh
  else cascade runat lists m level sh
termination_by timerLevels - level

/-- `count` rounds of the loop of `timer_prepare_timers`, from `i` on. -/
def prepareLoop (runat : Id → ℕ) : (count i : ℕ) → Lists → List Id → Lists × List Id
  | 0, _, lists, list => (lists, list)
  | count + 1, i, lists, list =>
    let m := i % timerArraySize
    let lists := if m = 0 then checkUpperLevels runat lists (i / timerArraySize) 0 0 else lists
    prepareLoop runat count (i + 1) (lists.init 0 m) (list ++ lists 0 m)

/-- `timer_prepare_timers` from one time `lt` to another: the lists, and the timers to run. -/
def prepareTimers (runat : Id → ℕ) (lt time : ℕ) (lists : Lists) : Lists × List Id :=
  prepareLoop runat (time - lt) (lt + 1) lists []

/-- The slot for a deadline. -/
def slotOf (level runat : ℕ) : ℕ := (runat >>> (level * timerArraySizeShift)) % timerArraySize

theorem slotOf_eq (level runat : ℕ) : slotOf level runat = slot timerArraySize level runat := by
  rw [slotOf, slot, Nat.shiftRight_eq_div_pow, Nat.mul_comm, Nat.pow_mul]
  rfl

/-! ### Where a timer is -/

/-- A timer is in one list, once, or in none. -/
def Lists.Has (lists : Lists) (id : Id) (place : Option (ℕ × ℕ)) : Prop :=
  ∀ level m, (lists level m).count id = if place = some (level, m) then 1 else 0

variable {runat : Id → ℕ} {lists : Lists} {id x : Id} {level m k sh now deadline : ℕ} {place : Option (ℕ × ℕ)}

theorem count_addTail (k j : ℕ) :
    (lists.addTail level m id k j).count x = (lists k j).count x + if (k, j) = (level, m) ∧ id = x then 1 else 0 := by
  by_cases hk : k = level
  · subst hk
    by_cases hj : j = m
    · subst hj
      by_cases hx : id = x
      · simp [Lists.addTail, hx]
      · simp [Lists.addTail, hx]
    · simp [Lists.addTail, hj]
  · simp [Lists.addTail, hk]

theorem init_apply (k j : ℕ) : lists.init level m k j = if (k, j) = (level, m) then [] else lists k j := by
  by_cases hk : k = level
  · subst hk
    by_cases hj : j = m
    · simp [Lists.init, hj]
    · simp [Lists.init, hj]
  · simp [Lists.init, hk]

/-- Timers moved to the slots of one level. -/
theorem count_moved (l : List Id) (slots : Id → ℕ) (lists : Lists) (k j : ℕ) :
    (l.foldl (fun lists id => lists.addTail level (slots id) id) lists k j).count x =
      (lists k j).count x + if (k, j) = (level, slots x) then l.count x else 0 := by
  induction l generalizing lists with
  | nil => simp
  | cons y l ih =>
    rw [List.foldl_cons, ih, count_addTail]
    by_cases hy : y = x
    · subst hy
      by_cases hkj : (k, j) = (level, slots y)
      · simp [hkj]
        omega
      · simp [hkj]
    · simp [hy]

theorem Lists.Has.addTail (h : lists.Has x none) : (lists.addTail level m x).Has x (some (level, m)) := by
  intro k j
  rw [count_addTail, h]
  by_cases hkj : (k, j) = (level, m)
  · simp [hkj]
  · simp [hkj, Ne.symm hkj]

theorem Lists.Has.addTail_other (h : lists.Has x place) (hne : id ≠ x) : (lists.addTail level m id).Has x place := by
  intro k j
  have hnot : ¬((k, j) = (level, m) ∧ id = x) := fun hboth => hne hboth.2
  rw [count_addTail, h, if_neg hnot, Nat.add_zero]

theorem Lists.Has.del : (lists.del id).Has id none := by
  intro k j
  rw [if_neg nofun, List.count_eq_zero, Lists.del]
  simp

theorem Lists.Has.del_other (h : lists.Has x place) (hne : id ≠ x) : (lists.del id).Has x place := by
  intro k j
  rw [← h k j, Lists.del, List.count_filter]
  simpa using Ne.symm hne

/-- The timers of a slot go one level down, all others stay. -/
theorem Lists.Has.cascaded (h : lists.Has x place) (runat : Id → ℕ) (m level sh : ℕ) :
    (cascade runat lists m level sh).Has x
      (if place = some (level + 1, m) then some (level, (runat x >>> sh) % timerArraySize) else place) := by
  intro k j
  rw [cascade, init_apply]
  by_cases hempty : (k, j) = (level + 1, m)
  · rw [if_pos hempty]
    by_cases hplace : place = some (level + 1, m)
    · rw [if_pos hplace, if_neg]
      · rfl
      · intro heq
        rw [hempty] at heq
        simp at heq
    · rw [if_neg hplace, hempty, if_neg hplace]
      rfl
  · rw [if_neg hempty, count_moved _ (fun id => (runat id >>> sh) % timerArraySize), h, h]
    by_cases hplace : place = some (level + 1, m)
    · have hne : ¬place = some (k, j) := fun heq => hempty (Option.some_inj.mp (heq.symm.trans hplace))
      simp only [if_neg hne, if_pos hplace, Nat.zero_add, Option.some_inj]
      split_ifs with h₁ h₂ h₂
      · rfl
      · exact absurd h₁.symm h₂
      · exact absurd h₂.symm h₁
      · rfl
    · simp only [if_neg hplace]
      split_ifs <;> rfl

theorem Lists.Has.init (h : lists.Has x place) (level m : ℕ) :
    (lists.init level m).Has x (if place = some (level, m) then none else place) := by
  intro k j
  rw [init_apply]
  by_cases hempty : (k, j) = (level, m)
  · have hgone : (if place = some (level, m) then none else place) ≠ some (level, m) := by
      split_ifs with hplace
      · nofun
      · exact hplace
    rw [if_pos hempty, hempty, if_neg hgone]
    rfl
  · rw [if_neg hempty, h]
    by_cases hplace : place = some (level, m)
    · have hne : ¬place = some (k, j) := fun heq => hempty (Option.some_inj.mp (heq.symm.trans hplace))
      rw [if_neg hne, if_pos hplace]
      rfl
    · rw [if_neg hplace]

/-! ### One tick -/

/-- A timer is in the slot of its deadline, and that is ahead. -/
structure Lists.Placed (lists : Lists) (now : ℕ) (x : Id) (deadline k : ℕ) : Prop where
  has : lists.Has x (some (k, slotOf k deadline))
  ahead : Ahead timerArraySize now k deadline

/-- Its slot is not one whose time comes with the next tick. -/
def Settled (now deadline k : ℕ) : Prop := timerArraySize ^ k ∣ now + 1 → slotOf k deadline ≠ slotOf k (now + 1)

/-- The level above is emptied into this one. -/
theorem Lists.Placed.cascaded (h : lists.Placed now x (runat x) level) (hunit : timerArraySize ^ (k + 1) ∣ now + 1) :
    ∃ level', (cascade runat lists (slotOf (k + 1) (now + 1)) k (k * timerArraySizeShift)).Placed now x (runat x) level' ∧
      (level' = k + 1 → Settled now (runat x) (k + 1)) ∧ (level' = level ∨ level = k + 1 ∧ level' = k) := by
  have hmoved := h.has.cascaded runat (slotOf (k + 1) (now + 1)) k (k * timerArraySizeShift)
  by_cases hdue : some (level, slotOf level (runat x)) = some (k + 1, slotOf (k + 1) (now + 1))
  · rw [if_pos hdue] at hmoved
    obtain ⟨rfl, hslot⟩ := Prod.mk.inj (Option.some_inj.mp hdue)
    rw [slotOf_eq, slotOf_eq] at hslot
    exact ⟨k, ⟨hmoved, ahead_below (by decide) hunit (h.ahead.due hunit hslot)⟩, by omega, .inr ⟨rfl, rfl⟩⟩
  · rw [if_neg hdue] at hmoved
    refine ⟨level, ⟨hmoved, h.ahead⟩, ?_, .inl rfl⟩
    rintro rfl _ hslot
    exact hdue (by rw [hslot])

theorem not_settled_dvd (hk : k ≠ 0) (hsettled : ¬Settled now level k) : timerArraySize ∣ now + 1 := by
  have hunit : timerArraySize ^ k ∣ now + 1 := by
    by_contra hnot
    exact hsettled fun h => absurd h hnot
  obtain ⟨k, rfl⟩ := Nat.exists_eq_succ_of_ne_zero hk
  exact Nat.dvd_trans (Nat.dvd_mul_left ..) hunit

theorem checkUpperLevels_eq (lists : Lists) (tmdiv : ℕ) :
    checkUpperLevels runat lists tmdiv 0 0 = cascade runat
      (if tmdiv % timerArraySize = 0 then cascade runat lists (tmdiv / timerArraySize % timerArraySize) 1 timerArraySizeShift else lists)
      (tmdiv % timerArraySize) 0 0 := by
  rw [checkUpperLevels]
  by_cases hm : tmdiv % timerArraySize = 0
  · have htop : ¬(tmdiv / timerArraySize % timerArraySize = 0 ∧ 0 + 1 < timerLevels - 2) := fun h => absurd h.2 (by decide)
    rw [if_pos ⟨hm, by decide⟩, checkUpperLevels, if_neg htop, if_pos hm]
    rfl
  · rw [if_neg (fun h => hm h.1), if_neg hm]

/-- The upper levels' slots whose time comes are emptied. -/
theorem Lists.Placed.upper (h : lists.Placed now x (runat x) level) (hlevel : level < timerLevels) :
    ∃ level' < timerLevels, (if (now + 1) % timerArraySize = 0 then checkUpperLevels runat lists ((now + 1) / timerArraySize) 0 0
      else lists).Placed now x (runat x) level' ∧ (level' ≠ 0 → Settled now (runat x) level') := by
  by_cases hfirst : (now + 1) % timerArraySize = 0
  · rw [if_pos hfirst, checkUpperLevels_eq]
    have hslot₁ : (now + 1) / timerArraySize % timerArraySize = slotOf 1 (now + 1) := by
      rw [slotOf_eq, slot, Nat.pow_one]
    have hslot₂ : (now + 1) / timerArraySize / timerArraySize % timerArraySize = slotOf 2 (now + 1) := by
      rw [slotOf_eq, slot, Nat.div_div_eq_div_mul, Nat.pow_two]
    rw [hslot₁, hslot₂]
    have hupper : ∃ level' < timerLevels, (if slotOf 1 (now + 1) = 0 then cascade runat lists (slotOf 2 (now + 1)) 1 timerArraySizeShift
        else lists).Placed now x (runat x) level' ∧ (level' = 2 → Settled now (runat x) 2) := by
      by_cases hsecond : slotOf 1 (now + 1) = 0
      · have hunit : timerArraySize ^ 2 ∣ now + 1 := by
          rw [← hslot₁] at hsecond
          have hdvd := Nat.mul_dvd_of_dvd_div (Nat.dvd_of_mod_eq_zero hfirst) (Nat.dvd_of_mod_eq_zero hsecond)
          rwa [Nat.pow_two]
        obtain ⟨level', hplaced, hsettled, hsame⟩ := h.cascaded (k := 1) hunit
        rw [if_pos hsecond]
        exact ⟨level', by omega, hplaced, hsettled⟩
      · rw [if_neg hsecond]
        refine ⟨level, hlevel, h, fun _ hunit _ => hsecond ?_⟩
        obtain ⟨q, hq⟩ := hunit
        rw [slotOf_eq, slot, hq, Nat.pow_one, Nat.pow_two, Nat.mul_assoc, Nat.mul_div_cancel_left _ (by decide), Nat.mul_mod_right]
    obtain ⟨level₁, hlevel₁, hplaced₁, hsettled₁⟩ := hupper
    have hunit : timerArraySize ^ 1 ∣ now + 1 := by
      rw [Nat.pow_one]
      exact Nat.dvd_of_mod_eq_zero hfirst
    obtain ⟨level₂, hplaced₂, hsettled₂, hsame⟩ := hplaced₁.cascaded (k := 0) hunit
    rw [timerLevels] at *
    refine ⟨level₂, by omega, hplaced₂, fun hne => ?_⟩
    obtain hone | htwo : level₂ = 1 ∨ level₂ = 2 := by omega
    · rw [hone]
      exact hsettled₂ hone
    · rw [htwo]
      exact hsettled₁ (by omega)
  · rw [if_neg hfirst]
    refine ⟨level, hlevel, h, fun hne => ?_⟩
    by_contra hsettled
    exact hfirst (Nat.mod_eq_zero_of_dvd (not_settled_dvd hne hsettled))

theorem Lists.Has.upper_none (h : lists.Has x none) (tmdiv : ℕ) : (checkUpperLevels runat lists tmdiv 0 0).Has x none := by
  rw [checkUpperLevels_eq]
  split_ifs
  · exact (h.cascaded runat _ 1 timerArraySizeShift).cascaded runat _ 0 0
  · exact h.cascaded runat _ 0 0

/-- With its tick a timer is taken out, and not before. -/
theorem Lists.Placed.tick {lists : Lists} (h : lists.Placed now x deadline level) (hlevel : level < timerLevels)
    (hsettled : level ≠ 0 → Settled now deadline level) :
    deadline = now + 1 ∧ (lists.init 0 ((now + 1) % timerArraySize)).Has x none ∧ (lists 0 ((now + 1) % timerArraySize)).count x = 1 ∨
      now + 1 < deadline ∧ (lists.init 0 ((now + 1) % timerArraySize)).Placed (now + 1) x deadline level ∧
        (lists 0 ((now + 1) % timerArraySize)).count x = 0 := by
  have hslot : (now + 1) % timerArraySize = slotOf 0 (now + 1) := by rw [slotOf_eq, slot, Nat.pow_zero, Nat.div_one]
  have hunit : timerArraySize ^ 0 ∣ now + 1 := Nat.one_dvd _
  have hinit := h.has.init 0 ((now + 1) % timerArraySize)
  have hcount := h.has 0 ((now + 1) % timerArraySize)
  rw [hslot] at *
  by_cases hdue : some (level, slotOf level deadline) = some (0, slotOf 0 (now + 1))
  · rw [if_pos hdue] at hinit hcount
    obtain ⟨rfl, hsame⟩ := Prod.mk.inj (Option.some_inj.mp hdue)
    rw [slotOf_eq, slotOf_eq] at hsame
    have heq := h.ahead.due hunit hsame
    rw [Nat.pow_zero, Nat.div_one, Nat.div_one] at heq
    exact .inl ⟨heq, hinit, hcount⟩
  · rw [if_neg hdue] at hinit hcount
    have hstays : Ahead timerArraySize (now + 1) level deadline := by
      refine h.ahead.stays fun hbegins hsame => ?_
      rw [← slotOf_eq, ← slotOf_eq] at hsame
      by_cases hzero : level = 0
      · subst hzero
        exact hdue (by rw [hsame])
      · exact hsettled hzero hbegins hsame
    exact .inr ⟨hstays.now_lt, ⟨hinit, hstays⟩, hcount⟩

/-- What is in no list is not taken out. -/
theorem prepareLoop_none (count : ℕ) {lists : Lists} (i : ℕ) (list : List Id) (h : lists.Has x none) :
    (prepareLoop runat count i lists list).1.Has x none ∧ (prepareLoop runat count i lists list).2.count x = list.count x := by
  induction count generalizing i lists list with
  | zero => exact ⟨h, rfl⟩
  | succ count ih =>
    have hupper : (if i % timerArraySize = 0 then checkUpperLevels runat lists (i / timerArraySize) 0 0 else lists).Has x none := by
      split_ifs
      · exact h.upper_none _
      · exact h
    have hslot := hupper 0 (i % timerArraySize)
    obtain ⟨hnone, hcount⟩ := ih (i + 1) (list ++ _) (hupper.init 0 (i % timerArraySize))
    refine ⟨hnone, hcount.trans ?_⟩
    rw [List.count_append, hslot]
    rfl

/-- The timers whose deadlines are reached are taken out, once each; the others wait on. -/
theorem prepareLoop_placed (count : ℕ) {lists : Lists} (list : List Id) (h : lists.Placed now x (runat x) level)
    (hlevel : level < timerLevels) (hlist : list.count x = 0) :
    let out := prepareLoop runat count (now + 1) lists list
    runat x ≤ now + count ∧ out.1.Has x none ∧ out.2.count x = 1 ∨
      now + count < runat x ∧ (∃ level' < timerLevels, out.1.Placed (now + count) x (runat x) level') ∧ out.2.count x = 0 := by
  induction count generalizing now lists list level with
  | zero => exact .inr ⟨h.ahead.now_lt, ⟨level, hlevel, h⟩, hlist⟩
  | succ count ih =>
    obtain ⟨level', hlevel', hplaced, hsettled⟩ := h.upper hlevel
    rw [prepareLoop]
    generalize (if (now + 1) % timerArraySize = 0 then checkUpperLevels runat lists ((now + 1) / timerArraySize) 0 0 else lists) = upper at *
    rcases hplaced.tick hlevel' hsettled with ⟨hnow, hnone, hcount⟩ | ⟨hlater, hstays, hcount⟩
    · obtain ⟨hgone, hout⟩ := @prepareLoop_none runat _ count _ (now + 1 + 1) (list ++ upper 0 ((now + 1) % timerArraySize)) hnone
      refine .inl ⟨by omega, hgone, hout.trans ?_⟩
      rw [List.count_append, hlist, hcount]
    · have hlist' : (list ++ upper 0 ((now + 1) % timerArraySize)).count x = 0 := by rw [List.count_append, hlist, hcount]
      have hout := ih _ hstays hlevel' hlist'
      have hsum : now + 1 + count = now + (count + 1) := by omega
      rwa [hsum] at hout

/-- `timer_prepare_timers` takes out what is due by `time`. -/
theorem prepareTimers_placed {lt time : ℕ} (h : lists.Placed lt x (runat x) level) (hlevel : level < timerLevels) (hle : lt ≤ time) :
    let out := prepareTimers runat lt time lists
    runat x ≤ time ∧ out.1.Has x none ∧ out.2.count x = 1 ∨
      time < runat x ∧ (∃ level' < timerLevels, out.1.Placed time x (runat x) level') ∧ out.2.count x = 0 := by
  have hout := prepareLoop_placed (time - lt) [] h hlevel rfl
  rwa [Nat.add_sub_cancel' hle] at hout

end Pclsync.Timers
