import Pclsync.Lib.Held
import Mathlib.Data.Multiset.AddSub

/-! Traces in which what is held is used as well. -/
namespace Pclsync.Lib.Held

variable {R : Type}

/-- The only calls are uses. -/
abbrev uses (R : Type) : Calls := ⟨R, fun _ => Unit⟩

abbrev Used (R : Type) := List (Event R (uses R))

namespace Event

@[match_pattern] abbrev use (r : R) : Event R (uses R) := .returned r ()

/-- It needs `r` to be held. -/
def Needs (r : R) : Event R (uses R) → Prop
  | .give r' => r' = r
  | .returned r' _ => r' = r
  | .take _ => False

end Event

variable [DecidableEq R]

/-- A trace that balances, and in which nothing is used that is not held. -/
structure Proper (trace : Used R) : Prop where
  balanced : Balanced trace
  used : ∀ r pre post, trace = pre ++ .use r :: post → given r pre < taken r pre

/-- What is held after a step. -/
def Event.move (held : Multiset R) : Event R (uses R) → Option (Multiset R)
  | .take r => some (r ::ₘ held)
  | .give r => if r ∈ held then some (held.erase r) else none
  | .returned r _ => if r ∈ held then some held else none

def moves (held : Multiset R) : Used R → Option (Multiset R)
  | [] => some held
  | e :: trace => (e.move held).bind fun held => moves held trace

variable {held held' : Multiset R} {e : Event R (uses R)} {trace more : Used R} {r : R}

theorem moves_append : moves held (trace ++ more) = (moves held trace).bind fun held => moves held more := by
  induction trace generalizing held with
  | nil => rfl
  | cons e trace ih =>
    rw [List.cons_append, moves, moves, Option.bind_assoc]
    exact congrArg _ (funext fun held => ih)

theorem moves_take : moves held (.take r :: trace) = moves (r ::ₘ held) trace := rfl

theorem moves_give (hr : r ∈ held) : moves held (.give r :: trace) = moves (held.erase r) trace := by
  rw [moves, Event.move, if_pos hr, Option.bind_some]

theorem moves_use (hr : r ∈ held) : moves held (.use r :: trace) = moves held trace := by
  rw [moves, Event.move, if_pos hr, Option.bind_some]

/-- What a step adds to the counts. -/
theorem count_move (he : e.move held = some held') : held'.count r + (e.gives r).toNat = held.count r + (e.takes r).toNat := by
  cases e with
  | take r' =>
    cases he
    rw [Multiset.count_cons]
    by_cases hr : r = r'
    · simp [Event.gives, Event.takes, hr]
    · simp [Event.gives, Event.takes, hr, Ne.symm hr]
  | give r' =>
    rw [Event.move] at he
    split_ifs at he with hmem
    cases he
    by_cases hr : r' = r
    · subst hr
      have hpos := Multiset.count_pos.mpr hmem
      rw [Multiset.count_erase_self]
      simp only [Event.gives, Event.takes, decide_true, Bool.toNat_true, Bool.toNat_false]
      omega
    · rw [Multiset.count_erase_of_ne (Ne.symm hr)]
      simp [Event.gives, Event.takes, hr]
  | returned c ret =>
    rw [Event.move] at he
    split_ifs at he
    cases he
    rfl

/-- A step is made exactly where what it needs is held. -/
theorem exists_move : (∃ held', e.move held = some held') ↔ ∀ r, e.Needs r → r ∈ held := by
  cases e with
  | take r => exact ⟨fun _ _ h => h.elim, fun _ => ⟨_, rfl⟩⟩
  | give r =>
    refine ⟨fun ⟨held', he⟩ r' hr => ?_, fun h => ⟨_, if_pos (h r rfl)⟩⟩
    obtain rfl : r = r' := hr
    rw [Event.move] at he
    split_ifs at he with hmem
    exact hmem
  | returned r ret =>
    refine ⟨fun ⟨held', he⟩ r' hr => ?_, fun h => ⟨_, if_pos (h r rfl)⟩⟩
    obtain rfl : r = r' := hr
    rw [Event.move] at he
    split_ifs at he with hmem
    exact hmem

/-- A trace can be gone through exactly where every step of it has what it needs. -/
theorem exists_moves : (∃ held', moves held trace = some held') ↔
    ∀ r pre e post, trace = pre ++ e :: post → e.Needs r → given r pre < held.count r + taken r pre := by
  induction trace generalizing held with
  | nil => exact ⟨fun _ r pre e post heq => by simp at heq, fun _ => ⟨held, rfl⟩⟩
  | cons e trace ih =>
    constructor
    · rintro ⟨held', h⟩ r pre e' post heq hneeds
      obtain ⟨mid, he, hrest⟩ := Option.bind_eq_some_iff.mp h
      cases pre with
      | nil =>
        obtain ⟨rfl, -⟩ := List.cons.inj heq
        exact Multiset.count_pos.mpr (exists_move.mp ⟨mid, he⟩ r hneeds)
      | cons e'' pre =>
        obtain ⟨rfl, rfl⟩ := List.cons.inj heq
        have hlt := ih.mp ⟨held', hrest⟩ r pre e' post rfl hneeds
        have hstep := count_move (r := r) he
        rw [given_cons, taken_cons]
        omega
    · intro h
      obtain ⟨mid, he⟩ := exists_move.mpr fun r hr => Multiset.count_pos.mp (h r [] e trace rfl hr)
      obtain ⟨held', hrest⟩ := (@ih mid).mpr fun r pre e' post heq hneeds => by
        have hlt := h r (e :: pre) e' post (congrArg (e :: ·) heq) hneeds
        have hstep := count_move (r := r) he
        rw [given_cons, taken_cons] at hlt
        omega
      exact ⟨held', by rw [moves, he]; exact hrest⟩

theorem count_moves (h : moves held trace = some held') (r : R) : held'.count r + given r trace = held.count r + taken r trace := by
  induction trace generalizing held with
  | nil =>
    cases h
    rfl
  | cons e trace ih =>
    obtain ⟨mid, he, hrest⟩ := Option.bind_eq_some_iff.mp h
    have hrest := ih hrest
    have hstep := count_move (r := r) he
    rw [given_cons, taken_cons]
    omega

theorem proper_iff_moves : Proper trace ↔ moves 0 trace = some 0 := by
  constructor
  · intro h
    obtain ⟨held', hmoves⟩ := (@exists_moves R _ 0 trace).mpr fun r pre e post heq hneeds => by
      rw [Multiset.count_zero, Nat.zero_add]
      cases e with
      | take r' => exact hneeds.elim
      | give r' =>
        obtain rfl : r' = r := hneeds
        exact h.balanced.held r' pre post heq
      | returned r' ret =>
        obtain rfl : r' = r := hneeds
        exact h.used r' pre post heq
    have hnone : held' = 0 := by
      refine Multiset.eq_zero_of_forall_notMem fun r hr => ?_
      have hpos := Multiset.count_pos.mpr hr
      have hcount := count_moves hmoves r
      rw [h.balanced.settled r, Multiset.count_zero] at hcount
      omega
    rw [hmoves, hnone]
  · intro h
    have hneeds := exists_moves.mp ⟨0, h⟩
    have hheld : ∀ r pre e post, trace = pre ++ e :: post → e.Needs r → given r pre < taken r pre := fun r pre e post heq hr => by
      have hlt := hneeds r pre e post heq hr
      rwa [Multiset.count_zero, Nat.zero_add] at hlt
    refine ⟨⟨fun r pre post heq => hheld r pre _ post heq rfl, fun r => ?_⟩, fun r pre post heq => hheld r pre _ post heq rfl⟩
    have hcount := count_moves h r
    rwa [Multiset.count_zero, Nat.zero_add, Nat.zero_add] at hcount

end Pclsync.Lib.Held
