import Mathlib.Data.List.Basic
import Mathlib.Tactic.Common

/-! Buffers that a caller gives to be filled. A cell is `none` as long as nothing was written
to it. -/
namespace Pclsync.Lib.Buffers

variable {β : Type}

abbrev Buffer (β : Type) := ℕ → Option β

/-- The buffer of a caller. -/
def untouched : Buffer β := fun _ => none

/-- `memcpy`. -/
def write (buff : Buffer β) (at' : ℕ) (data : List β) : Buffer β := fun j =>
  if at' ≤ j ∧ j < at' + data.length then data[j - at']? else buff j

variable {buff : Buffer β} {at' j : ℕ} {data : List β}

theorem write_inside (hlo : at' ≤ j) (hhi : j < at' + data.length) : write buff at' data j = data[j - at']? := if_pos ⟨hlo, hhi⟩

theorem write_outside (h : j < at' ∨ at' + data.length ≤ j) : write buff at' data j = buff j := by
  refine if_neg fun hin => ?_
  omega

variable {src : Buffer β} {lo hi : ℕ}

end Pclsync.Lib.Buffers
