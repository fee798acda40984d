import Mathlib.Data.List.Basic
import Mathlib.Data.Nat.Notation
import Mathlib.Tactic.Common
import Mathlib.Tactic.Ring

/-! Tables in one array, row after row: what copies of whole rows do to the table. -/
namespace Pclsync.Lib.RowMajor

variable {A : Type}

/-- `n` cells from a place on. -/
def slice (data : List A) (off n : ℕ) : List A := (data.drop off).take n

/-- `memcpy` over the cells from a place on. -/
def paste (data : List A) (off : ℕ) (xs : List A) : List A := data.take off ++ (xs ++ data.drop (off + xs.length))

/-- The rows of a table. -/
def rowsOf (cols : ℕ) : ℕ → List A → List (List A)
  | 0, _ => []
  | rows + 1, data => data.take cols :: rowsOf cols rows (data.drop cols)

/-- All rows have as many cells. -/
def Even (cols : ℕ) (rows : List (List A)) : Prop := ∀ row ∈ rows, row.length = cols

variable {cols i j n : ℕ} {data xs row : List A} {rows : List (List A)}

theorem length_rowsOf : (rowsOf cols n data).length = n := by
  induction n generalizing data with
  | zero => rfl
  | succ n ih => rw [rowsOf, List.length_cons, ih]

theorem even_rowsOf (h : data.length = n * cols) : Even cols (rowsOf cols n data) := by
  induction n generalizing data with
  | zero => exact fun row hrow => (nomatch hrow)
  | succ n ih =>
    rw [Nat.succ_mul] at h
    intro row hrow
    rcases List.mem_cons.mp hrow with rfl | hrow
    · rw [List.length_take]
      omega
    · exact ih (by rw [List.length_drop]; omega) row hrow

theorem flatten_rowsOf (h : data.length = n * cols) : (rowsOf cols n data).flatten = data := by
  induction n generalizing data with
  | zero =>
    rw [Nat.zero_mul] at h
    rw [List.length_eq_zero_iff.mp h]
    rfl
  | succ n ih =>
    rw [Nat.succ_mul] at h
    rw [rowsOf, List.flatten_cons, ih (by rw [List.length_drop]; omega), List.take_append_drop]

theorem rowsOf_flatten (h : Even cols rows) : rowsOf cols rows.length rows.flatten = rows := by
  induction rows with
  | nil => rfl
  | cons row rows ih =>
    have hrow := h row (.head _)
    rw [List.length_cons, rowsOf, List.flatten_cons, List.take_left' hrow, List.drop_left' hrow,
      ih fun r hr => h r (.tail _ hr)]

theorem place_succ (h : row.length = cols) : (i + 1) * cols = row.length + i * cols := by
  rw [h]
  ring

theorem slice_flatten (h : Even cols rows) (hi : rows[i]? = some row) : slice rows.flatten (i * cols) cols = row := by
  induction rows generalizing i with
  | nil => cases hi
  | cons r rows ih =>
    have hr := h r (.head _)
    rw [List.flatten_cons]
    cases i with
    | zero =>
      obtain rfl := Option.some.inj hi
      rw [slice, Nat.zero_mul, List.drop_zero, List.take_left' hr]
    | succ i =>
      rw [slice, place_succ hr, List.drop_length_add_append, ← slice]
      exact ih (fun r hr => h r (.tail _ hr)) hi

theorem paste_flatten (h : Even cols rows) (hrow : row.length = cols) (hi : i < rows.length) :
    paste rows.flatten (i * cols) row = (rows.set i row).flatten := by
  induction rows generalizing i with
  | nil => cases hi
  | cons r rows ih =>
    have hr := h r (.head _)
    rw [List.flatten_cons]
    cases i with
    | zero =>
      rw [paste, Nat.zero_mul, List.take_zero, List.nil_append, Nat.zero_add, List.drop_left' (hr.trans hrow.symm), List.set_cons_zero,
        List.flatten_cons]
    | succ i =>
      rw [paste, place_succ hr, List.take_length_add_append, Nat.add_assoc, List.drop_length_add_append, List.append_assoc, ← paste,
        ih (fun r hr => h r (.tail _ hr)) (Nat.lt_of_succ_lt_succ hi), List.set_cons_succ, List.flatten_cons]

theorem getElem?_flatten (h : Even cols rows) (hi : rows[i]? = some row) (hj : j < cols) : rows.flatten[i * cols + j]? = row[j]? := by
  have hslice : (slice rows.flatten (i * cols) cols)[j]? = row[j]? := by rw [slice_flatten h hi]
  rw [← hslice, slice, List.getElem?_take_of_lt hj, List.getElem?_drop]

theorem Even.set (h : Even cols rows) (hrow : row.length = cols) : Even cols (rows.set i row) := fun r hr =>
  (List.mem_or_eq_of_mem_set hr).elim (h r) fun heq => heq ▸ hrow

end Pclsync.Lib.RowMajor
