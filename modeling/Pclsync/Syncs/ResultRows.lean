import Pclsync.Lib.Machine
import Pclsync.Lib.RowMajor
import Pclsync.Syncs.Pairing

/-! `group_results_by_col` of `pdiff.c` on the results as they are in memory: the rows of a result one after the other in one array, and an
exchange of two rows as three copies. -/
namespace Pclsync.Syncs.ResultRows
open Lib.Machine Lib.RowMajor

/-- `psync_full_result_int`. `psync_get_result_cell` counts its cells in 32 bits. -/
structure FullResult where
  rows : ℕ
  cols : ℕ
  data : List ℕ
  length : data.length = rows * cols
  rows_lt : rows < 2 ^ 32
  addressed : rows * cols ≤ 2 ^ 32

def FullResult.rowList (r : FullResult) : List (List ℕ) := rowsOf r.cols r.rows r.data

/-- `psync_get_result_cell`. -/
def getResultCell (data : List ℕ) (cols row col : ℕ) : Option ℕ := data[u32 (u32 (row * cols) + col)]?

/-- Two rows change places. -/
def swapRows (data : List ℕ) (cols i l : ℕ) : List ℕ :=
  let buff := slice data (u32 (i * cols)) cols
  let data := paste data (u32 (i * cols)) (slice data (u32 (l * cols)) cols)
  paste data (u32 (l * cols)) buff

/-- The data of both results, and `l`. -/
structure State where
  data1 : List ℕ
  data2 : List ℕ
  l : ℕ

def State.step (cols col : ℕ) (s : State) (i j : ℕ) : State :=
  if getResultCell s.data1 cols i col = getResultCell s.data2 cols j col then
    ⟨if i ≠ s.l then swapRows s.data1 cols i s.l else s.data1, if j ≠ s.l then swapRows s.data2 cols j s.l else s.data2, u32 (s.l + 1)⟩
  else s

/-- `group_results_by_col`, for results of as many columns. -/
def groupResultsByCol (r1 r2 : FullResult) (col : ℕ) : State :=
  (List.range r1.rows).foldl (fun s i => (List.range r2.rows).foldl (fun s j => s.step r1.cols col i j) s) ⟨r1.data, r2.data, 0⟩

/-- The first rows are in pairs, and no row after them has one. No row is lost, doubled or torn. -/
structure Groups (r1 r2 : FullResult) (col : ℕ) (s : State) (l : ℕ) : Prop where
  perm1 : (rowsOf r1.cols r1.rows s.data1).Perm r1.rowList
  perm2 : (rowsOf r2.cols r2.rows s.data2).Perm r2.rowList
  le1 : l ≤ r1.rows
  le2 : l ≤ r2.rows
  paired : ∀ k < l, getResultCell s.data1 r1.cols k col = getResultCell s.data2 r2.cols k col
  alone : ∀ i j, l ≤ i → i < r1.rows → l ≤ j → j < r2.rows → getResultCell s.data1 r1.cols i col ≠ getResultCell s.data2 r2.cols j col

/-- The values of a column. -/
def FullResult.column (r : FullResult) (col : ℕ) : List (Option ℕ) := r.rowList.map fun row => row[col]?

variable {cols col i j l : ℕ} {rows : List (List ℕ)} {row a b : List ℕ}

/-! ### Rows in memory -/

/-- The rows of a table, with places that 32 bits can count. -/
structure Held (cols n : ℕ) (rows : List (List ℕ)) : Prop where
  even : Even cols rows
  length : rows.length = n
  addressed : n * cols ≤ 2 ^ 32

theorem Held.cell {n : ℕ} (h : Held cols n rows) (hi : rows[i]? = some row) (hcol : col < cols) :
    getResultCell rows.flatten cols i col = row[col]? := by
  obtain ⟨hin, -⟩ := List.getElem?_eq_some_iff.mp hi
  have hplace : i * cols + col < 2 ^ 32 := by
    refine Nat.lt_of_lt_of_le ?_ h.addressed
    calc i * cols + col < (i + 1) * cols := by rw [Nat.succ_mul]; omega
      _ ≤ n * cols := Nat.mul_le_mul_right _ (h.length ▸ hin)
  rw [getResultCell, u32_of_lt (Nat.lt_of_le_of_lt (Nat.le_add_right _ _) hplace), u32_of_lt hplace, getElem?_flatten h.even hi hcol]

theorem Held.place {n : ℕ} (h : Held cols n rows) (hi : i < rows.length) (hcols : 0 < cols) : u32 (i * cols) = i * cols := by
  refine u32_of_lt (Nat.lt_of_lt_of_le ?_ h.addressed)
  exact (Nat.mul_lt_mul_right hcols).mpr (h.length ▸ hi)

/-- Three copies exchange two rows. -/
theorem Held.swap {n : ℕ} (h : Held cols n rows) (hcols : 0 < cols) (hi : i < rows.length) (hl : l < rows.length) :
    swapRows rows.flatten cols i l = (Pairing.exchange rows i l).flatten := by
  have ha := List.getElem?_eq_getElem hi
  have hb := List.getElem?_eq_getElem hl
  have hlen : ∀ {k : ℕ} (hk : k < rows.length), rows[k].length = cols := fun hk => h.even _ (List.getElem_mem hk)
  rw [swapRows, h.place hi hcols, h.place hl hcols, slice_flatten h.even ha, slice_flatten h.even hb,
    paste_flatten h.even (hlen hl) hi, paste_flatten (h.even.set (hlen hl)) (hlen hi) (by rwa [List.length_set]), Pairing.exchange, ha, hb]

theorem exchange_self (hi : i < rows.length) : Pairing.exchange rows i i = rows := by
  rw [Pairing.exchange, List.getElem?_eq_getElem hi]
  dsimp only
  rw [List.set_set, List.set_getElem_self]

theorem Held.exchange {n : ℕ} (h : Held cols n rows) :
    Held cols n (Pairing.exchange rows i l) :=
  ⟨fun row hrow => h.even row (Pairing.exchange_perm.mem_iff.mp hrow), Pairing.exchange_perm.length_eq.trans h.length, h.addressed⟩

/-- A row goes to its place. -/
theorem Held.moved {n : ℕ} (h : Held cols n rows) (hcols : 0 < cols) (hi : i < rows.length) (hl : l < rows.length) :
    (if i ≠ l then swapRows rows.flatten cols i l else rows.flatten) = (Pairing.exchange rows i l).flatten := by
  by_cases hil : i = l
  · rw [if_neg (not_not.mpr hil), hil, exchange_self hl]
  · rw [if_pos hil]
    exact h.swap hcols hi hl

/-! ### The loops -/

/-- The value of a row in the column. -/
def key (col : ℕ) (row : List ℕ) : Option ℕ := row[col]?

/-- The arrays hold the rows that the loops on lists leave. -/
structure Shows (cols n1 n2 : ℕ) (s : State) (g : Pairing.Grouping (List ℕ)) : Prop where
  data1 : s.data1 = g.r1.flatten
  data2 : s.data2 = g.r2.flatten
  l : s.l = g.l
  held1 : Held cols n1 g.r1
  held2 : Held cols n2 g.r2

section Loops
variable {n1 n2 : ℕ} {s : State} {g : Pairing.Grouping (List ℕ)} {r1 r2 : List (List ℕ)}

theorem Shows.cells (h : Shows cols n1 n2 s g) (hcol : col < cols) (hi : i < n1) (hj : j < n2) :
    getResultCell s.data1 cols i col = getResultCell s.data2 cols j col ↔ g.r1[i]?.map (key col) = g.r2[j]?.map (key col) := by
  have ha := List.getElem?_eq_getElem (h.held1.length.symm ▸ hi)
  have hb := List.getElem?_eq_getElem (h.held2.length.symm ▸ hj)
  rw [h.data1, h.data2, h.held1.cell ha hcol, h.held2.cell hb hcol, ha, hb, Option.map_some, Option.map_some, Option.some_inj]
  rfl

theorem Shows.step (h : Shows cols n1 n2 s g) (hcol : col < cols) (hn1 : n1 < 2 ^ 32) (hkeys1 : (r1.map (key col)).Nodup)
    (hkeys2 : (r2.map (key col)).Nodup) (hmeet : Pairing.Meeting (key col) r1 r2 i j g) (hi : i < r1.length) (hj : j < r2.length)
    (hlen1 : r1.length = n1) (hlen2 : r2.length = n2) :
    Shows cols n1 n2 (s.step cols col i j) (g.step (key col) i j) := by
  have hcells := h.cells hcol (hlen1 ▸ hi) (hlen2 ▸ hj)
  unfold State.step Pairing.Grouping.step
  by_cases hkey : g.r1[i]?.map (key col) = g.r2[j]?.map (key col)
  · rw [if_pos (hcells.mpr hkey), if_pos hkey]
    obtain ⟨hli, hlj⟩ := hmeet.le_of_meet hkeys1 hkeys2 hi hj hkey
    have hi' : i < g.r1.length := by rw [h.held1.length, ← hlen1]; exact hi
    have hj' : j < g.r2.length := by rw [h.held2.length, ← hlen2]; exact hj
    have hcols : 0 < cols := Nat.lt_of_le_of_lt (Nat.zero_le _) hcol
    refine ⟨?_, ?_, ?_, h.held1.exchange, h.held2.exchange⟩
    · show (if i ≠ s.l then swapRows s.data1 cols i s.l else s.data1) = _
      rw [h.data1, h.l]
      exact h.held1.moved hcols hi' (Nat.lt_of_le_of_lt hli hi')
    · show (if j ≠ s.l then swapRows s.data2 cols j s.l else s.data2) = _
      rw [h.data2, h.l]
      exact h.held2.moved hcols hj' (Nat.lt_of_le_of_lt hlj hj')
    · show u32 (s.l + 1) = g.l + 1
      rw [h.l]
      exact u32_of_lt (by omega)
  · rw [if_neg (fun hcell => hkey (hcells.mp hcell)), if_neg hkey]
    exact h

/-- The loops on the arrays do what the loops on lists do. -/
theorem shows_loops (h : Shows cols n1 n2 s ⟨r1, r2, 0⟩) (hcol : col < cols) (hn1 : n1 < 2 ^ 32) (hkeys1 : (r1.map (key col)).Nodup)
    (hkeys2 : (r2.map (key col)).Nodup) (hlen1 : r1.length = n1) (hlen2 : r2.length = n2) {n : ℕ} (hn : n ≤ n1) :
    ∃ g, Pairing.Grouped (key col) r1 r2 n g ∧
      Shows cols n1 n2 ((List.range n).foldl (fun s i => (List.range n2).foldl (fun s j => s.step cols col i j) s) s) g := by
  subst hlen2
  induction n with
  | zero => exact ⟨⟨r1, r2, 0⟩, ⟨.refl r1, .refl r2, le_rfl, Nat.zero_le _, nofun, nofun⟩, h⟩
  | succ n ih =>
    obtain ⟨g, hgrouped, hshows⟩ := ih (Nat.le_of_succ_le hn)
    have hi : n < r1.length := hlen1 ▸ hn
    refine ⟨_, hgrouped.round hkeys1 hkeys2 hi, ?_⟩
    rw [List.range_succ, List.foldl_append, List.foldl_cons, List.foldl_nil]
    have hrow : ∀ m ≤ r2.length, Shows cols n1 r2.length ((List.range m).foldl (fun s j => s.step cols col n j)
        ((List.range n).foldl (fun s i => (List.range r2.length).foldl (fun s j => s.step cols col i j) s) s))
        ((List.range m).foldl (fun g j => g.step (key col) n j) g) := by
      intro m hm
      induction m with
      | zero => exact hshows
      | succ m ihm =>
        rw [List.range_succ, List.foldl_append, List.foldl_append]
        exact (ihm (Nat.le_of_succ_le hm)).step hcol hn1 hkeys1 hkeys2
          (Pairing.Meeting.run hkeys1 hkeys2 hgrouped hi (Nat.le_of_succ_le hm)) hi hm hlen1 rfl
    exact hrow r2.length le_rfl

end Loops

theorem FullResult.held (r : FullResult) : Held r.cols r.rows r.rowList := ⟨even_rowsOf r.length, length_rowsOf, r.addressed⟩

/-- `group_results_by_col` groups every two results of as many columns, the values of the column being different within each. -/
theorem groupResultsByCol_groups (r1 r2 : FullResult) (col : ℕ) (hcols : r1.cols = r2.cols) (hcol : col < r1.cols)
    (h1 : (r1.column col).Nodup) (h2 : (r2.column col).Nodup) : ∃ l, Groups r1 r2 col (groupResultsByCol r1 r2 col) l := by
  have hstart : Shows r1.cols r1.rows r2.rows ⟨r1.data, r2.data, 0⟩ ⟨r1.rowList, r2.rowList, 0⟩ :=
    ⟨(flatten_rowsOf r1.length).symm, (flatten_rowsOf r2.length).symm, rfl, r1.held, hcols ▸ r2.held⟩
  obtain ⟨g, hgrouped, hshows⟩ := shows_loops hstart hcol r1.rows_lt h1 h2 length_rowsOf length_rowsOf le_rfl
  have hrows1 : rowsOf r1.cols r1.rows g.r1.flatten = g.r1 := by
    rw [← hshows.held1.length]
    exact rowsOf_flatten hshows.held1.even
  have hrows2 : rowsOf r2.cols r2.rows g.r2.flatten = g.r2 := by
    rw [← hshows.held2.length, ← hcols]
    exact rowsOf_flatten hshows.held2.even
  have hlen1 : r1.rowList.length = r1.rows := length_rowsOf
  refine ⟨g.l, ⟨?_, ?_, hgrouped.le, hshows.held2.length ▸ hgrouped.le2, fun k hk => ?_, fun i j hi hi' hj hj' => ?_⟩⟩
  · rw [groupResultsByCol, hshows.data1, hrows1]
    exact hgrouped.perm1
  · rw [groupResultsByCol, hshows.data2, hrows2]
    exact hgrouped.perm2
  · rw [← hcols]
    exact (hshows.cells hcol (Nat.lt_of_lt_of_le hk hgrouped.le) (Nat.lt_of_lt_of_le hk (hshows.held2.length ▸ hgrouped.le2))).mpr
      (hgrouped.paired k hk)
  · rw [← hcols]
    intro hcell
    have hkey := (hshows.cells hcol hi' hj').mp hcell
    have ha := List.getElem?_eq_getElem (hshows.held1.length.symm ▸ hi')
    have hb := List.getElem?_eq_getElem (hshows.held2.length.symm ▸ hj')
    rw [ha, hb, Option.map_some, Option.map_some, Option.some_inj] at hkey
    exact hgrouped.alone i hi (hlen1.symm ▸ hi') _ ha (List.mem_map.mpr ⟨_, List.getElem_mem _, hkey.symm⟩)

/-- Two rows each, of which one is in both. -/
theorem groupResultsByCol_two : ∃ l, Groups ⟨2, 2, [1, 10, 2, 20], rfl, by decide, by decide⟩ ⟨2, 2, [3, 30, 1, 40], rfl, by decide, by decide⟩ 0
    (groupResultsByCol ⟨2, 2, [1, 10, 2, 20], rfl, by decide, by decide⟩ ⟨2, 2, [3, 30, 1, 40], rfl, by decide, by decide⟩ 0) l :=
  groupResultsByCol_groups _ _ 0 rfl (by decide) (by decide) (by decide)

end Pclsync.Syncs.ResultRows
