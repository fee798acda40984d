import Mathlib.Data.List.Basic

/-! Lists kept in chunks: pushing at the end, places that stay where they are, reading through a
cursor, and memory that is handed out from chunks. -/
namespace Pclsync.Lib.Chunks

variable {α : Type}

/-! ### Pushing -/

/-- To the last chunk where there is room in it, else to a new one. -/
def push (capacity : ℕ) (a : α) : List (List α) → List (List α)
  | [] => [[a]]
  | [last] => if last.length < capacity then [last ++ [a]] else [last, [a]]
  | chunk :: next :: chunks => chunk :: push capacity a (next :: chunks)

theorem flatten_push (capacity : ℕ) (a : α) (chunks : List (List α)) : (push capacity a chunks).flatten = chunks.flatten ++ [a] := by
  fun_induction push capacity a chunks with
  | case1 => rfl
  | case2 last hroom => simp
  | case3 last hfull => simp
  | case4 chunk next chunks ih =>
    rw [List.flatten_cons, ih, ← List.append_assoc]
    rfl

theorem push_filled (capacity : ℕ) (a : α) {chunks : List (List α)} (h : ∀ chunk ∈ chunks, chunk ≠ []) :
    ∀ chunk ∈ push capacity a chunks, chunk ≠ [] := by
  fun_induction push capacity a chunks with
  | case1 => simp
  | case2 last hroom => simp
  | case3 last hfull => simpa using h
  | case4 chunk next chunks ih =>
    obtain ⟨hchunk, hrest⟩ := List.forall_mem_cons.mp h
    exact List.forall_mem_cons.mpr ⟨hchunk, ih hrest⟩

/-! ### Places -/

/-- The `k`-th item is the `j`-th one of the `i`-th chunk. -/
def At : List (List α) → ℕ → ℕ → ℕ → Prop
  | [], _, _, _ => False
  | chunk :: _, 0, j, k => j = k ∧ j < chunk.length
  | chunk :: chunks, i + 1, j, k => ∃ k', At chunks i j k' ∧ k = chunk.length + k'

/-- Where the last item is. -/
def lastPlace (chunks : List (List α)) : ℕ × ℕ := (chunks.length - 1, (chunks.getLastD []).length - 1)

theorem push_ne_nil (capacity : ℕ) (a : α) (chunks : List (List α)) : push capacity a chunks ≠ [] := by
  fun_cases push capacity a chunks <;> simp

theorem lastPlace_cons (chunk : List α) {chunks : List (List α)} (h : chunks ≠ []) :
    lastPlace (chunk :: chunks) = ((lastPlace chunks).1 + 1, (lastPlace chunks).2) := by
  obtain ⟨next, chunks, rfl⟩ := List.exists_cons_of_ne_nil h
  rfl

theorem at_push_last (capacity : ℕ) (a : α) (chunks : List (List α)) :
    At (push capacity a chunks) (lastPlace (push capacity a chunks)).1 (lastPlace (push capacity a chunks)).2 chunks.flatten.length := by
  fun_induction push capacity a chunks with
  | case1 => exact ⟨rfl, Nat.one_pos⟩
  | case2 last hroom => simp [At, lastPlace]
  | case3 last hfull => simp [At, lastPlace]
  | case4 chunk next chunks ih =>
    rw [lastPlace_cons chunk (push_ne_nil capacity a (next :: chunks))]
    exact ⟨_, ih, by rw [List.flatten_cons, List.length_append]⟩

theorem At.push {capacity : ℕ} {a : α} {chunks : List (List α)} {i j k : ℕ} (h : At chunks i j k) : At (push capacity a chunks) i j k := by
  fun_induction Chunks.push capacity a chunks generalizing i k with
  | case1 => exact h.elim
  | case2 last hroom =>
    match i, h with
    | 0, h => exact ⟨h.1, by rw [List.length_append]; exact Nat.lt_add_right _ h.2⟩
    | i + 1, ⟨_, h, _⟩ => exact h.elim
  | case3 last hfull =>
    match i, h with
    | 0, h => exact h
    | i + 1, ⟨_, h, _⟩ => exact h.elim
  | case4 chunk next chunks ih =>
    match i, h with
    | 0, h => exact h
    | i + 1, ⟨k', h, hk⟩ => exact ⟨k', ih h, hk⟩

/-- One item is changed in its place. -/
def modifyAt (f : α → α) (chunks : List (List α)) (place : ℕ × ℕ) : List (List α) :=
  chunks.modify place.1 fun chunk => chunk.modify place.2 f

theorem modify_append_left (f : α → α) (l : List α) {l' : List α} {j : ℕ} (hj : j < l'.length) :
    (l' ++ l).modify j f = l'.modify j f ++ l := by
  rw [List.modify_eq_take_cons_drop hj, List.modify_eq_take_cons_drop (by rw [List.length_append]; exact Nat.lt_add_right _ hj),
    List.take_append_of_le_length (Nat.le_of_lt hj), List.drop_append_of_le_length hj, List.getElem_append_left hj, List.append_assoc, List.cons_append]

theorem modify_append_right (f : α → α) (l' l : List α) (k : ℕ) : (l' ++ l).modify (l'.length + k) f = l' ++ l.modify k f :=
  List.modifyTailIdx_add _ k l' l

theorem flatten_modifyAt (f : α → α) {chunks : List (List α)} {i j k : ℕ} (h : At chunks i j k) :
    (modifyAt f chunks (i, j)).flatten = chunks.flatten.modify k f := by
  induction chunks generalizing i k with
  | nil => exact h.elim
  | cons chunk chunks ih =>
    cases i with
    | zero =>
      obtain ⟨rfl, hj⟩ := h
      exact (modify_append_left f chunks.flatten hj).symm
    | succ i =>
      obtain ⟨k', h, rfl⟩ := h
      rw [List.flatten_cons, modify_append_right, ← ih h]
      rfl

theorem At.modifyAt (f : α → α) {chunks : List (List α)} {i j k : ℕ} (h : At chunks i j k) : At (modifyAt f chunks (i, j)) i j k := by
  induction chunks generalizing i k with
  | nil => exact h.elim
  | cons chunk chunks ih =>
    cases i with
    | zero => exact ⟨h.1, by rw [List.length_modify]; exact h.2⟩
    | succ i =>
      obtain ⟨k', h, hk⟩ := h
      exact ⟨k', ih h, hk⟩

theorem modifyAt_filled (f : α → α) {chunks : List (List α)} (place : ℕ × ℕ) (h : ∀ chunk ∈ chunks, chunk ≠ []) :
    ∀ chunk ∈ modifyAt f chunks place, chunk ≠ [] := by
  intro chunk hmem
  obtain ⟨i, hi, rfl⟩ := List.mem_iff_getElem.mp hmem
  rw [modifyAt, List.length_modify] at hi
  have hne := h _ (List.getElem_mem hi)
  simp only [modifyAt, List.getElem_modify]
  split_ifs
  · exact fun hnil => hne (List.modify_eq_nil_iff.mp hnil)
  · exact hne

/-! ### Reading -/

/-- What of the chunks is still to be read, and how much of the first one was read. -/
structure Cursor (α : Type) where
  chunks : List (List α)
  off : ℕ

/-- The items that are still to be read. -/
def Cursor.rest (c : Cursor α) : List α := c.chunks.flatten.drop c.off

/-- The next item. -/
def Cursor.pop (c : Cursor α) : Option (α × Cursor α) :=
  match c.chunks with
  | [] => none
  | chunk :: chunks => chunk[c.off]?.map fun a => (a, if c.off + 1 < chunk.length then ⟨chunk :: chunks, c.off + 1⟩ else ⟨chunks, 0⟩)

/-- No chunk is empty, and the first one was not read to its end. -/
def Cursor.Ready (c : Cursor α) : Prop := (∀ chunk ∈ c.chunks, chunk ≠ []) ∧ ∀ chunk ∈ c.chunks.head?, c.off < chunk.length

theorem Cursor.ready_start {chunks : List (List α)} (h : ∀ chunk ∈ chunks, chunk ≠ []) : (Cursor.mk chunks 0).Ready :=
  ⟨h, fun chunk hchunk => List.length_pos_iff.mpr (h chunk (List.mem_of_mem_head? hchunk))⟩

theorem Cursor.pop_cons {chunk : List α} {chunks : List (List α)} {off : ℕ} (hoff : off < chunk.length) :
    (Cursor.mk (chunk :: chunks) off).pop =
      some (chunk[off], if off + 1 < chunk.length then ⟨chunk :: chunks, off + 1⟩ else ⟨chunks, 0⟩) := by
  unfold pop
  simp only [List.getElem?_eq_getElem hoff]
  rfl

/-- Reading goes over the borders of the chunks. -/
theorem Cursor.pop_spec {c : Cursor α} {a : α} {l : List α} (hready : c.Ready) (hrest : c.rest = a :: l) :
    ∃ c', c.pop = some (a, c') ∧ c'.rest = l ∧ c'.Ready := by
  obtain ⟨chunks, off⟩ := c
  cases chunks with
  | nil =>
    rw [rest, List.flatten_nil, List.drop_nil] at hrest
    cases hrest
  | cons chunk chunks =>
    have hoff : off < chunk.length := hready.2 chunk rfl
    obtain ⟨-, hfilled⟩ := List.forall_mem_cons.mp hready.1
    rw [rest, List.flatten_cons, List.drop_append_of_le_length (Nat.le_of_lt hoff), List.drop_eq_getElem_cons hoff, List.cons_append, List.cons.injEq] at hrest
    obtain ⟨rfl, rfl⟩ := hrest
    refine ⟨_, pop_cons hoff, ?_, ?_⟩
    · split_ifs with hmore
      · rw [rest, List.flatten_cons, List.drop_append_of_le_length (Nat.le_of_lt hmore)]
      · rw [List.drop_eq_nil_of_le (Nat.not_lt.mp hmore)]
        rfl
    · split_ifs with hmore
      · refine ⟨hready.1, fun c hc => ?_⟩
        cases hc
        exact hmore
      · exact ready_start hfilled

/-! ### Memory from chunks -/

/-- What was written to the chunks, and the chunk that small pieces come from. -/
structure Arena (α : Type) where
  chunks : List (List α)
  last : Option ℕ

/-- A piece over `large` has a chunk of its own; a smaller one goes behind the last small one while the chunk of `capacity` has room. -/
def Arena.alloc (large capacity : ℕ) (a : Arena α) (piece : List α) : Arena α × (ℕ × ℕ) :=
  let fresh := a.chunks ++ [piece]
  if large < piece.length then (⟨fresh, a.last⟩, (a.chunks.length, 0))
  else
    match a.last.bind fun k => (a.chunks[k]?).map fun chunk => (k, chunk) with
    | some (k, chunk) =>
      if chunk.length + piece.length ≤ capacity then (⟨a.chunks.set k (chunk ++ piece), a.last⟩, (k, chunk.length))
      else (⟨fresh, some a.chunks.length⟩, (a.chunks.length, 0))
    | none => (⟨fresh, some a.chunks.length⟩, (a.chunks.length, 0))

/-- What is written at a place, if that much is. -/
def Arena.read (a : Arena α) (place : ℕ × ℕ) (length : ℕ) : Option (List α) :=
  match a.chunks[place.1]? with
  | none => none
  | some chunk => if place.2 + length ≤ chunk.length then some ((chunk.drop place.2).take length) else none

theorem Arena.length_read {a : Arena α} {place : ℕ × ℕ} {length : ℕ} {piece : List α} (h : a.read place length = some piece) :
    piece.length = length := by
  rw [read] at h
  split at h
  · cases h
  · split_ifs at h with hfits
    obtain rfl := Option.some.inj h
    rw [List.length_take, List.length_drop, Nat.min_eq_left (Nat.le_sub_of_add_le' hfits)]

/-- What can be read stays where it is. -/
def Arena.Grows (a b : Arena α) : Prop := ∀ place length piece, a.read place length = some piece → b.read place length = some piece

theorem Arena.Grows.refl (a : Arena α) : a.Grows a := fun _ _ _ h => h

theorem Arena.Grows.trans {a b c : Arena α} (hab : a.Grows b) (hbc : b.Grows c) : a.Grows c :=
  fun place length piece h => hbc place length piece (hab place length piece h)

/-- Chunks are only written behind what is there. -/
theorem Arena.grows_of {a b : Arena α} (h : ∀ (k : ℕ) (chunk : List α), a.chunks[k]? = some chunk → ∃ more, b.chunks[k]? = some (chunk ++ more)) :
    a.Grows b := by
  intro place length piece hread
  rw [read] at hread ⊢
  cases hchunk : a.chunks[place.1]? with
  | none =>
    rw [hchunk] at hread
    cases hread
  | some chunk =>
    rw [hchunk] at hread
    obtain ⟨more, hmore⟩ := h place.1 chunk hchunk
    simp only [hmore]
    simp only at hread
    split_ifs at hread with hfits
    obtain rfl := Option.some.inj hread
    rw [if_pos (by rw [List.length_append]; exact Nat.le_add_right_of_le hfits),
      List.drop_append_of_le_length (Nat.le_of_add_right_le hfits),
      List.take_append_of_le_length (by rw [List.length_drop]; exact Nat.le_sub_of_add_le' hfits)]

theorem Arena.grows_fresh (a : Arena α) (piece : List α) (last : Option ℕ) : a.Grows ⟨a.chunks ++ [piece], last⟩ := by
  refine grows_of fun k chunk hchunk => ⟨[], ?_⟩
  obtain ⟨hk, -⟩ := List.getElem?_eq_some_iff.mp hchunk
  rw [List.append_nil, List.getElem?_append_left hk, hchunk]

theorem Arena.read_fresh (a : Arena α) (piece : List α) (last : Option ℕ) :
    Arena.read ⟨a.chunks ++ [piece], last⟩ (a.chunks.length, 0) piece.length = some piece := by
  simp [read]

theorem Arena.alloc_spec (large capacity : ℕ) (a : Arena α) (piece : List α) :
    a.Grows (a.alloc large capacity piece).1 ∧
      (a.alloc large capacity piece).1.read (a.alloc large capacity piece).2 piece.length = some piece := by
  rw [alloc]
  split_ifs with hlarge
  · exact ⟨a.grows_fresh piece _, a.read_fresh piece _⟩
  · split
    · next k chunk hlast =>
      split_ifs with hroom
      · obtain ⟨k', -, hk⟩ := Option.bind_eq_some_iff.mp hlast
        obtain ⟨chunk', hchunk, heq⟩ := Option.map_eq_some_iff.mp hk
        obtain ⟨rfl, rfl⟩ := Prod.mk.inj heq
        obtain ⟨hlt, -⟩ := List.getElem?_eq_some_iff.mp hchunk
        constructor
        · refine grows_of fun i c hc => ?_
          by_cases hi : k' = i
          · subst hi
            obtain rfl := Option.some.inj (hchunk.symm.trans hc)
            exact ⟨piece, List.getElem?_set_self hlt⟩
          · exact ⟨[], by rw [List.append_nil, ← hc]; exact List.getElem?_set_ne hi⟩
        · simp [read, List.getElem?_set_self hlt]
      · exact ⟨a.grows_fresh piece _, a.read_fresh piece _⟩
    · exact ⟨a.grows_fresh piece _, a.read_fresh piece _⟩

end Pclsync.Lib.Chunks
