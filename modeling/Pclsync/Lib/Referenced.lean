import Mathlib.Data.Int.Notation
import Mathlib.Data.List.Count
import Mathlib.Data.List.Nodup
import Mathlib.Data.Nat.Notation
import Mathlib.Tactic.Common

/-! Cells that count the references to them, and programs on them.

A cell is found by its data, and a program that finds it holds a reference until it gives it
back. A cell whose last reference is given back is freed if it is idle. A program stops without
a result at a pointer to a cell that is gone. -/
namespace Pclsync.Lib.Referenced

/-- A cell, and how many references to it are out. -/
structure Cell (D : Type) where
  data : D
  refcnt : ℤ
deriving DecidableEq, Repr

/-- The cells in use at their addresses, the next address, the cells that were freed when their last reference was given back, and
what else a program keeps. -/
structure Store (D X : Type) where
  cells : List (ℕ × Cell D)
  fresh : ℕ
  released : List (Cell D)
  env : X
deriving DecidableEq, Repr

abbrev Program (D X α : Type) := StateT (Store D X) Option α

variable {D X α β : Type}

/-- The program ends, and `Q` holds of its result and of what it leaves. -/
def Does (x : Program D X α) (s : Store D X) (Q : α → Store D X → Prop) : Prop := ∃ a s', x s = some (a, s') ∧ Q a s'

namespace Store
variable (s : Store D X)

/-- Where the first cell is that has such data. -/
def find (p : D → Bool) : Option ℕ := (s.cells.find? fun e => p e.2.data).map Prod.fst

def cell (a : ℕ) : Option (Cell D) := (s.cells.find? fun e => e.1 = a).map Prod.snd

def update (a : ℕ) (f : Cell D → Cell D) : Store D X := { s with cells := s.cells.map fun e => if e.1 = a then (e.1, f e.2) else e }

def remove (a : ℕ) : Store D X := { s with cells := s.cells.filter fun e => e.1 ≠ a }

/-- The data at an address. -/
def Data (a : ℕ) (d : D) : Prop := ∃ refcnt, (a, ⟨d, refcnt⟩) ∈ s.cells

end Store

/-! ### Programs -/

def load (a : ℕ) : Program D X D := fun s => (s.cell a).map fun c => (c.data, s)

def edit (a : ℕ) (f : D → D) : Program D X Unit := fun s =>
  (s.cell a).map fun _ => ((), s.update a fun c => { c with data := f c.data })

/-- One more reference. -/
def retain (a : ℕ) : Program D X Unit := fun s => (s.cell a).map fun _ => ((), s.update a fun c => { c with refcnt := c.refcnt + 1 })

/-- A reference to the cell that has such data, if there is one. -/
def acquire (p : D → Bool) : Program D X (Option ℕ) := fun s =>
  match s.find p with
  | none => some (none, s)
  | some a => some (some a, s.update a fun c => { c with refcnt := c.refcnt + 1 })

/-- A reference to the cell that has such data, which is made if there is none. -/
def acquireOr (p : D → Bool) (d : D) : Program D X ℕ := fun s =>
  match s.find p with
  | none => some (s.fresh, { s with cells := s.cells ++ [(s.fresh, ⟨d, 1⟩)], fresh := s.fresh + 1 })
  | some a => some (a, s.update a fun c => { c with refcnt := c.refcnt + 1 })

/-- A reference is given back. -/
def release (idle : D → Bool) (a : ℕ) : Program D X Unit := fun s =>
  (s.cell a).map fun c =>
    if c.refcnt - 1 = 0 ∧ idle c.data then ((), { s.remove a with released := ⟨c.data, c.refcnt - 1⟩ :: s.released })
    else ((), s.update a fun c => { c with refcnt := c.refcnt - 1 })

/-- The cells to which there are no references go, the others change. -/
def sweep (f : D → D) : Program D X Unit := fun s =>
  some ((), { s with cells := (s.cells.filter fun e => e.2.refcnt ≠ 0).map fun e => (e.1, { e.2 with data := f e.2.data }) })

/-! ### What programs do -/

section
variable {s : Store D X} {Q : α → Store D X → Prop}

@[simp] theorem does_pure {a : α} : Does (pure a : Program D X α) s Q ↔ Q a s := by
  constructor
  · rintro ⟨_, _, hrun, hq⟩
    cases hrun
    exact hq
  · exact fun hq => ⟨a, s, rfl, hq⟩

@[simp] theorem does_bind {x : Program D X β} {f : β → Program D X α} :
    Does (x >>= f) s Q ↔ Does x s fun b s' => Does (f b) s' Q := by
  constructor
  · rintro ⟨a, s'', hrun, hq⟩
    obtain ⟨⟨b, s'⟩, hx, hf⟩ := Option.bind_eq_some_iff.mp hrun
    exact ⟨b, s', hx, a, s'', hf, hq⟩
  · rintro ⟨b, s', hx, a, s'', hf, hq⟩
    exact ⟨a, s'', Option.bind_eq_some_iff.mpr ⟨(b, s'), hx, hf⟩, hq⟩

theorem Does.mono {x : Program D X α} {Q' : α → Store D X → Prop} (hx : Does x s Q) (hq : ∀ a s', Q a s' → Q' a s') : Does x s Q' := by
  obtain ⟨a, s', hrun, h⟩ := hx
  exact ⟨a, s', hrun, hq a s' h⟩

/-- A program and what is done with what it leaves. -/
theorem Does.bind {x : Program D X β} {f : β → Program D X α} {R : β → Store D X → Prop} (hx : Does x s R)
    (hf : ∀ b s', R b s' → Does (f b) s' Q) : Does (x >>= f) s Q := does_bind.mpr (hx.mono hf)

theorem does_get {Q : Store D X → Store D X → Prop} : Does (get : Program D X (Store D X)) s Q ↔ Q s s := by
  constructor
  · rintro ⟨_, _, hrun, hq⟩
    cases hrun
    exact hq
  · exact fun hq => ⟨s, s, rfl, hq⟩

theorem does_modify {f : Store D X → Store D X} {Q : Unit → Store D X → Prop} : Does (modify f : Program D X Unit) s Q ↔ Q () (f s) := by
  constructor
  · rintro ⟨_, _, hrun, hq⟩
    cases hrun
    exact hq
  · exact fun hq => ⟨(), f s, rfl, hq⟩

end

/-! ### Counts that are right -/

/-- The references that are held are counted, none leads to a cell that is gone, a cell without references is not idle, and what was
freed was idle and had no references. `P` holds of the data of every cell. -/
structure Valid (idle : D → Bool) (P : D → Prop) (held : List ℕ) (s : Store D X) : Prop where
  nodup : (s.cells.map Prod.fst).Nodup
  fresh : ∀ e ∈ s.cells, e.1 < s.fresh
  live : ∀ a ∈ held, ∃ c, (a, c) ∈ s.cells
  refcnt : ∀ e ∈ s.cells, e.2.refcnt = held.count e.1
  busy : ∀ e ∈ s.cells, e.2.refcnt = 0 → idle e.2.data = false
  data : ∀ e ∈ s.cells, P e.2.data
  released : ∀ c ∈ s.released, c.refcnt = 0 ∧ idle c.data = true

variable {idle : D → Bool} {P P' : D → Prop} {held : List ℕ} {s : Store D X} {a : ℕ} {c : Cell D} {d : D} {p : D → Bool} {f : D → D}

theorem Store.cell_eq (hnodup : (s.cells.map Prod.fst).Nodup) (h : (a, c) ∈ s.cells) : s.cell a = some c := by
  have hfound : s.cells.find? (fun e => e.1 = a) = some (a, c) := by
    cases hfind : s.cells.find? (fun e => e.1 = a) with
    | none => exact absurd (List.find?_eq_none.mp hfind (a, c) h) (by simp)
    | some e =>
      have hkey : e.1 = a := by simpa using List.find?_some hfind
      rw [List.inj_on_of_nodup_map hnodup (List.mem_of_find?_eq_some hfind) h hkey]
  rw [Store.cell, hfound]
  rfl

theorem Store.find_some (h : s.find p = some a) : ∃ c, (a, c) ∈ s.cells ∧ p c.data = true := by
  obtain ⟨e, hfind, rfl⟩ := Option.map_eq_some_iff.mp h
  exact ⟨e.2, List.mem_of_find?_eq_some hfind, by simpa using List.find?_some hfind⟩

theorem Store.find_none (h : s.find p = none) (hmem : (a, c) ∈ s.cells) : p c.data = false := by
  have hnone := List.find?_eq_none.mp (Option.map_eq_none_iff.mp h) _ hmem
  simpa using hnone

theorem Store.mem_update {g : Cell D → Cell D} {e : ℕ × Cell D} (h : e ∈ (s.update a g).cells) :
    e ∈ s.cells ∧ e.1 ≠ a ∨ e.1 = a ∧ ∃ c, (a, c) ∈ s.cells ∧ e.2 = g c := by
  obtain ⟨x, hx, rfl⟩ := List.mem_map.mp h
  by_cases hxa : x.1 = a
  · refine .inr ⟨by rw [if_pos hxa, hxa], x.2, ?_, by rw [if_pos hxa]⟩
    rw [← hxa]
    exact hx
  · rw [if_neg hxa]
    exact .inl ⟨hx, hxa⟩

@[simp] theorem Store.keys_update {g : Cell D → Cell D} : (s.update a g).cells.map Prod.fst = s.cells.map Prod.fst := by
  rw [Store.update, List.map_map]
  refine List.map_congr_left fun e _ => ?_
  dsimp only [Function.comp]
  split_ifs <;> rfl

theorem Store.live_update {g : Cell D → Cell D} {b : ℕ} (h : ∃ c, (b, c) ∈ s.cells) : ∃ c, (b, c) ∈ (s.update a g).cells := by
  obtain ⟨c, hc⟩ := h
  exact ⟨if b = a then g c else c, List.mem_map.mpr ⟨(b, c), hc, by dsimp only; split_ifs <;> rfl⟩⟩

theorem Valid.data_of (h : Valid idle P held s) (hdata : s.Data a d) : P d := hdata.elim fun _ hmem => h.data _ hmem

/-- An address has one cell. -/
theorem Valid.data_inj {d' : D} (h : Valid idle P held s) (hd : s.Data a d) (hd' : s.Data a d') : d = d' := by
  obtain ⟨refcnt, hmem⟩ := hd
  obtain ⟨refcnt', hmem'⟩ := hd'
  have heq := List.inj_on_of_nodup_map h.nodup hmem hmem' rfl
  exact congrArg (fun e => e.2.data) heq

theorem Valid.mono (h : Valid idle P held s) (hP : ∀ d, P d → P' d) : Valid idle P' held s :=
  ⟨h.nodup, h.fresh, h.live, h.refcnt, h.busy, fun e he => hP _ (h.data e he), h.released⟩

/-- What holds of every cell besides. -/
theorem Valid.strengthen (h : Valid idle P held s) (hP : ∀ e ∈ s.cells, P e.2.data → P' e.2.data) : Valid idle P' held s :=
  ⟨h.nodup, h.fresh, h.live, h.refcnt, h.busy, fun e he => hP e he (h.data e he), h.released⟩

theorem Valid.perm {held' : List ℕ} (h : Valid idle P held s) (hperm : held.Perm held') : Valid idle P held' s :=
  ⟨h.nodup, h.fresh, fun a ha => h.live a (hperm.mem_iff.mpr ha), fun e he => by rw [h.refcnt e he, hperm.count_eq], h.busy, h.data,
    h.released⟩

/-- What else is kept may change. -/
theorem Valid.env (h : Valid idle P held s) (x : X) : Valid idle P held { s with env := x } :=
  ⟨h.nodup, h.fresh, h.live, h.refcnt, h.busy, h.data, h.released⟩

/-- The order of the cells may change. -/
theorem Valid.reorder {cells : List (ℕ × Cell D)} (h : Valid idle P held s) (hperm : s.cells.Perm cells) :
    Valid idle P held { s with cells := cells } :=
  ⟨((hperm.map _).nodup_iff).mp h.nodup, fun e he => h.fresh e (hperm.mem_iff.mpr he),
    fun a ha => (h.live a ha).imp fun _ hc => hperm.mem_iff.mp hc, fun e he => h.refcnt e (hperm.mem_iff.mpr he),
    fun e he => h.busy e (hperm.mem_iff.mpr he), fun e he => h.data e (hperm.mem_iff.mpr he), h.released⟩

theorem Valid.does_sweep (h : Valid idle P held s) (hf : ∀ d, P d → P (f d)) :
    Does (sweep f) s fun _ s' => Valid idle P held s' ∧ s'.env = s.env := by
  have hmem : ∀ {e : ℕ × Cell D}, e ∈ ((s.cells.filter fun e => e.2.refcnt ≠ 0).map fun e => (e.1, { e.2 with data := f e.2.data })) →
      ∃ c, (e.1, c) ∈ s.cells ∧ c.refcnt ≠ 0 ∧ e.2 = { c with data := f c.data } := fun he => by
    obtain ⟨x, hx, rfl⟩ := List.mem_map.mp he
    obtain ⟨hold, hne⟩ := List.mem_filter.mp hx
    exact ⟨x.2, hold, of_decide_eq_true hne, rfl⟩
  refine ⟨(), _, rfl, ⟨?_, fun e he => ?_, fun a ha => ?_, fun e he => ?_, fun e he hzero => ?_, fun e he => ?_, h.released⟩, rfl⟩
  · rw [List.map_map]
    exact h.nodup.sublist (List.filter_sublist.map _)
  · obtain ⟨c, hc, _⟩ := hmem he
    exact h.fresh (e.1, c) hc
  · obtain ⟨c, hc⟩ := h.live a ha
    have hcount := h.refcnt _ hc
    have hpos := List.count_pos_iff.mpr ha
    refine ⟨_, List.mem_map.mpr ⟨(a, c), List.mem_filter.mpr ⟨hc, decide_eq_true ?_⟩, rfl⟩⟩
    dsimp only at hcount ⊢
    omega
  · obtain ⟨c, hc, _, heq⟩ := hmem he
    rw [heq]
    exact h.refcnt (e.1, c) hc
  · obtain ⟨c, _, hne, heq⟩ := hmem he
    rw [heq] at hzero
    exact absurd hzero hne
  · obtain ⟨c, hc, _, heq⟩ := hmem he
    rw [heq]
    exact hf _ (h.data _ hc)

/-- The data of a cell changes. -/
theorem Valid.does_edit (h : Valid idle P held s) (ha : a ∈ held) (hf : ∀ d, s.Data a d → P d → P (f d)) :
    Does (edit a f) s fun _ s' => Valid idle P held s' ∧ s'.env = s.env := by
  obtain ⟨c, hc⟩ := h.live a ha
  refine ⟨(), _, by rw [edit, Store.cell_eq h.nodup hc]; rfl, ⟨?_, fun e he => ?_, fun b hb => Store.live_update (h.live b hb), fun e he => ?_,
    fun e he hzero => ?_, fun e he => ?_, h.released⟩, rfl⟩
  · rw [Store.keys_update]
    exact h.nodup
  · rcases Store.mem_update he with ⟨hold, _⟩ | ⟨hkey, _⟩
    · exact h.fresh e hold
    · rw [hkey]
      exact h.fresh _ hc
  · rcases Store.mem_update he with ⟨hold, _⟩ | ⟨hkey, x, hx, heq⟩
    · exact h.refcnt e hold
    · rw [heq, hkey]
      exact h.refcnt _ hx
  · rcases Store.mem_update he with ⟨hold, _⟩ | ⟨hkey, x, hx, heq⟩
    · exact h.busy e hold hzero
    · have hcount := h.refcnt _ hx
      rw [heq] at hzero
      have hpos := List.count_pos_iff.mpr ha
      dsimp only at hcount hzero
      omega
  · rcases Store.mem_update he with ⟨hold, _⟩ | ⟨_, x, hx, heq⟩
    · exact h.data e hold
    · rw [heq]
      exact hf _ ⟨x.refcnt, hx⟩ (h.data _ hx)

/-- One more reference to a cell. -/
theorem Valid.update_refcnt (h : Valid idle P held s) (hc : (a, c) ∈ s.cells) :
    Valid idle P (a :: held) (s.update a fun c => { c with refcnt := c.refcnt + 1 }) := by
  refine ⟨?_, fun e he => ?_, fun b hb => ?_, fun e he => ?_, fun e he hzero => ?_, fun e he => ?_, h.released⟩
  · rw [Store.keys_update]
    exact h.nodup
  · rcases Store.mem_update he with ⟨hold, _⟩ | ⟨hkey, _⟩
    · exact h.fresh e hold
    · rw [hkey]
      exact h.fresh _ hc
  · rcases List.mem_cons.mp hb with rfl | hb
    · exact Store.live_update ⟨c, hc⟩
    · exact Store.live_update (h.live b hb)
  · rcases Store.mem_update he with ⟨hold, hne⟩ | ⟨hkey, x, hx, heq⟩
    · rw [List.count_cons_of_ne (Ne.symm hne)]
      exact h.refcnt e hold
    · have hcount := h.refcnt _ hx
      rw [heq, hkey, List.count_cons_self]
      dsimp only at hcount ⊢
      omega
  · rcases Store.mem_update he with ⟨hold, _⟩ | ⟨_, x, hx, heq⟩
    · exact h.busy e hold hzero
    · have hcount := h.refcnt _ hx
      rw [heq] at hzero
      dsimp only at hcount hzero
      omega
  · rcases Store.mem_update he with ⟨hold, _⟩ | ⟨_, x, hx, heq⟩
    · exact h.data e hold
    · rw [heq]
      exact h.data _ hx

theorem Valid.does_retain (h : Valid idle P held s) (ha : a ∈ held) :
    Does (retain a) s fun _ s' => Valid idle P (a :: held) s' ∧ s'.env = s.env := by
  obtain ⟨c, hc⟩ := h.live a ha
  exact ⟨(), _, by rw [retain, Store.cell_eq h.nodup hc]; rfl, h.update_refcnt hc, rfl⟩

theorem Valid.does_load (h : Valid idle P held s) (ha : a ∈ held) : Does (load a) s fun d s' => s' = s ∧ s.Data a d ∧ P d := by
  obtain ⟨c, hc⟩ := h.live a ha
  exact ⟨c.data, s, by rw [load, Store.cell_eq h.nodup hc]; rfl, rfl, ⟨c.refcnt, hc⟩, h.data _ hc⟩

theorem Store.Data.of_update {g : Cell D → Cell D} {b : ℕ} (hg : ∀ c, (g c).data = c.data) (h : (s.update a g).Data b d) : s.Data b d := by
  obtain ⟨refcnt, hmem⟩ := h
  rcases Store.mem_update hmem with ⟨hold, _⟩ | ⟨hkey, x, hx, heq⟩
  · exact ⟨refcnt, hold⟩
  · dsimp only at hkey heq
    have hdata : d = x.data := by rw [← hg x, ← heq]
    rw [hkey, hdata]
    exact ⟨x.refcnt, hx⟩

theorem Store.Data.update {g : Cell D → Cell D} {b : ℕ} (hg : ∀ c, (g c).data = c.data) (h : s.Data b d) : (s.update a g).Data b d := by
  obtain ⟨refcnt, hmem⟩ := h
  by_cases hba : b = a
  · refine ⟨(g ⟨d, refcnt⟩).refcnt, List.mem_map.mpr ⟨_, hmem, ?_⟩⟩
    have hcell : ∀ c : Cell D, c.data = d → c = ⟨d, c.refcnt⟩ := fun c hc => by
      cases hc
      rfl
    rw [if_pos hba]
    exact Prod.ext rfl (hcell _ (hg ⟨d, refcnt⟩))
  · exact ⟨refcnt, List.mem_map.mpr ⟨_, hmem, if_neg hba⟩⟩

/-- A reference to the cell that has such data. Nothing else changes. -/
theorem Valid.does_acquire (h : Valid idle P held s) : Does (acquire p) s fun
    | none, s' => s' = s ∧ ∀ a d, s.Data a d → p d = false
    | some a, s' => Valid idle P (a :: held) s' ∧ s'.env = s.env ∧ ∀ b d, s'.Data b d → s.Data b d ∧ (b = a → p d = true) := by
  unfold acquire
  cases hfind : s.find p with
  | none => exact ⟨none, s, by simp only [hfind], rfl, fun a d hdata => hdata.elim fun _ hmem => Store.find_none hfind hmem⟩
  | some a =>
    obtain ⟨c, hc, hp⟩ := Store.find_some hfind
    refine ⟨some a, _, by simp only [hfind], h.update_refcnt hc, rfl, fun b d hdata => ?_⟩
    have hold : s.Data b d := Store.Data.of_update (g := fun c => { c with refcnt := c.refcnt + 1 }) (fun _ => rfl) hdata
    refine ⟨hold, fun hba => ?_⟩
    obtain ⟨refcnt, hmem⟩ := hold
    have heq := List.inj_on_of_nodup_map h.nodup hmem hc hba
    rw [← hp]
    exact congrArg (fun e => p e.2.data) heq

/-- A reference to the cell that has such data, which is new if there is none. -/
theorem Valid.does_acquireOr (h : Valid idle P held s) (hd : P d) (hp : p d = true) : Does (acquireOr p d) s fun a s' =>
    Valid idle P (a :: held) s' ∧ s'.env = s.env ∧ (∀ b d', s'.Data b d' → (s.Data b d' ∨ d' = d) ∧ (b = a → p d' = true)) ∧
      ∀ b d', s.Data b d' → s'.Data b d' := by
  unfold acquireOr
  cases hfind : s.find p with
  | some a =>
    obtain ⟨c, hc, hpc⟩ := Store.find_some hfind
    refine ⟨a, _, by simp only [hfind], h.update_refcnt hc, rfl, fun b d' hdata => ?_, fun b d' hdata => hdata.update fun _ => rfl⟩
    have hold : s.Data b d' := Store.Data.of_update (g := fun c => { c with refcnt := c.refcnt + 1 }) (fun _ => rfl) hdata
    refine ⟨.inl hold, fun hba => ?_⟩
    obtain ⟨refcnt, hmem⟩ := hold
    have heq := List.inj_on_of_nodup_map h.nodup hmem hc hba
    rw [← hpc]
    exact congrArg (fun e => p e.2.data) heq
  | none =>
    have hnew : ∀ e ∈ s.cells, e.1 ≠ s.fresh := fun e he => Nat.ne_of_lt (h.fresh e he)
    have hcases : ∀ e ∈ s.cells ++ [(s.fresh, ⟨d, 1⟩)], e ∈ s.cells ∨ e = (s.fresh, ⟨d, 1⟩) := fun e he => by
      simpa using he
    have hfree : s.fresh ∉ held := fun hmem => by
      obtain ⟨c, hc⟩ := h.live _ hmem
      exact hnew _ hc rfl
    refine ⟨s.fresh, { s with cells := s.cells ++ [(s.fresh, ⟨d, 1⟩)], fresh := s.fresh + 1 }, by simp only [hfind], ⟨?_, fun e he => ?_, fun b hb => ?_, fun e he => ?_, fun e he hzero => ?_, fun e he => ?_,
      h.released⟩, rfl, fun b d' hdata => ?_, fun b d' ⟨refcnt, hmem⟩ => ⟨refcnt, List.mem_append_left _ hmem⟩⟩
    · rw [List.map_append, List.nodup_append]
      refine ⟨h.nodup, List.nodup_singleton _, fun x hx y hy => ?_⟩
      obtain ⟨e, he, rfl⟩ := List.mem_map.mp hx
      rw [List.mem_singleton.mp hy]
      exact hnew e he
    · rcases hcases e he with hold | rfl
      · exact Nat.lt_succ_of_lt (h.fresh e hold)
      · exact Nat.lt_succ_self _
    · rcases List.mem_cons.mp hb with rfl | hb
      · exact ⟨_, List.mem_append_right _ (.head _)⟩
      · obtain ⟨c, hc⟩ := h.live b hb
        exact ⟨c, List.mem_append_left _ hc⟩
    · rcases hcases e he with hold | rfl
      · rw [List.count_cons_of_ne (Ne.symm (hnew e hold))]
        exact h.refcnt e hold
      · rw [List.count_cons_self, List.count_eq_zero_of_not_mem hfree]
        rfl
    · rcases hcases e he with hold | rfl
      · exact h.busy e hold hzero
      · cases hzero
    · rcases hcases e he with hold | rfl
      · exact h.data e hold
      · exact hd
    · obtain ⟨refcnt, hmem⟩ := hdata
      rcases hcases _ hmem with hold | heq
      · exact ⟨.inl ⟨refcnt, hold⟩, fun hba => absurd hba (hnew _ hold)⟩
      · cases heq
        exact ⟨.inr rfl, fun _ => hp⟩

/-- A reference is given back. The cell is freed if it was the last one and the cell is idle. -/
theorem Valid.does_release (h : Valid idle P (a :: held) s) :
    Does (release idle a) s fun _ s' => Valid idle P held s' ∧ s'.env = s.env := by
  obtain ⟨c, hc⟩ := h.live a (.head _)
  have hcount := h.refcnt _ hc
  rw [List.count_cons_self] at hcount
  dsimp only at hcount
  have hunique : ∀ {x : Cell D}, (a, x) ∈ s.cells → x = c := fun hx => congrArg Prod.snd (List.inj_on_of_nodup_map h.nodup hx hc rfl)
  by_cases hlast : c.refcnt - 1 = 0 ∧ idle c.data
  · have hgone : a ∉ held := List.count_eq_zero.mp (by omega)
    have hrun : release idle a s = some ((), { s.remove a with released := ⟨c.data, c.refcnt - 1⟩ :: s.released }) := by
      rw [release, Store.cell_eq h.nodup hc, Option.map_some, if_pos hlast]
    refine ⟨(), _, hrun, ⟨?_, fun e he => ?_, fun b hb => ?_, fun e he => ?_,
      fun e he hzero => ?_, fun e he => ?_, fun x hx => ?_⟩, rfl⟩
    · exact h.nodup.sublist (List.filter_sublist.map _)
    · exact h.fresh e (List.mem_of_mem_filter he)
    · obtain ⟨x, hx⟩ := h.live b (.tail _ hb)
      refine ⟨x, List.mem_filter.mpr ⟨hx, ?_⟩⟩
      exact decide_eq_true fun hba : b = a => hgone (hba ▸ hb)
    · obtain ⟨hold, hne⟩ := List.mem_filter.mp he
      rw [← List.count_cons_of_ne (Ne.symm (of_decide_eq_true hne))]
      exact h.refcnt e hold
    · exact h.busy e (List.mem_of_mem_filter he) hzero
    · exact h.data e (List.mem_of_mem_filter he)
    · rcases List.mem_cons.mp hx with rfl | hx
      · exact hlast
      · exact h.released x hx
  · have hrun : release idle a s = some ((), s.update a fun c => { c with refcnt := c.refcnt - 1 }) := by
      rw [release, Store.cell_eq h.nodup hc, Option.map_some, if_neg hlast]
    refine ⟨(), _, hrun, ⟨?_, fun e he => ?_, fun b hb => ?_, fun e he => ?_,
      fun e he hzero => ?_, fun e he => ?_, h.released⟩, rfl⟩
    · rw [Store.keys_update]
      exact h.nodup
    · rcases Store.mem_update he with ⟨hold, _⟩ | ⟨hkey, _⟩
      · exact h.fresh e hold
      · rw [hkey]
        exact h.fresh _ hc
    · exact Store.live_update (h.live b (.tail _ hb))
    · rcases Store.mem_update he with ⟨hold, hne⟩ | ⟨hkey, x, hx, heq⟩
      · rw [← List.count_cons_of_ne (Ne.symm hne)]
        exact h.refcnt e hold
      · rw [heq, hkey, hunique hx]
        dsimp only
        omega
    · rcases Store.mem_update he with ⟨hold, _⟩ | ⟨_, x, hx, heq⟩
      · exact h.busy e hold hzero
      · rw [heq, hunique hx] at hzero ⊢
        cases hidle : idle c.data with
        | false => rfl
        | true => exact absurd ⟨hzero, hidle⟩ hlast
    · rcases Store.mem_update he with ⟨hold, _⟩ | ⟨_, x, hx, heq⟩
      · exact h.data e hold
      · rw [heq]
        exact h.data _ hx

/-! ### What a look leaves -/

theorem Does.run {α β : Type} {x : Program D X β} {k : β → Program D X α} {b : β} {s s' : Store D X} (h : x s = some (b, s')) :
    (x >>= k) s = k b s' := by
  change (x s).bind (fun r => k r.1 r.2) = k b s'
  rw [h]
  rfl

theorem Store.find_update {g : Cell D → Cell D} (hg : ∀ c, (g c).data = c.data) : (s.update a g).find p = s.find p := by
  have hsame : ((fun e : ℕ × Cell D => p e.2.data) ∘ fun e => if e.1 = a then (e.1, g e.2) else e) = fun e => p e.2.data := funext fun e => by
    dsimp only [Function.comp]
    split_ifs
    · rw [hg]
    · rfl
  rw [Store.find, Store.find, Store.update, List.find?_map, hsame, Option.map_map]
  refine Option.map_congr fun e _ => ?_
  dsimp only [Function.comp]
  split_ifs <;> rfl

theorem Store.cell_update {g : Cell D → Cell D} {b : ℕ} : (s.update a g).cell b = (s.cell b).map fun c => if b = a then g c else c := by
  have hsame : ((fun e : ℕ × Cell D => decide (e.1 = b)) ∘ fun e => if e.1 = a then (e.1, g e.2) else e) = fun e => decide (e.1 = b) :=
    funext fun e => by
      dsimp only [Function.comp]
      split_ifs <;> rfl
  rw [Store.cell, Store.cell, Store.update, List.find?_map, hsame, Option.map_map, Option.map_map]
  refine Option.map_congr fun e he => ?_
  have hfound := List.find?_some he
  have hkey : e.1 = b := of_decide_eq_true hfound
  dsimp only [Function.comp]
  rw [hkey]
  split_ifs <;> rfl

/-- A reference that is taken and given back leaves everything as it was. -/
theorem Valid.release_update (h : Valid idle P held s) (hc : (a, c) ∈ s.cells) :
    release idle a (s.update a fun c => { c with refcnt := c.refcnt + 1 }) = some ((), s) := by
  have hcell : (s.update a fun c => { c with refcnt := c.refcnt + 1 }).cell a = some ⟨c.data, c.refcnt + 1⟩ := by
    rw [Store.cell_update, Store.cell_eq h.nodup hc, Option.map_some, if_pos rfl]
  have hkept : ¬(c.refcnt + 1 - 1 = 0 ∧ idle c.data = true) := fun ⟨hzero, hidle⟩ => by
    have hbusy := h.busy _ hc (by dsimp only; omega)
    rw [hidle] at hbusy
    cases hbusy
  have hback : ((s.update a fun c => { c with refcnt := c.refcnt + 1 }).update a fun c => { c with refcnt := c.refcnt - 1 }) = s := by
    rw [Store.update, Store.update, List.map_map]
    have hid : ∀ e ∈ s.cells, ((fun e : ℕ × Cell D => if e.1 = a then (e.1, (⟨e.2.data, e.2.refcnt - 1⟩ : Cell D)) else e) ∘
        fun e => if e.1 = a then (e.1, (⟨e.2.data, e.2.refcnt + 1⟩ : Cell D)) else e) e = e := fun e _ => by
      dsimp only [Function.comp]
      split_ifs with hea
      · rw [Int.add_sub_cancel]
      · rfl
    have hcells : s.cells.map ((fun e : ℕ × Cell D => if e.1 = a then (e.1, (⟨e.2.data, e.2.refcnt - 1⟩ : Cell D)) else e) ∘
        fun e => if e.1 = a then (e.1, (⟨e.2.data, e.2.refcnt + 1⟩ : Cell D)) else e) = s.cells := by
      rw [List.map_congr_left hid, List.map_id']
    rw [hcells]
  rw [release, hcell, Option.map_some, if_neg hkept, hback]

end Pclsync.Lib.Referenced
