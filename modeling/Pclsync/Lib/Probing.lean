import Mathlib.Data.Finset.Card
import Mathlib.Data.Finset.Range
import Mathlib.Data.Nat.ModEq
import Mathlib.Logic.Function.Basic
import Mathlib.Tactic.Common

/-! A table with open addressing: a key goes to the first slot from its own on that is free or has it. Zero is no
key. -/
namespace Pclsync.Lib.Probing

/-- The slot after one, around the end. -/
def next (size h : ℕ) : ℕ := if size ≤ h + 1 then 0 else h + 1

/-- The slots from `h` on, `fuel` of them at most, up to one that is free or has the key. -/
def probe (size : ℕ) (table : ℕ → ℕ) (key : ℕ) : ℕ → ℕ → Option ℕ
  | 0, _ => none
  | fuel + 1, h => if table h = 0 ∨ table h = key then some h else probe size table key fuel (next size h)

variable {size key fuel a slot : ℕ} {table : ℕ → ℕ}

/-- A slot is free or has a key. -/
def Hit (table : ℕ → ℕ) (key h : ℕ) : Prop := table h = 0 ∨ table h = key

instance (h : ℕ) : Decidable (Hit table key h) := inferInstanceAs (Decidable (_ ∨ _))

theorem next_mod (hsize : 0 < size) : next size (a % size) = (a + 1) % size := by
  unfold next
  have hlt := Nat.mod_lt a hsize
  rw [← Nat.mod_add_mod]
  split
  next hend =>
    rw [show a % size + 1 = size by omega, Nat.mod_self]
  next hend => rw [Nat.mod_eq_of_lt (not_le.mp hend)]

/-- Every slot is some way from that of a key. -/
theorem exists_offset {h : ℕ} (key : ℕ) (hlt : h < size) : ∃ e < size, (key + e) % size = h := by
  have hsize : 0 < size := Nat.lt_of_le_of_lt (Nat.zero_le h) hlt
  have hkey := Nat.mod_lt key hsize
  refine ⟨(h + size - key % size) % size, Nat.mod_lt _ hsize, ?_⟩
  rw [Nat.add_mod_mod, ← Nat.mod_add_mod, show key % size + (h + size - key % size) = h + size by omega,
    Nat.add_mod_right, Nat.mod_eq_of_lt hlt]

theorem probe_eq_some (hsize : 0 < size) (h : probe size table key fuel (a % size) = some slot) :
    ∃ e < fuel, slot = (a + e) % size ∧ Hit table key slot ∧ ∀ e' < e, ¬Hit table key ((a + e') % size) := by
  induction fuel generalizing a with
  | zero => cases h
  | succ fuel ih =>
    unfold probe at h
    split at h
    next hhit =>
      cases h
      exact ⟨0, Nat.succ_pos _, rfl, hhit, nofun⟩
    next hmiss =>
      rw [next_mod hsize] at h
      obtain ⟨e, he, hslot, hhit, hbefore⟩ := ih h
      refine ⟨e + 1, Nat.succ_lt_succ he, by rw [hslot, Nat.add_right_comm, Nat.add_assoc], hhit, fun e' he' => ?_⟩
      cases e' with
      | zero => exact hmiss
      | succ e' =>
        rw [← Nat.add_assoc, Nat.add_right_comm]
        exact hbefore e' (Nat.lt_of_succ_lt_succ he')

theorem probe_eq_none (hsize : 0 < size) (h : probe size table key fuel (a % size) = none) :
    ∀ e < fuel, ¬Hit table key ((a + e) % size) := by
  induction fuel generalizing a with
  | zero => exact nofun
  | succ fuel ih =>
    unfold probe at h
    split at h
    · cases h
    next hmiss =>
      rw [next_mod hsize] at h
      intro e he
      cases e with
      | zero => exact hmiss
      | succ e =>
        rw [← Nat.add_assoc, Nat.add_right_comm]
        exact ih h e (Nat.lt_of_succ_lt_succ he)

/-- Where a slot is free, the search ends. -/
theorem probe_ends (hfree : ∃ h < size, table h = 0) : ∃ slot, probe size table key size (key % size) = some slot := by
  obtain ⟨h, hlt, hfree⟩ := hfree
  have hsize : 0 < size := Nat.lt_of_le_of_lt (Nat.zero_le h) hlt
  cases hprobe : probe size table key size (key % size) with
  | some slot => exact ⟨slot, rfl⟩
  | none =>
    obtain ⟨e, he, hat⟩ := exists_offset key hlt
    refine absurd (.inl ?_) (probe_eq_none hsize hprobe e he)
    rw [hat]
    exact hfree

/-! ## Tables -/

theorem offset_unique {e e' : ℕ} (he : e < size) (he' : e' < size) (h : (key + e) % size = (key + e') % size) : e = e' := by
  have := Nat.ModEq.add_left_cancel' key h
  rwa [Nat.ModEq, Nat.mod_eq_of_lt he, Nat.mod_eq_of_lt he'] at this

/-- Before the slot of a key none is free, and none has it. -/
def Probed (size : ℕ) (table : ℕ → ℕ) : Prop :=
  ∀ key e, key ≠ 0 → e < size → table ((key + e) % size) = key → ∀ e' < e, ¬Hit table key ((key + e') % size)

/-- The slots with a key. -/
def occupied (size : ℕ) (table : ℕ → ℕ) : ℕ := ((Finset.range size).filter fun h => table h ≠ 0).card

theorem probed_empty : Probed size fun _ => 0 := fun _ _ hkey _ h => absurd h.symm hkey

theorem occupied_empty : occupied size (fun _ => 0) = 0 := by
  unfold occupied
  rw [Finset.filter_false_of_mem fun _ _ h => h rfl, Finset.card_empty]

/-- No key is in two slots. -/
theorem Probed.unique (h : Probed size table) {j k : ℕ} (hj : j < size) (hk : k < size) (hkey : table j ≠ 0)
    (heq : table j = table k) : j = k := by
  obtain ⟨d, hd, hdj⟩ := exists_offset (table j) hj
  obtain ⟨e, he, hek⟩ := exists_offset (table j) hk
  rcases Nat.lt_trichotomy d e with hlt | rfl | hlt
  · refine absurd (.inr ?_) (h _ e hkey he (by rw [hek, heq]) d hlt)
    rw [hdj]
  · rw [← hdj, hek]
  · refine absurd (.inr ?_) (h _ d hkey hd (by rw [hdj]) e hlt)
    rw [hek, heq]

/-- A key is put where the search for it ends. -/
theorem Probed.insert (h : Probed size table) (hsize : 0 < size)
    (hprobe : probe size table key size (key % size) = some slot) : Probed size (Function.update table slot key) := by
  obtain ⟨e₀, he₀, hslot, hhit, hbefore⟩ := probe_eq_some hsize hprobe
  intro key' e hkey' he hfound e' he'
  by_cases hat : (key' + e) % size = slot
  · rw [hat, Function.update_self] at hfound
    subst hfound
    obtain rfl := offset_unique he he₀ (hat.trans hslot)
    have hne : (key + e') % size ≠ slot := fun heq =>
      absurd (offset_unique (he'.trans he) he₀ (heq.trans hslot)) (Nat.ne_of_lt he')
    unfold Hit
    rw [Function.update_of_ne hne]
    exact hbefore e' he'
  · rw [Function.update_of_ne hat] at hfound
    have hmiss := h key' e hkey' he hfound e' he'
    unfold Hit at hmiss ⊢
    by_cases hat' : (key' + e') % size = slot
    · rw [hat'] at hmiss ⊢
      rw [Function.update_self]
      rwa [hhit.resolve_left fun hzero => hmiss (.inl hzero)] at hmiss
    · rwa [Function.update_of_ne hat']

theorem occupied_insert (hslot : slot < size) (hkey : key ≠ 0) (hfree : table slot = 0) :
    occupied size (Function.update table slot key) = occupied size table + 1 := by
  unfold occupied
  have hfilter : (Finset.range size).filter (fun h => Function.update table slot key h ≠ 0) =
      insert slot ((Finset.range size).filter fun h => table h ≠ 0) := by
    ext h
    rw [Finset.mem_insert, Finset.mem_filter, Finset.mem_filter, Finset.mem_range]
    by_cases hh : h = slot
    · simp [hh, hslot, hkey]
    · simp [hh]
  rw [hfilter, Finset.card_insert_of_notMem]
  rw [Finset.mem_filter]
  exact fun h => h.2 hfree

/-- With fewer keys than slots, one is free. -/
theorem exists_free (h : occupied size table < size) : ∃ k < size, table k = 0 := by
  by_contra hfull
  have hall : (Finset.range size).filter (fun h => table h ≠ 0) = Finset.range size :=
    Finset.filter_true_of_mem fun k hk hzero => hfull ⟨k, Finset.mem_range.mp hk, hzero⟩
  unfold occupied at h
  rw [hall, Finset.card_range] at h
  exact absurd h (Nat.lt_irrefl _)

end Pclsync.Lib.Probing
