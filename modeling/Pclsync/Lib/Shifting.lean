import Pclsync.Lib.Probing
import Mathlib.Logic.Equiv.Basic

/-! Open addressing with removal: the entries behind a removed one are shifted back over the hole. An entry has a home, the
slot where its search starts. Zero is no entry. -/
namespace Pclsync.Lib.Shifting
open Lib.Probing

/-- The loop that asks whether `hole` is on the way from slot `b` to `o`. -/
def onWay (size hole o : ℕ) : (fuel b : ℕ) → Option Bool
  | 0, _ => none
  | fuel + 1, b => if b = hole then some true else if b = o then some false else onWay size hole o fuel (next size b)

/-- The slots behind `o`, up to a free one: an entry that has the hole on its way is put into it. -/
def shiftBack (size : ℕ) (home : ℕ → ℕ) : (fuel : ℕ) → (table : ℕ → ℕ) → (hole o : ℕ) → Option (ℕ → ℕ)
  | 0, _, _, _ => none
  | fuel + 1, table, hole, o =>
    let o := next size o
    let idx := table o
    if idx = 0 then some table
    else if home idx ≠ o then
      match onWay size hole o size (home idx) with
      | none => none
      | some true => shiftBack size home fuel (Function.update (Function.update table hole idx) o 0) o o
      | some false => shiftBack size home fuel table hole o
    else shiftBack size home fuel table hole o

variable {size fuel a e d hole o idx : ℕ} {home : ℕ → ℕ} {table table' : ℕ → ℕ}

/-- No slot from the home of an entry to its own is free. -/
def Reaches (size : ℕ) (home : ℕ → ℕ) (table : ℕ → ℕ) : Prop :=
  ∀ idx e, idx ≠ 0 → e < size → table ((home idx + e) % size) = idx → ∀ e' < e, table ((home idx + e') % size) ≠ 0

/-- The same, but for one slot. -/
def ReachesOver (size : ℕ) (home : ℕ → ℕ) (table : ℕ → ℕ) (hole : ℕ) : Prop :=
  ∀ idx e, idx ≠ 0 → e < size → table ((home idx + e) % size) = idx →
    ∀ e' < e, (home idx + e') % size ≠ hole → table ((home idx + e') % size) ≠ 0

theorem onWay_spec (he : e < fuel) (hsize : e < size) (ho : o = (a + e) % size) :
    onWay size hole o fuel (a % size) = some (decide (∃ e' ≤ e, (a + e') % size = hole)) := by
  induction fuel generalizing a e with
  | zero => omega
  | succ fuel ih =>
    rw [onWay]
    split_ifs with hhole hend
    · exact congrArg some (decide_eq_true ⟨0, Nat.zero_le e, hhole⟩).symm
    · have hzero : e = 0 := offset_unique hsize (Nat.zero_lt_of_lt hsize) (by rw [Nat.add_zero, hend, ho])
      refine congrArg some (decide_eq_false ?_).symm
      rintro ⟨e', he', hat⟩
      obtain rfl : e' = 0 := by omega
      exact hhole hat
    · have hpos : e ≠ 0 := fun hzero => hend (by rw [ho, hzero, Nat.add_zero])
      obtain ⟨e, rfl⟩ := Nat.exists_eq_succ_of_ne_zero hpos
      rw [next_mod (Nat.zero_lt_of_lt hsize), ih (a := a + 1) (e := e) (by omega) (by omega) (by rw [ho]; congr 1; omega)]
      refine congrArg some (decide_eq_decide.mpr ⟨?_, ?_⟩)
      · rintro ⟨e', he', hat⟩
        exact ⟨e' + 1, Nat.succ_le_succ he', by rw [← hat]; congr 1; omega⟩
      · rintro ⟨e', he', hat⟩
        cases e' with
        | zero => exact absurd hat hhole
        | succ e' => exact ⟨e', Nat.le_of_succ_le_succ he', by rw [← hat]; congr 1; omega⟩

/-! ### The loop -/

/-- What holds while the entries behind the hole are looked at: the hole is `d` slots back, and those between have entries that do not
have it on their way. -/
structure Scanning (size : ℕ) (home : ℕ → ℕ) (table : ℕ → ℕ) (hole d : ℕ) : Prop where
  free : table (hole % size) = 0
  taken : ∀ j, 0 < j → j ≤ d → table ((hole + j) % size) ≠ 0
  past : ReachesOver size home table (hole % size)
  behind : ∀ j, 0 < j → j ≤ d → ∀ e < size, (home (table ((hole + j) % size)) + e) % size = (hole + j) % size →
    ∀ e' < e, (home (table ((hole + j) % size)) + e') % size ≠ hole % size

/-- At a free slot every entry can be found. -/
theorem Scanning.reaches (h : Scanning size home table hole d) (hd : d + 1 < size) (hfree : table ((hole + (d + 1)) % size) = 0) :
    Reaches size home table := by
  intro idx e hidx he hat e' he' hzero
  have hhole : (home idx + e') % size = hole % size := by
    by_contra hne
    exact h.past idx e hidx he hat e' he' hne hzero
  -- the entry is as far behind the hole as the hole is behind its home
  have hdist : ∀ j, (home idx + (e' + j)) % size = (hole + j) % size := fun j => by
    rw [← Nat.add_assoc, Nat.add_mod, hhole, ← Nat.add_mod]
  obtain ⟨j, rfl⟩ : ∃ j, e = e' + j := ⟨e - e', by omega⟩
  rw [hdist] at hat
  by_cases hj : j ≤ d
  · have hbehind := h.behind j (by omega) hj (e' + j) he
    rw [hat] at hbehind
    exact hbehind (hdist j) e' (by omega) hhole
  · by_cases hnext : j = d + 1
    · subst hnext
      exact hidx (hat.symm.trans hfree)
    · have hne : (home idx + (e' + (d + 1))) % size ≠ hole % size := fun heq => by
        rw [hdist] at heq
        have hunique : d + 1 = 0 := offset_unique hd (by omega) heq
        omega
      refine h.past idx (e' + j) hidx he (by rw [hdist, hat]) (e' + (d + 1)) (by omega) hne ?_
      rw [hdist, hfree]

/-- An entry that does not have the hole on its way stays. -/
theorem Scanning.step (h : Scanning size home table hole d) (hidx : table ((hole + (d + 1)) % size) ≠ 0)
    (hway : ∀ e < size, (home (table ((hole + (d + 1)) % size)) + e) % size = (hole + (d + 1)) % size →
      ∀ e' < e, (home (table ((hole + (d + 1)) % size)) + e') % size ≠ hole % size) :
    Scanning size home table hole (d + 1) := by
  refine ⟨h.free, fun j hj hjd => ?_, h.past, fun j hj hjd => ?_⟩
  · rcases Nat.lt_or_ge d j with hlt | hle
    · obtain rfl : j = d + 1 := by omega
      exact hidx
    · exact h.taken j hj hle
  · rcases Nat.lt_or_ge d j with hlt | hle
    · obtain rfl : j = d + 1 := by omega
      exact hway
    · exact h.behind j hj hle

/-- The table after a shift. -/
def shifted (table : ℕ → ℕ) (hole o : ℕ) : ℕ → ℕ := Function.update (Function.update table hole (table o)) o 0

theorem shifted_eq_swap (hfree : table hole = 0) : shifted table hole o = table ∘ Equiv.swap hole o := by
  funext j
  unfold shifted
  by_cases hjo : j = o
  · rw [hjo, Function.update_self, Function.comp_apply, Equiv.swap_apply_right, hfree]
  · rw [Function.update_of_ne hjo]
    by_cases hjh : j = hole
    · rw [hjh, Function.update_self, Function.comp_apply, Equiv.swap_apply_left]
    · rw [Function.update_of_ne hjh, Function.comp_apply, Equiv.swap_apply_of_ne_of_ne hjh hjo]

/-- An entry that has the hole on its way is put into it, and leaves one. -/
theorem Scanning.shift (h : Scanning size home table hole d) (ha : a < size) (ho : (home (table o) + a) % size = o)
    (hway : ∃ e ≤ a, (home (table o) + e) % size = hole % size) (hidx : table o ≠ 0) (hlt : o < size) :
    Scanning size home (shifted table (hole % size) o) o 0 := by
  refine ⟨?_, fun j hj hjd => by omega, fun idx e hidx' he hat e' he' hne' => ?_, fun j hj hjd => by omega⟩
  · rw [Nat.mod_eq_of_lt hlt]
    exact Function.update_self ..
  · rw [Nat.mod_eq_of_lt hlt] at hne'
    unfold shifted at hat ⊢
    have hqo : (home idx + e) % size ≠ o := fun heq => by
      rw [heq, Function.update_self] at hat
      exact hidx' hat.symm
    rw [Function.update_of_ne hqo] at hat
    rw [Function.update_of_ne hne']
    by_cases hq : (home idx + e) % size = hole % size
    · rw [hq, Function.update_self] at hat
      subst hat
      obtain ⟨e₀, he₀, hat₀⟩ := hway
      obtain rfl : e = e₀ := offset_unique he (by omega) (hq.trans hat₀.symm)
      have hs : (home (table o) + e') % size ≠ hole % size := fun heq => by
        have hsame := offset_unique (by omega) he (heq.trans hq.symm)
        omega
      rw [Function.update_of_ne hs]
      exact h.past (table o) a hidx ha (by rw [ho]) e' (by omega) hs
    · rw [Function.update_of_ne hq] at hat
      by_cases hs : (home idx + e') % size = hole % size
      · rw [hs, Function.update_self]
        exact hidx
      · rw [Function.update_of_ne hs]
        exact h.past idx e hidx' he hat e' he' hs

/-- A permutation of the slots. -/
def Permutes (size : ℕ) (σ : Equiv.Perm ℕ) : Prop := ∀ j, σ j < size ↔ j < size

theorem permutes_swap {i j : ℕ} (hi : i < size) (hj : j < size) : Permutes size (Equiv.swap i j) := by
  intro k
  rw [Equiv.swap_apply_def]
  split_ifs with hki hkj
  · exact iff_of_true hj (hki ▸ hi)
  · exact iff_of_true hi (hkj ▸ hj)
  · exact Iff.rfl

theorem shiftBack_spec (h : Scanning size home table hole d) (hhome : ∀ idx, home idx < size) {f : ℕ} (hf : d + 1 + f < size)
    (hfree : table ((hole + (d + 1 + f)) % size) = 0) (hfuel : f < fuel) :
    ∃ (table' : ℕ → ℕ) (σ : Equiv.Perm ℕ), shiftBack size home fuel table (hole % size) ((hole + d) % size) = some table' ∧ Reaches size home table' ∧
      table' = table ∘ σ ∧ Permutes size σ := by
  induction fuel generalizing table hole d f with
  | zero => omega
  | succ fuel ih =>
    have hsize : 0 < size := by omega
    have hnext : next size ((hole + d) % size) = (hole + (d + 1)) % size := next_mod hsize
    rw [shiftBack, hnext]
    by_cases hidx : table ((hole + (d + 1)) % size) = 0
    · rw [if_pos hidx]
      exact ⟨table, .refl ℕ, rfl, h.reaches (by omega) hidx, rfl, fun j => Iff.rfl⟩
    · rw [if_neg hidx]
      have hpos : f ≠ 0 := fun hzero => hidx (by rw [hzero] at hfree; exact hfree)
      obtain ⟨f, rfl⟩ := Nat.exists_eq_succ_of_ne_zero hpos
      have hlt : (hole + (d + 1)) % size < size := Nat.mod_lt _ hsize
      obtain ⟨a, ha, ho⟩ := exists_offset (home (table ((hole + (d + 1)) % size))) hlt
      have hstay : ∀ e', (∀ e < size, (home (table ((hole + (d + 1)) % size)) + e) % size = (hole + (d + 1)) % size → e = e') →
          (∀ e < e', (home (table ((hole + (d + 1)) % size)) + e) % size ≠ hole % size) →
          ∃ (table' : ℕ → ℕ) (σ : Equiv.Perm ℕ), shiftBack size home fuel table (hole % size) ((hole + (d + 1)) % size) = some table' ∧
            Reaches size home table' ∧ table' = table ∘ σ ∧ Permutes size σ := by
        intro e' hunique hway
        refine ih (f := f) (h.step hidx fun e he hat => ?_) (by omega) ?_ (by omega)
        · rw [hunique e he hat]
          exact hway
        · rw [← hfree]
          congr 2
          omega
      have hunique : ∀ e < size, (home (table ((hole + (d + 1)) % size)) + e) % size = (hole + (d + 1)) % size → e = a :=
        fun e he hat => offset_unique he ha (hat.trans ho.symm)
      by_cases hhere : home (table ((hole + (d + 1)) % size)) = (hole + (d + 1)) % size
      · rw [if_neg (not_not.mpr hhere)]
        obtain rfl : 0 = a := hunique 0 hsize (by rw [Nat.add_zero, hhere, Nat.mod_mod])
        exact hstay 0 hunique fun e he => absurd he (Nat.not_lt_zero e)
      · rw [if_pos hhere]
        have hway := @onWay_spec _ size _ _ (hole % size) _ ha ha ho.symm
        rw [Nat.mod_eq_of_lt (hhome _)] at hway
        rw [hway]
        by_cases hon : ∃ e' ≤ a, (home (table ((hole + (d + 1)) % size)) + e') % size = hole % size
        · rw [decide_eq_true hon]
          have hfar : (hole + (d + 1)) % size ≠ hole % size := fun heq => by
            have hzero : d + 1 = 0 := offset_unique (by omega) hsize heq
            omega
          have hslot : ((hole + (d + 1)) % size + (0 + 1 + f)) % size = (hole + (d + 1 + (f + 1))) % size := by
            rw [Nat.mod_add_mod]
            congr 1
            omega
          have hout : (hole + (d + 1 + (f + 1))) % size ≠ (hole + (d + 1)) % size := fun heq => by
            have hsame := offset_unique hf (by omega) heq
            omega
          have hout' : (hole + (d + 1 + (f + 1))) % size ≠ hole % size := fun heq => by
            have hsame : d + 1 + (f + 1) = 0 := offset_unique hf hsize heq
            omega
          have hshift := h.shift ha ho hon hidx hlt
          obtain ⟨table', σ, hrun, hreaches, htable, hσ⟩ := ih (f := f) hshift (by omega) (by
            rw [hslot, shifted, Function.update_of_ne hout, Function.update_of_ne hout', hfree]) (by omega)
          simp only [Nat.add_zero, Nat.mod_mod] at hrun
          refine ⟨table', σ.trans (Equiv.swap (hole % size) ((hole + (d + 1)) % size)), hrun, hreaches, ?_, fun j => ?_⟩
          · rw [htable, shifted_eq_swap h.free]
            rfl
          · rw [Equiv.trans_apply, permutes_swap (Nat.mod_lt _ hsize) hlt, hσ]
        · rw [decide_eq_false hon]
          exact hstay a hunique fun e he hat => hon ⟨e, he.le, hat⟩

/-- Where some other slot is free, the removal of an entry ends, and all others can be found. -/
theorem removed_reaches (h : Reaches size home table) (hhome : ∀ idx, home idx < size) (hslot : hole < size) {free : ℕ} (hne : free ≠ hole)
    (hlt : free < size) (hfree : table free = 0) :
    ∃ (table' : ℕ → ℕ) (σ : Equiv.Perm ℕ), shiftBack size home size (Function.update table hole 0) hole hole = some table' ∧
      Reaches size home table' ∧ table' = Function.update table hole 0 ∘ σ ∧ Permutes size σ := by
  have hscan : Scanning size home (Function.update table hole 0) hole 0 := by
    refine ⟨?_, fun j hj hjd => by omega, fun idx e hidx he hat e' he' hne' => ?_, fun j hj hjd => by omega⟩
    · rw [Nat.mod_eq_of_lt hslot, Function.update_self]
    · rw [Nat.mod_eq_of_lt hslot] at hne'
      have hother : (home idx + e) % size ≠ hole := fun heq => by
        rw [heq, Function.update_self] at hat
        exact hidx hat.symm
      rw [Function.update_of_ne hother] at hat
      rw [Function.update_of_ne hne']
      exact h idx e hidx he hat e' he'
  obtain ⟨f, hf, hat⟩ := exists_offset hole hlt
  have hpos : f ≠ 0 := fun hzero => hne (by rw [← hat, hzero, Nat.add_zero, Nat.mod_eq_of_lt hslot])
  have hfree' : Function.update table hole 0 ((hole + (0 + 1 + (f - 1))) % size) = 0 := by
    rw [show 0 + 1 + (f - 1) = f by omega, hat, Function.update_of_ne hne, hfree]
  have hspec := @shiftBack_spec _ size _ _ _ _ hscan hhome (f - 1) (by omega) hfree' (by omega)
  rw [Nat.add_zero, Nat.mod_eq_of_lt hslot] at hspec
  exact hspec

/-! ### Searches -/

/-- From slot `a` on, the first that is free or has an entry that is sought, `e` slots further. -/
structure Sought (size : ℕ) (table : ℕ → ℕ) (hit : ℕ → Prop) (a e o : ℕ) : Prop where
  slot : o = (a + e) % size
  before : ∀ e' < e, table ((a + e') % size) ≠ 0 ∧ ¬hit (table ((a + e') % size))
  stop : table o = 0 ∨ hit (table o)

variable {hit : ℕ → Prop}

theorem Sought.here (h : table (a % size) = 0 ∨ hit (table (a % size))) : Sought size table hit a 0 (a % size) :=
  ⟨rfl, nofun, h⟩

theorem Sought.later (hne : table (a % size) ≠ 0) (hmiss : ¬hit (table (a % size))) (h : Sought size table hit (a + 1) e o) :
    Sought size table hit a (e + 1) o := by
  refine ⟨by rw [h.slot, Nat.add_right_comm, Nat.add_assoc], fun e' he' => ?_, h.stop⟩
  cases e' with
  | zero => exact ⟨hne, hmiss⟩
  | succ e' =>
    rw [← Nat.add_assoc, Nat.add_right_comm]
    exact h.before e' (Nat.lt_of_succ_lt_succ he')

/-- A search from its home finds an entry, or another that is sought as well. -/
theorem Reaches.sought (h : Reaches size home table) (hs : Sought size table hit a e o) (hlt : o < size) {slot : ℕ} (hslot : slot < size)
    (hidx : table slot ≠ 0) (hhome : home (table slot) % size = a % size) (hhit : hit (table slot)) : table o ≠ 0 := by
  intro hzero
  obtain ⟨e₁, he₁, hat⟩ := exists_offset (home (table slot)) hslot
  have hshift : ∀ d, (home (table slot) + d) % size = (a + d) % size := fun d => by rw [Nat.add_mod, hhome, ← Nat.add_mod]
  rcases Nat.lt_trichotomy e₁ e with hlt' | rfl | hgt
  · have hbefore := (hs.before e₁ hlt').2
    rw [← hshift, hat] at hbefore
    exact hbefore hhit
  · rw [hs.slot, ← hshift, hat] at hzero
    exact hidx hzero
  · refine h (table slot) e₁ hidx he₁ (by rw [hat]) e hgt ?_
    rw [hshift, ← hs.slot, hzero]

end Pclsync.Lib.Shifting
