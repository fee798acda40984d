import Mathlib.Algebra.BigOperators.Group.Finset.Piecewise
import Pclsync.Lib.Probing
import Pclsync.Lib.Transition

/-! `flush_pages`, `mark_pagecache_used` and `psync_pagecache_get_free_page` of `ppagecache.c`: the table of pages
that were used, and the flag that a flush is due.

Which pages are written, and how many rows the database has for them, is left open. -/
namespace Pclsync.PageCache.Flushes
open Lib.Probing Lib.Transition

def cachePages : ℕ := 64 * 1024 * 1024 / 4096
def dbCacheUpdateHash : ℕ := 32 * 1024

/-- Where a call of `flush_pages` is. -/
inductive Phase where
  | waiting
  /-- It writes pages to the cache file, or syncs it, and the cache is not locked. -/
  | writing (pages : ℕ)
  /-- It has let the lock go before a slot of the table. -/
  | clearing (slot updates : ℕ)
deriving DecidableEq, Repr

/-- A call. `mark` is the page that its caller marks after it. -/
structure Flush where
  nosleep : ℕ
  phase : Phase
  mark : Option ℕ
deriving DecidableEq, Repr

/-- `table` is `cachepages_to_update`, and `marks` are the calls of `mark_pagecache_used` that have looked at the
count. In `stuck` such a call does not end. -/
structure State where
  table : ℕ → ℕ
  cnt : ℕ
  flushcacherun : Bool
  flushes : List Flush
  marks : List ℕ
  free : ℕ
  inHash : ℕ
  stuck : Bool

inductive Event where
  /-- `psync_pagecache_get_free_page` looks whether there are few pages. -/
  | shortage (runflushcacheinside : Bool)
  /-- It takes one, or calls for a flush. -/
  | take
  /-- A page is put into the hash. -/
  | insertPage
  /-- `flush_pages` is called, from elsewhere. -/
  | call (nosleep : ℕ)
  /-- `mark_pagecache_used`, until it has the lock. -/
  | mark (pagecacheid : ℕ)
  /-- And under the lock. -/
  | insert (i : ℕ)
  /-- A flush comes to the pages, and discards some of them if the disk is full. -/
  | begin (i discarded : ℕ)
  /-- `psync_file_pwrite` or `psync_file_sync` fails. -/
  | fail (i : ℕ)
  /-- They do not. `moved` pages have a row, `updated` rows were changed, rows may have been inserted, and the last
  flush of the table may have been long ago. -/
  | synced (i moved updated : ℕ) (inserted late : Bool)
  /-- It goes on with the table. -/
  | resume (i : ℕ)
deriving DecidableEq, Repr

/-- The loop that empties the table, and where it lets the lock go. -/
def clear (nosleep : ℕ) : ℕ → ℕ → ℕ → (ℕ → ℕ) → (ℕ → ℕ) × Option (ℕ × ℕ)
  | 0, _, _, table => (table, none)
  | fuel + 1, slot, updates, table =>
    if table slot = 0 then clear nosleep fuel (slot + 1) updates table
    else
      let table := Function.update table slot 0
      if nosleep = 0 ∧ (updates + 1) % 128 = 0 then (table, some (slot + 1, updates + 1))
      else clear nosleep fuel (slot + 1) (updates + 1) table

namespace State

def call (st : State) (nosleep : ℕ) (mark : Option ℕ) : State :=
  { st with flushes := st.flushes ++ [⟨nosleep, .waiting, mark⟩] }

/-- A call of `flush_pages` returns. -/
def leave (st : State) (i : ℕ) (flush : Flush) : State :=
  { st with flushes := st.flushes.eraseIdx i, marks := st.marks ++ flush.mark.toList }

/-- The end of `flush_pages`. -/
def finish (st : State) (i : ℕ) (flush : Flush) : State := { st.leave i flush with flushcacherun := false }

/-- The table is emptied, from a slot on. -/
def clearFrom (st : State) (i : ℕ) (flush : Flush) (slot updates : ℕ) : State :=
  match clear flush.nosleep (dbCacheUpdateHash - slot) slot updates st.table with
  | (table, none) => { st with table, cnt := 0 }.finish i flush
  | (table, some (slot, updates)) => { st with table, flushes := st.flushes.set i { flush with phase := .clearing slot updates } }

/-- Whether the table is due. -/
def Due (st : State) (late : Bool) : Prop :=
  st.cnt ≠ 0 ∧ (st.inHash ≠ 0 ∨ dbCacheUpdateHash / 4 ≤ st.cnt ∨ late = true)

instance (st : State) (late : Bool) : Decidable (st.Due late) := inferInstanceAs (Decidable (_ ∧ _))

def updates (updated : ℕ) (inserted : Bool) : ℕ := (if inserted then 1 else 0) + updated

def run (st : State) : Event → Option State
  | .shortage runflushcacheinside =>
    if st.free ≤ cachePages * 25 / 100 ∧ st.flushcacherun = false then
      some ({ st with flushcacherun := true }.call (if runflushcacheinside then 2 else 0) none)
    else some st
  | .take => if 0 < st.free then some { st with free := st.free - 1 } else some (st.call 1 none)
  | .insertPage => some { st with inHash := st.inHash + 1 }
  | .call nosleep => some (st.call nosleep none)
  | .mark pagecacheid =>
    if pagecacheid = 0 then none
    else if dbCacheUpdateHash / 2 < st.cnt then some (st.call 1 (some pagecacheid))
    else some { st with marks := st.marks ++ [pagecacheid] }
  | .insert i =>
    match st.marks[i]? with
    | none => none
    | some pagecacheid =>
      match probe dbCacheUpdateHash st.table pagecacheid dbCacheUpdateHash (pagecacheid % dbCacheUpdateHash) with
      | none => some { st with stuck := true }
      | some slot =>
        some
          { st with
            table := Function.update st.table slot pagecacheid
            cnt := if st.table slot = 0 then st.cnt + 1 else st.cnt
            marks := st.marks.eraseIdx i }
  | .begin i discarded =>
    match st.flushes[i]? with
    | some flush =>
      if flush.phase = .waiting ∧ (∀ other ∈ st.flushes, other.phase = .waiting) ∧ discarded ≤ st.inHash then
        some
          { st with
            flushes := st.flushes.set i { flush with phase := .writing (st.inHash - discarded) }
            inHash := st.inHash - discarded
            free := st.free + discarded }
      else none
    | none => none
  | .fail i =>
    match st.flushes[i]? with
    | some ⟨nosleep, .writing pages, mark⟩ => if 0 < pages then some (st.leave i ⟨nosleep, .writing pages, mark⟩) else none
    | _ => none
  | .synced i moved updated inserted late =>
    match st.flushes[i]? with
    | some ⟨nosleep, .writing pages, mark⟩ =>
      if moved ≤ pages ∧ updated ≤ moved then
        let flush : Flush := ⟨nosleep, .writing pages, mark⟩
        let after := { st with inHash := st.inHash - updated, free := st.free + moved }
        if st.Due late then some (after.clearFrom i flush 0 (updates updated inserted)) else some (after.finish i flush)
      else none
    | _ => none
  | .resume i =>
    match st.flushes[i]? with
    | some ⟨nosleep, .clearing slot updates, mark⟩ =>
      some (st.clearFrom i ⟨nosleep, .clearing slot updates, mark⟩ slot updates)
    | _ => none

end State

def step (st : State) (e : Event) (st' : State) : Prop := st.run e = some st'

def State.start : State := ⟨fun _ => 0, 0, false, [], [], cachePages, 0, false⟩

/-! ## What is kept -/

/-- A slot is free, no page is in two slots, the count is right, the flag is set only while a call of `flush_pages` is
running or due, and no call of `mark_pagecache_used` goes round for ever. -/
structure Kept (st : State) : Prop where
  free : ∃ slot < dbCacheUpdateHash, st.table slot = 0
  unique : ∀ j < dbCacheUpdateHash, ∀ k < dbCacheUpdateHash, st.table j ≠ 0 → st.table j = st.table k → j = k
  counted : st.cnt = occupied dbCacheUpdateHash st.table
  due : st.flushcacherun = true → st.flushes ≠ []
  ends : st.stuck = false

/-- The calls of `mark_pagecache_used` that are under way. -/
def State.marking (st : State) : ℕ := st.marks.length + st.flushes.countP fun flush => flush.mark.isSome

/-- What goes wrong: a flush that fails, one that lets the lock go while it empties the table, and as many calls of
`mark_pagecache_used` at a time as fill half of it. -/
inductive Drift (st : State) : Event → Prop
  | fails {i : ℕ} : Drift st (.fail i)
  | unlocks {i moved updated : ℕ} {inserted late : Bool} {flush : Flush} (hflush : st.flushes[i]? = some flush)
    (hsleeps : flush.nosleep = 0) (hdue : st.Due late) (h : 128 ≤ State.updates updated inserted % 128 + st.cnt) :
    Drift st (.synced i moved updated inserted late)
  | crowded {pagecacheid : ℕ} (h : dbCacheUpdateHash / 2 ≤ st.marking + 1) : Drift st (.mark pagecacheid)

/-- And what carries it. -/
structure Holds (st : State) : Prop where
  probed : Probed dbCacheUpdateHash st.table
  counted : st.cnt = occupied dbCacheUpdateHash st.table
  due : st.flushcacherun = true → st.flushes ≠ []
  ends : st.stuck = false
  whole : ∀ flush ∈ st.flushes, ∀ slot updates, flush.phase ≠ .clearing slot updates
  room : st.cnt + st.marks.length < dbCacheUpdateHash
  few : st.marking < dbCacheUpdateHash / 2
  marks : ∀ pagecacheid ∈ st.marks, pagecacheid ≠ 0
  calls : ∀ flush ∈ st.flushes, flush.mark ≠ some 0

variable {st st' : State} {i : ℕ} {flush : Flush}

theorem Holds.kept (h : Holds st) : Kept st where
  free := exists_free (h.counted ▸ Nat.lt_of_le_of_lt (Nat.le_add_right _ _) h.room)
  unique _ hj _ hk hkey heq := h.probed.unique hj hk hkey heq
  counted := h.counted
  due := h.due
  ends := h.ends

/-- The search for a slot ends. -/
theorem Holds.probe_ends (h : Holds st) (pagecacheid : ℕ) :
    ∃ slot, probe dbCacheUpdateHash st.table pagecacheid dbCacheUpdateHash (pagecacheid % dbCacheUpdateHash) = some slot :=
  Lib.Probing.probe_ends h.kept.free

/-! ## The table is emptied -/

/-- The slots with a page, from one on. -/
def left (table : ℕ → ℕ) (slot fuel : ℕ) : ℕ := ∑ k ∈ Finset.range fuel, if table (slot + k) ≠ 0 then 1 else 0

theorem left_succ {table : ℕ → ℕ} {slot fuel : ℕ} :
    left table slot (fuel + 1) = (if table slot ≠ 0 then 1 else 0) + left table (slot + 1) fuel := by
  unfold left
  rw [Finset.sum_range_succ', Nat.add_zero, Nat.add_comm]
  refine congrArg _ (Finset.sum_congr rfl fun k _ => ?_)
  rw [Nat.add_right_comm, ← Nat.add_assoc]

theorem left_update {table : ℕ → ℕ} {slot fuel : ℕ} : left (Function.update table slot 0) (slot + 1) fuel = left table (slot + 1) fuel := by
  refine Finset.sum_congr rfl fun k _ => ?_
  rw [Function.update_of_ne (by omega)]

theorem occupied_eq_left {table : ℕ → ℕ} {size : ℕ} : occupied size table = left table 0 size := by
  unfold occupied left
  rw [Finset.card_filter]
  exact Finset.sum_congr rfl fun k _ => by rw [Nat.zero_add]

/-- With few updates the loop does not let the lock go, and all slots from the first are free. -/
theorem clear_whole {nosleep fuel slot updates : ℕ} {table : ℕ → ℕ}
    (h : nosleep = 0 → updates % 128 + left table slot fuel < 128) :
    ∃ after, clear nosleep fuel slot updates table = (after, none) ∧
      ∀ k, after k = if slot ≤ k ∧ k < slot + fuel then 0 else table k := by
  induction fuel generalizing slot updates table with
  | zero => exact ⟨table, rfl, fun k => (if_neg (by omega)).symm⟩
  | succ fuel ih =>
    unfold clear
    by_cases hzero : table slot = 0
    · rw [if_pos hzero]
      obtain ⟨after, hclear, hafter⟩ := @ih (slot + 1) updates table fun hsleeps => by
        have := h hsleeps
        rwa [left_succ, if_neg (not_not.mpr hzero), Nat.zero_add] at this
      refine ⟨after, hclear, fun k => ?_⟩
      rw [hafter]
      by_cases hk : k = slot
      · rw [hk, if_neg (by omega), if_pos (by omega), hzero]
      · exact if_congr (by omega) rfl rfl
    · have hsmall : nosleep = 0 → updates % 128 + 1 + left table (slot + 1) fuel < 128 := fun hsleeps => by
        have := h hsleeps
        rwa [left_succ, if_pos hzero, ← Nat.add_assoc] at this
      simp only
      rw [if_neg hzero, if_neg fun hstops => by
        have := hsmall hstops.1
        omega]
      obtain ⟨after, hclear, hafter⟩ := @ih (slot + 1) (updates + 1) (Function.update table slot 0) fun hsleeps => by
        have := hsmall hsleeps
        rw [left_update]
        omega
      refine ⟨after, hclear, fun k => ?_⟩
      rw [hafter]
      by_cases hk : k = slot
      · rw [hk, if_neg (by omega), if_pos (by omega), Function.update_self]
      · rw [Function.update_of_ne hk]
        exact if_congr (by omega) rfl rfl

theorem probed_of_zero {size : ℕ} {table : ℕ → ℕ} (h : ∀ k < size, table k = 0) : Probed size table := by
  intro key e hkey he hfound
  rw [h _ (Nat.mod_lt _ (Nat.lt_of_le_of_lt (Nat.zero_le e) he))] at hfound
  exact absurd hfound.symm hkey

theorem occupied_of_zero {size : ℕ} {table : ℕ → ℕ} (h : ∀ k < size, table k = 0) : occupied size table = 0 := by
  unfold occupied
  rw [Finset.filter_false_of_mem fun k hk hne => hne (h k (Finset.mem_range.mp hk)), Finset.card_empty]

/-! ## The calls -/

theorem marking_call (nosleep : ℕ) (mark : Option ℕ) :
    (st.call nosleep mark).marking = st.marking + if mark.isSome then 1 else 0 := by
  unfold State.marking State.call
  simp only
  rw [List.countP_append, List.countP_singleton, Nat.add_assoc]

/-- The caller of a flush that is over goes on. -/
theorem marking_leave (hflush : st.flushes[i]? = some flush) : (st.leave i flush).marking = st.marking := by
  obtain ⟨hi, rfl⟩ := List.getElem?_eq_some_iff.mp hflush
  have hperm := (List.getElem_cons_eraseIdx_perm hi).countP_eq fun flush => flush.mark.isSome
  rw [List.countP_cons] at hperm
  unfold State.marking State.leave
  simp only
  rw [List.length_append, ← hperm]
  cases (st.flushes[i]).mark with
  | none => simp
  | some _ =>
    simp only [Option.toList_some, List.length_singleton, Option.isSome_some, if_true]
    omega

theorem marking_set (hflush : st.flushes[i]? = some flush) (phase : Phase) :
    State.marking { st with flushes := st.flushes.set i { flush with phase } } = st.marking := by
  obtain ⟨hi, rfl⟩ := List.getElem?_eq_some_iff.mp hflush
  have hle : (if (st.flushes[i]).mark.isSome = true then 1 else 0) ≤ st.flushes.countP fun flush => flush.mark.isSome := by
    split
    next hsome => exact List.countP_pos_iff.mpr ⟨_, List.getElem_mem hi, hsome⟩
    · exact Nat.zero_le _
  unfold State.marking
  simp only
  rw [List.countP_set hi]
  simp only
  omega

theorem Holds.call (h : Holds st) (nosleep : ℕ) (mark : Option ℕ) (hmark : mark ≠ some 0)
    (hfew : mark.isSome = true → st.marking + 1 < dbCacheUpdateHash / 2) : Holds (st.call nosleep mark) where
  probed := h.probed
  counted := h.counted
  due _ hnil := by
    rw [State.call, List.append_eq_nil_iff] at hnil
    cases hnil.2
  ends := h.ends
  whole flush hmem slot updates := by
    rcases List.mem_append.mp hmem with hmem | hmem
    · exact h.whole flush hmem slot updates
    · cases List.mem_singleton.mp hmem
      exact nofun
  room := h.room
  few := by
    rw [marking_call]
    split
    next hsome => exact hfew hsome
    · exact h.few
  marks := h.marks
  calls flush hmem := by
    rcases List.mem_append.mp hmem with hmem | hmem
    · exact h.calls flush hmem
    · cases List.mem_singleton.mp hmem
      exact hmark

/-- A call of `flush_pages` returns, and has reset the flag or has none to reset. -/
theorem Holds.leave (h : Holds st) (hflush : st.flushes[i]? = some flush) (hroom : st.cnt < dbCacheUpdateHash / 4) :
    Holds { st.leave i flush with flushcacherun := false } where
  probed := h.probed
  counted := h.counted
  due := nofun
  ends := h.ends
  whole other hmem := h.whole other (List.mem_of_mem_eraseIdx hmem)
  room := by
    have hle : (st.leave i flush).marks.length ≤ (st.leave i flush).marking := Nat.le_add_right _ _
    rw [marking_leave hflush] at hle
    have hfew := h.few
    show st.cnt + (st.leave i flush).marks.length < dbCacheUpdateHash
    omega
  few := (marking_leave hflush).symm ▸ h.few
  marks pagecacheid hmem := by
    rcases List.mem_append.mp hmem with hmem | hmem
    · exact h.marks pagecacheid hmem
    · rintro rfl
      exact h.calls flush (List.mem_of_getElem? hflush) (Option.mem_toList.mp hmem)
  calls other hmem := h.calls other (List.mem_of_mem_eraseIdx hmem)

theorem Holds.setPhase (h : Holds st) (hflush : st.flushes[i]? = some flush) {phase : Phase}
    (hphase : ∀ slot updates, phase ≠ .clearing slot updates) (inHash free : ℕ) :
    Holds { st with flushes := st.flushes.set i { flush with phase }, inHash, free } where
  probed := h.probed
  counted := h.counted
  due hrun hnil := h.due hrun ((List.set_eq_nil_iff ..).mp hnil)
  ends := h.ends
  whole other hmem slot updates := by
    rcases List.mem_or_eq_of_mem_set hmem with hmem | rfl
    · exact h.whole other hmem slot updates
    · exact hphase slot updates
  room := h.room
  few := (marking_set hflush phase).symm ▸ h.few
  marks := h.marks
  calls other hmem := by
    rcases List.mem_or_eq_of_mem_set hmem with hmem | rfl
    · exact h.calls other hmem
    · exact h.calls flush (List.mem_of_getElem? hflush)

/-- The lock is held while a page that is used is entered. -/
theorem Holds.insert (h : Holds st) {pagecacheid slot : ℕ} (hmark : st.marks[i]? = some pagecacheid)
    (hprobe : probe dbCacheUpdateHash st.table pagecacheid dbCacheUpdateHash (pagecacheid % dbCacheUpdateHash) = some slot) :
    Holds { st with
      table := Function.update st.table slot pagecacheid
      cnt := if st.table slot = 0 then st.cnt + 1 else st.cnt
      marks := st.marks.eraseIdx i } := by
  have hsize : 0 < dbCacheUpdateHash := by decide
  obtain ⟨hi, _⟩ := List.getElem?_eq_some_iff.mp hmark
  have hlength : (st.marks.eraseIdx i).length + 1 = st.marks.length := by
    rw [List.length_eraseIdx_of_lt hi]
    omega
  have hkey := h.marks pagecacheid (List.mem_of_getElem? hmark)
  obtain ⟨e, he, hslot, hhit, _⟩ := probe_eq_some hsize hprobe
  have hroom := h.room
  have hfew := h.few
  refine ⟨h.probed.insert hsize hprobe, ?_, h.due, h.ends, h.whole, ?_, ?_,
    fun other hmem => h.marks other (List.mem_of_mem_eraseIdx hmem), h.calls⟩
  · simp only
    split
    next hfree => rw [occupied_insert (hslot ▸ Nat.mod_lt _ hsize) hkey hfree, h.counted]
    next hused =>
      rw [← hhit.resolve_left hused, Function.update_eq_self]
      exact h.counted
  · simp only
    split <;> omega
  · unfold State.marking at hfew ⊢
    simp only
    omega

theorem quarter_pos : 0 < dbCacheUpdateHash / 4 := by decide

theorem Due.count {late : Bool} (hlarge : ¬st.Due late) : st.cnt < dbCacheUpdateHash / 4 := by
  unfold State.Due at hlarge
  by_contra hge
  have hpos := quarter_pos
  exact hlarge ⟨by omega, .inr (.inl (not_lt.mp hge))⟩

/-- What one event keeps. -/
theorem step_holds {e : Event} (h : Holds st) (hstep : step st e st') (hdrift : ¬Drift st e) : Holds st' := by
  unfold step State.run at hstep
  cases e with
  | shortage inside =>
    simp only at hstep
    split at hstep
    · cases hstep
      refine ⟨h.probed, h.counted, fun _ hnil => ?_, h.ends, (h.call _ none nofun nofun).whole, h.room,
        (h.call _ none nofun nofun).few, h.marks, (h.call _ none nofun nofun).calls⟩
      · exact List.cons_ne_nil _ _ (List.append_eq_nil_iff.mp hnil).2
    · cases hstep
      exact h
  | take =>
    simp only at hstep
    split at hstep
    · cases hstep
      exact ⟨h.probed, h.counted, h.due, h.ends, h.whole, h.room, h.few, h.marks, h.calls⟩
    · cases hstep
      exact h.call 1 none nofun nofun
  | insertPage =>
    cases hstep
    exact ⟨h.probed, h.counted, h.due, h.ends, h.whole, h.room, h.few, h.marks, h.calls⟩
  | call nosleep =>
    cases hstep
    exact h.call nosleep none nofun nofun
  | mark pagecacheid =>
    have hfew : st.marking + 1 < dbCacheUpdateHash / 2 := not_le.mp fun hcrowded => hdrift (.crowded hcrowded)
    simp only at hstep
    split at hstep
    · cases hstep
    next hid =>
      split at hstep
      · cases hstep
        exact h.call 1 (some pagecacheid) (fun heq => hid (Option.some.inj heq)) fun _ => hfew
      next hcount =>
        cases hstep
        have hmarks : st.marks.length ≤ st.marking := Nat.le_add_right _ _
        refine ⟨h.probed, h.counted, h.due, h.ends, h.whole, ?_, ?_, fun other hmem => ?_, h.calls⟩
        · simp only [List.length_append, List.length_singleton]
          omega
        · unfold State.marking at hfew ⊢
          simp only [List.length_append, List.length_singleton]
          omega
        · rcases List.mem_append.mp hmem with hmem | hmem
          · exact h.marks other hmem
          · cases List.mem_singleton.mp hmem
            exact hid
  | insert i =>
    simp only at hstep
    split at hstep
    · cases hstep
    next pagecacheid hmark =>
      split at hstep
      next hnone =>
        obtain ⟨slot, hslot⟩ := h.probe_ends pagecacheid
        rw [hslot] at hnone
        cases hnone
      next slot hprobe =>
        cases hstep
        exact h.insert hmark hprobe
  | begin i discarded =>
    simp only at hstep
    split at hstep
    next flush hflush =>
      split at hstep
      · cases hstep
        exact h.setPhase hflush (fun _ _ hphase => Phase.noConfusion hphase) _ _
      · cases hstep
    · cases hstep
  | fail i => exact absurd .fails hdrift
  | synced i moved updated inserted late =>
    simp only at hstep
    split at hstep
    next nosleep pages mark hflush =>
      split at hstep
      · split at hstep
        next hdue =>
          have hfewer : nosleep = 0 → State.updates updated inserted % 128 + left st.table 0 (dbCacheUpdateHash - 0) < 128 := by
            intro hsleeps
            rw [Nat.sub_zero, ← occupied_eq_left, ← h.counted]
            exact not_le.mp fun hmany => hdrift (.unlocks hflush hsleeps hdue hmany)
          obtain ⟨after, hclear, hafter⟩ := clear_whole hfewer
          have hzero : ∀ k < dbCacheUpdateHash, after k = 0 := fun k hk => by
            rw [hafter, if_pos (by omega)]
          unfold State.clearFrom at hstep
          simp only [hclear] at hstep
          cases hstep
          have hcleared : Holds { st with
              table := after, cnt := 0, inHash := st.inHash - updated, free := st.free + moved } :=
            ⟨probed_of_zero hzero, (occupied_of_zero hzero).symm, h.due, h.ends, h.whole,
              Nat.lt_of_le_of_lt (Nat.add_le_add_right (Nat.zero_le _) _) h.room, h.few, h.marks, h.calls⟩
          exact hcleared.leave hflush quarter_pos
        next hsmall =>
          cases hstep
          have hafter : Holds { st with inHash := st.inHash - updated, free := st.free + moved } :=
            ⟨h.probed, h.counted, h.due, h.ends, h.whole, h.room, h.few, h.marks, h.calls⟩
          have hcount : st.cnt < dbCacheUpdateHash / 4 := Due.count hsmall
          exact hafter.leave hflush hcount
      · cases hstep
    · cases hstep
  | resume i =>
    simp only at hstep
    split at hstep
    next nosleep slot updates mark hflush => exact absurd rfl (h.whole _ (List.mem_of_getElem? hflush) slot updates)
    · cases hstep

theorem start_holds : Holds State.start where
  probed := probed_empty
  counted := occupied_empty.symm
  due := nofun
  ends := rfl
  whole := nofun
  room := by decide
  few := by decide
  marks := nofun
  calls := nofun

/-- In the runs where no flush fails or lets the lock go while it empties the table, and not too many pages are marked
at a time, the table and the flag are kept. -/
theorem table_kept_of_avoiding (h : Reachable (· = State.start) (Avoiding step Drift) st) : Kept st :=
  (h.invariant (fun _ hst => hst ▸ start_holds) fun _ _ _ h hstep => step_holds h hstep.1 hstep.2).kept

/-- Page 7 is marked. -/
def State.marked : State := { State.start with table := Function.update (fun _ => 0) 7 7, cnt := 1 }

theorem marked_kept : Kept State.marked := by
  have hmarking : Reachable (· = State.start) (Avoiding step Drift) { State.start with marks := [7] } := by
    refine .next (.start rfl) (a := .mark 7) ⟨rfl, fun hdrift => ?_⟩
    cases hdrift with
    | crowded h => exact absurd h (by decide)
  exact table_kept_of_avoiding (.next hmarking (a := .insert 0) ⟨rfl, nofun⟩)

/-- Some pages are taken. -/
def State.taken (n : ℕ) : State := { State.start with free := cachePages - n }

theorem taken_reachable {n : ℕ} (h : n ≤ cachePages) : Reachable (· = State.start) step (State.taken n) := by
  induction n with
  | zero => exact .start rfl
  | succ n ih =>
    refine .next (ih (Nat.le_of_succ_le h)) (a := .take) ?_
    exact if_pos (Nat.sub_pos_of_lt h)

/-- With 4096 pages left a flush is due, and it cannot write a page to the cache file. -/
def State.failing : State := { State.taken 12288 with flushcacherun := true, inHash := 1 }

theorem failing_reachable : Reachable (· = State.start) step State.failing := by
  have htaken : Reachable (· = State.start) step (State.taken 12288) := taken_reachable (by decide)
  have hshort : (State.taken 12288).free ≤ cachePages * 25 / 100 ∧ (State.taken 12288).flushcacherun = false :=
    ⟨by decide, rfl⟩
  have hinserted : Reachable (· = State.start) step { State.taken 12288 with inHash := 1 } :=
    .next htaken (a := .insertPage) rfl
  have hdue : Reachable (· = State.start) step { State.failing with flushes := [⟨0, .waiting, none⟩] } :=
    .next hinserted (a := .shortage false) (by
      unfold step State.run
      exact if_pos hshort)
  have hwriting : Reachable (· = State.start) step { State.failing with flushes := [⟨0, .writing 1, none⟩] } :=
    .next hdue (a := .begin 0 0) rfl
  exact .next hwriting (a := .fail 0) rfl

theorem failing_stuck : ¬∀ st, Reachable (· = State.start) step st → Kept st :=
  fun h => (h State.failing failing_reachable).due rfl rfl

end Pclsync.PageCache.Flushes
