import Pclsync.PageCache.Accounting

/-! What holds between two spans of `cache_mutex`, in every run without a drift. -/
namespace Pclsync.PageCache
open Lib.Machine Lib.Transition

variable {P : Type} [DecidableEq P] {n : ℕ} {s s' : State P n} {p : P}

/-- The pages of a flush are distinct, and the flush has not freed any of them yet. -/
structure Consistent (s : State P n) : Prop where
  ahead : s.Ahead 0
  nodup : s.flush.pages.Nodup
  fresh : ∀ {pages pagecnt updates nosleep}, s.flush = .updating pages pagecnt updates nosleep → pagecnt = 0

theorem Consistent.of_flush (h : Consistent s) (hahead : s'.Ahead 0) (hflush : s'.flush = s.flush) : Consistent s' where
  ahead := hahead
  nodup := by rw [hflush]; exact h.nodup
  fresh := by rw [hflush]; exact h.fresh

/-! ### Flushing -/

section
variable [Fintype P]

/-- Once the pages of `PAGE_TYPE_CACHE` are free, the others are what is left. -/
theorem total_of_freed (hf : Freed s s' (s.ofType .cache)) : s'.total = (s.ofType .read).length := by
  rw [State.total_eq, length_eq_sum_count]
  refine Finset.sum_congr rfl fun p _ => ?_
  rw [hf.inHash, count_ofType]
  cases ht : (s.page p).type <;> simp [mem_ofType, ht]

variable (hcard : Fintype.card P < 2 ^ 32)
include hcard

theorem collect_consistent (h : s.Ahead 0) : Consistent s.collect := by
  unfold State.collect
  by_cases hzero : s.cachePagesInHash = 0
  · rw [if_pos hzero]
    exact ⟨⟨h.free, h.inHash, h.once⟩, List.nodup_nil, nofun⟩
  · rw [if_neg hzero]
    obtain ⟨hahead, hfreed⟩ := toFree_freed hcard (ofType_nodup h.once .cache) (fun p hp => (mem_ofType.mp hp).2) h
    have htotal := total_of_freed hfreed
    have hlen := hahead.once.lengths
    refine ⟨⟨hahead.free, ?_, hahead.once⟩, ?_, ?_⟩
    · show u32 (s.ofType .read).length = _
      rw [← htotal, u32_of_lt (by omega)]
      rfl
    · by_cases hread : (s.ofType .read).isEmpty
      · simp [hread, Flush.pages]
      · simpa [hread, Flush.pages] using ofType_nodup h.once .read
    · intro pages pagecnt updates nosleep hflush
      by_cases hread : (s.ofType .read).isEmpty <;> simp [hread] at hflush

theorem flushStart_consistent {diskfull : Bool} (h : Consistent s) (hs : s.flushStart diskfull = some s') :
    Consistent s' := by
  unfold State.flushStart at hs
  split at hs
  · obtain rfl := Option.some.inj hs
    split
    · obtain ⟨hahead, -⟩ := discard_freed hcard (ofType_nodup h.ahead.once .cache)
        (fun p hp => (mem_ofType.mp hp).2) h.ahead
      exact ⟨⟨hahead.free, hahead.inHash, hahead.once⟩, ofType_nodup h.ahead.once .read, nofun⟩
    · exact collect_consistent hcard h.ahead
  · cases hs

theorem flushDiscard_consistent {sorted : List P} {k : ℕ} (h : Consistent s)
    (hfresh : ∀ p ∈ sorted.take (max 1 (k / 2)), s.inHash p ≠ 0) (hs : s.flushDiscard k sorted = some s') :
    Consistent s' := by
  unfold State.flushDiscard at hs
  split at hs
  · next old hflush =>
    split at hs
    · next hperm =>
      obtain rfl := Option.some.inj hs
      have hnodup := h.nodup
      rw [hflush] at hnodup
      exact collect_consistent hcard (discard_freed hcard
        ((hperm.nodup_iff.mpr hnodup).sublist (List.take_sublist ..)) hfresh h.ahead).1
    · cases hs
  · cases hs

omit hcard [Fintype P] in
theorem flushWritten_consistent {sorted : List P} {rows updates nosleep : ℕ} (h : Consistent s)
    (hs : s.flushWritten sorted rows updates nosleep = some s') : Consistent s' := by
  unfold State.flushWritten at hs
  split at hs
  · next old hflush =>
    split at hs
    · next hperm =>
      obtain rfl := Option.some.inj hs
      have hnodup := h.nodup
      rw [hflush] at hnodup
      have hrows : (sorted.take rows).Nodup := (hperm.nodup_iff.mpr hnodup).sublist (List.take_sublist ..)
      refine ⟨⟨h.ahead.free, h.ahead.inHash, h.ahead.once⟩, ?_, ?_⟩
      · by_cases hempty : (sorted.take rows).isEmpty
        · simp only [hempty, if_true]
          exact List.nodup_nil
        · simpa [hempty, Flush.pages] using hrows
      · intro pages pagecnt updates' nosleep' hflush'
        by_cases hempty : (sorted.take rows).isEmpty <;> simp [hempty] at hflush'
        exact hflush'.2.1.symm
    · cases hs
  · cases hs

/-- Each page that becomes free is one more that the counter is ahead, until the end. -/
theorem updateLoop_consistent {nosleep pagecnt updates : ℕ} {pages : List P} {affected : List Bool}
    (h : s.Ahead pagecnt) (hbound : s.total + pagecnt ≤ Fintype.card P) (hnodup : pages.Nodup)
    (hfresh : ∀ p ∈ pages, s.inHash p ≠ 0) (hrows : false ∉ affected)
    (hpause : nosleep ≠ 1 → updates % 64 + pages.length < 64)
    (hs : State.updateLoop nosleep s pages affected pagecnt updates = some s') : Consistent s' := by
  induction pages generalizing s pagecnt updates affected with
  | nil =>
    cases affected with
    | nil =>
      obtain rfl := Option.some.inj hs
      have := lower_ahead (k := 0) (by rwa [Nat.zero_add]) (show s.total + (0 + pagecnt) < 2 ^ 32 by omega)
      exact ⟨⟨this.free, this.inHash, this.once⟩, List.nodup_nil, nofun⟩
    | cons => cases hs
  | cons p rest ih =>
    cases affected with
    | nil => cases hs
    | cons row outcomes =>
      obtain ⟨rfl, hrest⟩ : row = true ∧ false ∉ outcomes := by simpa using hrows
      have hp := hfresh p List.mem_cons_self
      have htotal := toFree_total h.once hp
      have hlen : (p :: rest).length = rest.length + 1 := rfl
      have hgoes : ¬(nosleep ≠ 1 ∧ (updates + 1) % 64 = 0) := by
        intro ⟨hsleep, hmod⟩
        have := hpause hsleep
        omega
      obtain ⟨hnot, hnodup⟩ := List.nodup_cons.mp hnodup
      rw [State.updateLoop] at hs
      simp only [if_true, if_neg hgoes] at hs
      refine ih (toFree_ahead hcard h hp) (by omega) hnodup (fun q hq => ?_) hrest (fun hsleep => ?_) hs
      · rw [toFree_inHash h.once hp, if_neg (fun heq : q = p => hnot (heq ▸ hq))]
        exact hfresh q (List.mem_cons_of_mem p hq)
      · have := hpause hsleep
        omega

/-! ### Taking pages and giving them back -/

theorem getFreePage_ahead (h : s.Ahead 0) (hs : s.getFreePage = some s') : s'.Ahead 0 := by
  unfold State.getFreePage at hs
  split at hs
  · cases hs
  · next p rest hfree =>
    obtain rfl := Option.some.inj hs
    have hlen := h.once.lengths
    have hfree' := h.free
    rw [hfree, List.length_cons] at hlen hfree'
    refine ⟨?_, h.inHash, fun q => ?_⟩
    · show sub32 s.cachePagesFree 1 = rest.length
      rw [sub32_of_le (by omega) (by omega)]
      omega
    · have hq := h.once q
      rw [hfree, List.count_cons] at hq
      show rest.count q + s.inHash q + (p :: s.held).count q = 1
      rw [List.count_cons]
      omega

omit hcard [Fintype P] [DecidableEq P] in
theorem getFreePage_flush (hs : s.getFreePage = some s') : s'.flush = s.flush := by
  unfold State.getFreePage at hs
  split at hs
  · cases hs
  · exact Option.some.inj hs ▸ rfl

theorem returnFreePage_ahead (h : s.Ahead 0) (hs : s.returnFreePage p = some s') : s'.Ahead 0 := by
  unfold State.returnFreePage at hs
  split at hs
  · next hheld =>
    obtain rfl := Option.some.inj hs
    have hlen := h.once.lengths
    have hpos := List.length_pos_of_mem hheld
    refine ⟨?_, h.inHash, fun q => ?_⟩
    · show u32 (s.cachePagesFree + 1) = s.freePages.length + 1
      rw [h.free, u32_of_lt (by omega)]
    · have hq := h.once q
      have hcount := List.count_pos_iff.mpr hheld
      show (p :: s.freePages).count q + s.inHash q + (s.held.erase p).count q = 1
      rw [List.count_cons, List.count_erase]
      by_cases hqp : p = q
      · subst hqp
        simp
        omega
      · simpa [hqp] using hq
  · cases hs

omit hcard [Fintype P] in
theorem returnFreePage_flush (hs : s.returnFreePage p = some s') : s'.flush = s.flush := by
  unfold State.returnFreePage at hs
  split at hs
  · exact Option.some.inj hs ▸ rfl
  · cases hs

variable [NeZero n] {info : Info}

theorem insert_ahead (h : s.Ahead 0) (hs : s.insert p info = some s') : s'.Ahead 0 := by
  unfold State.insert at hs
  split at hs
  · next hheld =>
    obtain rfl := Option.some.inj hs
    have hlen := h.once.lengths
    have hpos := List.length_pos_of_mem hheld
    have htotal : (((s.dropHeld p).setInfo p info).addTail p).total = s.total + 1 := addTail_total
    refine ⟨h.free, ?_, fun q => ?_⟩
    · show u32 (s.cachePagesInHash + 1) = _ + 0
      rw [h.inHash, u32_of_lt (by omega)]
      exact htotal.symm
    · have hq := h.once q
      have hcount := List.count_pos_iff.mpr hheld
      have hin : (((s.dropHeld p).setInfo p info).addTail p).inHash q = s.inHash q + if q = p then 1 else 0 :=
        addTail_inHash q
      show s.freePages.count q + (((s.dropHeld p).setInfo p info).addTail p).inHash q + (s.held.erase p).count q = 1
      rw [hin, List.count_erase]
      by_cases hqp : q = p
      · subst hqp
        simp
        omega
      · simpa [hqp, Ne.symm hqp] using hq
  · cases hs

omit hcard [Fintype P] in
theorem insert_flush (hs : s.insert p info = some s') : s'.flush = s.flush := by
  unfold State.insert at hs
  split at hs
  · exact Option.some.inj hs ▸ rfl
  · cases hs

theorem addPageIfNotExists_ahead {elsewhere : Bool} (h : s.Ahead 0)
    (hs : s.addPageIfNotExists p info elsewhere = some s') : s'.Ahead 0 := by
  unfold State.addPageIfNotExists at hs
  dsimp only at hs
  split at hs
  · exact returnFreePage_ahead hcard (s := s.setInfo p info) ⟨h.free, h.inHash, h.once⟩ hs
  · exact insert_ahead hcard h hs

omit hcard [Fintype P] in
theorem addPageIfNotExists_flush {elsewhere : Bool} (hs : s.addPageIfNotExists p info elsewhere = some s') :
    s'.flush = s.flush := by
  unfold State.addPageIfNotExists at hs
  dsimp only at hs
  split at hs
  · exact returnFreePage_flush (s := s.setInfo p info) hs
  · exact insert_flush hs

/-! ### Lookups -/

theorem checkPageInMemoryByHash_ahead {hash pageid : ℕ} {bad : P → Bool} (h : s.Ahead 0) :
    (s.checkPageInMemoryByHash hash pageid bad).Ahead 0 := by
  unfold State.checkPageInMemoryByHash
  split
  · exact h
  · next p hdropped => exact discard_ahead hcard h (inHash_ne_zero (List.mem_of_find?_eq_some hdropped))

omit hcard in
theorem switchMemoryPageToHash_ahead {oldhash newhash pageid : ℕ} (h : s.Ahead 0) :
    (s.switchMemoryPageToHash oldhash newhash pageid).Ahead 0 := by
  unfold State.switchMemoryPageToHash
  split
  · exact h
  · next p hfind =>
    have hp := inHash_ne_zero (List.mem_of_find?_eq_some hfind)
    have hin : ∀ q, (((s.listDel p).setInfo p ⟨newhash, pageid, .read⟩).addTail p).inHash q = s.inHash q := by
      intro q
      rw [addTail_inHash, show ((s.listDel p).setInfo p _).inHash q = (s.listDel p).inHash q from rfl,
        listDel_inHash h.once hp]
      by_cases hqp : q = p
      · simp [hqp, (h.once.of_hash hp).1]
      · simp [hqp]
    have hfree : ((s.listDel p).setInfo p ⟨newhash, pageid, .read⟩).freePages = s.freePages :=
      listDel_freePages h.once hp
    refine ⟨?_, ?_, fun q => ?_⟩
    · exact h.free.trans (congrArg List.length hfree).symm
    · rw [State.total_eq, Finset.sum_congr rfl fun q _ => hin q, ← State.total_eq]
      exact h.inHash
    · rw [hin]
      show ((s.listDel p).setInfo p ⟨newhash, pageid, .read⟩).freePages.count q + _ + s.held.count q = 1
      rw [hfree]
      exact h.once q

/-! ### Runs -/

theorem step_consistent (h : Consistent s) {e : Event P} (hs : Avoiding step Drifts s e s') : Consistent s' := by
  obtain ⟨hrun, hdrift⟩ := hs
  unfold step at hrun
  cases e with
  | getFreePageIfAvailable =>
    obtain rfl := Option.some.inj hrun
    have hnone : s.freePages = [] := not_not.mp hdrift
    show Consistent s.getFreePageIfAvailable
    simpa only [State.getFreePageIfAvailable, hnone] using h
  | getFreePage => exact h.of_flush (getFreePage_ahead hcard h.ahead hrun) (getFreePage_flush hrun)
  | returnFreePage p => exact h.of_flush (returnFreePage_ahead hcard h.ahead hrun) (returnFreePage_flush hrun)
  | insert p info => exact h.of_flush (insert_ahead hcard h.ahead hrun) (insert_flush hrun)
  | addPageIfNotExists p info elsewhere =>
    exact h.of_flush (addPageIfNotExists_ahead hcard h.ahead hrun) (addPageIfNotExists_flush hrun)
  | checkPageInMemoryByHash hash pageid bad =>
    obtain rfl := Option.some.inj hrun
    exact h.of_flush (checkPageInMemoryByHash_ahead hcard h.ahead) (by unfold State.checkPageInMemoryByHash; split <;> rfl)
  | switchMemoryPageToHash oldhash newhash pageid =>
    obtain rfl := Option.some.inj hrun
    exact h.of_flush (switchMemoryPageToHash_ahead h.ahead) (by unfold State.switchMemoryPageToHash; split <;> rfl)
  | flushStart diskfull => exact flushStart_consistent hcard h hrun
  | flushDiscard sorted =>
    exact flushDiscard_consistent hcard h (fun p hp hzero => hdrift ⟨p, hp, hzero⟩) hrun
  | flushWritten sorted rows updates nosleep => exact flushWritten_consistent h hrun
  | flushFailed =>
    change s.flushFailed = some s' at hrun
    unfold State.flushFailed at hrun
    split at hrun
    · obtain rfl := Option.some.inj hrun
      exact ⟨⟨h.ahead.free, h.ahead.inHash, h.ahead.once⟩, List.nodup_nil, nofun⟩
    · cases hrun
  | flushUpdate affected =>
    change s.flushUpdate affected = some s' at hrun
    unfold State.flushUpdate at hrun
    split at hrun
    · next pages pagecnt updates nosleep hflush =>
      obtain rfl := h.fresh hflush
      have hnodup := h.nodup
      have hlen := h.ahead.once.lengths
      simp only [Drifts, hflush, Flush.pages, not_or, not_exists, not_and] at hdrift hnodup
      exact updateLoop_consistent hcard h.ahead (by omega) hnodup (fun p hp => hdrift.1 p hp) hdrift.2.1
        (fun hsleep => by simpa using hdrift.2.2 hsleep) hrun
    · cases hrun
  | flushTimer =>
    obtain rfl := Option.some.inj hrun
    refine h.of_flush ?_ ?_
    all_goals unfold State.flushTimer; split
    · exact ⟨h.ahead.free, h.ahead.inHash, h.ahead.once⟩
    · exact h.ahead
    · rfl
    · rfl

end

theorem Initial.consistent [Fintype P] (h : Initial s) : Consistent s where
  ahead := {
    free := by rw [h.cachePagesFree, length_eq_sum_count, Finset.sum_congr rfl fun p _ => h.free p]; simp
    inHash := by simp [h.cachePagesInHash, State.total, h.hash]
    once := fun p => by simp [h.free, h.held, State.inHash, h.hash] }
  nodup := by rw [h.flush]; exact List.nodup_nil
  fresh := by rw [h.flush]; exact fun hp => by cases hp

theorem Consistent.accounted (h : Consistent s) : Accounted s := ⟨h.ahead.free, h.ahead.inHash, h.ahead.once⟩

theorem Consistent.all_free [Fintype P] (h : Consistent s) (hresets : s.resets (Fintype.card P)) :
    p ∈ s.freePages := by
  have hfree : s.freePages.length = Fintype.card P := by
    rw [← h.ahead.free]
    exact (by simpa [State.resets] using hresets : _ ∧ _).1
  have hlen := h.ahead.once.lengths
  have hin : s.inHash p = 0 := by
    have hsum : ∑ q, s.inHash q = 0 := by rw [← s.total_eq]; omega
    exact Finset.sum_eq_zero_iff.mp hsum p (Finset.mem_univ p)
  have hheld : s.held.count p = 0 := Nat.le_zero.mp (List.count_le_length.trans (by omega))
  have := h.ahead.once p
  exact List.count_pos_iff.mp (by omega)

theorem reachable_consistent [Fintype P] [NeZero n] (hcard : Fintype.card P < 2 ^ 32)
    (h : Reachable Initial (Avoiding step Drifts) s) : Consistent s :=
  h.invariant (fun _ => Initial.consistent) fun _ _ _ h hs => step_consistent hcard h hs

/-- As `psync_pagecache_init` leaves `pages` pages, zeroed. -/
def initialPages (pages buckets : ℕ) : State (Fin pages) buckets where
  freePages := List.finRange pages
  cacheHash := fun _ => []
  held := []
  page := fun _ => ⟨0, 0, .read⟩
  cachePagesFree := pages
  cachePagesInHash := 0
  cachePagesReset := true
  flush := .idle

theorem initialPages_initial (pages buckets : ℕ) : Initial (initialPages pages buckets) where
  free := fun p => List.count_finRange p
  hash := fun _ => rfl
  held := rfl
  cachePagesFree := (Fintype.card_fin _).symm
  cachePagesInHash := rfl
  flush := rfl

/-- A page is taken if available: one page less is free, and the counter stays. -/
theorem counter_stays_behind {pages buckets : ℕ} (hpages : pages ≠ 0) :
    ¬Accounted (initialPages pages buckets).getFreePageIfAvailable := by
  intro h
  obtain ⟨k, rfl⟩ := Nat.exists_eq_succ_of_ne_zero hpages
  have hfree := h.free
  simp [State.getFreePageIfAvailable, initialPages, List.finRange_succ] at hfree

theorem getFreePage_initialPages {pages buckets : ℕ} (hpages : pages ≠ 0) :
    ∃ s, (initialPages pages buckets).getFreePage = some s ∧ s.held.length = 1 := by
  obtain ⟨k, rfl⟩ := Nat.exists_eq_succ_of_ne_zero hpages
  simp [State.getFreePage, initialPages, List.finRange_succ]

/-- In a run without a drift, both counters are right whenever `cache_mutex` is free, each page
is in one place, and all pages are free when the buffer is reset. -/
theorem accounted_of_avoiding {s : State (Fin cachePages) cacheHash}
    (h : Reachable Initial (Avoiding step Drifts) s) :
    Accounted s ∧ (s.resets cachePages → ∀ p, p ∈ s.freePages) := by
  have hcard : Fintype.card (Fin cachePages) = cachePages := Fintype.card_fin _
  have hcons := reachable_consistent (by rw [hcard]; decide) h
  exact ⟨hcons.accounted, fun hresets p => hcons.all_free (by rwa [hcard])⟩

/-- A page is taken and not yet given back. -/
theorem accounted_with_a_page_held :
    ∃ s, (initialPages cachePages cacheHash).getFreePage = some s ∧ s.held.length = 1 ∧ Accounted s := by
  obtain ⟨s, hs, hheld⟩ := @getFreePage_initialPages cachePages cacheHash (by decide)
  exact ⟨s, hs, hheld,
    (accounted_of_avoiding (.next (a := .getFreePage) (.start (initialPages_initial ..)) ⟨hs, nofun⟩)).1⟩

theorem first_page_taken_if_available :
    Reachable Initial step (initialPages cachePages cacheHash).getFreePageIfAvailable ∧
    ¬Accounted (initialPages cachePages cacheHash).getFreePageIfAvailable :=
  ⟨.next (a := .getFreePageIfAvailable) (.start (initialPages_initial ..)) rfl, counter_stays_behind (by decide)⟩

end Pclsync.PageCache
