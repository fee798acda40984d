import Pclsync.PageCache.Waits
import Mathlib.Tactic.Common

/-! The revision that pages belong to: when no file has another hash than a request that receives
a page for it, each page is kept, and handed to the waiters, under the hash it was asked with, and
each entry has a request that is about to receive its page. -/
namespace Pclsync.PageCache.Waits
open Lib.Transition

theorem pagesOf_append (l l' : List Range) : pagesOf (l ++ l') = pagesOf l ++ pagesOf l' := List.flatMap_append

theorem pagesOf_singleton (r : Range) : pagesOf [r] = r.pages := List.flatMap_singleton ..

theorem pagesOf_addRange (ranges : List Range) (pageid : ℕ) :
    pagesOf (addRange ranges pageid) = pagesOf ranges ++ [pageid] := by
  obtain rfl | ⟨init, last, rfl⟩ := List.eq_nil_or_concat ranges
  · rfl
  · unfold addRange
    rw [List.concat_eq_append, List.getLast?_concat, List.dropLast_concat]
    dsimp only
    split
    · next h =>
      rw [pagesOf_append, pagesOf_append, pagesOf_singleton, pagesOf_singleton, List.append_assoc]
      show _ ++ List.range' last.offset (last.length + 1) = _ ++ (List.range' last.offset last.length ++ [pageid])
      rw [List.range'_concat, Nat.one_mul, h]
    · rw [pagesOf_append, pagesOf_singleton]
      rfl

variable {F T : Type} [DecidableEq T] {s s' : State F T} {t : T} {b : Building F}

theorem setReader_self (s : State F T) (t : T) (r : Reader F) : (s.setReader t r).reader t = r := Function.update_self ..

theorem setReader_of_ne {t' : T} (h : t' ≠ t) (r : Reader F) : (s.setReader t r).reader t' = s.reader t' :=
  Function.update_of_ne h ..

omit [DecidableEq T] in
theorem setRequest_self (s : State F T) (i : ℕ) (q : Option (Request F)) : (s.setRequest i q).request i = q :=
  Function.update_self ..

/-- What the downloads keep as long as the hashes agree. -/
structure Sound (s : State F T) : Prop where
  linked : ∀ {key ws w}, s.wait key = some ws → w ∈ ws → w < s.waiters ∧ (s.waiter w).waitingFor = key
  cached : ∀ page ∈ s.cache, page.bytes = (page.hash, page.pageid)
  received : ∀ {i q page}, s.request i = some q → q.page = some page → page.bytes = (page.hash, page.pageid)
  answered : ∀ w, 0 < (s.waiter w).ready → (s.waiter w).error = true ∨ (s.waiter w).bytes = some (s.waiter w).waitingFor
  awaited : ∀ {key}, s.wait key ≠ none → ∃ c, s.Awaits key c
  todo : ∀ {i q}, s.request i = some q → q.todo ⊆ pagesOf q.ranges
  fresh : ∀ {i}, s.requests ≤ i → s.request i = none

/-! ## Pages that are requested -/

theorem addPageWaiter_building (h : s.reader t = .building b) (p : ℕ) :
    (s.addPageWaiter t p).reader t = .building
      { b with
        ranges := if (s.wait (b.hash, p)).isSome then b.ranges else addRange b.ranges p
        waiting := b.waiting ++ [s.waiters] } := by
  unfold State.addPageWaiter
  rw [h]
  exact Function.update_self ..

theorem addPageWaiter_wait (h : s.reader t = .building b) (p : ℕ) : (s.addPageWaiter t p).wait =
    Function.update s.wait (b.hash, p) (some ((s.wait (b.hash, p)).getD [] ++ [s.waiters])) := by
  unfold State.addPageWaiter
  rw [h]

theorem addPageWaiter_waiter (h : s.reader t = .building b) (p : ℕ) : (s.addPageWaiter t p).waiter =
    Function.update s.waiter s.waiters ⟨t, (b.hash, p), 0, false, none, 0, false⟩ := by
  unfold State.addPageWaiter
  rw [h]

theorem addPageWaiter_waiters (h : s.reader t = .building b) (p : ℕ) :
    (s.addPageWaiter t p).waiters = s.waiters + 1 := by
  unfold State.addPageWaiter
  rw [h]

/-- The waiters that were linked before are so still. -/
theorem mem_of_addPageWaiter (h : s.reader t = .building b) {p w : ℕ} {key : Key} {ws : List ℕ}
    (hkey : (s.addPageWaiter t p).wait key = some ws) (hw : w ∈ ws) (hnew : w ≠ s.waiters) :
    ∃ ws', s.wait key = some ws' ∧ w ∈ ws' := by
  rw [addPageWaiter_wait h] at hkey
  by_cases hk : key = (b.hash, p)
  · subst hk
    rw [Function.update_self] at hkey
    cases hkey
    obtain hw | hw := List.mem_append.mp hw
    · cases hold : s.wait (b.hash, p) with
      | none =>
        rw [hold] at hw
        cases hw
      | some ws' =>
        rw [hold] at hw
        exact ⟨ws', rfl, hw⟩
    · exact absurd (List.mem_singleton.mp hw) hnew
  · rw [Function.update_of_ne hk] at hkey
    exact ⟨ws, hkey, hw⟩

theorem addPageWaiter_of_not (h : ∀ b, s.reader t ≠ .building b) (p : ℕ) : s.addPageWaiter t p = s := by
  unfold State.addPageWaiter
  split
  · next b hb => exact absurd hb (h b)
  · rfl

theorem addPageWaiter_reader_of_ne {t' : T} (h : t' ≠ t) (p : ℕ) : (s.addPageWaiter t p).reader t' = s.reader t' := by
  unfold State.addPageWaiter
  split
  · exact Function.update_of_ne h ..
  · rfl

theorem addPageWaiter_request (p : ℕ) : (s.addPageWaiter t p).request = s.request := by
  unfold State.addPageWaiter
  split <;> rfl

theorem addPageWaiter_requests (p : ℕ) : (s.addPageWaiter t p).requests = s.requests := by
  unfold State.addPageWaiter
  split <;> rfl

theorem addPageWaiter_cache (p : ℕ) : (s.addPageWaiter t p).cache = s.cache := by
  unfold State.addPageWaiter
  split <;> rfl

/-- A reader keeps what its request covers. -/
theorem awaits_addPageWaiter {key : Key} {c : T ⊕ ℕ} (h : s.Awaits key c) (p : ℕ) : (s.addPageWaiter t p).Awaits key c := by
  match c, h with
  | .inl t', ⟨b, hb, hhash, hp⟩ =>
    by_cases ht : t' = t
    · subst ht
      refine ⟨_, addPageWaiter_building hb p, hhash, ?_⟩
      dsimp only
      split
      · exact hp
      · rw [pagesOf_addRange]
        exact List.mem_append_left _ hp
    · exact ⟨b, (addPageWaiter_reader_of_ne ht p).trans hb, hhash, hp⟩
  | .inr i, ⟨q, hq, hhash, hp⟩ => exact ⟨q, (congrFun (addPageWaiter_request p) i).trans hq, hhash, hp⟩

theorem Sound.addPageWaiter (hs : Sound s) (t : T) (p : ℕ) : Sound (s.addPageWaiter t p) := by
  by_cases hr : ∃ b, s.reader t = .building b
  · obtain ⟨b, hb⟩ := hr
    have hawaits := fun {key c} (h : s.Awaits key c) => awaits_addPageWaiter (t := t) h p
    have hbuilding := addPageWaiter_building hb p
    have hwait := addPageWaiter_wait hb p
    have hwaiter := addPageWaiter_waiter hb p
    have hwaiters := addPageWaiter_waiters hb p
    obtain ⟨hlinked, hcached, hreceived, hanswered, hawaited, htodo, hfresh⟩ := hs
    constructor
    · intro key ws w hkey hw
      rw [hwaiters, hwaiter]
      by_cases hnew : w = s.waiters
      · subst hnew
        rw [Function.update_self]
        refine ⟨Nat.lt_succ_self _, ?_⟩
        by_contra hne
        rw [hwait, Function.update_of_ne (Ne.symm hne)] at hkey
        exact Nat.lt_irrefl _ (hlinked hkey hw).1
      · rw [Function.update_of_ne hnew]
        obtain ⟨ws', hws', hw'⟩ := mem_of_addPageWaiter hb hkey hw hnew
        obtain ⟨hlt, hfor⟩ := hlinked hws' hw'
        exact ⟨Nat.lt_succ_of_lt hlt, hfor⟩
    · rw [addPageWaiter_cache]
      exact hcached
    · rw [addPageWaiter_request]
      exact hreceived
    · intro w
      rw [hwaiter]
      by_cases hnew : w = s.waiters
      · subst hnew
        rw [Function.update_self]
        exact fun h => absurd h (Nat.lt_irrefl 0)
      · rw [Function.update_of_ne hnew]
        exact hanswered w
    · intro key hkey
      by_cases hold : s.wait key = none
      · -- only the entry of this page is new, and its page has joined the ranges
        have : key = (b.hash, p) := by
          by_contra hne
          rw [hwait, Function.update_of_ne hne] at hkey
          exact hkey hold
        subst this
        refine ⟨.inl t, _, hbuilding, rfl, ?_⟩
        rw [hold, Option.isSome_none, if_neg Bool.false_ne_true, pagesOf_addRange]
        exact List.mem_append_right _ (List.mem_singleton_self p)
      · obtain ⟨c, hc⟩ := hawaited hold
        exact ⟨c, hawaits hc⟩
    · rw [addPageWaiter_request]
      exact htodo
    · rw [addPageWaiter_request, addPageWaiter_requests]
      exact hfresh
  · rw [addPageWaiter_of_not (fun b hb => hr ⟨b, hb⟩)]
    exact hs

theorem Sound.addPages (hs : Sound s) (t : T) (pages : List ℕ) : Sound (s.addPages t pages) := by
  induction pages generalizing s with
  | nil => exact hs
  | cons p pages ih => exact ih (hs.addPageWaiter t p)

theorem addPages_reader_of_ne {t' : T} (h : t' ≠ t) (pages : List ℕ) :
    (s.addPages t pages).reader t' = s.reader t' := by
  induction pages generalizing s with
  | nil => rfl
  | cons p pages ih => exact ih.trans (addPageWaiter_reader_of_ne h p)

theorem addPages_request (pages : List ℕ) : (s.addPages t pages).request = s.request := by
  induction pages generalizing s with
  | nil => rfl
  | cons p pages ih => exact ih.trans (addPageWaiter_request p)

/-- Only the ranges, the list and what there is to wait for change while a reader adds waiters. -/
theorem addPages_building (h : s.reader t = .building b) (pages : List ℕ) : ∃ ranges,
    (s.addPages t pages).reader t = .building
      { b with ranges, waiting := b.waiting ++ List.range' s.waiters pages.length } := by
  induction pages generalizing s b with
  | nil =>
    refine ⟨b.ranges, ?_⟩
    rw [List.length_nil, List.range'_zero, List.append_nil]
    exact h
  | cons p pages ih =>
    obtain ⟨ranges, hr⟩ := ih (addPageWaiter_building h p)
    refine ⟨ranges, hr.trans ?_⟩
    rw [addPageWaiter_waiters h, List.append_assoc]
    rfl

/-- A reader in its call may be given another place to go on from, as long as it keeps its ranges. -/
theorem Sound.setReader (hs : Sound s) {r : Reader F}
    (hr : ∀ b p, s.reader t = .building b → p ∈ pagesOf b.ranges →
      ∃ b', r = .building b' ∧ b'.hash = b.hash ∧ p ∈ pagesOf b'.ranges) : Sound (s.setReader t r) := by
  refine ⟨hs.linked, hs.cached, hs.received, hs.answered, fun hkey => ?_, hs.todo, hs.fresh⟩
  obtain ⟨c, hc⟩ := hs.awaited hkey
  match c, hc with
  | .inl t', ⟨b, hb, hhash, hp⟩ =>
    by_cases ht : t' = t
    · subst ht
      obtain ⟨b', rfl, hhash', hp'⟩ := hr b _ hb hp
      exact ⟨.inl t', b', Function.update_self .., hhash'.trans hhash, hp'⟩
    · exact ⟨.inl t', b, (Function.update_of_ne ht ..).trans hb, hhash, hp⟩
  | .inr i, hq => exact ⟨.inr i, hq⟩

theorem Sound.addStages (hs : Sound s) (t : T) (stages : List Stage) : Sound (s.addStages t stages) := by
  unfold State.addStages
  split
  · next b hb =>
    refine hs.setReader fun b' p hb' hp => ?_
    rw [hb] at hb'
    cases hb'
    exact ⟨_, rfl, rfl, hp⟩
  · exact hs

theorem Sound.withPages {kind : Kind} {pages : List ℕ} {stages : List Stage} (hs : Sound s)
    (h : s.withPages t kind pages stages = some s') : Sound s' := by
  unfold State.withPages at h
  split at h
  · split at h
    · cases h
      exact (hs.addPages t pages).addStages t stages
    · cases h
  · cases h

/-- An entry without waiters, of a page that is read ahead. -/
theorem Sound.checkOrRequestPage (hs : Sound s) (t : T) (p : ℕ) : Sound (s.checkOrRequestPage t p) := by
  unfold State.checkOrRequestPage
  split
  · next b hb =>
    split
    · exact hs
    · next hold =>
      have hset : Sound (s.setReader t (.building { b with ranges := addRange b.ranges p })) := by
        refine hs.setReader fun b' p' hb' hp => ?_
        rw [hb] at hb'
        cases hb'
        refine ⟨_, rfl, rfl, ?_⟩
        rw [pagesOf_addRange]
        exact List.mem_append_left _ hp
      refine ⟨?_, hset.cached, hset.received, hset.answered, ?_, hset.todo, hset.fresh⟩
      · intro key ws w hkey hw
        by_cases hk : key = (b.hash, p)
        · subst hk
          cases (Function.update_self ..).symm.trans hkey
          cases hw
        · exact hs.linked ((Function.update_of_ne hk ..).symm.trans hkey) hw
      · intro key hkey
        by_cases hk : key = (b.hash, p)
        · subst hk
          refine ⟨.inl t, _, Function.update_self .., rfl, ?_⟩
          rw [pagesOf_addRange]
          exact List.mem_append_right _ (List.mem_singleton_self p)
        · exact hset.awaited fun h => hkey ((Function.update_of_ne hk ..).trans h)
  · exact hs

/-! ## Waiters that go -/

/-- What waiters that are unlinked and freed leave of a state. -/
structure Released (s s' : State F T) : Prop where
  ofHash : s'.ofHash = s.ofHash
  reader : s'.reader = s.reader
  waiters : s'.waiters = s.waiters
  requests : s'.requests = s.requests
  request : s'.request = s.request
  cache : s'.cache = s.cache
  wait : ∀ {key ws'}, s'.wait key = some ws' → ∃ ws, s.wait key = some ws ∧ ws' ⊆ ws
  waiter : ∀ w, s'.waiter w = { s.waiter w with freed := (s'.waiter w).freed }

omit [DecidableEq T] in
theorem Released.refl (s : State F T) : Released s s :=
  ⟨rfl, rfl, rfl, rfl, rfl, rfl, fun h => ⟨_, h, List.Subset.refl _⟩, fun _ => rfl⟩

omit [DecidableEq T] in
theorem Released.trans {s₁ s₂ s₃ : State F T} (h : Released s₁ s₂) (h' : Released s₂ s₃) : Released s₁ s₃ where
  ofHash := h'.ofHash.trans h.ofHash
  reader := h'.reader.trans h.reader
  waiters := h'.waiters.trans h.waiters
  requests := h'.requests.trans h.requests
  request := h'.request.trans h.request
  cache := h'.cache.trans h.cache
  wait := fun hkey => by
    obtain ⟨ws₂, h₂, hsub₂⟩ := h'.wait hkey
    obtain ⟨ws₁, h₁, hsub₁⟩ := h.wait h₂
    exact ⟨ws₁, h₁, List.Subset.trans hsub₂ hsub₁⟩
  waiter := fun w => by rw [h'.waiter w, h.waiter w]

omit [DecidableEq T] in
theorem free_waiter (s : State F T) (w : ℕ) : (s.free w).waiter =
    Function.update s.waiter w { s.waiter w with freed := (s.waiter w).freed + 1 } := rfl

omit [DecidableEq T] in
theorem Released.free (s : State F T) (w : ℕ) : Released s (s.free w) := by
  refine ⟨rfl, rfl, rfl, rfl, rfl, rfl, fun h => ⟨_, h, List.Subset.refl _⟩, fun w' => ?_⟩
  rw [free_waiter]
  by_cases hw : w' = w
  · subst hw
    rw [Function.update_self]
  · rw [Function.update_of_ne hw]

omit [DecidableEq T] in
theorem unlink_of_some {w : ℕ} {ws : List ℕ} (h : s.wait (s.waiter w).waitingFor = some ws) :
    s.unlink w =
      { s with
        wait := Function.update s.wait (s.waiter w).waitingFor
          (if ws.filter (· ≠ w) = [] then none else some (ws.filter (· ≠ w))) } := by
  unfold State.unlink
  dsimp only
  rw [h]

omit [DecidableEq T] in
theorem unlink_of_none {w : ℕ} (h : s.wait (s.waiter w).waitingFor = none) : s.unlink w = s := by
  unfold State.unlink
  dsimp only
  rw [h]

omit [DecidableEq T] in
theorem Released.unlink (s : State F T) (w : ℕ) : Released s (s.unlink w) := by
  cases hws : s.wait (s.waiter w).waitingFor with
  | none =>
    rw [unlink_of_none hws]
    exact .refl s
  | some ws =>
    rw [unlink_of_some hws]
    refine ⟨rfl, rfl, rfl, rfl, rfl, rfl, fun {key ws'} h => ?_, fun _ => rfl⟩
    dsimp only at h
    by_cases hkey : key = (s.waiter w).waitingFor
    · subst hkey
      refine ⟨ws, hws, ?_⟩
      rw [Function.update_self] at h
      split at h
      · cases h
      · cases h
        exact List.filter_sublist.subset
    · exact ⟨ws', (Function.update_of_ne hkey ..).symm.trans h, List.Subset.refl _⟩

omit [DecidableEq T] in
theorem Released.freeWaiter (s : State F T) (w : ℕ) : Released s (s.freeWaiter w) := by
  unfold State.freeWaiter
  split
  · exact (Released.unlink s w).trans (.free _ w)
  · exact .free s w

omit [DecidableEq T] in
theorem Released.freeWaiters (s : State F T) (waiting : List ℕ) : Released s (s.freeWaiters waiting) := by
  induction waiting generalizing s with
  | nil => exact .refl s
  | cons w waiting ih => exact (Released.freeWaiter s w).trans (ih _)

omit [DecidableEq T] in
theorem Released.freeAll (s : State F T) (waiting : List ℕ) : Released s (s.freeAll waiting) := by
  induction waiting generalizing s with
  | nil => exact .refl s
  | cons w waiting ih => exact (Released.free s w).trans (ih _)

omit [DecidableEq T] in
theorem Released.awaits (h : Released s s') {key : Key} {c : T ⊕ ℕ} (hc : s.Awaits key c) : s'.Awaits key c := by
  match c, hc with
  | .inl t, ⟨b, hb, hp⟩ => exact ⟨b, by rw [h.reader, hb], hp⟩
  | .inr i, ⟨q, hq, hp⟩ => exact ⟨q, by rw [h.request, hq], hp⟩

omit [DecidableEq T] in
theorem Sound.released (hs : Sound s) (h : Released s s') : Sound s' where
  linked := fun hkey hw => by
    obtain ⟨ws, hws, hsub⟩ := h.wait hkey
    rw [h.waiters, h.waiter]
    exact hs.linked hws (hsub hw)
  cached := by
    rw [h.cache]
    exact hs.cached
  received := by
    rw [h.request]
    exact hs.received
  answered := fun w => by
    rw [h.waiter w]
    exact hs.answered w
  awaited := fun {key} hkey => by
    obtain ⟨ws', hws'⟩ := Option.ne_none_iff_exists'.mp hkey
    obtain ⟨ws, hws, -⟩ := h.wait hws'
    obtain ⟨c, hc⟩ := hs.awaited (show s.wait key ≠ none by rw [hws]; exact Option.some_ne_none _)
    exact ⟨c, h.awaits hc⟩
  todo := by
    rw [h.request]
    exact hs.todo
  fresh := by
    rw [h.request, h.requests]
    exact hs.fresh

/-- The entries that were made since `s₀` have no waiters but those of a list, which are not ready. -/
def Since (s₀ s : State F T) (waiting : List ℕ) : Prop :=
  ∀ key ws, s.wait key = some ws → s₀.wait key = none →
    ws ≠ [] ∧ ∀ w ∈ ws, w ∈ waiting ∧ (s.waiter w).waitingFor = key ∧ (s.waiter w).ready = 0

theorem Since.addPageWaiter {s₀ : State F T} (hs : Sound s) (hb : s.reader t = .building b)
    (h : Since s₀ s b.waiting) (p : ℕ) : Since s₀ (s.addPageWaiter t p) (b.waiting ++ [s.waiters]) := by
  intro key ws hkey hold
  refine ⟨?_, fun w hw => ?_⟩
  · intro hnil
    subst hnil
    rw [addPageWaiter_wait hb] at hkey
    by_cases hk : key = (b.hash, p)
    · subst hk
      rw [Function.update_self] at hkey
      simp at hkey
    · rw [Function.update_of_ne hk] at hkey
      exact (h key [] hkey hold).1 rfl
  · rw [addPageWaiter_waiter hb]
    by_cases hnew : w = s.waiters
    · subst hnew
      rw [Function.update_self]
      refine ⟨List.mem_append_right _ (List.mem_singleton_self _), ?_, rfl⟩
      by_contra hne
      rw [addPageWaiter_wait hb, Function.update_of_ne (Ne.symm hne)] at hkey
      exact Nat.lt_irrefl _ (hs.linked hkey hw).1
    · rw [Function.update_of_ne hnew]
      obtain ⟨ws', hws', hw'⟩ := mem_of_addPageWaiter hb hkey hw hnew
      obtain ⟨hmem, hrest⟩ := (h key ws' hws' hold).2 w hw'
      exact ⟨List.mem_append_left _ hmem, hrest⟩

theorem Since.addPages {s₀ : State F T} (hs : Sound s) (hb : s.reader t = .building b)
    (h : Since s₀ s b.waiting) (pages : List ℕ) : Since s₀ (s.addPages t pages) ((s.addPages t pages).reader t).waiting := by
  induction pages generalizing s b with
  | nil =>
    show Since s₀ s (s.reader t).waiting
    rw [hb]
    exact h
  | cons p pages ih => exact ih (hs.addPageWaiter t p) (addPageWaiter_building hb p) (h.addPageWaiter hs hb p)

omit [DecidableEq T] in
theorem Since.free {s₀ : State F T} {waiting : List ℕ} (h : Since s₀ s waiting) (w : ℕ) : Since s₀ (s.free w) waiting := by
  intro key ws hkey hold
  refine ⟨(h key ws hkey hold).1, fun w' hw' => ?_⟩
  rw [(Released.free s w).waiter w']
  exact (h key ws hkey hold).2 w' hw'

omit [DecidableEq T] in
theorem Since.unlink {s₀ : State F T} {w : ℕ} {waiting : List ℕ} (h : Since s₀ s (w :: waiting)) :
    Since s₀ (s.unlink w) waiting := by
  have hself : ∀ key ws, s.wait key = some ws → s₀.wait key = none → key ≠ (s.waiter w).waitingFor → w ∉ ws :=
    fun key ws hkey hold hne hw => hne ((h key ws hkey hold).2 w hw).2.1.symm
  cases hws : s.wait (s.waiter w).waitingFor with
  | none =>
    rw [unlink_of_none hws]
    intro key ws hkey hold
    refine ⟨(h key ws hkey hold).1, fun w' hw' => ?_⟩
    have hne : key ≠ (s.waiter w).waitingFor := by
      rintro rfl
      cases hws.symm.trans hkey
    obtain ⟨hmem, hrest⟩ := (h key ws hkey hold).2 w' hw'
    obtain rfl | hmem := List.mem_cons.mp hmem
    · exact absurd hw' (hself key ws hkey hold hne)
    · exact ⟨hmem, hrest⟩
  | some rest =>
    rw [unlink_of_some hws]
    intro key ws hkey hold
    dsimp only at hkey ⊢
    by_cases hk : key = (s.waiter w).waitingFor
    · -- this entry has lost `w`, and is gone when that was all it had
      subst hk
      rw [Function.update_self] at hkey
      split at hkey
      · cases hkey
      · next hne =>
        cases hkey
        refine ⟨hne, fun w' hw' => ?_⟩
        obtain ⟨hw', hw⟩ := List.mem_filter.mp hw'
        obtain ⟨hmem, hrest⟩ := (h _ rest hws hold).2 w' hw'
        obtain rfl | hmem := List.mem_cons.mp hmem
        · exact absurd rfl (of_decide_eq_true hw)
        · exact ⟨hmem, hrest⟩
    · rw [Function.update_of_ne hk] at hkey
      refine ⟨(h key ws hkey hold).1, fun w' hw' => ?_⟩
      obtain ⟨hmem, hrest⟩ := (h key ws hkey hold).2 w' hw'
      obtain rfl | hmem := List.mem_cons.mp hmem
      · exact absurd hw' (hself key ws hkey hold hk)
      · exact ⟨hmem, hrest⟩

omit [DecidableEq T] in
theorem Since.freeWaiter {s₀ : State F T} {w : ℕ} {waiting : List ℕ} (h : Since s₀ s (w :: waiting)) :
    Since s₀ (s.freeWaiter w) waiting := by
  unfold State.freeWaiter
  split
  · exact h.unlink.free w
  · next hready =>
    -- a waiter that is ready is in no entry
    refine Since.free (fun key ws hkey hold => ⟨(h key ws hkey hold).1, fun w' hw' => ?_⟩) w
    obtain ⟨hmem, hfor, hzero⟩ := (h key ws hkey hold).2 w' hw'
    obtain rfl | hmem := List.mem_cons.mp hmem
    · exact absurd hzero hready
    · exact ⟨hmem, hfor, hzero⟩

omit [DecidableEq T] in
/-- After `free_waiters` of all of them no entry is left that was not there before. -/
theorem Since.freeWaiters {s₀ : State F T} {waiting : List ℕ} (h : Since s₀ s waiting) :
    Since s₀ (s.freeWaiters waiting) [] := by
  induction waiting generalizing s with
  | nil => exact h
  | cons w waiting ih => exact ih h.freeWaiter

omit [DecidableEq T] in
theorem Since.wait_of_nil {s₀ : State F T} (h : Since s₀ s []) {key : Key} (hkey : s.wait key ≠ none) :
    s₀.wait key ≠ none := by
  intro hold
  obtain ⟨ws, hws⟩ := Option.ne_none_iff_exists'.mp hkey
  obtain ⟨hne, hall⟩ := h key ws hws hold
  cases ws with
  | nil => exact hne rfl
  | cons w ws => cases (hall w List.mem_cons_self).1

/-- `err0` of the encrypted reader, whose request was to cover the entries that are gone. -/
theorem Sound.encryptedError (hs : Sound s) (hb : s.reader t = .building b) (hranges : b.ranges = [])
    (pages : List ℕ) :
    Sound ((((s.addPages t pages).freeWaiters ((s.addPages t pages).reader t).waiting).freeAll
      ((s.addPages t pages).reader t).waiting).setReader t .outside) := by
  have hsince : Since s s b.waiting := fun key ws hkey hold => absurd (hold.symm.trans hkey) (by simp)
  have hgone := (hsince.addPages hs hb pages).freeWaiters
  have hadded := hs.addPages t pages
  generalize hlist : ((s.addPages t pages).reader t).waiting = waiting at hgone ⊢
  have hreleased := (Released.freeWaiters (s.addPages t pages) waiting).trans (.freeAll _ waiting)
  obtain ⟨hlinked, hcached, hreceived, hanswered, -, htodo, hfresh⟩ := hadded.released hreleased
  refine ⟨hlinked, hcached, hreceived, hanswered, fun {key} hkey => ?_, htodo, hfresh⟩
  have hfreed : ((s.addPages t pages).freeWaiters waiting).wait key ≠ none := by
    obtain ⟨ws, hws⟩ := Option.ne_none_iff_exists'.mp hkey
    obtain ⟨ws', hws', -⟩ := (Released.freeAll ((s.addPages t pages).freeWaiters waiting) waiting).wait hws
    rw [hws']
    exact Option.some_ne_none _
  obtain ⟨c, hc⟩ := hs.awaited (hgone.wait_of_nil hfreed)
  match c, hc with
  | .inl t', ⟨b', hb', hhash, hp⟩ =>
    have ht : t' ≠ t := by
      rintro rfl
      rw [hb] at hb'
      cases hb'
      rw [hranges] at hp
      cases hp
    refine ⟨.inl t', b', (Function.update_of_ne ht ..).trans ?_, hhash, hp⟩
    rw [hreleased.reader, addPages_reader_of_ne ht]
    exact hb'
  | .inr i, ⟨q, hq, hp⟩ =>
    refine ⟨.inr i, q, ?_, hp⟩
    show _ = _
    rw [show (State.setReader _ t .outside).request = _ from hreleased.request, addPages_request]
    exact hq

/-! ## Pages that come -/

omit [DecidableEq T] in
theorem complete_of_none {key : Key} (h : s.wait key = none) (page : Option Bytes) : s.complete key page = s := by
  unfold State.complete
  rw [h]

omit [DecidableEq T] in
theorem complete_of_some {key : Key} {ws : List ℕ} (h : s.wait key = some ws) (page : Option Bytes) :
    s.complete key page =
      { s with
        wait := Function.update s.wait key none
        waiter := fun w => if w ∈ ws then (s.waiter w).answer page else s.waiter w } := by
  unfold State.complete
  rw [h]

omit [DecidableEq T] in
theorem complete_wait (s : State F T) (key key' : Key) (page : Option Bytes) :
    (s.complete key page).wait key' = if key' = key then none else s.wait key' := by
  cases h : s.wait key with
  | none =>
    rw [complete_of_none h]
    split
    · next heq => rw [heq, h]
    · rfl
  | some ws =>
    rw [complete_of_some h]
    exact Function.update_apply ..

omit [DecidableEq T] in
theorem complete_rest (s : State F T) (key : Key) (page : Option Bytes) :
    (s.complete key page).ofHash = s.ofHash ∧ (s.complete key page).reader = s.reader ∧
      (s.complete key page).waiters = s.waiters ∧ (s.complete key page).requests = s.requests ∧
      (s.complete key page).request = s.request ∧ (s.complete key page).cache = s.cache := by
  unfold State.complete
  split <;> exact ⟨rfl, rfl, rfl, rfl, rfl, rfl⟩

omit [DecidableEq T] in
/-- Waiters get the page they wait for, or an error. -/
theorem Sound.complete (hs : Sound s) (key : Key) {page : Option Bytes} (hpage : ∀ bytes, page = some bytes → bytes = key) :
    Sound (s.complete key page) := by
  cases hws : s.wait key with
  | none =>
    rw [complete_of_none hws]
    exact hs
  | some ws =>
    rw [complete_of_some hws]
    refine ⟨fun {key' ws' w} hkey' hw => ?_, hs.cached, hs.received, fun w => ?_, fun {key'} hkey' => ?_, hs.todo, hs.fresh⟩
    · have hold : s.wait key' = some ws' := by
        by_cases hk : key' = key
        · subst hk
          cases (Function.update_self ..).symm.trans hkey'
        · exact (Function.update_of_ne hk ..).symm.trans hkey'
      obtain ⟨hlt, hfor⟩ := hs.linked hold hw
      refine ⟨hlt, ?_⟩
      dsimp only
      split
      · exact hfor
      · exact hfor
    · dsimp only
      split
      · next hw =>
        intro _
        cases page with
        | none => exact .inl rfl
        | some bytes =>
          right
          show some bytes = some (s.waiter w).waitingFor
          rw [hpage bytes rfl, (hs.linked hws hw).2]
      · exact hs.answered w
    · have hold : s.wait key' ≠ none := by
        intro hnone
        by_cases hk : key' = key
        · subst hk
          exact hkey' (Function.update_self ..)
        · exact hkey' ((Function.update_of_ne hk ..).trans hnone)
      obtain ⟨c, hc⟩ := hs.awaited hold
      match c, hc with
      | .inl t, hc => exact ⟨.inl t, hc⟩
      | .inr i, hc => exact ⟨.inr i, hc⟩

omit [DecidableEq T] in
theorem sendError_rest (s : State F T) (of : F) (pages : List ℕ) :
    (s.sendError of pages).ofHash = s.ofHash ∧ (s.sendError of pages).reader = s.reader ∧
      (s.sendError of pages).waiters = s.waiters ∧ (s.sendError of pages).requests = s.requests ∧
      (s.sendError of pages).request = s.request ∧ (s.sendError of pages).cache = s.cache := by
  induction pages generalizing s with
  | nil => exact ⟨rfl, rfl, rfl, rfl, rfl, rfl⟩
  | cons p pages ih =>
    obtain ⟨h₁, h₂, h₃, h₄, h₅, h₆⟩ := ih (s.complete (s.ofHash of, p) none)
    obtain ⟨k₁, k₂, k₃, k₄, k₅, k₆⟩ := complete_rest s (s.ofHash of, p) none
    exact ⟨h₁.trans k₁, h₂.trans k₂, h₃.trans k₃, h₄.trans k₄, h₅.trans k₅, h₆.trans k₆⟩

omit [DecidableEq T] in
theorem sendError_wait (s : State F T) (of : F) (pages : List ℕ) (key : Key) :
    (s.sendError of pages).wait key = if key.1 = s.ofHash of ∧ key.2 ∈ pages then none else s.wait key := by
  induction pages generalizing s with
  | nil => simp [State.sendError]
  | cons p pages ih =>
    show ((s.complete (s.ofHash of, p) none).sendError of pages).wait key = _
    rw [ih, (complete_rest s (s.ofHash of, p) none).1, complete_wait]
    obtain ⟨hash, pageid⟩ := key
    grind

omit [DecidableEq T] in
theorem Sound.sendError (hs : Sound s) (of : F) (pages : List ℕ) : Sound (s.sendError of pages) := by
  induction pages generalizing s with
  | nil => exact hs
  | cons p pages ih => exact ih (hs.complete _ fun _ h => nomatch h)

omit [DecidableEq T] in
/-- A request goes on, and is about to receive what it has to for the entries. -/
theorem Sound.setRequest (hs : Sound s) {i : ℕ} {q q' : Request F} (hq : s.request i = some q) (hhash : q'.hash = q.hash)
    (htodo : q'.todo ⊆ pagesOf q'.ranges) (hkeep : ∀ p ∈ q.todo, s.wait (q.hash, p) ≠ none → p ∈ q'.todo)
    (hpage : ∀ page, q'.page = some page → page.bytes = (page.hash, page.pageid)) :
    Sound (s.setRequest i (some q')) := by
  have hget : ∀ {i' r}, (s.setRequest i (some q')).request i' = some r → i' ≠ i ∧ s.request i' = some r ∨ i' = i ∧ r = q' := by
    intro i' r hr
    by_cases hi : i' = i
    · subst hi
      cases (Function.update_self ..).symm.trans hr
      exact .inr ⟨rfl, rfl⟩
    · exact .inl ⟨hi, (Function.update_of_ne hi ..).symm.trans hr⟩
  refine ⟨hs.linked, hs.cached, fun hr hp => ?_, hs.answered, fun {key} hkey => ?_, fun hr => ?_, fun {i'} hi' => ?_⟩
  · obtain ⟨-, hr⟩ | ⟨-, rfl⟩ := hget hr
    · exact hs.received hr hp
    · exact hpage _ hp
  · obtain ⟨c, hc⟩ := hs.awaited hkey
    match c, hc with
    | .inl t, hc => exact ⟨.inl t, hc⟩
    | .inr i', ⟨r, hr, hkhash, hp⟩ =>
      by_cases hi : i' = i
      · subst hi
        cases hq.symm.trans hr
        refine ⟨.inr i', q', Function.update_self .., hhash.trans hkhash, hkeep _ hp ?_⟩
        rw [hkhash]
        exact hkey
      · exact ⟨.inr i', r, (Function.update_of_ne hi ..).trans hr, hkhash, hp⟩
  · obtain ⟨-, hr⟩ | ⟨-, rfl⟩ := hget hr
    · exact hs.todo hr
    · exact htodo
  · have hi : i' ≠ i := by
      rintro rfl
      cases hq.symm.trans (hs.fresh hi')
    exact (Function.update_of_ne hi ..).trans (hs.fresh hi')

omit [DecidableEq T] in
/-- A request ends, with nothing to receive for an entry. -/
theorem Sound.endRequest (hs : Sound s) {i : ℕ} {q : Request F} (hq : s.request i = some q)
    (hgone : ∀ p ∈ q.todo, s.wait (q.hash, p) = none) : Sound (s.setRequest i none) := by
  have hget : ∀ {i' r}, (s.setRequest i none).request i' = some r → s.request i' = some r := by
    intro i' r hr
    by_cases hi : i' = i
    · subst hi
      cases (Function.update_self ..).symm.trans hr
    · exact (Function.update_of_ne hi ..).symm.trans hr
  refine ⟨hs.linked, hs.cached, fun hr => hs.received (hget hr), hs.answered, fun {key} hkey => ?_,
    fun hr => hs.todo (hget hr), fun {i'} hi' => ?_⟩
  · obtain ⟨c, hc⟩ := hs.awaited hkey
    match c, hc with
    | .inl t, hc => exact ⟨.inl t, hc⟩
    | .inr i', ⟨r, hr, hkhash, hp⟩ =>
      have hi : i' ≠ i := by
        rintro rfl
        cases hq.symm.trans hr
        refine hkey ?_
        rw [← hgone key.2 hp, hkhash]
        rfl
      exact ⟨.inr i', r, (Function.update_of_ne hi ..).trans hr, hkhash, hp⟩
  · by_cases hi : i' = i
    · subst hi
      exact Function.update_self ..
    · exact (Function.update_of_ne hi ..).trans (hs.fresh hi')

/-- The request of a reader gets its thread. -/
theorem Sound.runThread (hs : Sound s) (hb : s.reader t = .building b) (r : Reading) :
    Sound ({ s.setReader t (.reading r) with requests := s.requests + 1 }.setRequest s.requests
      (some ⟨b.of, b.hash, b.ranges, pagesOf b.ranges, none⟩)) := by
  have hget : ∀ {i q}, Function.update s.request s.requests
      (some ⟨b.of, b.hash, b.ranges, pagesOf b.ranges, none⟩) i = some q → s.request i = some q ∨
        q = ⟨b.of, b.hash, b.ranges, pagesOf b.ranges, none⟩ := by
    intro i q hq
    by_cases hi : i = s.requests
    · subst hi
      rw [Function.update_self] at hq
      exact .inr (Option.some.inj hq).symm
    · exact .inl ((Function.update_of_ne hi ..).symm.trans hq)
  refine ⟨hs.linked, hs.cached, fun hq hp => ?_, hs.answered, fun {key} hkey => ?_, fun hq => ?_, fun {i} hi => ?_⟩
  · obtain hq | rfl := hget hq
    · exact hs.received hq hp
    · cases hp
  · obtain ⟨c, hc⟩ := hs.awaited hkey
    match c, hc with
    | .inl t', ⟨b', hb', hhash, hp⟩ =>
      by_cases ht : t' = t
      · subst ht
        cases hb.symm.trans hb'
        exact ⟨.inr s.requests, _, Function.update_self .., hhash, hp⟩
      · exact ⟨.inl t', b', (Function.update_of_ne ht ..).trans hb', hhash, hp⟩
    | .inr i, ⟨q, hq, hhash, hp⟩ =>
      have hi : i ≠ s.requests := by
        rintro rfl
        cases (hs.fresh (Nat.le_refl _)).symm.trans hq
      exact ⟨.inr i, q, (Function.update_of_ne hi ..).trans hq, hhash, hp⟩
  · obtain hq | rfl := hget hq
    · exact hs.todo hq
    · exact List.Subset.refl _
  · exact (Function.update_of_ne (Nat.ne_of_gt hi) ..).trans (hs.fresh (Nat.le_of_succ_le hi))

omit [DecidableEq T] in
theorem Initial.sound (h : Initial s) : Sound s where
  linked := fun hkey => nomatch (h.noEntries _).symm.trans hkey
  cached := h.cached
  received := fun hq => nomatch (h.noRequests _).symm.trans hq
  answered := fun w hw => absurd hw (by rw [(h.noAnswers w).1]; exact Nat.lt_irrefl 0)
  awaited := fun hkey => absurd (h.noEntries _) hkey
  todo := fun hq => nomatch (h.noRequests _).symm.trans hq
  fresh := fun _ => h.noRequests _

/-- The file of a request has another hash by now. -/
def State.Changed (s : State F T) (i : ℕ) : Prop := ∃ q, s.request i = some q ∧ s.ofHash q.of ≠ q.hash

/-- A page comes, or an error is sent, for a request whose file has another hash. -/
def Mixes (s : State F T) : Event F T → Prop
  | .receive i => s.Changed i
  | .sendError i => s.Changed i
  | _ => False

variable [DecidableEq F] {e : Event F T}

theorem Sound.step (hs : Sound s) (hd : ¬Mixes s e) (h : step s e s') : Sound s' := by
  unfold Waits.step at h
  cases e with
  | start t kind of =>
    simp only [State.run] at h
    split at h
    · next hr =>
      cases h
      exact hs.setReader fun b p hb => nomatch hr.symm.trans hb
    · cases h
  | readUnmodified => exact hs.withPages h
  | readEncrypted => exact hs.withPages h
  | encryptedError t pages =>
    simp only [State.run] at h
    split at h
    · next b hb =>
      split at h
      · next hcond =>
        cases h
        exact hs.encryptedError hb hcond.2.1 pages
      · cases h
    · cases h
  | readv => exact hs.withPages h
  | readvShort t p => exact (hs.released (.freeWaiters s _)).withPages h
  | readahead t p =>
    simp only [State.run] at h
    split at h
    · split at h
      · cases h
      · cases h
        exact hs.checkOrRequestPage t p
    · cases h
  | runThread t needkey =>
    simp only [State.run] at h
    split at h
    · next b hb =>
      split at h
      · cases h
        exact hs.runThread hb _
      · next hno =>
        cases h
        refine hs.setReader fun b' p hb' hp => ?_
        cases hb.symm.trans hb'
        rw [not_or, not_not] at hno
        rw [hno.1] at hp
        cases hp
    · cases h
  | waitWaiter t =>
    simp only [State.run] at h
    split at h
    · next hr =>
      split at h
      · cases h
        exact hs.setReader fun b p hb => nomatch hr.symm.trans hb
      · split at h
        · cases h
          exact hs.setReader fun b p hb => nomatch hr.symm.trans hb
        · cases h
    · cases h
  | checkChain t | skipChain t | setError t =>
    simp only [State.run] at h
    split at h
    · next hr =>
      cases h
      exact hs.setReader fun b p hb => nomatch hr.symm.trans hb
    · cases h
  | leave t =>
    simp only [State.run] at h
    split at h
    · next waiting _ hr =>
      cases h
      refine (hs.released (.freeAll s waiting)).setReader fun b p hb => ?_
      rw [(Released.freeAll s waiting).reader, hr] at hb
      cases hb
    · cases h
  | retry i =>
    simp only [State.run] at h
    split at h
    · next q hq =>
      cases h
      exact hs.setRequest hq rfl (List.Subset.refl _) (fun p hp _ => hs.todo hq hp) fun _ hp => hs.received (q := q) hq hp
    · cases h
  | receive i =>
    simp only [State.run] at h
    split at h
    · next of hash ranges p todo hq =>
      cases h
      have hhash : s.ofHash of = hash := by
        by_contra hne
        exact hd ⟨_, hq, hne⟩
      rw [hhash]
      have hcomplete : Sound (s.complete (hash, p) (some (hash, p))) :=
        hs.complete (hash, p) fun _ h => (Option.some.inj h).symm
      refine hcomplete.setRequest (q := ⟨of, hash, ranges, p :: todo, none⟩) ?_ rfl ?_ ?_ ?_
      · rw [(complete_rest s (hash, p) _).2.2.2.2.1]
        exact hq
      · exact fun p' hp' => hs.todo hq (List.mem_cons_of_mem p hp')
      · -- the entry of the page is gone
        intro p' hp' hne
        obtain rfl | hp' := List.mem_cons.mp hp'
        · rw [complete_wait, if_pos rfl] at hne
          exact absurd rfl hne
        · exact hp'
      · intro page hpage
        cases hpage
        rfl
    · cases h
  | addToCache i =>
    simp only [State.run] at h
    split at h
    · next of hash ranges todo page hq =>
      cases h
      have hset : Sound (s.setRequest i (some ⟨of, hash, ranges, todo, none⟩)) :=
        hs.setRequest hq rfl (show todo ⊆ pagesOf ranges from hs.todo hq) (fun p hp _ => hp) fun _ h => nomatch h
      refine ⟨hset.linked, fun page' hpage' => ?_, hset.received, hset.answered, fun hkey => ?_, hset.todo, hset.fresh⟩
      · obtain rfl | hpage' := List.mem_cons.mp hpage'
        · exact hs.received hq rfl
        · exact hs.cached page' hpage'
      · obtain ⟨c, hc⟩ := hset.awaited hkey
        match c, hc with
        | .inl t, hc => exact ⟨.inl t, hc⟩
        | .inr i, hc => exact ⟨.inr i, hc⟩
    · cases h
  | rangeRead i =>
    simp only [State.run] at h
    split at h
    · next hq =>
      split at h
      · next htodo =>
        cases h
        exact hs.setRequest hq rfl (by rw [htodo]; exact List.Subset.refl _) (fun p hp _ => hp) fun _ h => nomatch h
      · cases h
    · cases h
  | finish i =>
    simp only [State.run] at h
    split at h
    · next hq =>
      cases h
      exact hs.endRequest hq fun p hp => nomatch hp
    · cases h
  | sendError i =>
    simp only [State.run] at h
    split at h
    · next of hash ranges todo hq =>
      cases h
      have hhash : s.ofHash of = hash := by
        by_contra hne
        exact hd ⟨_, hq, hne⟩
      refine (hs.sendError of (pagesOf ranges)).endRequest (q := ⟨of, hash, ranges, todo, none⟩) ?_ fun p hp => ?_
      · rw [(sendError_rest s of _).2.2.2.2.1]
        exact hq
      · rw [sendError_wait, if_pos ⟨hhash.symm, hs.todo hq hp⟩]
    · cases h
  | updateOpenfile of hash =>
    cases h
    refine ⟨hs.linked, hs.cached, hs.received, hs.answered, fun hkey => ?_, hs.todo, hs.fresh⟩
    obtain ⟨c, hc⟩ := hs.awaited hkey
    match c, hc with
    | .inl t, hc => exact ⟨.inl t, hc⟩
    | .inr i, hc => exact ⟨.inr i, hc⟩

/-- Each page in the cache has the bytes of the revision of its hash, each waiter that is ready
has got an error or the page it waits for, and each entry has a request that is yet to
receive its page: when a request ends, no entry is left that only it covers. -/
structure Consistent (s : State F T) : Prop where
  cached : ∀ page ∈ s.cache, page.bytes = (page.hash, page.pageid)
  answered : ∀ w, 0 < (s.waiter w).ready → (s.waiter w).error = true ∨ (s.waiter w).bytes = some (s.waiter w).waitingFor
  awaited : ∀ {key}, s.wait key ≠ none → ∃ c, s.Awaits key c

/-- As long as no request gets a page or ends with an error while its file has another hash, the
pages belong to the revision they were requested for. -/
theorem consistent_of_avoiding (h : Reachable Initial (Avoiding step Mixes) s) : Consistent s := by
  have hs : Sound s := h.invariant (fun _ => Initial.sound) fun _ _ _ hs hstep => hs.step hstep.2 hstep.1
  exact ⟨hs.cached, hs.answered, hs.awaited⟩

/-- One open file with the hash `1`. -/
def noReads : State Unit ℕ where
  ofHash := fun _ => 1
  reader := fun _ => .outside
  waiters := 0
  waiter := fun _ => ⟨0, (0, 0), 0, false, none, 0, false⟩
  wait := fun _ => none
  requests := 0
  request := fun _ => none
  cache := []

theorem noReads_initial : Initial noReads := ⟨fun _ => rfl, rfl, fun _ => ⟨rfl, rfl, rfl⟩, fun _ => rfl, fun _ => rfl, nofun⟩

/-- A page is received while its file has the hash it was requested with, which then changes. -/
theorem consistent_after_update : ∃ s : State Unit ℕ, Consistent s ∧ s.cache = [⟨1, 5, (1, 5)⟩] ∧ s.ofHash () = 2 := by
  have goes : ∀ {s s' : State Unit ℕ} (e), s.run e = some s' → ¬Mixes s e →
      Reachable Initial (Avoiding step Mixes) s → Reachable Initial (Avoiding step Mixes) s' :=
    fun _ hs hd h => .next h ⟨hs, hd⟩
  exact ⟨_, consistent_of_avoiding (goes (.updateOpenfile () 2) rfl id <| goes (.addToCache 0) rfl id <|
    goes (.receive 0) rfl (by rintro ⟨q, hq, hne⟩; cases hq; exact hne rfl) <| goes (.runThread 0 false) rfl id <|
    goes (.readUnmodified 0 [5]) rfl id <| goes (.start 0 .unmodified ()) rfl id <| .start noReads_initial), rfl, rfl⟩

/-- The hash changes before the page is received: the page is kept under the new one, and its
entry is left when the request is done. -/
theorem page_of_another_revision : ∃ s : State Unit ℕ, Reachable Initial step s ∧ s.cache = [⟨2, 5, (1, 5)⟩] ∧
    s.wait (1, 5) = some [0] ∧ s.request 0 = none ∧ ¬Consistent s := by
  have goes : ∀ {s s' : State Unit ℕ} (e), s.run e = some s' → Reachable Initial step s → Reachable Initial step s' :=
    fun _ hs h => .next h hs
  refine ⟨_, goes (.finish 0) rfl <| goes (.addToCache 0) rfl <| goes (.receive 0) rfl <|
    goes (.updateOpenfile () 2) rfl <| goes (.runThread 0 false) rfl <| goes (.readUnmodified 0 [5]) rfl <|
    goes (.start 0 .unmodified ()) rfl <| .start noReads_initial, rfl, rfl, rfl, fun h => ?_⟩
  cases h.cached _ List.mem_cons_self

end Pclsync.PageCache.Waits
