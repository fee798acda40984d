import Mathlib.Data.List.Nodup
import Pclsync.PageCache.Revisions

/-! How long waiters live: from when they are linked until their owner frees them, which it does
after they became ready, when no reader leaves while it has a waiter that it did not wait for. -/
namespace Pclsync.PageCache.Waits
open Lib.Transition

variable {F T : Type} [DecidableEq T] {s s' : State F T} {t : T} {b : Building F}

def Stage.waiters : Stage → List ℕ
  | .sector waiters => waiters
  | .chain sectors => sectors.flatten

/-- A reader is yet to wait for its waiters, except those that are ready. -/
def State.Planned (s : State F T) : Reader F → Prop
  | .outside => True
  | .building b => ∀ w ∈ b.waiting, ∃ stage ∈ b.stages, w ∈ stage.waiters
  | .reading r => ∀ w ∈ r.waiting, (s.waiter w).ready = 0 → ∃ stage ∈ r.stages, w ∈ stage.waiters

/-- What readers and downloads keep of the waiters and the entries. -/
structure Alive (s : State F T) : Prop where
  unready : ∀ {key ws w}, s.wait key = some ws → w ∈ ws → (s.waiter w).ready = 0 ∧ (s.waiter w).freed = 0
  listed : ∀ {w}, w < s.waiters → (s.waiter w).ready = 0 → ∃ ws, s.wait (s.waiter w).waitingFor = some ws ∧ w ∈ ws
  once : ∀ w, (s.waiter w).ready ≤ 1 ∧ (s.waiter w).late = false
  owned : ∀ {t w}, w ∈ (s.reader t).waiting → w < s.waiters ∧ (s.waiter w).owner = t ∧ (s.waiter w).freed = 0
  nodup : ∀ t, (s.reader t).waiting.Nodup
  left : ∀ {w}, w < s.waiters → w ∉ (s.reader (s.waiter w).owner).waiting → (s.waiter w).freed = 1 ∧ (s.waiter w).ready = 1
  unique : ∀ {key c c'}, s.wait key ≠ none → s.Covers key c → s.Covers key c' → c = c'

/-! ## Pages that are requested -/

/-- A page comes to what a reader's request covers when it has no entry. -/
theorem covers_of_addPageWaiter (hb : s.reader t = .building b) {p : ℕ} {key : Key} {c : T ⊕ ℕ}
    (h : (s.addPageWaiter t p).Covers key c) :
    s.Covers key c ∨ c = .inl t ∧ key = (b.hash, p) ∧ s.wait key = none := by
  match c, h with
  | .inl t', ⟨b', hb', hhash, hp⟩ =>
    by_cases ht : t' = t
    · subst ht
      rw [addPageWaiter_building hb] at hb'
      cases hb'
      dsimp only at hhash hp
      split at hp
      · exact .inl ⟨b, hb, hhash, hp⟩
      · next hnone =>
        rw [pagesOf_addRange] at hp
        obtain hp | hp := List.mem_append.mp hp
        · exact .inl ⟨b, hb, hhash, hp⟩
        · have hkey : key = (b.hash, p) := Prod.ext hhash.symm (List.mem_singleton.mp hp)
          rw [hkey]
          exact .inr ⟨rfl, rfl, Option.not_isSome_iff_eq_none.mp hnone⟩
    · rw [addPageWaiter_reader_of_ne ht] at hb'
      exact .inl ⟨b', hb', hhash, hp⟩
  | .inr i, ⟨q, hq, hhash, hp⟩ =>
    rw [addPageWaiter_request] at hq
    exact .inl ⟨q, hq, hhash, hp⟩

/-- No request covers the page of a key that has no entry. -/
def State.Uncovered (s : State F T) (key : Key) : Prop := s.wait key = none → ∀ c, ¬s.Covers key c

theorem Alive.addPageWaiter (h : Alive s) (hb : s.reader t = .building b) {p : ℕ}
    (hno : s.Uncovered (b.hash, p)) : Alive (s.addPageWaiter t p) := by
  have hwaiter := addPageWaiter_waiter hb p
  have hwaiters := addPageWaiter_waiters hb p
  have hself : (s.addPageWaiter t p).waiter s.waiters = ⟨t, (b.hash, p), 0, false, none, 0, false⟩ := by
    rw [hwaiter, Function.update_self]
  have hother : ∀ {w}, w ≠ s.waiters → (s.addPageWaiter t p).waiter w = s.waiter w := by
    intro w hw
    rw [hwaiter, Function.update_of_ne hw]
  have hwaiting : ∀ t', ((s.addPageWaiter t p).reader t').waiting =
      if t' = t then (s.reader t').waiting ++ [s.waiters] else (s.reader t').waiting := by
    intro t'
    split
    · next ht =>
      subst ht
      rw [addPageWaiter_building hb, hb]
      rfl
    · next ht => rw [addPageWaiter_reader_of_ne ht]
  have hfresh : ∀ t', s.waiters ∉ (s.reader t').waiting := fun t' hw => Nat.lt_irrefl _ (h.owned hw).1
  constructor
  · intro key ws w hkey hw
    by_cases hnew : w = s.waiters
    · rw [hnew, hself]
      exact ⟨rfl, rfl⟩
    · rw [hother hnew]
      obtain ⟨ws', hws', hw'⟩ := mem_of_addPageWaiter hb hkey hw hnew
      exact h.unready hws' hw'
  · intro w hlt hready
    rw [addPageWaiter_wait hb]
    by_cases hnew : w = s.waiters
    · rw [hnew, hself, Function.update_self]
      exact ⟨_, rfl, List.mem_append_right _ (List.mem_singleton_self _)⟩
    · rw [hother hnew] at hready ⊢
      obtain ⟨ws, hws, hw⟩ := h.listed (by omega) hready
      by_cases hkey : (s.waiter w).waitingFor = (b.hash, p)
      · rw [hkey] at hws ⊢
        rw [Function.update_self, hws]
        exact ⟨_, rfl, List.mem_append_left _ hw⟩
      · rw [Function.update_of_ne hkey]
        exact ⟨ws, hws, hw⟩
  · intro w
    by_cases hnew : w = s.waiters
    · rw [hnew, hself]
      exact ⟨Nat.zero_le 1, rfl⟩
    · rw [hother hnew]
      exact h.once w
  · intro t' w hw
    rw [hwaiting] at hw
    by_cases hnew : w = s.waiters
    · subst hnew
      split at hw
      · next ht =>
        rw [hself, hwaiters]
        exact ⟨Nat.lt_succ_self _, ht.symm, rfl⟩
      · exact absurd hw (hfresh t')
    · have hw : w ∈ (s.reader t').waiting := by grind
      rw [hother hnew, hwaiters]
      obtain ⟨hlt, hrest⟩ := h.owned hw
      exact ⟨Nat.lt_succ_of_lt hlt, hrest⟩
  · intro t'
    rw [hwaiting]
    split
    · exact List.Nodup.append (h.nodup t') (List.nodup_singleton _)
        (List.disjoint_singleton.mpr (hfresh t'))
    · exact h.nodup t'
  · intro w hlt hw
    rw [hwaiting] at hw
    by_cases hnew : w = s.waiters
    · subst hnew
      rw [hself, if_pos rfl] at hw
      exact absurd (List.mem_append_right _ (List.mem_singleton_self _)) hw
    · rw [hother hnew] at hw ⊢
      exact h.left (by omega) fun hmem => hw (by grind)
  · intro key c c' hkey hc hc'
    obtain hc | ⟨hct, hck, hcn⟩ := covers_of_addPageWaiter hb hc
    · obtain hc' | ⟨hct', hck', hcn'⟩ := covers_of_addPageWaiter hb hc'
      · refine h.unique (fun hnone => ?_) hc hc'
        by_cases hk : key = (b.hash, p)
        · rw [hk] at hc hnone
          exact hno hnone c hc
        · rw [addPageWaiter_wait hb, Function.update_of_ne hk] at hkey
          exact hkey hnone
      · rw [hck'] at hc hcn'
        exact absurd hc (hno hcn' c)
    · obtain hc' | ⟨hct', hck', hcn'⟩ := covers_of_addPageWaiter hb hc'
      · rw [hck] at hc' hcn
        exact absurd hc' (hno hcn c')
      · rw [hct, hct']

/-- The pages that a reader asks for next stay uncovered. -/
theorem uncovered_addPageWaiter (hb : s.reader t = .building b) {p q : ℕ} (h : s.Uncovered (b.hash, q)) :
    (s.addPageWaiter t p).Uncovered (b.hash, q) := by
  intro hnone c hc
  rw [addPageWaiter_wait hb] at hnone
  by_cases hk : (b.hash, q) = (b.hash, p)
  · rw [hk, Function.update_self] at hnone
    cases hnone
  · rw [Function.update_of_ne hk] at hnone
    obtain hc | ⟨-, hkey, -⟩ := covers_of_addPageWaiter hb hc
    · exact h hnone c hc
    · exact hk hkey

theorem Alive.addPages (h : Alive s) (hb : s.reader t = .building b) {pages : List ℕ}
    (hno : ∀ p ∈ pages, s.Uncovered (b.hash, p)) : Alive (s.addPages t pages) := by
  induction pages generalizing s b with
  | nil => exact h
  | cons p pages ih =>
    refine ih (h.addPageWaiter hb (hno p List.mem_cons_self)) (addPageWaiter_building hb p) ?_
    exact fun q hq => uncovered_addPageWaiter hb (hno q (List.mem_cons_of_mem p hq))

theorem addPages_waiter (hb : s.reader t = .building b) (pages : List ℕ) {w : ℕ} (hw : w < s.waiters) :
    (s.addPages t pages).waiter w = s.waiter w := by
  induction pages generalizing s b with
  | nil => rfl
  | cons p pages ih =>
    refine (ih (addPageWaiter_building hb p) ?_).trans ?_
    · rw [addPageWaiter_waiters hb]
      exact Nat.lt_succ_of_lt hw
    · rw [addPageWaiter_waiter hb, Function.update_of_ne (Nat.ne_of_lt hw)]

/-! ## What is waited for -/

theorem mem_number {w n : ℕ} {sectors : List (List ℕ)} (h : n ≤ w) (h' : w < n + sectors.flatten.length) :
    w ∈ (number n sectors).flatten := by
  induction sectors generalizing n with
  | nil => exact absurd h' (Nat.not_lt.mpr h)
  | cons pages sectors ih =>
    rw [List.flatten_cons, List.length_append] at h'
    refine List.mem_append.mpr ?_
    by_cases hw : w < n + pages.length
    · exact .inl (List.mem_range'_1.mpr ⟨h, hw⟩)
    · exact .inr (ih (by omega) (by omega))

/-- Each waiter of the encrypted reader is in a sector that it waits for. -/
theorem mem_encryptedStages {w : ℕ} (groups : List Group) (n m : ℕ)
    (h : n ≤ w ∧ w < n + (authPages groups).length ∨ m ≤ w ∧ w < m + (dataPages groups).length) :
    ∃ stage ∈ encryptedStages n m groups, w ∈ stage.waiters := by
  induction groups generalizing n m with
  | nil =>
    simp only [authPages, dataPages, List.flatMap_nil, List.length_nil] at h
    omega
  | cons g groups ih =>
    simp only [authPages, dataPages, List.flatMap_cons, List.length_append] at h
    unfold encryptedStages
    by_cases hrest : n + (g.auth ++ g.chain.flatten).length ≤ w ∧ w < n + (g.auth ++ g.chain.flatten).length + (authPages groups).length ∨
        m + g.data.flatten.length ≤ w ∧ w < m + g.data.flatten.length + (dataPages groups).length
    · obtain ⟨stage, hmem, hw⟩ := ih _ _ hrest
      exact ⟨stage, List.mem_append_right _ hmem, hw⟩
    · simp only [authPages, dataPages, List.length_append] at hrest
      by_cases hauth : n ≤ w ∧ w < n + g.auth.length
      · exact ⟨_, List.mem_cons_self, List.mem_range'_1.mpr hauth⟩
      · by_cases hchain : n + g.auth.length ≤ w ∧ w < n + g.auth.length + g.chain.flatten.length
        · exact ⟨_, List.mem_cons_of_mem _ List.mem_cons_self, mem_number hchain.1 hchain.2⟩
        · have hdata : m ≤ w ∧ w < m + g.data.flatten.length := by omega
          obtain ⟨sector, hmem, hw⟩ := List.mem_flatten.mp (mem_number hdata.1 hdata.2)
          refine ⟨.sector sector, List.mem_append_left _ ?_, hw⟩
          exact List.mem_cons_of_mem _ (List.mem_cons_of_mem _ (List.mem_map_of_mem hmem))

theorem mem_dataStages {w n count : ℕ} (h : w ∈ List.range' n count) : ∃ stage ∈ dataStages n count, w ∈ stage.waiters :=
  ⟨.sector [w], List.mem_map_of_mem h, List.mem_singleton_self w⟩

/-- A reader goes on with the same waiters, and covers nothing more. -/
theorem Alive.setReader (h : Alive s) {r : Reader F} (hw : r.waiting = (s.reader t).waiting)
    (hr : ∀ b p, r = .building b → p ∈ pagesOf b.ranges →
      ∃ b', s.reader t = .building b' ∧ b'.hash = b.hash ∧ p ∈ pagesOf b'.ranges) : Alive (s.setReader t r) := by
  have hwaiting : ∀ t', ((s.setReader t r).reader t').waiting = (s.reader t').waiting := by
    intro t'
    by_cases ht : t' = t
    · subst ht
      rw [setReader_self, hw]
    · rw [setReader_of_ne ht]
  have hcovers : ∀ {key c}, (s.setReader t r).Covers key c → s.Covers key c := by
    intro key c hc
    match c, hc with
    | .inl t', ⟨b, hb, hhash, hp⟩ =>
      by_cases ht : t' = t
      · subst ht
        obtain ⟨b', hb', hhash', hp'⟩ := hr b _ ((setReader_self s t' r).symm.trans hb) hp
        exact ⟨b', hb', hhash'.trans hhash, hp'⟩
      · exact ⟨b, (Function.update_of_ne ht ..).symm.trans hb, hhash, hp⟩
    | .inr i, hc => exact hc
  refine ⟨h.unready, h.listed, h.once, fun hmem => ?_, fun t' => ?_, fun hlt hmem => ?_, fun hkey hc hc' => ?_⟩
  · rw [hwaiting] at hmem
    exact h.owned hmem
  · rw [hwaiting]
    exact h.nodup t'
  · rw [hwaiting] at hmem
    exact h.left hlt hmem
  · exact h.unique hkey (hcovers hc) (hcovers hc')

/-- The same, for a reader that waits, or starts. -/
theorem Alive.setWaiting (h : Alive s) {r : Reader F} (hw : r.waiting = (s.reader t).waiting)
    (hr : ∀ b, r = .building b → b.ranges = []) : Alive (s.setReader t r) := by
  refine h.setReader hw fun b p hb hp => ?_
  rw [hr b hb] at hp
  cases hp

theorem Planned.setReader (h : ∀ t, s.Planned (s.reader t)) {r : Reader F} (hr : s.Planned r) (t' : T) :
    (s.setReader t r).Planned ((s.setReader t r).reader t') := by
  show s.Planned ((s.setReader t r).reader t')
  by_cases ht : t' = t
  · subst ht
    rw [setReader_self]
    exact hr
  · rw [setReader_of_ne ht]
    exact h t'

omit [DecidableEq T] in
/-- Waiters that are still not ready were not so before. -/
theorem Planned.mono {r : Reader F} (h : s.Planned r)
    (hready : ∀ w ∈ r.waiting, (s'.waiter w).ready = 0 → (s.waiter w).ready = 0) : s'.Planned r := by
  cases r with
  | outside => exact h
  | building b => exact h
  | reading r => exact fun w hw hzero => h w hw (hready w hw hzero)

theorem Alive.addStages (h : Alive s) (t : T) (stages : List Stage) : Alive (s.addStages t stages) := by
  unfold State.addStages
  split
  · next b hb =>
    refine h.setReader (by rw [hb]; rfl) fun b' p hb' hp => ?_
    cases hb'
    exact ⟨b, hb, rfl, hp⟩
  · exact h

/-- The stages have all the waiters that were added. -/
theorem Alive.withPages {kind : Kind} {pages : List ℕ} {stages : List Stage} (h : Alive s)
    (hplan : ∀ t, s.Planned (s.reader t))
    (hno : ∀ b, s.reader t = .building b → ∀ p ∈ pages, s.Uncovered (b.hash, p))
    (hstages : ∀ w ∈ List.range' s.waiters pages.length, ∃ stage ∈ stages, w ∈ stage.waiters)
    (hrun : s.withPages t kind pages stages = some s') : Alive s' ∧ ∀ t, s'.Planned (s'.reader t) := by
  unfold State.withPages at hrun
  split at hrun
  · next b hb =>
    split at hrun
    · cases hrun
      refine ⟨(h.addPages hb (hno b hb)).addStages t stages, ?_⟩
      obtain ⟨ranges, hr⟩ := addPages_building hb pages
      have hplanned := hplan t
      rw [hb] at hplanned
      unfold State.addStages
      rw [hr]
      dsimp only
      intro t'
      by_cases ht : t' = t
      · subst ht
        rw [setReader_self]
        intro w hw
        obtain hw | hw := List.mem_append.mp hw
        · obtain ⟨stage, hmem, hw⟩ := hplanned w hw
          exact ⟨stage, List.mem_append_left _ hmem, hw⟩
        · obtain ⟨stage, hmem, hw⟩ := hstages w hw
          exact ⟨stage, List.mem_append_right _ hmem, hw⟩
      · rw [setReader_of_ne ht, addPages_reader_of_ne ht]
        refine Planned.mono (hplan t') fun w hw hzero => ?_
        rw [← addPages_waiter hb pages (h.owned hw).1]
        exact hzero
    · cases hrun
  · cases hrun

/-- A page that is read ahead comes to what the request covers. -/
theorem covers_of_checkOrRequestPage (hb : s.reader t = .building b) {p : ℕ} {key : Key} {c : T ⊕ ℕ}
    (h : (s.checkOrRequestPage t p).Covers key c) :
    s.Covers key c ∨ c = .inl t ∧ key = (b.hash, p) := by
  unfold State.checkOrRequestPage at h
  rw [hb] at h
  dsimp only at h
  split at h
  · exact .inl h
  · match c, h with
    | .inl t', ⟨b', hb', hhash, hp⟩ =>
      by_cases ht : t' = t
      · subst ht
        cases (Function.update_self t' _ _).symm.trans hb'
        rw [pagesOf_addRange] at hp
        obtain hp | hp := List.mem_append.mp hp
        · exact .inl ⟨b, hb, hhash, hp⟩
        · exact .inr ⟨rfl, Prod.ext hhash.symm (List.mem_singleton.mp hp)⟩
      · exact .inl ⟨b', (Function.update_of_ne ht ..).symm.trans hb', hhash, hp⟩
    | .inr i, hc => exact .inl hc

theorem Alive.checkOrRequestPage (h : Alive s) (hb : s.reader t = .building b) {p : ℕ}
    (hno : s.Uncovered (b.hash, p)) : Alive (s.checkOrRequestPage t p) := by
  have hcovers : ∀ {key c}, (s.checkOrRequestPage t p).Covers key c → s.Covers key c ∨ c = .inl t ∧ key = (b.hash, p) :=
    covers_of_checkOrRequestPage hb
  cases hold : s.wait (b.hash, p) with
  | some ws =>
    have heq : s.checkOrRequestPage t p = s := by
      unfold State.checkOrRequestPage
      rw [hb]
      exact if_pos (by rw [hold]; rfl)
    rw [heq]
    exact h
  | none =>
    have heq : s.checkOrRequestPage t p =
        { s.setReader t (.building { b with ranges := addRange b.ranges p }) with
          wait := Function.update s.wait (b.hash, p) (some []) } := by
      unfold State.checkOrRequestPage
      rw [hb]
      exact if_neg (by rw [hold]; exact Bool.false_ne_true)
    have hwaiting : ∀ t', ((s.checkOrRequestPage t p).reader t').waiting = (s.reader t').waiting := by
      intro t'
      rw [heq]
      by_cases ht : t' = t
      · subst ht
        rw [show State.reader _ t' = _ from setReader_self .., hb]
        rfl
      · exact congrArg Reader.waiting (setReader_of_ne ht _)
    have hwait : (s.checkOrRequestPage t p).wait = Function.update s.wait (b.hash, p) (some []) := by
      rw [heq]
    have hwaiter : (s.checkOrRequestPage t p).waiter = s.waiter := by
      rw [heq]
      rfl
    have hwaiters : (s.checkOrRequestPage t p).waiters = s.waiters := by
      rw [heq]
      rfl
    constructor
    · intro key ws w hkey hw
      rw [hwait] at hkey
      rw [hwaiter]
      by_cases hk : key = (b.hash, p)
      · subst hk
        rw [Function.update_self] at hkey
        cases hkey
        cases hw
      · rw [Function.update_of_ne hk] at hkey
        exact h.unready hkey hw
    · intro w hlt hready
      rw [hwaiter] at hready ⊢
      obtain ⟨ws, hws, hw⟩ := h.listed (hwaiters ▸ hlt) hready
      refine ⟨ws, ?_, hw⟩
      rw [hwait, Function.update_of_ne]
      · exact hws
      · intro hk
        rw [hk, hold] at hws
        cases hws
    · rw [hwaiter]
      exact h.once
    · intro t' w hw
      rw [hwaiting] at hw
      rw [hwaiter, hwaiters]
      exact h.owned hw
    · intro t'
      rw [hwaiting]
      exact h.nodup t'
    · intro w hlt hw
      rw [hwaiting, hwaiter] at hw
      rw [hwaiter]
      exact h.left (hwaiters ▸ hlt) hw
    · intro key c c' hkey hc hc'
      by_cases hk : key = (b.hash, p)
      · subst hk
        obtain hc | ⟨rfl, -⟩ := hcovers hc
        · exact absurd hc (hno hold c)
        · obtain hc' | ⟨rfl, -⟩ := hcovers hc'
          · exact absurd hc' (hno hold c')
          · rfl
      · rw [hwait, Function.update_of_ne hk] at hkey
        refine h.unique hkey ?_ ?_
        · exact (hcovers hc).resolve_right fun heq => hk heq.2
        · exact (hcovers hc').resolve_right fun heq => hk heq.2

/-! ## Pages that come, and readers that leave -/

omit [DecidableEq T] in
theorem Alive.complete (h : Alive s) (hs : Sound s) (key : Key) (page : Option Bytes) : Alive (s.complete key page) := by
  cases hws : s.wait key with
  | none =>
    rw [complete_of_none hws]
    exact h
  | some ws =>
    have hwaiter : ∀ w, (s.complete key page).waiter w = if w ∈ ws then (s.waiter w).answer page else s.waiter w := by
      rw [complete_of_some hws]
      exact fun _ => rfl
    obtain ⟨-, hreader, hwaiters, -, hrequest, -⟩ := complete_rest s key page
    have howner : ∀ w, ((s.complete key page).waiter w).owner = (s.waiter w).owner ∧
        ((s.complete key page).waiter w).freed = (s.waiter w).freed ∧
        ((s.complete key page).waiter w).waitingFor = (s.waiter w).waitingFor := by
      intro w
      rw [hwaiter]
      split <;> exact ⟨rfl, rfl, rfl⟩
    have hcovers : ∀ {key' c}, (s.complete key page).Covers key' c → s.Covers key' c := by
      intro key' c hc
      match c, hc with
      | .inl t, ⟨b, hb, hp⟩ => exact ⟨b, by rw [← hreader, hb], hp⟩
      | .inr i, ⟨q, hq, hp⟩ => exact ⟨q, by rw [← hrequest, hq], hp⟩
    constructor
    · intro key' ws' w hkey' hw
      rw [complete_wait] at hkey'
      split at hkey'
      · cases hkey'
      · next hne =>
        rw [hwaiter, if_neg]
        · exact h.unready hkey' hw
        · -- a waiter is in the entry it waits for only
          intro hmem
          exact hne ((hs.linked hkey' hw).2.symm.trans (hs.linked hws hmem).2)
    · intro w hlt hready
      rw [hwaiters] at hlt
      rw [hwaiter] at hready
      split at hready
      · cases hready
      · next hmem =>
        obtain ⟨ws', hws', hw⟩ := h.listed hlt hready
        refine ⟨ws', ?_, hw⟩
        rw [(howner w).2.2, complete_wait, if_neg]
        · exact hws'
        · intro hk
          rw [hk, hws] at hws'
          cases hws'
          exact hmem hw
    · intro w
      rw [hwaiter]
      split
      · next hmem =>
        obtain ⟨hzero, hfreed⟩ := h.unready hws hmem
        refine ⟨?_, ?_⟩
        · show (s.waiter w).ready + 1 ≤ 1
          exact Nat.succ_le_succ (Nat.le_of_eq hzero)
        · show ((s.waiter w).late || (s.waiter w).freed != 0) = false
          rw [(h.once w).2, hfreed]
          rfl
      · exact h.once w
    · intro t w hw
      rw [hreader] at hw
      rw [hwaiters, (howner w).1, (howner w).2.1]
      exact h.owned hw
    · rw [hreader]
      exact h.nodup
    · intro w hlt hw
      rw [hwaiters] at hlt
      rw [hreader, (howner w).1] at hw
      obtain ⟨hfreed, hready⟩ := h.left hlt hw
      have hmem : w ∉ ws := by
        intro hmem
        rw [(h.unready hws hmem).1] at hready
        cases hready
      rw [hwaiter, if_neg hmem]
      exact ⟨hfreed, hready⟩
    · intro key' c c' hkey' hc hc'
      refine h.unique (fun hnone => hkey' ?_) (hcovers hc) (hcovers hc')
      rw [complete_wait, hnone, ite_self]

omit [DecidableEq T] in
theorem complete_ready (key : Key) (page : Option Bytes) (w : ℕ) (h : ((s.complete key page).waiter w).ready = 0) :
    (s.waiter w).ready = 0 := by
  cases hws : s.wait key with
  | none =>
    rw [complete_of_none hws] at h
    exact h
  | some ws =>
    rw [complete_of_some hws] at h
    dsimp only at h
    split at h
    · cases h
    · exact h

omit [DecidableEq T] in
theorem Alive.sendError (h : Alive s) (hs : Sound s) (of : F) (pages : List ℕ) : Alive (s.sendError of pages) := by
  induction pages generalizing s with
  | nil => exact h
  | cons p pages ih => exact ih (h.complete hs _ none) (hs.complete _ fun _ h => nomatch h)

omit [DecidableEq T] in
theorem sendError_ready (of : F) (pages : List ℕ) (w : ℕ) (h : ((s.sendError of pages).waiter w).ready = 0) :
    (s.waiter w).ready = 0 := by
  induction pages generalizing s with
  | nil => exact h
  | cons p pages ih => exact complete_ready _ none w (ih h)

omit [DecidableEq T] in
/-- A request goes on with ranges that it had, or ends. -/
theorem Alive.setRequest (h : Alive s) {i : ℕ} {r : Option (Request F)}
    (hr : ∀ q', r = some q' → ∃ q, s.request i = some q ∧ q.hash = q'.hash ∧ pagesOf q'.ranges ⊆ pagesOf q.ranges) :
    Alive (s.setRequest i r) := by
  have hcovers : ∀ {key c}, (s.setRequest i r).Covers key c → s.Covers key c := by
    intro key c hc
    match c, hc with
    | .inl t, hc => exact hc
    | .inr i', ⟨q', hq', hhash, hp⟩ =>
      by_cases hi : i' = i
      · subst hi
        obtain ⟨q, hq, hqhash, hsub⟩ := hr q' ((setRequest_self s i' r).symm.trans hq')
        exact ⟨q, hq, hqhash.trans hhash, hsub hp⟩
      · exact ⟨q', (Function.update_of_ne hi ..).symm.trans hq', hhash, hp⟩
  exact ⟨h.unready, h.listed, h.once, h.owned, h.nodup, h.left, fun hkey hc hc' => h.unique hkey (hcovers hc) (hcovers hc')⟩

/-- The request of a reader gets its thread, and with it what the reader covered. -/
theorem Alive.runThread (h : Alive s) (hb : s.reader t = .building b) {r : Reading}
    (hr : r.waiting = b.waiting) :
    Alive ({ s.setReader t (.reading r) with requests := s.requests + 1 }.setRequest s.requests
      (some ⟨b.of, b.hash, b.ranges, pagesOf b.ranges, none⟩)) := by
  have hset : Alive (s.setReader t (.reading r)) := h.setWaiting (by rw [hb]; exact hr) nofun
  have hmoved : ∀ {key c}, State.Covers ({ s.setReader t (.reading r) with requests := s.requests + 1 }.setRequest
      s.requests (some ⟨b.of, b.hash, b.ranges, pagesOf b.ranges, none⟩)) key c →
        c ≠ .inl t ∧ c ≠ .inr s.requests ∧ s.Covers key c ∨ c = .inr s.requests ∧ s.Covers key (.inl t) := by
    intro key c hc
    match c, hc with
    | .inl t', ⟨b', hb', hp⟩ =>
      left
      by_cases ht : t' = t
      · subst ht
        cases (Function.update_self ..).symm.trans hb'
      · exact ⟨fun heq => ht (Sum.inl.inj heq), nofun, b', (Function.update_of_ne ht ..).symm.trans hb', hp⟩
    | .inr i, ⟨q, hq, hhash, hp⟩ =>
      by_cases hi : i = s.requests
      · subst hi
        cases (Function.update_self ..).symm.trans hq
        exact .inr ⟨rfl, b, hb, hhash, hp⟩
      · exact .inl ⟨nofun, fun heq => hi (Sum.inr.inj heq), q, (Function.update_of_ne hi ..).symm.trans hq, hhash, hp⟩
  refine ⟨hset.unready, hset.listed, hset.once, hset.owned, hset.nodup, hset.left, fun hkey hc hc' => ?_⟩
  obtain ⟨hne, -, hold⟩ | ⟨rfl, hold⟩ := hmoved hc
  · obtain ⟨-, -, hold'⟩ | ⟨rfl, hold'⟩ := hmoved hc'
    · exact h.unique hkey hold hold'
    · exact absurd (h.unique hkey hold hold') hne
  · obtain ⟨hne, -, hold'⟩ | ⟨rfl, -⟩ := hmoved hc'
    · exact absurd (h.unique hkey hold' hold) hne
    · rfl

omit [DecidableEq T] in
theorem freeAll_waiter {waiting : List ℕ} (hnodup : waiting.Nodup) (w : ℕ) : (s.freeAll waiting).waiter w =
    if w ∈ waiting then { s.waiter w with freed := (s.waiter w).freed + 1 } else s.waiter w := by
  induction waiting generalizing s with
  | nil => rfl
  | cons w' waiting ih =>
    obtain ⟨hnot, hnodup⟩ := List.nodup_cons.mp hnodup
    refine (ih (s := s.free w') hnodup).trans ?_
    rw [free_waiter]
    by_cases hw : w = w'
    · subst hw
      rw [if_neg hnot, Function.update_self, if_pos List.mem_cons_self]
    · rw [Function.update_of_ne hw]
      simp only [List.mem_cons, hw, false_or]

omit [DecidableEq T] in
theorem freeAll_wait (waiting : List ℕ) : (s.freeAll waiting).wait = s.wait := by
  induction waiting generalizing s with
  | nil => rfl
  | cons w waiting ih => exact ih

/-- A reader that has waited for all its waiters leaves. -/
theorem Alive.leave (h : Alive s) {waiting : List ℕ} {failed : Bool} (hr : s.reader t = .reading ⟨waiting, [], failed⟩)
    (hplan : s.Planned (s.reader t)) : Alive ((s.freeAll waiting).setReader t .outside) := by
  have hready : ∀ w ∈ waiting, (s.waiter w).ready = 1 := by
    intro w hw
    rw [hr] at hplan
    have hne : (s.waiter w).ready ≠ 0 := fun hzero => by
      obtain ⟨stage, hmem, -⟩ := hplan w hw hzero
      cases hmem
    have := (h.once w).1
    omega
  have hwaiting : (s.reader t).waiting = waiting := by
    rw [hr]
    rfl
  have hnodup := h.nodup t
  rw [hwaiting] at hnodup
  have hwaiter := freeAll_waiter (s := s) hnodup
  have hreleased := Released.freeAll s waiting
  have hlist : ∀ t', (((s.freeAll waiting).setReader t .outside).reader t').waiting =
      if t' = t then [] else (s.reader t').waiting := by
    intro t'
    split
    · next ht =>
      subst ht
      rw [setReader_self]
      rfl
    · next ht => rw [setReader_of_ne ht, hreleased.reader]
  constructor
  · intro key ws w hkey hw
    have hold : s.wait key = some ws := (congrFun (freeAll_wait waiting) key).symm.trans hkey
    obtain ⟨hzero, hfreed⟩ := h.unready hold hw
    have hmem : w ∉ waiting := fun hmem => by
      rw [hready w hmem] at hzero
      cases hzero
    show ((s.freeAll waiting).waiter w).ready = 0 ∧ ((s.freeAll waiting).waiter w).freed = 0
    rw [hwaiter, if_neg hmem]
    exact ⟨hzero, hfreed⟩
  · intro w hlt hzero
    change ((s.freeAll waiting).waiter w).ready = 0 at hzero
    show ∃ ws, (s.freeAll waiting).wait ((s.freeAll waiting).waiter w).waitingFor = some ws ∧ w ∈ ws
    rw [hreleased.waiter w] at hzero ⊢
    rw [freeAll_wait]
    exact h.listed (hreleased.waiters ▸ hlt) hzero
  · intro w
    show ((s.freeAll waiting).waiter w).ready ≤ 1 ∧ ((s.freeAll waiting).waiter w).late = false
    rw [hreleased.waiter w]
    exact h.once w
  · intro t' w hw
    rw [hlist] at hw
    split at hw
    · cases hw
    · next ht =>
      obtain ⟨hlt, howner, hfreed⟩ := h.owned hw
      have hmem : w ∉ waiting := fun hmem => ht (howner.symm.trans (h.owned (hwaiting ▸ hmem)).2.1)
      show w < (s.freeAll waiting).waiters ∧ ((s.freeAll waiting).waiter w).owner = t' ∧ ((s.freeAll waiting).waiter w).freed = 0
      rw [hwaiter, if_neg hmem, hreleased.waiters]
      exact ⟨hlt, howner, hfreed⟩
  · intro t'
    rw [hlist]
    split
    · exact List.nodup_nil
    · exact h.nodup t'
  · intro w hlt hw
    change w < (s.freeAll waiting).waiters at hlt
    rw [hreleased.waiters] at hlt
    show ((s.freeAll waiting).waiter w).freed = 1 ∧ ((s.freeAll waiting).waiter w).ready = 1
    by_cases hmem : w ∈ waiting
    · rw [hwaiter, if_pos hmem]
      dsimp only
      rw [(h.owned (t := t) (hwaiting.symm ▸ hmem)).2.2]
      exact ⟨rfl, hready w hmem⟩
    · rw [hwaiter, if_neg hmem]
      refine h.left hlt fun hin => hw ?_
      rw [hlist]
      show w ∈ if ((s.freeAll waiting).waiter w).owner = t then [] else (s.reader ((s.freeAll waiting).waiter w).owner).waiting
      rw [hwaiter, if_neg hmem, if_neg]
      · exact hin
      · intro howner
        rw [howner, hwaiting] at hin
        exact hmem hin
  · intro key c c' hkey hc hc'
    have hcovers : ∀ {c}, ((s.freeAll waiting).setReader t .outside).Covers key c → s.Covers key c := by
      intro c hc
      match c, hc with
      | .inl t', ⟨b, hb, hp⟩ =>
        by_cases ht : t' = t
        · subst ht
          cases (Function.update_self ..).symm.trans hb
        · refine ⟨b, ?_, hp⟩
          rw [← hreleased.reader]
          exact (Function.update_of_ne ht ..).symm.trans hb
      | .inr i, ⟨q, hq, hp⟩ => exact ⟨q, (congrFun hreleased.request i).symm.trans hq, hp⟩
    refine h.unique (fun hnone => hkey ?_) (hcovers hc) (hcovers hc')
    exact (congrFun (freeAll_wait waiting) key).trans hnone

/-! ## Runs -/

omit [DecidableEq T] in
theorem Initial.alive (h : Initial s) : Alive s where
  unready := fun hkey => nomatch (h.noEntries _).symm.trans hkey
  listed := fun hlt => absurd hlt (by rw [h.noWaiters]; exact Nat.not_lt_zero _)
  once := fun w => by
    obtain ⟨hready, -, hlate⟩ := h.noAnswers w
    rw [hready]
    exact ⟨Nat.zero_le 1, hlate⟩
  owned := fun {t _} hw => by
    rw [h.outside t] at hw
    cases hw
  nodup := fun t => by
    rw [h.outside t]
    exact List.nodup_nil
  left := fun hlt => absurd hlt (by rw [h.noWaiters]; exact Nat.not_lt_zero _)
  unique := fun hkey => absurd (h.noEntries _) hkey

/-- Of the pages that are asked for, one has no entry, but a request that covers it. -/
def State.Overlaps (s : State F T) (t : T) (pages : List ℕ) : Prop :=
  ∃ b, s.reader t = .building b ∧ ∃ p ∈ pages, s.wait (b.hash, p) = none ∧ ∃ c, s.Covers (b.hash, p) c

/-- Where a reader is, a waiter is not ready. -/
def State.Leaves (s : State F T) (t : T) : Prop :=
  ∃ waiting stage stages failed, s.reader t = .reading ⟨waiting, stage :: stages, failed⟩ ∧
    ∃ w ∈ stage.waiters, (s.waiter w).ready = 0

/-- What a run may not do: let the hashes differ, request a page that a request covers already,
find a short page when there are waiters, or go on from a sector, or without checking the
chain, while a waiter of it is not ready. -/
def Breaks (s : State F T) : Event F T → Prop
  | .readUnmodified t pages => s.Overlaps t pages
  | .readEncrypted t groups => s.Overlaps t (authPages groups ++ dataPages groups)
  | .encryptedError _ pages => pages ≠ []
  | .readv t p => s.Overlaps t [p]
  | .readvShort t p => (s.reader t).waiting ≠ [] ∨ s.Overlaps t [p]
  | .readahead t p => s.Overlaps t [p]
  | .waitWaiter t => s.Leaves t
  | .skipChain t => s.Leaves t
  | e => Mixes s e

omit [DecidableEq T] in
theorem uncovered_of_not_overlaps {pages : List ℕ} (h : ¬s.Overlaps t pages) {b : Building F}
    (hb : s.reader t = .building b) {p : ℕ} (hp : p ∈ pages) : s.Uncovered (b.hash, p) :=
  fun hnone c hc => h ⟨b, hb, p, hp, hnone, c, hc⟩

omit [DecidableEq T] in
theorem mixes_of_breaks {e : Event F T} (h : Mixes s e) : Breaks s e := by
  cases e with
  | receive i => exact h
  | sendError i => exact h
  | _ => exact h.elim

variable [DecidableEq F] {e : Event F T}

theorem Alive.step (h : Alive s) (hs : Sound s) (hplan : ∀ t, s.Planned (s.reader t)) (hd : ¬Breaks s e)
    (hstep : step s e s') : Alive s' ∧ ∀ t, s'.Planned (s'.reader t) := by
  unfold Waits.step at hstep
  cases e with
  | start t kind of =>
    simp only [State.run] at hstep
    split at hstep
    · next hr =>
      cases hstep
      refine ⟨h.setWaiting (by rw [hr]; rfl) ?_, Planned.setReader hplan fun w hw => by cases hw⟩
      intro b hb
      cases hb
      rfl
    · cases hstep
  | readUnmodified t pages =>
    exact h.withPages hplan (fun b hb p => uncovered_of_not_overlaps hd hb) (fun w => mem_dataStages) hstep
  | readEncrypted t groups =>
    refine h.withPages hplan (fun b hb p => uncovered_of_not_overlaps hd hb) (fun w hw => ?_) hstep
    rw [List.mem_range'_1, List.length_append] at hw
    exact mem_encryptedStages groups _ _ (by omega)
  | encryptedError t pages =>
    have hnil : pages = [] := not_not.mp hd
    subst hnil
    simp only [State.run] at hstep
    split at hstep
    · next b hb =>
      split at hstep
      · next hcond =>
        cases hstep
        have hwaiting : (s.reader t).waiting = [] := by
          rw [hb]
          exact hcond.2.2
        show Alive (((s.freeWaiters (s.reader t).waiting).freeAll (s.reader t).waiting).setReader t .outside) ∧ _
        rw [show s.addPages t [] = s from rfl, hwaiting]
        exact ⟨h.setWaiting hwaiting.symm (fun _ hb => by cases hb), Planned.setReader hplan trivial⟩
      · cases hstep
    · cases hstep
  | readv t p =>
    exact h.withPages hplan (fun b hb p => uncovered_of_not_overlaps hd hb) (fun w => mem_dataStages) hstep
  | readvShort t p =>
    obtain ⟨hnil, hno⟩ := not_or.mp hd
    simp only [State.run] at hstep
    rw [not_not.mp hnil] at hstep
    exact h.withPages hplan (fun b hb p => uncovered_of_not_overlaps hno hb) (fun w => mem_dataStages) hstep
  | readahead t p =>
    simp only [State.run] at hstep
    split at hstep
    · next b hb =>
      split at hstep
      · cases hstep
      · cases hstep
        have hno := uncovered_of_not_overlaps hd hb (List.mem_singleton_self p)
        refine ⟨h.checkOrRequestPage hb hno, ?_⟩
        unfold State.checkOrRequestPage
        rw [hb]
        dsimp only
        split
        · exact hplan
        · refine Planned.setReader hplan (r := .building { b with ranges := addRange b.ranges p }) ?_
          have := hplan t
          rw [hb] at this
          exact this
    · cases hstep
  | runThread t needkey =>
    simp only [State.run] at hstep
    split at hstep
    · next b hb =>
      have hnext : s.Planned (.reading ⟨b.waiting, b.stages, false⟩) := by
        have := hplan t
        rw [hb] at this
        exact fun w hw _ => this w hw
      split at hstep
      · cases hstep
        exact ⟨h.runThread hb rfl, Planned.setReader hplan hnext⟩
      · cases hstep
        exact ⟨h.setWaiting (by rw [hb]; rfl) (fun _ hb => by cases hb), Planned.setReader hplan hnext⟩
    · cases hstep
  | waitWaiter t =>
    simp only [State.run] at hstep
    split at hstep
    · next waiting waiters stages failed hr =>
      have hnext : ∀ failed', s.Planned (.reading ⟨waiting, stages, failed'⟩) := by
        intro failed' w hw hzero
        have hplanned := hplan t
        rw [hr] at hplanned
        obtain ⟨stage, hmem, hin⟩ := hplanned w hw hzero
        obtain rfl | hmem := List.mem_cons.mp hmem
        · exact absurd ⟨_, _, _, _, hr, w, hin, hzero⟩ hd
        · exact ⟨stage, hmem, hin⟩
      split at hstep
      · cases hstep
        exact ⟨h.setWaiting (by rw [hr]; rfl) (fun _ hb => by cases hb), Planned.setReader hplan (hnext _)⟩
      · split at hstep
        · cases hstep
          exact ⟨h.setWaiting (by rw [hr]; rfl) (fun _ hb => by cases hb), Planned.setReader hplan (hnext _)⟩
        · cases hstep
    · cases hstep
  | checkChain t =>
    simp only [State.run] at hstep
    split at hstep
    · next waiting sectors stages hr =>
      cases hstep
      refine ⟨h.setWaiting (by rw [hr]; rfl) (fun _ hb => by cases hb), Planned.setReader hplan fun w hw hzero => ?_⟩
      have hplanned := hplan t
      rw [hr] at hplanned
      obtain ⟨stage, hmem, hin⟩ := hplanned w hw hzero
      obtain rfl | hmem := List.mem_cons.mp hmem
      · obtain ⟨sector, hsector, hin⟩ := List.mem_flatten.mp hin
        exact ⟨.sector sector, List.mem_append_left _ (List.mem_map_of_mem hsector), hin⟩
      · exact ⟨stage, List.mem_append_right _ hmem, hin⟩
    · cases hstep
  | skipChain t =>
    simp only [State.run] at hstep
    split at hstep
    · next waiting sectors stages hr =>
      cases hstep
      refine ⟨h.setWaiting (by rw [hr]; rfl) (fun _ hb => by cases hb), Planned.setReader hplan fun w hw hzero => ?_⟩
      have hplanned := hplan t
      rw [hr] at hplanned
      obtain ⟨stage, hmem, hin⟩ := hplanned w hw hzero
      obtain rfl | hmem := List.mem_cons.mp hmem
      · exact absurd ⟨_, _, _, _, hr, w, hin, hzero⟩ hd
      · exact ⟨stage, hmem, hin⟩
    · cases hstep
  | setError t =>
    simp only [State.run] at hstep
    split at hstep
    · next r hr =>
      cases hstep
      refine ⟨h.setWaiting (by rw [hr]; rfl) (fun _ hb => by cases hb), Planned.setReader hplan ?_⟩
      have := hplan t
      rw [hr] at this
      exact this
    · cases hstep
  | leave t =>
    simp only [State.run] at hstep
    split at hstep
    · next waiting _ hr =>
      cases hstep
      refine ⟨h.leave hr (hplan t), Planned.setReader (fun t' => ?_) trivial⟩
      rw [(Released.freeAll s waiting).reader]
      refine Planned.mono (hplan t') fun w _ hzero => ?_
      rw [(Released.freeAll s waiting).waiter w] at hzero
      exact hzero
    · cases hstep
  | retry i =>
    simp only [State.run] at hstep
    split at hstep
    · next q hq =>
      cases hstep
      exact ⟨h.setRequest fun q' hq' => ⟨q, hq, by cases hq'; rfl, by cases hq'; exact List.Subset.refl _⟩, hplan⟩
    · cases hstep
  | receive i =>
    simp only [State.run] at hstep
    split at hstep
    · next of hash ranges p todo hq =>
      cases hstep
      refine ⟨(h.complete hs _ _).setRequest fun q' hq' => ⟨⟨of, hash, ranges, p :: todo, none⟩, ?_, ?_, ?_⟩, fun t => ?_⟩
      · rw [(complete_rest s _ _).2.2.2.2.1]
        exact hq
      · cases hq'
        rfl
      · cases hq'
        exact List.Subset.refl _
      · show (s.complete _ _).Planned ((s.complete _ _).reader t)
        rw [(complete_rest s _ _).2.1]
        exact Planned.mono (hplan t) fun w _ => complete_ready _ _ w
    · cases hstep
  | addToCache i =>
    simp only [State.run] at hstep
    split at hstep
    · next of hash ranges todo page hq =>
      cases hstep
      have hset := h.setRequest (i := i) (r := some ⟨of, hash, ranges, todo, none⟩) fun q' hq' =>
        ⟨_, hq, by cases hq'; rfl, by cases hq'; exact List.Subset.refl _⟩
      refine ⟨⟨hset.unready, hset.listed, hset.once, hset.owned, hset.nodup, hset.left, ?_⟩, hplan⟩
      intro key c c' hkey hc hc'
      refine hset.unique hkey ?_ ?_
      · cases c <;> exact hc
      · cases c' <;> exact hc'
    · cases hstep
  | rangeRead i =>
    simp only [State.run] at hstep
    split at hstep
    · next hq =>
      split at hstep
      · cases hstep
        refine ⟨h.setRequest fun q' hq' => ⟨_, hq, ?_, ?_⟩, hplan⟩
        · cases hq'
          rfl
        · cases hq'
          exact List.subset_append_right _ _
      · cases hstep
    · cases hstep
  | finish i =>
    simp only [State.run] at hstep
    split at hstep
    · cases hstep
      exact ⟨h.setRequest (fun _ hq => by cases hq), hplan⟩
    · cases hstep
  | sendError i =>
    simp only [State.run] at hstep
    split at hstep
    · next of _ ranges _ _ =>
      cases hstep
      refine ⟨(h.sendError hs of (pagesOf ranges)).setRequest (fun _ hq => by cases hq), fun t => ?_⟩
      show (s.sendError of (pagesOf ranges)).Planned ((s.sendError of (pagesOf ranges)).reader t)
      rw [(sendError_rest s of _).2.1]
      exact Planned.mono (hplan t) fun w _ => sendError_ready _ _ w
    · cases hstep
  | updateOpenfile of hash =>
    cases hstep
    refine ⟨⟨h.unready, h.listed, h.once, h.owned, h.nodup, h.left, fun {key c c'} hkey hc hc' => ?_⟩, hplan⟩
    refine h.unique hkey ?_ ?_
    · cases c <;> exact hc
    · cases c' <;> exact hc'

/-- A waiter is linked to an entry until it is ready, which it becomes once, it is its owner's until
that frees it, once and when it is ready, and no download writes it after that. Each entry is
covered by one request. -/
structure Lives (s : State F T) : Prop where
  ready : ∀ w < s.waiters, (s.waiter w).ready ≤ 1 ∧ ((s.waiter w).ready = 0 ↔ ∃ key ws, s.wait key = some ws ∧ w ∈ ws)
  freed : ∀ w < s.waiters, (∃ t, w ∈ (s.reader t).waiting) ∧ (s.waiter w).freed = 0 ∨
    (¬∃ t, w ∈ (s.reader t).waiting) ∧ (s.waiter w).freed = 1 ∧ (s.waiter w).ready = 1
  notLate : ∀ w < s.waiters, (s.waiter w).late = false
  covered : ∀ key, s.wait key ≠ none → ∃! c, s.Covers key c

omit [DecidableEq T] [DecidableEq F] in
theorem Alive.lives (h : Alive s) (hs : Sound s) : Lives s where
  ready := fun w hlt => by
    refine ⟨(h.once w).1, fun hzero => ?_, fun ⟨key, ws, hkey, hw⟩ => (h.unready hkey hw).1⟩
    obtain ⟨ws, hws, hw⟩ := h.listed hlt hzero
    exact ⟨_, ws, hws, hw⟩
  freed := fun w hlt => by
    by_cases hin : w ∈ (s.reader (s.waiter w).owner).waiting
    · exact .inl ⟨⟨_, hin⟩, (h.owned hin).2.2⟩
    · refine .inr ⟨fun ⟨t, hw⟩ => hin ?_, h.left hlt hin⟩
      rw [(h.owned hw).2.1]
      exact hw
  notLate := fun w _ => (h.once w).2
  covered := fun key hkey => by
    obtain ⟨c, hc⟩ := hs.awaited hkey
    have hcovers : s.Covers key c := by
      match c, hc with
      | .inl t, hc => exact hc
      | .inr i, ⟨q, hq, hhash, hp⟩ => exact ⟨q, hq, hhash, hs.todo hq hp⟩
    exact ⟨c, hcovers, fun c' hc' => h.unique hkey hc' hcovers⟩

/-- In a run without what `Breaks` names, waiters live as long as they are linked. -/
theorem lives_of_avoiding (h : Reachable Initial (Avoiding step Breaks) s) : Lives s := by
  have hinit : ∀ s : State F T, Initial s → Sound s ∧ Alive s ∧ ∀ t, s.Planned (s.reader t) := by
    refine fun s hinit => ⟨hinit.sound, hinit.alive, fun t => ?_⟩
    rw [hinit.outside t]
    trivial
  have hstep : ∀ (s : State F T) e s', (Sound s ∧ Alive s ∧ ∀ t, s.Planned (s.reader t)) →
      Avoiding step Breaks s e s' → Sound s' ∧ Alive s' ∧ ∀ t, s'.Planned (s'.reader t) := by
    intro s e s' ⟨hs, hl, hp⟩ ⟨hstep, hd⟩
    exact ⟨hs.step (fun hm => hd (mixes_of_breaks hm)) hstep, hl.step hs hp hd hstep⟩
  obtain ⟨hs, hl, -⟩ := h.invariant hinit hstep
  exact hl.lives hs

/-- Two readers wait for one page, and the first one leaves. -/
theorem lives_after_leave : ∃ s : State Unit ℕ, Lives s ∧ (s.waiter 0).freed = 1 ∧ (s.waiter 1).freed = 0 ∧
    (s.waiter 1).ready = 1 := by
  have goes : ∀ {s s' : State Unit ℕ} (e), s.run e = some s' → ¬Breaks s e →
      Reachable Initial (Avoiding step Breaks) s → Reachable Initial (Avoiding step Breaks) s' :=
    fun _ hs hd h => .next h ⟨hs, hd⟩
  refine ⟨_, lives_of_avoiding (goes (.leave 0) rfl id <| goes (.waitWaiter 0) rfl ?passes <|
    goes (.receive 0) rfl ?hash <| goes (.runThread 1 false) rfl id <| goes (.runThread 0 false) rfl id <|
    goes (.readUnmodified 1 [5]) rfl ?second <| goes (.start 1 .unmodified ()) rfl id <|
    goes (.readUnmodified 0 [5]) rfl ?first <| goes (.start 0 .unmodified ()) rfl id <| .start noReads_initial), rfl, rfl, rfl⟩
  case passes =>
    rintro ⟨waiting, stage, stages, failed, hr, w, hw, hzero⟩
    cases hr
    cases List.mem_singleton.mp hw
    cases hzero
  case hash =>
    rintro ⟨q, hq, hne⟩
    cases hq
    exact hne rfl
  case second =>
    rintro ⟨b, hb, p, hp, hnone, -⟩
    cases hb
    cases List.mem_singleton.mp hp
    cases hnone
  case first =>
    rintro ⟨b, hb, p, hp, -, c, hc⟩
    cases hb
    match c, hc with
    | .inl 0, ⟨b, hb, _, hp⟩ =>
      cases hb
      cases hp
    | .inl (_ + 1), ⟨b, hb, _⟩ => cases hb
    | .inr i, ⟨q, hq, _⟩ => cases hq

/-- Of an auth sector on two pages, the first was requested by another reader and comes last: it is
written to a waiter that its owner has freed. -/
theorem written_after_leave : ∃ s : State Unit ℕ, Reachable Initial step s ∧ (s.waiter 0).freed = 1 ∧
    (s.waiter 0).late = true ∧ ¬Lives s := by
  have goes : ∀ {s s' : State Unit ℕ} (e), s.run e = some s' → Reachable Initial step s → Reachable Initial step s' :=
    fun _ hs h => .next h hs
  refine ⟨_, goes (.receive 0) rfl <| goes (.leave 0) rfl <| goes (.waitWaiter 0) rfl <| goes (.checkChain 0) rfl <|
    goes (.waitWaiter 0) rfl <| goes (.receive 1) rfl <| goes (.runThread 0 false) rfl <|
    goes (.readEncrypted 0 [⟨[3, 4], [], [[]]⟩]) rfl <| goes (.start 0 .encrypted ()) rfl <|
    goes (.leave 1) rfl <| goes (.runThread 1 false) rfl <| goes (.readahead 1 3) rfl <|
    goes (.start 1 .encrypted ()) rfl <| .start noReads_initial, rfl, rfl, fun h => ?_⟩
  cases h.notLate 0 (by decide)

end Pclsync.PageCache.Waits
