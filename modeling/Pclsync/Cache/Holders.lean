import Pclsync.Cache.Sections

/-! Every element has one holder: its bucket, a call, or the callback of its timer.

A timer that has not been called yet leads to an element that is in a bucket, or whose call
waits for it; a timer that was called is stopped. -/
namespace Pclsync.Cache

variable {T V F : Type}

inductive Holder (T : Type) where
  | bucket (h : ℕ)
  | waiting (t : T)
  | holding (t : T)
  | timer

def State.HeldBy (s : State T V F) (he : Addr) : Holder T → Prop
  | .bucket h => he ∈ s.cacheHash h
  | .waiting t => ∃ purpose, s.calls t = some (.waiting he purpose)
  | .holding t => ∃ purpose, s.calls t = some (.holding he purpose)
  | .timer => ∃ timer, s.timerCall = .owning timer he

/-- A timer may still call `cache_timer`. -/
def State.Pending (s : State T V F) (timer : Addr) : Prop :=
  ∃ t, s.timers timer = some t ∧ (t.queued = false ∨ timer ∈ s.run)

/-- What a holder knows of its element. -/
def State.Fits (s : State T V F) (he : Addr) (e : Element V F) : Holder T → Prop
  | .bucket _ => e.wait = false ∧ e.called = false ∧ ∃ t, s.timers e.timer = some t ∧ t.he = he ∧ (t.queued = true → e.timer ∈ s.run)
  | .waiting _ => e.wait = true ∧
      (e.called = false → ∃ t, s.timers e.timer = some t ∧ t.he = he ∧ t.queued = true ∧ t.stopAfterRun = true ∧ e.timer ∈ s.run)
  | _ => True

/-- What a timer that may still call `cache_timer` leads to. -/
def State.Leads (s : State T V F) (timer he : Addr) : Prop :=
  ∃ e, s.elements he = some e ∧ e.timer = timer ∧ ((∃ h, s.HeldBy he (.bucket h)) ∨ e.called = false ∧ ∃ t, s.HeldBy he (.waiting t))

/-- Every element has one holder, which fits it. -/
structure State.Kept (s : State T V F) : Prop where
  nodup : ∀ h, (s.cacheHash h).Nodup
  held : ∀ he a, s.HeldBy he a → ∃ e, s.elements he = some e ∧ s.Fits he e a
  one : ∀ he a b, s.HeldBy he a → s.HeldBy he b → a = b
  owned : ∀ he e, s.elements he = some e → ∃ a, s.HeldBy he a
  leads : ∀ timer t, s.timers timer = some t → t.queued = false ∨ timer ∈ s.run → s.Leads timer t.he

/-- The queued timers are those that will be called, and those that were and are stopped. -/
structure Queues (timers : Addr → Option Timer) (run ran : List Addr) (timerCall : TimerCall) : Prop where
  queued : ∀ timer t, timers timer = some t → (t.queued = true ↔ timer ∈ run ∨ timer ∈ ran)
  listed : ∀ timer, timer ∈ run ∨ timer ∈ ran → timers timer ≠ none
  distinct : run.Nodup ∧ ∀ timer ∈ run, timer ∉ ran
  stopped : ∀ timer t, timer ∈ ran → timers timer = some t →
    t.stopAfterRun = true ∨ timerCall = .stopping timer ∨ ∃ he, timerCall = .owning timer he
  calling : ∀ timer, timerCall = .stopping timer ∨ (∃ he, timerCall = .owning timer he) → timer ∈ ran
  idle : timerCall = .idle → run = [] ∧ ran = []

def State.Queued (s : State T V F) : Prop := Queues s.timers s.run s.ran s.timerCall

variable {s s' : State T V F} {he : Addr} {changed : Addr → Prop}

/-- A step about one element, and the timers that lead to it. -/
structure State.Touches (s s' : State T V F) (he : Addr) (changed : Addr → Prop) : Prop where
  elements : ∀ x ≠ he, s'.elements x = s.elements x
  heldBy : ∀ x ≠ he, ∀ a, s'.HeldBy x a ↔ s.HeldBy x a
  timers : ∀ timer, ¬changed timer → s'.timers timer = s.timers timer
  run : ∀ timer, ¬changed timer → (timer ∈ s'.run ↔ timer ∈ s.run)
  nodup : ∀ h, (s.cacheHash h).Nodup → (s'.cacheHash h).Nodup
  /-- The timers that change are the element's, and those that do not do not lead to it. -/
  own : ∀ timer t, changed timer → s.timers timer = some t → t.he = he
  others : ∀ timer, ¬changed timer → ¬s.Leads timer he

/-- What is left of the element. -/
def State.Settled (s : State T V F) (he : Addr) : Prop :=
  (s.elements he = none ∧ ∀ a, ¬s.HeldBy he a) ∨ ∃ a e, s.elements he = some e ∧ s.Fits he e a ∧ ∀ b, s.HeldBy he b ↔ b = a

theorem State.Settled.held (h : s.Settled he) {a : Holder T} (hheld : s.HeldBy he a) : ∃ e, s.elements he = some e ∧ s.Fits he e a := by
  rcases h with ⟨-, hnobody⟩ | ⟨b, e, hel, hfits, hone⟩
  · exact absurd hheld (hnobody a)
  · obtain rfl := (hone a).mp hheld
    exact ⟨e, hel, hfits⟩

theorem State.Settled.one (h : s.Settled he) {a b : Holder T} (ha : s.HeldBy he a) (hb : s.HeldBy he b) : a = b := by
  rcases h with ⟨-, hnobody⟩ | ⟨c, -, -, -, hone⟩
  · exact absurd ha (hnobody a)
  · rw [(hone a).mp ha, (hone b).mp hb]

theorem State.Settled.owned (h : s.Settled he) {e : Element V F} (hel : s.elements he = some e) : ∃ a : Holder T, s.HeldBy he a := by
  rcases h with ⟨hnone, -⟩ | ⟨a, -, -, -, hone⟩
  · exact nomatch hnone.symm.trans hel
  · exact ⟨a, (hone a).mpr rfl⟩

/-- What fits another element still does. -/
theorem State.Touches.fits (h : s.Touches s' he changed) {x : Addr} (hx : x ≠ he) {e : Element V F} {a : Holder T}
    (hfits : s.Fits x e a) : s'.Fits x e a := by
  have hkeep : ∀ timer t, s.timers timer = some t → t.he = x → ¬changed timer := fun timer t ht hhe hc =>
    hx (hhe.symm.trans (h.own timer t hc ht))
  cases a with
  | bucket h₀ =>
    obtain ⟨hwait, hcalled, t, ht, hhe, hrun⟩ := hfits
    have hnot := hkeep _ t ht hhe
    exact ⟨hwait, hcalled, t, (h.timers _ hnot).trans ht, hhe, fun hq => (h.run _ hnot).mpr (hrun hq)⟩
  | waiting t₀ =>
    obtain ⟨hwait, hcall⟩ := hfits
    refine ⟨hwait, fun hcalled => ?_⟩
    obtain ⟨t, ht, hhe, hq, hstop, hrun⟩ := hcall hcalled
    have hnot := hkeep _ t ht hhe
    exact ⟨t, (h.timers _ hnot).trans ht, hhe, hq, hstop, (h.run _ hnot).mpr hrun⟩
  | holding => trivial
  | timer => trivial

theorem State.Touches.kept (h : s.Touches s' he changed) (hs : s.Kept) (hhere : s'.Settled he)
    (hchanged : ∀ timer t, changed timer → s'.timers timer = some t → t.queued = false ∨ timer ∈ s'.run → s'.Leads timer t.he) :
    s'.Kept where
  nodup h₀ := h.nodup h₀ (hs.nodup h₀)
  held x a hx := by
    by_cases heq : x = he
    · subst heq
      exact hhere.held hx
    · obtain ⟨e, hel, hfits⟩ := hs.held x a ((h.heldBy x heq a).mp hx)
      exact ⟨e, (h.elements x heq).trans hel, h.fits heq hfits⟩
  one x a b ha hb := by
    by_cases heq : x = he
    · subst heq
      exact hhere.one ha hb
    · exact hs.one x a b ((h.heldBy x heq a).mp ha) ((h.heldBy x heq b).mp hb)
  owned x e hx := by
    by_cases heq : x = he
    · subst heq
      exact hhere.owned hx
    · obtain ⟨a, ha⟩ := hs.owned x e ((h.elements x heq).symm.trans hx)
      exact ⟨a, (h.heldBy x heq a).mpr ha⟩
  leads timer t ht hpending := by
    by_cases hc : changed timer
    · exact hchanged timer t hc ht hpending
    · have hlead := hs.leads timer t ((h.timers timer hc).symm.trans ht) (hpending.imp_right (h.run timer hc).mp)
      have hne : t.he ≠ he := fun heq => h.others timer hc (heq ▸ hlead)
      obtain ⟨e, hel, htimer, hheld⟩ := hlead
      refine ⟨e, (h.elements _ hne).trans hel, htimer, ?_⟩
      rcases hheld with ⟨h₀, hb⟩ | ⟨hcalled, t₀, hw⟩
      · exact .inl ⟨h₀, (h.heldBy _ hne _).mpr hb⟩
      · exact .inr ⟨hcalled, t₀, (h.heldBy _ hne _).mpr hw⟩

/-- The logs do not matter. -/
theorem State.Kept.log (hs : s.Kept) (added : List (Item V F)) (returned : List (ℕ × V)) (freed : List (ℕ × F × V)) :
    State.Kept { s with added := added, returned := returned, freed := freed } :=
  ⟨hs.nodup, hs.held, hs.one, hs.owned, hs.leads⟩

/-! ### Who holds an element -/

def Call.element : Call → Option Addr
  | .waiting he _ => some he
  | .holding he _ => some he
  | _ => none

theorem unlink_heldBy {x : Addr} (hx : x ≠ he) (a : Holder T) : (s.unlink he).HeldBy x a ↔ s.HeldBy x a := by
  cases a with
  | bucket h => simp [State.HeldBy, State.unlink, hx]
  | _ => exact Iff.rfl

/-- What is taken out of its bucket has no holder. -/
theorem unlink_nobody {h : ℕ} (hs : s.Kept) (hheld : s.HeldBy he (.bucket h)) (a : Holder T) : ¬(s.unlink he).HeldBy he a := by
  intro ha
  have hbucket : ∀ b : Holder T, s.HeldBy he b → .bucket h = b := fun b hb => hs.one he _ b hheld hb
  cases a with
  | bucket h' => simp [State.HeldBy, State.unlink] at ha
  | waiting t => exact nomatch hbucket (.waiting t) ha
  | holding t => exact nomatch hbucket (.holding t) ha
  | timer => exact nomatch hbucket .timer ha

variable [DecidableEq T]

/-- A call that gets or leaves an element changes no other's holder. -/
theorem setCall_heldBy {t : T} {call : Option Call} {x : Addr} (hbefore : (s.calls t).bind Call.element ≠ some x)
    (hafter : call.bind Call.element ≠ some x) (a : Holder T) : (s.setCall t call).HeldBy x a ↔ s.HeldBy x a := by
  have hcalls : ∀ c : Call, c.element = some x → ∀ u, (s.setCall t call).calls u = some c ↔ s.calls u = some c := by
    intro c hc u
    by_cases hu : u = t
    · subst hu
      have hnow : (s.setCall u call).calls u = call := Function.update_self ..
      rw [hnow]
      constructor
      · rintro rfl
        exact absurd hc hafter
      · intro h
        rw [h] at hbefore
        exact absurd hc hbefore
    · have hother : (s.setCall t call).calls u = s.calls u := Function.update_of_ne hu ..
      rw [hother]
  cases a with
  | waiting u => exact exists_congr fun p => hcalls (.waiting x p) rfl u
  | holding u => exact exists_congr fun p => hcalls (.holding x p) rfl u
  | _ => exact Iff.rfl

/-- An element that no other holds is then with the call of `t`, if that has it. -/
theorem setCall_held {t : T} {call : Option Call} (hours : ∀ a : Holder T, s.HeldBy he a → a = .waiting t ∨ a = .holding t)
    {a : Holder T} (ha : (s.setCall t call).HeldBy he a) :
    a = .waiting t ∧ (∃ p, call = some (.waiting he p)) ∨ a = .holding t ∧ ∃ p, call = some (.holding he p) := by
  have hnow : (s.setCall t call).calls t = call := Function.update_self ..
  have hother : ∀ u ≠ t, (s.setCall t call).calls u = s.calls u := fun u hu => Function.update_of_ne hu ..
  cases a with
  | bucket h => exact absurd (hours (.bucket h) ha) (by simp)
  | timer => exact absurd (hours .timer ha) (by simp)
  | waiting u =>
    obtain ⟨p, hu⟩ := ha
    by_cases hne : u = t
    · subst hne
      exact .inl ⟨rfl, p, hnow.symm.trans hu⟩
    · exact absurd (hours (.waiting u) ⟨p, (hother u hne).symm.trans hu⟩) (by simp [hne])
  | holding u =>
    obtain ⟨p, hu⟩ := ha
    by_cases hne : u = t
    · subst hne
      exact .inr ⟨rfl, p, hnow.symm.trans hu⟩
    · exact absurd (hours (.holding u) ⟨p, (hother u hne).symm.trans hu⟩) (by simp [hne])

theorem setCall_nobody {t : T} {call : Option Call} (hours : ∀ a : Holder T, s.HeldBy he a → a = .waiting t ∨ a = .holding t)
    (hcall : call.bind Call.element = none) (a : Holder T) : ¬(s.setCall t call).HeldBy he a := by
  intro ha
  rcases setCall_held hours ha with ⟨-, p, rfl⟩ | ⟨-, p, rfl⟩
  · exact nomatch hcall
  · exact nomatch hcall

theorem setCall_only {t : T} {c : Call} {a : Holder T} (hours : ∀ a : Holder T, s.HeldBy he a → a = .waiting t ∨ a = .holding t)
    (hc : (s.setCall t (some c)).HeldBy he a) (b : Holder T) : (s.setCall t (some c)).HeldBy he b ↔ b = a := by
  constructor
  · intro hb
    rcases setCall_held hours hb with ⟨rfl, p, hp⟩ | ⟨rfl, p, hp⟩
    · rcases setCall_held hours hc with ⟨rfl, -⟩ | ⟨-, q, hq⟩
      · rfl
      · exact nomatch hp.symm.trans hq
    · rcases setCall_held hours hc with ⟨-, q, hq⟩ | ⟨rfl, -⟩
      · exact nomatch hp.symm.trans hq
      · rfl
  · rintro rfl
    exact hc

/-- A call without an element goes on without one. -/
theorem setCall_kept {t : T} {call : Option Call} (hs : s.Kept) (hbefore : (s.calls t).bind Call.element = none)
    (hafter : call.bind Call.element = none) : (s.setCall t call).Kept := by
  have hheld : ∀ x a, (s.setCall t call).HeldBy x a ↔ s.HeldBy x a := fun x a =>
    setCall_heldBy (by rw [hbefore]; nofun) (by rw [hafter]; nofun) a
  refine ⟨hs.nodup, fun x a ha => hs.held x a ((hheld x a).mp ha), fun x a b ha hb => hs.one x a b ((hheld x a).mp ha) ((hheld x b).mp hb),
    fun x e hx => ?_, fun timer u hu hpending => ?_⟩
  · obtain ⟨a, ha⟩ := hs.owned x e hx
    exact ⟨a, (hheld x a).mpr ha⟩
  · obtain ⟨e, hel, htimer, hh⟩ := hs.leads timer u hu hpending
    refine ⟨e, hel, htimer, ?_⟩
    rcases hh with ⟨h, hb⟩ | ⟨hcalled, v, hw⟩
    · exact .inl ⟨h, (hheld _ _).mpr hb⟩
    · exact .inr ⟨hcalled, v, (hheld _ _).mpr hw⟩

/-! ### Taking an element out -/

/-- Setting a queued timer's flag. -/
theorem queues_stop {timers : Addr → Option Timer} {run ran : List Addr} {timerCall : TimerCall} (hq : Queues timers run ran timerCall)
    {timer : Addr} {t : Timer} (ht : timers timer = some t) :
    Queues (Function.update timers timer (some { t with stopAfterRun := true })) run ran timerCall := by
  refine ⟨fun y u hu => ?_, fun y hy => ?_, hq.distinct, fun y u hy hu => ?_, hq.calling, hq.idle⟩
  · by_cases hne : y = timer
    · subst hne
      rw [Function.update_self] at hu
      obtain rfl := Option.some_inj.mp hu
      exact hq.queued y t ht
    · rw [Function.update_of_ne hne] at hu
      exact hq.queued y u hu
  · by_cases hne : y = timer
    · subst hne
      rw [Function.update_self]
      nofun
    · rw [Function.update_of_ne hne]
      exact hq.listed y hy
  · by_cases hne : y = timer
    · subst hne
      rw [Function.update_self] at hu
      obtain rfl := Option.some_inj.mp hu
      exact .inl rfl
    · rw [Function.update_of_ne hne] at hu
      exact hq.stopped y u hy hu

/-- A timer that is not queued is freed. -/
theorem queues_free {timers : Addr → Option Timer} {run ran : List Addr} {timerCall : TimerCall} (hq : Queues timers run ran timerCall)
    {timer : Addr} {t : Timer} (ht : timers timer = some t) (hidle : t.queued = false) :
    Queues (Function.update timers timer none) run ran timerCall := by
  have hnot : ¬(timer ∈ run ∨ timer ∈ ran) := fun hin => by
    rw [(hq.queued timer t ht).mpr hin] at hidle
    exact nomatch hidle
  have hother : ∀ y u, Function.update timers timer none y = some u → timers y = some u := by
    intro y u hu
    by_cases hne : y = timer
    · subst hne
      rw [Function.update_self] at hu
      exact nomatch hu
    · rwa [Function.update_of_ne hne] at hu
  refine ⟨fun y u hu => hq.queued y u (hother y u hu), fun y hy => ?_, hq.distinct, fun y u hy hu => hq.stopped y u hy (hother y u hu),
    hq.calling, hq.idle⟩
  have hne : y ≠ timer := fun heq => hnot (heq ▸ hy)
  rw [Function.update_of_ne hne]
  exact hq.listed y hy

/-- A new timer is not queued. -/
theorem queues_new {timers : Addr → Option Timer} {run ran : List Addr} {timerCall : TimerCall} (hq : Queues timers run ran timerCall)
    {timer : Addr} {t : Timer} (hnone : timers timer = none) (hidle : t.queued = false) :
    Queues (Function.update timers timer (some t)) run ran timerCall := by
  have hnot : ¬(timer ∈ run ∨ timer ∈ ran) := fun hin => hq.listed timer hin hnone
  refine ⟨fun y u hu => ?_, fun y hy => ?_, hq.distinct, fun y u hy hu => ?_, hq.calling, hq.idle⟩
  · by_cases hne : y = timer
    · subst hne
      rw [Function.update_self] at hu
      obtain rfl := Option.some_inj.mp hu
      exact ⟨fun hqueued => absurd (hidle.symm.trans hqueued) nofun, fun hin => absurd hin hnot⟩
    · rw [Function.update_of_ne hne] at hu
      exact hq.queued y u hu
  · have hne : y ≠ timer := fun heq => hnot (heq ▸ hy)
    rw [Function.update_of_ne hne]
    exact hq.listed y hy
  · have hne : y ≠ timer := fun heq => hnot (heq ▸ .inr hy)
    rw [Function.update_of_ne hne] at hu
    exact hq.stopped y u hy hu

omit [DecidableEq T] in
/-- In a bucket an element has its timer, which has not been called. -/
theorem bucket_timer (hs : s.Kept) {h : ℕ} (hheld : s.HeldBy he (.bucket h)) :
    ∃ e t, s.elements he = some e ∧ e.wait = false ∧ e.called = false ∧ s.timers e.timer = some t ∧ t.he = he ∧
      (t.queued = true → e.timer ∈ s.run) ∧ ∀ timer, timer ≠ e.timer → ¬s.Leads timer he := by
  obtain ⟨e, hel, hwait, hcalled, t, ht, hhe, hrun⟩ := hs.held he _ hheld
  refine ⟨e, t, hel, hwait, hcalled, ht, hhe, hrun, ?_⟩
  rintro timer hne ⟨e', hel', rfl, -⟩
  rw [hel] at hel'
  exact hne (congrArg Element.timer (Option.some_inj.mp hel').symm)

omit [DecidableEq T] in
theorem nodup_unlink (h : ℕ) (hnodup : (s.cacheHash h).Nodup) : ((s.unlink he).cacheHash h).Nodup := hnodup.filter _

omit [DecidableEq T] in
theorem timerStop_queued {timer : Addr} {t : Timer} (ht : s.timers timer = some t) (hqueued : t.queued = true) :
    s.timerStop timer = some ({ s with timers := Function.update s.timers timer (some { t with stopAfterRun := true }) }, true) := by
  rw [State.timerStop, ht, Option.map_some, if_pos hqueued]

omit [DecidableEq T] in
theorem timerStop_idle {timer : Addr} {t : Timer} (ht : s.timers timer = some t) (hidle : t.queued = false) :
    s.timerStop timer = some ({ s with timers := Function.update s.timers timer none }, false) := by
  rw [State.timerStop, ht, Option.map_some, if_neg (by rw [hidle]; nofun)]

/-- A call takes an element out of its bucket, whether its timer can be stopped or not. -/
theorem takeOut_sound (hs : s.Kept) (hq : s.Queued) {h : ℕ} {t : T} {purpose : Purpose} (hheld : s.HeldBy he (.bucket h))
    (hidle : (s.calls t).bind Call.element = none) :
    ∃ s', s.takeOut t purpose he = some s' ∧ s'.Kept ∧ s'.Queued := by
  obtain ⟨e, tm, hel, hwait, hcalled, htm, hhe, hrun, hothers⟩ := bucket_timer hs hheld
  have hours : ∀ a : Holder T, (s.unlink he).HeldBy he a → a = .waiting t ∨ a = .holding t := fun a ha =>
    absurd ha (unlink_nobody hs hheld a)
  have hbefore : ∀ x, (s.calls t).bind Call.element ≠ some x := fun x hx => nomatch hidle.symm.trans hx
  have hheldBy : ∀ c : Call, c.element = some he → ∀ x ≠ he, ∀ a,
      ((s.unlink he).setCall t (some c)).HeldBy x a ↔ s.HeldBy x a := by
    intro c hc x hx a
    have hafter : (some c : Option Call).bind Call.element ≠ some x := fun h => hx (Option.some_inj.mp (hc.symm.trans h)).symm
    exact (setCall_heldBy (s := s.unlink he) (hbefore x) hafter a).trans (unlink_heldBy hx a)
  have hpair : ∀ timer u, timer = e.timer → s.timers timer = some u → u.he = he := by
    rintro timer u rfl hu
    rw [Option.some_inj.mp (hu.symm.trans htm), hhe]
  rcases Bool.eq_false_or_eq_true tm.queued with hqueued | hqueued
  · refine ⟨({ s.unlink he with timers := Function.update s.timers e.timer (some { tm with stopAfterRun := true }) }.setElement he
      (some { e with wait := true })).setCall t (some (.waiting he purpose)), ?_, ?_, ?_⟩
    · rw [State.takeOut, hel, Option.bind_some, timerStop_queued (s := s.unlink he) htm hqueued]
      rfl
    · have htimer : Function.update s.timers e.timer (some { tm with stopAfterRun := true }) e.timer = some { tm with stopAfterRun := true } :=
        Function.update_self ..
      have helement : Function.update s.elements he (some { e with wait := true }) he = some { e with wait := true } := Function.update_self ..
      have honly := setCall_only (s := s.unlink he) (c := .waiting he purpose) (a := .waiting t) hours ⟨purpose, Function.update_self ..⟩
      refine State.Touches.kept (?_ : State.Touches s _ he (· = e.timer)) hs
        (.inr ⟨.waiting t, _, helement, ⟨rfl, fun _ => ⟨_, htimer, hhe, hqueued, rfl, hrun hqueued⟩⟩, honly⟩) ?_
      · exact ⟨fun x hx => Function.update_of_ne hx .., hheldBy (.waiting he purpose) rfl,
          fun timer hne => Function.update_of_ne hne .., fun timer _ => Iff.rfl, nodup_unlink, hpair, hothers⟩
      · rintro timer u rfl hu -
        obtain rfl := Option.some_inj.mp (htimer.symm.trans hu)
        subst hhe
        exact ⟨_, helement, rfl, .inr ⟨hcalled, t, (honly _).mpr rfl⟩⟩
    · exact queues_stop hq htm
  · refine ⟨{ s.unlink he with timers := Function.update s.timers e.timer none }.setCall t (some (.holding he purpose)), ?_, ?_, ?_⟩
    · rw [State.takeOut, hel, Option.bind_some, timerStop_idle (s := s.unlink he) htm hqueued]
      rfl
    · have honly := setCall_only (s := s.unlink he) (c := .holding he purpose) (a := .holding t) hours ⟨purpose, Function.update_self ..⟩
      refine State.Touches.kept (?_ : State.Touches s _ he (· = e.timer)) hs (.inr ⟨.holding t, e, hel, trivial, honly⟩) ?_
      · exact ⟨fun x hx => rfl, hheldBy (.holding he purpose) rfl,
          fun timer hne => Function.update_of_ne hne .., fun timer _ => Iff.rfl, nodup_unlink, hpair, hothers⟩
      · rintro timer u rfl hu -
        exact nomatch (Function.update_self ..).symm.trans hu
    · exact queues_free hq htm hqueued

omit [DecidableEq T] in
/-- Nothing leads to an element that a call has and that its timer's callback has left. -/
theorem not_leads (hs : s.Kept) {a : Holder T} (hheld : s.HeldBy he a) (hbucket : ∀ h, a ≠ .bucket h)
    (hcalled : ∀ e, s.elements he = some e → e.called = false → ∀ t, a ≠ .waiting t) (timer : Addr) : ¬s.Leads timer he := by
  rintro ⟨e, hel, -, ⟨h, hb⟩ | ⟨hc, t, hw⟩⟩
  · exact hbucket h (hs.one he _ _ hheld hb)
  · exact hcalled e hel hc t (hs.one he _ _ hheld hw)

theorem resume_sound (hs : s.Kept) (hq : s.Queued) {t : T} {purpose : Purpose} (hcall : s.calls t = some (.waiting he purpose)) :
    ∃ s', s.resume t he purpose = some s' ∧ s'.Kept ∧ s'.Queued := by
  have hheld : s.HeldBy he (.waiting t) := ⟨purpose, hcall⟩
  obtain ⟨e, hel, -⟩ := hs.held he _ hheld
  rw [State.resume, hel, Option.map_some]
  by_cases hcalled : e.called = true
  · refine ⟨s.setCall t (some (.holding he purpose)), by rw [if_pos hcalled], ?_, hq⟩
    have honly := setCall_only (s := s) (c := .holding he purpose) (a := .holding t) (fun a ha => .inl (hs.one he _ _ ha hheld))
      ⟨purpose, Function.update_self ..⟩
    have hleft : ∀ e', s.elements he = some e' → e'.called = false → ∀ u, Holder.waiting t ≠ .waiting u := by
      intro e' hel' hc
      obtain rfl := Option.some_inj.mp (hel.symm.trans hel')
      exact nomatch hcalled.symm.trans hc
    refine State.Touches.kept (?_ : State.Touches s _ he fun _ => False) hs (.inr ⟨.holding t, e, hel, trivial, honly⟩) nofun
    refine ⟨fun x hx => rfl, fun x hx a => ?_, fun timer hne => rfl, fun timer _ => Iff.rfl, fun h => id, nofun,
      fun timer _ => not_leads hs hheld nofun hleft timer⟩
    have hne : some he ≠ some x := fun heq => hx (Option.some_inj.mp heq).symm
    have hafter : (some (Call.holding he purpose)).bind Call.element ≠ some x := hne
    exact setCall_heldBy (by rw [hcall]; exact hne) hafter a
  · exact ⟨s, by rw [if_neg hcalled], hs, hq⟩

/-- A call frees the element that it has. -/
theorem finish_kept (hs : s.Kept) {t : T} {purpose : Purpose} {call : Option Call} (hcall : s.calls t = some (.holding he purpose))
    (hafter : call.bind Call.element = none) : ((s.setElement he none).setCall t call).Kept := by
  have hheld : s.HeldBy he (.holding t) := ⟨purpose, hcall⟩
  have hnobody := setCall_nobody (s := s) (fun a ha => .inr (hs.one he _ _ ha hheld)) hafter
  refine State.Touches.kept (?_ : State.Touches s _ he fun _ => False) hs (.inl ⟨Function.update_self .., hnobody⟩) nofun
  refine ⟨fun x hx => Function.update_of_ne hx .., fun x hx a => ?_, fun timer hne => rfl, fun timer _ => Iff.rfl, fun h => id, nofun,
    fun timer _ => not_leads hs hheld nofun (fun _ _ _ => nofun) timer⟩
  have hne : some he ≠ some x := fun heq => hx (Option.some_inj.mp heq).symm
  exact setCall_heldBy (s := s) (by rw [hcall]; exact hne) (by rw [hafter]; nofun) a

theorem finish_sound (hs : s.Kept) (hq : s.Queued) {t : T} {purpose : Purpose} (hcall : s.calls t = some (.holding he purpose)) :
    ∃ s', s.finish t he purpose = some s' ∧ s'.Kept ∧ s'.Queued := by
  obtain ⟨e, hel, -⟩ := hs.held he (.holding t) ⟨purpose, hcall⟩
  rw [State.finish, hel, Option.map_some]
  cases purpose with
  | get => exact ⟨_, rfl, (finish_kept hs hcall rfl).log .., hq⟩
  | del key => exact ⟨_, rfl, (finish_kept hs hcall rfl).log .., hq⟩

/-! ### Adding and cleaning -/

section

variable (seed : ℕ) (item : Item V F) (maxkeys : ℕ)

omit [DecidableEq T]

/-- A new element is in its bucket. -/
theorem add_kept {timer : Addr} (hs : s.Kept) (hhe : s.elements he = none) (htimer : s.timers timer = none) :
    (s.add seed item maxkeys he timer).Kept := by
  have hnobody : ∀ a : Holder T, ¬s.HeldBy he a := fun a ha => by
    obtain ⟨e, hel, -⟩ := hs.held he a ha
    exact nomatch hhe.symm.trans hel
  rw [State.add]
  split_ifs
  · exact hs.log ..
  · generalize hashToBucket (hashFunc seed item.key) = h
    generalize hashFunc seed item.key = hash
    have hbuckets : ∀ x h', x ∈ Function.update s.cacheHash h (he :: s.cacheHash h) h' ↔ h' = h ∧ x = he ∨ x ∈ s.cacheHash h' := by
      intro x h'
      by_cases hne : h' = h
      · subst hne
        simp
      · simp [hne]
    have hnew : Function.update s.elements he (some ⟨item, hash, timer, false, false, s.added.length⟩) he =
        some ⟨item, hash, timer, false, false, s.added.length⟩ := Function.update_self ..
    have hnewTimer : Function.update s.timers timer (some ⟨he, false, false⟩) timer = some ⟨he, false, false⟩ := Function.update_self ..
    have hbucket : he ∈ Function.update s.cacheHash h (he :: s.cacheHash h) h := (hbuckets he h).mpr (.inl ⟨rfl, rfl⟩)
    refine State.Touches.kept (?_ : State.Touches s _ he (· = timer)) hs (.inr ⟨.bucket h, _, hnew, ?_, fun b => ?_⟩) ?_
    · refine ⟨fun x hx => Function.update_of_ne hx .., fun x hx a => ?_, fun y hne => Function.update_of_ne hne .., fun y _ => Iff.rfl,
        fun h' hnodup => ?_, ?_, ?_⟩
      · cases a with
        | bucket h' => exact (hbuckets x h').trans (or_iff_right fun hboth => hx hboth.2)
        | _ => exact Iff.rfl
      · show (Function.update s.cacheHash h (he :: s.cacheHash h) h').Nodup
        by_cases hne : h' = h
        · subst hne
          rw [Function.update_self]
          exact List.nodup_cons.mpr ⟨hnobody (.bucket h'), hnodup⟩
        · rwa [Function.update_of_ne hne]
      · rintro y u rfl hu
        exact nomatch htimer.symm.trans hu
      · rintro y - ⟨e, hel, -⟩
        exact nomatch hhe.symm.trans hel
    · exact ⟨rfl, rfl, _, hnewTimer, rfl, nofun⟩
    · constructor
      · intro hb
        cases b with
        | bucket h' =>
          rcases (hbuckets he h').mp hb with ⟨rfl, -⟩ | hin
          · rfl
          · exact absurd hin (hnobody (.bucket h'))
        | waiting t => exact absurd hb (hnobody (.waiting t))
        | holding t => exact absurd hb (hnobody (.holding t))
        | timer => exact absurd hb (hnobody .timer)
      · rintro rfl
        exact hbucket
    · rintro y u rfl hu -
      obtain rfl := Option.some_inj.mp (hnewTimer.symm.trans hu)
      exact ⟨_, hnew, rfl, .inl ⟨h, hbucket⟩⟩

theorem add_queued {timer : Addr} (hq : s.Queued) (htimer : s.timers timer = none) : (s.add seed item maxkeys he timer).Queued := by
  rw [State.add]
  split_ifs
  · exact hq
  · exact queues_new hq htimer rfl

theorem add_same (timer : Addr) : (s.add seed item maxkeys he timer).calls = s.calls ∧
    ∀ h x, x ∈ s.cacheHash h → x ∈ (s.add seed item maxkeys he timer).cacheHash h := by
  rw [State.add]
  split_ifs
  · exact ⟨rfl, fun _ _ => id⟩
  · refine ⟨rfl, fun h x hx => ?_⟩
    show x ∈ Function.update s.cacheHash _ _ h
    rw [Function.update_apply]
    split_ifs with heq
    · exact List.mem_cons_of_mem _ (heq ▸ hx)
    · exact hx

/-- What cleaning and the calls of `psync_cache_add` in it leave. -/
structure Cleaned (s s' : State T V F) : Prop where
  kept : s'.Kept
  queued : s'.Queued
  calls : s'.calls = s.calls

theorem Adds.cleaned {seed : ℕ} (h : Adds seed s s') (hs : s.Kept) (hq : s.Queued) :
    Cleaned s s' ∧ ∀ h x, x ∈ s.cacheHash h → x ∈ s'.cacheHash h := by
  induction h with
  | none => exact ⟨⟨hs, hq, rfl⟩, fun _ _ => id⟩
  | @next s s' item maxkeys he timer hhe htimer _ ih =>
    obtain ⟨hcalls, hmem⟩ := @add_same T V F s he seed item maxkeys timer
    obtain ⟨⟨hkept, hqueued, hsame⟩, hmem'⟩ := ih (add_kept seed item maxkeys hs hhe htimer) (add_queued seed item maxkeys hq htimer)
    exact ⟨⟨hkept, hqueued, hsame.trans hcalls⟩, fun h x hx => hmem' h x (hmem h x hx)⟩

/-- Setting the flag of a timer changes no element. -/
theorem stop_kept (hs : s.Kept) {timer : Addr} {t : Timer} (ht : s.timers timer = some t) :
    State.Kept { s with timers := Function.update s.timers timer (some { t with stopAfterRun := true }) } := by
  have hnow : ∀ y u, s.timers y = some u → ∃ u', Function.update s.timers timer (some { t with stopAfterRun := true }) y = some u' ∧
      u'.he = u.he ∧ u'.queued = u.queued ∧ (u.stopAfterRun = true → u'.stopAfterRun = true) := by
    intro y u hu
    by_cases hne : y = timer
    · subst hne
      obtain rfl := Option.some_inj.mp (ht.symm.trans hu)
      exact ⟨_, Function.update_self .., rfl, rfl, fun _ => rfl⟩
    · exact ⟨u, (Function.update_of_ne hne ..).trans hu, rfl, rfl, id⟩
  have hbefore : ∀ y u', Function.update s.timers timer (some { t with stopAfterRun := true }) y = some u' →
      ∃ u, s.timers y = some u ∧ u'.he = u.he ∧ u'.queued = u.queued := by
    intro y u' hu'
    by_cases hne : y = timer
    · subst hne
      rw [Function.update_self] at hu'
      obtain rfl := Option.some_inj.mp hu'
      exact ⟨t, ht, rfl, rfl⟩
    · rw [Function.update_of_ne hne] at hu'
      exact ⟨u', hu', rfl, rfl⟩
  refine ⟨hs.nodup, fun x a ha => ?_, hs.one, hs.owned, fun y u' hu' hpending => ?_⟩
  · obtain ⟨e, hel, hfits⟩ := hs.held x a ha
    refine ⟨e, hel, ?_⟩
    cases a with
    | bucket h =>
      obtain ⟨hwait, hcalled, u, hu, hhe, hrun⟩ := hfits
      obtain ⟨u', hu', hhe', hq', -⟩ := hnow _ u hu
      exact ⟨hwait, hcalled, u', hu', hhe'.trans hhe, fun hqueued => hrun (hq'.symm.trans hqueued)⟩
    | waiting v =>
      obtain ⟨hwait, hcall⟩ := hfits
      refine ⟨hwait, fun hc => ?_⟩
      obtain ⟨u, hu, hhe, hqueued, hstop, hrun⟩ := hcall hc
      obtain ⟨u', hu', hhe', hq', hs'⟩ := hnow _ u hu
      exact ⟨u', hu', hhe'.trans hhe, hq'.trans hqueued, hs' hstop, hrun⟩
    | holding => trivial
    | timer => trivial
  · obtain ⟨u, hu, hhe, hqueued⟩ := hbefore y u' hu'
    rw [hhe]
    exact hs.leads y u hu (hpending.imp_left hqueued.symm.trans)

/-- Cleaning leaves an element whose timer is queued, and frees one whose timer it stops. -/
theorem cleanOne_cleaned (hs : s.Kept) (hq : s.Queued) {h : ℕ} (prefixes : Option (List Key)) (hheld : s.HeldBy he (.bucket h)) :
    ∃ s', s.cleanOne prefixes he = some s' ∧ Cleaned s s' ∧ ∀ x ≠ he, ∀ h, x ∈ s.cacheHash h → x ∈ s'.cacheHash h := by
  obtain ⟨e, tm, hel, hwait, hcalled, htm, hhe, hrun, hothers⟩ := bucket_timer hs hheld
  rw [State.cleanOne, hel, Option.bind_some]
  by_cases hselect : selects prefixes e.item.key = true
  · rw [if_pos hselect]
    rcases Bool.eq_false_or_eq_true tm.queued with hqueued | hqueued
    · rw [timerStop_queued htm hqueued]
      exact ⟨_, rfl, ⟨stop_kept hs htm, queues_stop hq htm, rfl⟩, fun _ _ _ => id⟩
    · rw [timerStop_idle htm hqueued]
      refine ⟨_, rfl, ⟨?_, queues_free hq htm hqueued, rfl⟩, fun x hx h' hin => List.mem_filter.mpr ⟨hin, by simpa using hx⟩⟩
      have hnobody := unlink_nobody hs hheld
      have hpair : ∀ timer u, timer = e.timer → s.timers timer = some u → u.he = he := by
        rintro timer u rfl hu
        rw [Option.some_inj.mp (hu.symm.trans htm), hhe]
      refine State.Touches.kept (?_ : State.Touches s _ he (· = e.timer)) hs (.inl ⟨Function.update_self .., hnobody⟩) ?_
      · exact ⟨fun x hx => Function.update_of_ne hx .., fun x hx a => unlink_heldBy hx a,
          fun timer hne => Function.update_of_ne hne .., fun timer _ => Iff.rfl, nodup_unlink, hpair, hothers⟩
      · rintro timer u rfl hu -
        exact nomatch (Function.update_self ..).symm.trans hu
  · rw [if_neg hselect]
    exact ⟨s, rfl, ⟨hs, hq, rfl⟩, fun _ _ _ => id⟩

theorem Cleans.cleaned {seed : ℕ} {prefixes : Option (List Key)} {rest : List Addr} {r : Option (State T V F)} {h : ℕ}
    (hclean : Cleans seed prefixes s rest r) (hs : s.Kept) (hq : s.Queued) (hrest : ∀ x ∈ rest, x ∈ s.cacheHash h) (hnodup : rest.Nodup) :
    ∃ s', r = some s' ∧ Cleaned s s' := by
  induction hclean with
  | done => exact ⟨_, rfl, hs, hq, rfl⟩
  | @next s s₁ s₂ he rest r hone hadds _ ih =>
    obtain ⟨hnot, hnodup⟩ := List.nodup_cons.mp hnodup
    obtain ⟨hhead, hrest⟩ := List.forall_mem_cons.mp hrest
    obtain ⟨s', hone', hcleaned, hmem⟩ := cleanOne_cleaned hs hq prefixes hhead
    obtain rfl := Option.some_inj.mp (hone.symm.trans hone')
    obtain ⟨hadded, hmem'⟩ := hadds.cleaned hcleaned.kept hcleaned.queued
    obtain ⟨s', hr, hkept, hqueued, hcalls⟩ := ih hadded.kept hadded.queued
      (fun x hx => hmem' h x (hmem x (fun heq => hnot (heq ▸ hx)) h (hrest x hx))) hnodup
    exact ⟨s', hr, hkept, hqueued, hcalls.trans (hadded.calls.trans hcleaned.calls)⟩
  | faults hnone =>
    obtain ⟨hhead, -⟩ := List.forall_mem_cons.mp hrest
    obtain ⟨s', hone', -⟩ := cleanOne_cleaned hs hq prefixes hhead
    exact nomatch hnone.symm.trans hone'

/-! ### The timer thread -/

/-- Outside of callbacks the timer thread holds nothing. -/
theorem quiet_heldBy {call : TimerCall} (hbefore : ∀ timer x, s.timerCall ≠ .owning timer x) (hafter : ∀ timer x, call ≠ .owning timer x)
    (x : Addr) (a : Holder T) : State.HeldBy { s with timerCall := call } x a ↔ s.HeldBy x a := by
  cases a with
  | timer => exact ⟨fun ⟨timer, h⟩ => absurd h (hafter timer x), fun ⟨timer, h⟩ => absurd h (hbefore timer x)⟩
  | _ => exact Iff.rfl

theorem queue_sound (hs : s.Kept) (hq : s.Queued) (hidle : s.timerCall = .idle) {timers : List Addr} (hnodup : timers.Nodup)
    (hall : ∀ timer ∈ timers, ∃ t, s.timers timer = some t ∧ t.queued = false) : (s.queue timers).Kept ∧ (s.queue timers).Queued := by
  obtain ⟨hrun, hran⟩ := hq.idle hidle
  have harmed : ∀ y u, s.timers y = some u → u.queued = false := by
    intro y u hu
    rw [Bool.eq_false_iff]
    intro hqueued
    have hin := (hq.queued y u hu).mp hqueued
    rw [hrun, hran] at hin
    simp at hin
  have hnow : ∀ y u, s.timers y = some u → (s.queue timers).timers y = some (if y ∈ timers then { u with queued := true } else u) := by
    intro y u hu
    show (s.timers y).map _ = _
    rw [hu, Option.map_some]
  have hbefore : ∀ y u', (s.queue timers).timers y = some u' → ∃ u, s.timers y = some u ∧ u'.he = u.he ∧ (u'.queued = true ↔ y ∈ timers) := by
    intro y u' hu'
    obtain ⟨u, hu, rfl⟩ := Option.map_eq_some_iff.mp hu'
    refine ⟨u, hu, ?_⟩
    split_ifs with hin
    · exact ⟨rfl, fun _ => hin, fun _ => rfl⟩
    · exact ⟨rfl, fun hqueued => absurd ((harmed y u hu).symm.trans hqueued) nofun, fun h => absurd h hin⟩
  have hheldBy : ∀ x (a : Holder T), (s.queue timers).HeldBy x a ↔ s.HeldBy x a :=
    @quiet_heldBy T V F s .calling (by rw [hidle]; nofun) nofun
  constructor
  · refine ⟨hs.nodup, fun x a ha => ?_, fun x a b ha hb => hs.one x a b ((hheldBy x a).mp ha) ((hheldBy x b).mp hb),
      fun x e hx => ?_, fun y u' hu' _ => ?_⟩
    · obtain ⟨e, hel, hfits⟩ := hs.held x a ((hheldBy x a).mp ha)
      refine ⟨e, hel, ?_⟩
      cases a with
      | bucket h =>
        obtain ⟨hwait, hcalled, u, hu, hhe, -⟩ := hfits
        refine ⟨hwait, hcalled, _, hnow _ u hu, ?_, ?_⟩
        · split_ifs
          · exact hhe
          · exact hhe
        · split_ifs with hin
          · exact fun _ => hin
          · exact fun hqueued => absurd ((harmed _ u hu).symm.trans hqueued) nofun
      | waiting v =>
        obtain ⟨hwait, hcall⟩ := hfits
        refine ⟨hwait, fun hc => ?_⟩
        obtain ⟨u, -, -, -, -, hin⟩ := hcall hc
        rw [hrun] at hin
        exact nomatch hin
      | holding => trivial
      | timer => trivial
    · obtain ⟨a, ha⟩ := hs.owned x e hx
      exact ⟨a, (hheldBy x a).mpr ha⟩
    · obtain ⟨u, hu, hhe, -⟩ := hbefore y u' hu'
      rw [hhe]
      obtain ⟨e, hel, htimer, hheld⟩ := hs.leads y u hu (.inl (harmed y u hu))
      exact ⟨e, hel, htimer, hheld⟩
  · have hnot : ∀ y, y ∉ (s.queue timers).ran := fun y hy => by
      rw [show (s.queue timers).ran = [] from hran] at hy
      exact nomatch hy
    refine ⟨fun y u' hu' => ?_, fun y hy => ?_, ⟨hnodup, fun y _ => hnot y⟩, fun y u' hy => absurd hy (hnot y), ?_, nofun⟩
    · obtain ⟨u, -, -, hin⟩ := hbefore y u' hu'
      exact hin.trans (or_iff_left (hnot y)).symm
    · obtain ⟨u, hu, -⟩ := hall y (hy.resolve_right (hnot y))
      rw [hnow y u hu]
      nofun
    · rintro y (h | ⟨x, h⟩)
      · exact nomatch h
      · exact nomatch h

/-- A callback finds its element. If a call waits for it, it leaves the element to the call, else it takes
the element out of its bucket. -/
theorem callback_sound (hs : s.Kept) (hq : s.Queued) (hcalling : s.timerCall = .calling) {timer : Addr} {rest : List Addr}
    (hrun : s.run = timer :: rest) : ∃ s', s.callback timer rest = some s' ∧ s'.Kept ∧ s'.Queued := by
  have hin : timer ∈ s.run := by
    rw [hrun]
    exact List.mem_cons_self
  obtain ⟨tm, htm⟩ := Option.ne_none_iff_exists'.mp (hq.listed timer (.inl hin))
  have hqueued : tm.queued = true := (hq.queued timer tm htm).mpr (.inl hin)
  obtain ⟨e, hel, htimer, hheld⟩ := hs.leads timer tm htm (.inr hin)
  obtain ⟨hdistinct, hran⟩ := hq.distinct
  rw [hrun] at hdistinct
  obtain ⟨hnot, hnodup⟩ := List.nodup_cons.mp hdistinct
  have hnotRan : timer ∉ s.ran := hran timer hin
  have hpair : ∀ y u, y = timer → s.timers y = some u → u.he = tm.he := by
    rintro y u rfl hu
    rw [Option.some_inj.mp (hu.symm.trans htm)]
  have hothers : ∀ y, ¬y = timer → ¬s.Leads y tm.he := by
    rintro y hne ⟨e', hel', rfl, -⟩
    obtain rfl := Option.some_inj.mp (hel.symm.trans hel')
    exact hne htimer
  have hrest : ∀ y, ¬y = timer → (y ∈ rest ↔ y ∈ s.run) := by
    intro y hne
    rw [hrun, List.mem_cons]
    exact (or_iff_right hne).symm
  -- What the queue is after the callback, if its timer is stopped or in it.
  have hqueues : ∀ call : TimerCall, tm.stopAfterRun = true ∨ call = .owning timer tm.he → call ≠ .idle →
      (∀ y, call = .stopping y ∨ (∃ x, call = .owning y x) → y = timer) → Queues s.timers rest (timer :: s.ran) call := by
    intro call hstopped hne hown
    refine ⟨fun y u hu => ?_, fun y hy => ?_, ⟨hnodup, fun y hy => ?_⟩, fun y u hy hu => ?_, fun y hy => ?_, fun h => absurd h hne⟩
    · rw [hq.queued y u hu, hrun, List.mem_cons, List.mem_cons]
      tauto
    · refine hq.listed y ?_
      rw [hrun, List.mem_cons]
      rw [List.mem_cons] at hy
      tauto
    · rw [List.mem_cons]
      rintro (rfl | h)
      · exact hnot hy
      · exact hran y (by rw [hrun]; exact List.mem_cons_of_mem _ hy) h
    · rcases List.mem_cons.mp hy with rfl | hy
      · obtain rfl := Option.some_inj.mp (hu.symm.trans htm)
        exact hstopped.imp_right fun h => .inr ⟨_, h⟩
      · rcases hq.stopped y u hy hu with h | h | ⟨x, h⟩
        · exact .inl h
        · exact nomatch h.symm.trans hcalling
        · exact nomatch h.symm.trans hcalling
    · obtain rfl := hown y hy
      exact List.mem_cons_self
  rw [State.callback, htm, Option.bind_some, State.cacheTimer]
  show ∃ s', (s.elements tm.he).map _ = some s' ∧ _
  rw [hel, Option.map_some]
  have hquiet : ∀ y x, s.timerCall ≠ .owning y x := by rw [hcalling]; nofun
  have hgone : ∀ y u, y = timer → s.timers y = some u → ¬(u.queued = false ∨ y ∈ rest) := by
    rintro y u rfl hu (hidle | hy)
    · rw [Option.some_inj.mp (hu.symm.trans htm), hqueued] at hidle
      exact nomatch hidle
    · exact hnot hy
  rcases hheld with ⟨h, hbucket⟩ | ⟨hcalled, t, hwaiting⟩
  · obtain ⟨e', hel', hwait, -⟩ := hs.held tm.he _ hbucket
    obtain rfl := Option.some_inj.mp (hel.symm.trans hel')
    have hnobody := unlink_nobody hs hbucket
    refine ⟨{ s.unlink tm.he with run := rest, ran := timer :: s.ran, timerCall := .owning timer tm.he }, ?_, ?_, ?_⟩
    · rw [if_neg (by rw [hwait]; nofun)]
      rfl
    · refine State.Touches.kept (?_ : State.Touches s _ tm.he (· = timer)) hs (.inr ⟨.timer, e, hel, trivial, fun b => ?_⟩) ?_
      · refine ⟨fun x hx => rfl, fun x hx a => ?_, fun y hne => rfl, hrest, nodup_unlink, hpair, hothers⟩
        cases a with
        | timer => exact ⟨fun ⟨y, h⟩ => absurd (TimerCall.owning.inj h).2.symm hx, fun ⟨y, h⟩ => absurd h (hquiet y x)⟩
        | bucket h => exact unlink_heldBy hx (.bucket h)
        | waiting t => exact Iff.rfl
        | holding t => exact Iff.rfl
      · constructor
        · intro hb
          cases b with
          | timer => rfl
          | bucket h => exact absurd hb (hnobody (.bucket h))
          | waiting t => exact absurd hb (hnobody (.waiting t))
          | holding t => exact absurd hb (hnobody (.holding t))
        · rintro rfl
          exact ⟨timer, rfl⟩
      · intro y u hy hu hpending
        exact absurd hpending (hgone y u hy hu)
    · refine hqueues (.owning timer tm.he) (.inr rfl) nofun ?_
      rintro y (h | ⟨x, h⟩)
      · exact nomatch h
      · exact (TimerCall.owning.inj h).1.symm
  · obtain ⟨e', hel', hwait, hcall⟩ := hs.held tm.he _ hwaiting
    obtain rfl := Option.some_inj.mp (hel.symm.trans hel')
    obtain ⟨u, hu, -, -, hstop, -⟩ := hcall hcalled
    rw [htimer] at hu
    obtain rfl := Option.some_inj.mp (htm.symm.trans hu)
    refine ⟨State.setElement { s with run := rest, ran := timer :: s.ran } tm.he (some { e with called := true }), ?_, ?_, ?_⟩
    · rw [if_pos hwait]
    · have helement : Function.update s.elements tm.he (some { e with called := true }) tm.he = some { e with called := true } :=
        Function.update_self ..
      refine State.Touches.kept (?_ : State.Touches s _ tm.he (· = timer)) hs
        (.inr ⟨.waiting t, _, helement, ⟨hwait, nofun⟩, fun b => ⟨fun hb => hs.one _ _ _ hb hwaiting, ?_⟩⟩) ?_
      · exact ⟨fun x hx => Function.update_of_ne hx .., fun x hx a => Iff.rfl, fun y hne => rfl, hrest, fun h => id, hpair, hothers⟩
      · rintro rfl
        exact hwaiting
      · intro y u hy hu hpending
        exact absurd hpending (hgone y u hy hu)
    · refine hqueues s.timerCall (.inl hstop) (by rw [hcalling]; nofun) ?_
      rw [hcalling]
      rintro y (h | ⟨x, h⟩)
      · exact nomatch h
      · exact nomatch h

/-- The callback frees the element that it has. -/
theorem release_sound (hs : s.Kept) (hq : s.Queued) {timer : Addr} (howning : s.timerCall = .owning timer he) :
    ∃ s', s.release timer he = some s' ∧ s'.Kept ∧ s'.Queued := by
  have hheld : s.HeldBy he .timer := ⟨timer, howning⟩
  obtain ⟨e, hel, -⟩ := hs.held he _ hheld
  rw [State.release, hel, Option.map_some]
  refine ⟨_, rfl, ?_, ?_⟩
  · refine State.Touches.kept (?_ : State.Touches s _ he fun _ => False) hs (.inl ⟨Function.update_self .., fun a ha => ?_⟩) nofun
    · refine ⟨fun x hx => Function.update_of_ne hx .., fun x hx a => ?_, fun y hne => rfl, fun y _ => Iff.rfl, fun h => id, nofun,
        fun y _ => not_leads hs hheld nofun (fun _ _ _ => nofun) y⟩
      cases a with
      | timer => exact ⟨nofun, fun ⟨y, h⟩ => absurd (TimerCall.owning.inj (howning.symm.trans h)).2.symm hx⟩
      | bucket h => exact Iff.rfl
      | waiting t => exact Iff.rfl
      | holding t => exact Iff.rfl
    · cases a with
      | timer => exact nomatch ha
      | bucket h => exact nomatch hs.one he (.bucket h) .timer ha hheld
      | waiting t => exact nomatch hs.one he (.waiting t) .timer ha hheld
      | holding t => exact nomatch hs.one he (.holding t) .timer ha hheld
  · refine ⟨hq.queued, hq.listed, hq.distinct, fun y u hy hu => ?_, fun y h => hq.calling y ?_, nofun⟩
    · rcases hq.stopped y u hy hu with h | h | ⟨x, h⟩
      · exact .inl h
      · exact nomatch h.symm.trans howning
      · exact .inr (.inl (by rw [(TimerCall.owning.inj (howning.symm.trans h)).1]))
    · rcases h with h | ⟨x, h⟩
      · exact .inr ⟨he, by rw [howning, TimerCall.stopping.inj h]⟩
      · exact nomatch h

theorem stopSelf_sound (hs : s.Kept) (hq : s.Queued) {timer : Addr} (hstopping : s.timerCall = .stopping timer) :
    ∃ s', s.stopSelf timer = some s' ∧ s'.Kept ∧ s'.Queued := by
  have hran := hq.calling timer (.inl hstopping)
  obtain ⟨t, ht⟩ := Option.ne_none_iff_exists'.mp (hq.listed timer (.inr hran))
  have hqueued : t.queued = true := (hq.queued timer t ht).mpr (.inr hran)
  rw [State.stopSelf, timerStop_queued ht hqueued, Option.map_some]
  refine ⟨_, rfl, ?_, ?_⟩
  · have hstopped := stop_kept hs ht
    have hheldBy := @quiet_heldBy T V F s .calling (by rw [hstopping]; nofun) nofun
    refine ⟨hs.nodup, fun x a ha => hstopped.held x a ((hheldBy x a).mp ha),
      fun x a b ha hb => hs.one x a b ((hheldBy x a).mp ha) ((hheldBy x b).mp hb), fun x e hx => ?_, fun y u hu hpending => ?_⟩
    · obtain ⟨a, ha⟩ := hs.owned x e hx
      exact ⟨a, (hheldBy x a).mpr ha⟩
    · obtain ⟨e, hel, htimer, hheld⟩ := hstopped.leads y u hu hpending
      exact ⟨e, hel, htimer, hheld⟩
  · have hstopped := queues_stop hq ht
    refine ⟨hstopped.queued, hstopped.listed, hstopped.distinct, fun y u hy hu => ?_, ?_, nofun⟩
    · by_cases hne : y = timer
      · subst hne
        obtain rfl := Option.some_inj.mp ((show Function.update s.timers y _ y = _ from Function.update_self ..).symm.trans hu)
        exact .inl rfl
      · rcases hstopped.stopped y u hy hu with h | h | ⟨x, h⟩
        · exact .inl h
        · exact absurd (TimerCall.stopping.inj (hstopping.symm.trans h)).symm hne
        · exact nomatch hstopping.symm.trans h
    · rintro y (h | ⟨x, h⟩)
      · exact nomatch h
      · exact nomatch h

/-- After the callbacks all their timers are stopped, and freed. -/
theorem process_sound (hs : s.Kept) (hq : s.Queued) (hcalling : s.timerCall = .calling) (hrun : s.run = []) :
    s.process.Kept ∧ s.process.Queued := by
  have hnow : ∀ y u, s.process.timers y = some u ↔ s.timers y = some u ∧ y ∉ s.ran := by
    intro y u
    show (if y ∈ s.ran then _ else _) = _ ↔ _
    by_cases hin : y ∈ s.ran
    · obtain ⟨t, ht⟩ := Option.ne_none_iff_exists'.mp (hq.listed y (.inr hin))
      have hstop : t.stopAfterRun = true := by
        rcases hq.stopped y t hin ht with h | h | ⟨x, h⟩
        · exact h
        · exact nomatch h.symm.trans hcalling
        · exact nomatch h.symm.trans hcalling
      rw [if_pos hin, ht, Option.bind_some, if_pos hstop]
      exact ⟨nofun, fun h => absurd hin h.2⟩
    · rw [if_neg hin]
      exact (and_iff_left hin).symm
  have hidle : ∀ y u, s.timers y = some u → y ∉ s.ran → u.queued = false := by
    intro y u hu hnot
    rw [Bool.eq_false_iff]
    intro hqueued
    have hin := (hq.queued y u hu).mp hqueued
    rw [hrun] at hin
    exact hnot (hin.resolve_left nofun)
  have hheldBy : ∀ x (a : Holder T), s.process.HeldBy x a ↔ s.HeldBy x a :=
    @quiet_heldBy T V F s .idle (by rw [hcalling]; nofun) nofun
  constructor
  · refine ⟨hs.nodup, fun x a ha => ?_, fun x a b ha hb => hs.one x a b ((hheldBy x a).mp ha) ((hheldBy x b).mp hb),
      fun x e hx => ?_, fun y u hu _ => ?_⟩
    · obtain ⟨e, hel, hfits⟩ := hs.held x a ((hheldBy x a).mp ha)
      refine ⟨e, hel, ?_⟩
      cases a with
      | bucket h =>
        obtain ⟨hwait, hcalled, u, hu, hhe, hpending⟩ := hfits
        have hnot : e.timer ∉ s.ran := fun hin => by
          have hqueued := hpending ((hq.queued _ u hu).mpr (.inr hin))
          rw [hrun] at hqueued
          exact nomatch hqueued
        refine ⟨hwait, hcalled, u, (hnow _ u).mpr ⟨hu, hnot⟩, hhe, fun hqueued => ?_⟩
        exact absurd ((hidle _ u hu hnot).symm.trans hqueued) nofun
      | waiting v =>
        obtain ⟨hwait, hcall⟩ := hfits
        refine ⟨hwait, fun hc => ?_⟩
        obtain ⟨u, -, -, -, -, hin⟩ := hcall hc
        rw [hrun] at hin
        exact nomatch hin
      | holding => trivial
      | timer => trivial
    · obtain ⟨a, ha⟩ := hs.owned x e hx
      exact ⟨a, (hheldBy x a).mpr ha⟩
    · obtain ⟨hu, hnot⟩ := (hnow y u).mp hu
      obtain ⟨e, hel, htimer, hheld⟩ := hs.leads y u hu (.inl (hidle y u hu hnot))
      exact ⟨e, hel, htimer, hheld⟩
  · have hempty : ∀ y, y ∉ s.process.run := fun y hy => by
      rw [show s.process.run = [] from hrun] at hy
      exact nomatch hy
    refine ⟨fun y u hu => ?_, fun y hy => ?_, ⟨?_, fun y hy => absurd hy (hempty y)⟩, fun y u hy => ?_, ?_, fun _ => ⟨hrun, rfl⟩⟩
    · obtain ⟨hu, hnot⟩ := (hnow y u).mp hu
      rw [hidle y u hu hnot]
      exact ⟨nofun, fun hin => absurd hin (by rintro (h | h); exact hempty y h; exact nomatch h)⟩
    · rcases hy with hy | hy
      · exact absurd hy (hempty y)
      · exact nomatch hy
    · rw [show s.process.run = [] from hrun]
      exact List.nodup_nil
    · exact nomatch hy
    · rintro y (h | ⟨x, h⟩)
      · exact nomatch h
      · exact nomatch h

end

/-! ### All steps -/

theorem lookUp_sound (seed : ℕ) (hs : s.Kept) (hq : s.Queued) {t : T} {purpose : Purpose} {key : Key}
    (hidle : (s.calls t).bind Call.element = none) : ∃ s', s.lookUp seed t purpose key = some s' ∧ s'.Kept ∧ s'.Queued := by
  rw [State.lookUp]
  cases hfind : s.find seed key with
  | none => exact ⟨_, rfl, setCall_kept hs hidle rfl, hq⟩
  | some he => exact takeOut_sound hs hq (h := hashToBucket (hashFunc seed key)) (List.mem_of_find?_eq_some hfind) hidle

/-- No step accesses memory that is not allocated, and all keep every element with its one holder. -/
theorem acts_sound {seed : ℕ} {a : Action T V F} {r : Option (State T V F)} (hs : s.Kept) (hq : s.Queued) (ha : Acts seed s a r) :
    ∃ s', r = some s' ∧ s'.Kept ∧ s'.Queued := by
  cases ha with
  | get hcall => exact lookUp_sound seed hs hq (by rw [hcall]; rfl)
  | del hcall => exact ⟨_, rfl, setCall_kept hs (by rw [hcall]; rfl) rfl, hq⟩
  | delNext hcall => exact lookUp_sound seed hs hq (by rw [hcall]; rfl)
  | resume hcall => exact resume_sound hs hq hcall
  | finish hcall => exact finish_sound hs hq hcall
  | @add item maxkeys he timer hhe htimer => exact ⟨_, rfl, add_kept seed item maxkeys hs hhe htimer, add_queued seed item maxkeys hq htimer⟩
  | clean hcall => exact ⟨_, rfl, setCall_kept hs (by rw [hcall]; rfl) rfl, hq⟩
  | @cleanNext t h prefixes r hcall _ hclean =>
    obtain ⟨s', rfl, hkept, hqueued, hcalls⟩ := hclean.cleaned hs hq (fun x hx => hx) (hs.nodup h)
    exact ⟨_, rfl, setCall_kept hkept (by rw [hcalls, hcall]; rfl) rfl, hqueued⟩
  | cleanEnd hcall => exact ⟨_, rfl, setCall_kept hs (by rw [hcall]; rfl) rfl, hq⟩
  | queue hidle hnodup hall => exact ⟨_, rfl, queue_sound hs hq hidle hnodup hall⟩
  | callback hcalling hrun => exact callback_sound hs hq hcalling hrun
  | release howning => exact release_sound hs hq howning
  | stopSelf hstopping => exact stopSelf_sound hs hq hstopping
  | process hcalling hrun => exact ⟨_, rfl, process_sound hs hq hcalling hrun⟩

end Pclsync.Cache
