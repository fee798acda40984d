import Pclsync.Session.CryptoSession

/-! What a stopped session leaves: no look-up uses a key that is not there, and the cache has no key,
unless a look-up comes to the lock after the stop, a release to the cache after it was cleaned, or a timer
is called while it is. -/
namespace Pclsync.Session
open Lib.Transition

/-- What a look-up that has the lock has read of `crypto_started_l`. -/
def Call.seen : Call → Option Bool
  | .getSym _ b _ | .fetch _ b _ | .fetchTask _ b | .decrypt _ b _ | .check _ b _ | .addSym _ b _ | .unlock _ b _ => some b
  | _ => none

/-- No stop is about to clean the cache. -/
def State.Swept (s : State) : Prop := ∀ c ∈ s.calls, c ≠ .stopClean

instance (s : State) : Decidable s.Swept := inferInstanceAs (Decidable (∀ c ∈ s.calls, c ≠ .stopClean))

structure Sound (s : State) : Prop where
  privkey : s.privkey = s.startedL
  seen : ∀ c ∈ s.calls, ∀ b, c.seen = some b → b = true ∧ s.startedL = true
  returned : ∀ l b res, Call.returned l (some b) res ∈ s.calls → b = true
  cache : s.startedL = false → s.Swept → s.cache = []

/-- What goes wrong: a look-up takes the lock while nothing is started, a release adds to the cache of a
stopped session, or an element is expiring while a stop cleans the cache. -/
def Drift (s : State) : Event → Prop
  | .getLock _ => s.startedL = false
  | .releaseAdd _ => s.startedL = false ∧ s.Swept
  | .stopClean t => s.startedL = false ∧ (s.setCall t .stopRefresh).Swept ∧ ∃ e ∈ s.cache, e.expiring = true
  | _ => False

instance (s : State) (e : Event) : Decidable (Drift s e) := by
  cases e <;> unfold Drift <;> infer_instance

variable {s s' : State} {t : ℕ} {c d : Call} {k : List Entry}

theorem reads_iff (c : Call) : c.reads = false ↔ c.seen = none := by cases c <;> simp [Call.reads, Call.seen]

theorem free_iff : s.free = true ↔ ∀ c ∈ s.calls, c.seen = none := by
  unfold State.free
  rw [List.all_eq_true]
  exact forall₂_congr fun c _ => by rw [Bool.not_eq_true', reads_iff]

/-- Where the thread that moves is not about to clean, nobody else stops being. -/
theorem Swept.of_setCall (h : (s.setCall t d).Swept) (ht : s.calls[t]? = some c) (hc : c ≠ .stopClean) : s.Swept := by
  intro d hd hclean
  obtain ⟨u, hu⟩ := List.mem_iff_getElem?.mp hd
  have hne : t ≠ u := by
    rintro rfl
    cases ht.symm.trans hu
    exact hc hclean
  exact h d (List.mem_iff_getElem?.mpr ⟨u, (List.getElem?_set_ne hne).trans hu⟩) hclean

/-- One thread goes on, and may change the cache. -/
theorem Sound.move (h : Sound s) (ht : s.calls[t]? = some c) (hc : c ≠ .stopClean)
    (hseen : ∀ b, d.seen = some b → b = true ∧ s.startedL = true)
    (hreturned : ∀ l b res, d = .returned l (some b) res → b = true)
    (hcache : s.startedL = false → s.Swept → s.cache = [] → k = []) : Sound ({ s with cache := k }.setCall t d) where
  privkey := h.privkey
  seen := by
    intro d hd
    rcases List.mem_or_eq_of_mem_set hd with hd | rfl
    · exact h.seen d hd
    · exact hseen
  returned := by
    intro l b res hd
    rcases List.mem_or_eq_of_mem_set hd with hd | hd
    · exact h.returned l b res hd
    · exact hreturned l b res hd.symm
  cache := by
    intro hstopped hswept
    have hswept : s.Swept := Swept.of_setCall hswept ht hc
    exact hcache hstopped hswept (h.cache hstopped hswept)

/-- One thread goes on, and has not come to the lock. -/
theorem Sound.setCall (h : Sound s) (ht : s.calls[t]? = some c) (hc : c ≠ .stopClean) (hseen : d.seen = none)
    (hreturned : ∀ l b res, d ≠ .returned l (some b) res) : Sound (s.setCall t d) :=
  h.move (k := s.cache) ht hc (fun b hb => by rw [hseen] at hb; cases hb) (fun l b res hr => absurd hr (hreturned l b res))
    fun _ _ => id

/-- A look-up goes on that has the lock. -/
theorem Sound.locked {b : Bool} (h : Sound s) (ht : s.calls[t]? = some c) (hc : c.seen = some b) (hseen : d.seen = some b) :
    Sound (s.setCall t d) := by
  have hstarted := h.seen c (List.mem_of_getElem? ht) b hc
  refine h.move (k := s.cache) ht ?_ ?_ ?_ fun _ _ => id
  · rintro rfl
    cases hc
  · intro b' hb'
    rw [hseen] at hb'
    cases hb'
    exact hstarted
  · rintro l b' res rfl
    cases hseen

theorem branch_seen (l : LookUp) (b : Bool) : (l.branch b).seen = some b := by
  unfold LookUp.branch
  split
  · rfl
  · split <;> rfl

theorem Sound.step {e : Event} (h : Sound s) (hstep : Session.step s e s') (hsafe : ¬Drift s e) : Sound s' := by
  unfold Session.step at hstep
  cases e with
  | start t ok =>
    simp only [State.run] at hstep
    split at hstep
    next ht =>
      split at hstep
      next hfree =>
        split at hstep
        · cases hstep
          exact h
        · cases hstep
          have hfree := free_iff.mp hfree
          refine ⟨rfl, ?_, ?_, nofun⟩
          · intro d hd b hb
            rcases List.mem_or_eq_of_mem_set hd with hd | rfl
            · rw [hfree d hd] at hb
              cases hb
            · cases hb
          · intro l b res hd
            rcases List.mem_or_eq_of_mem_set hd with hd | hd
            · exact h.returned l b res hd
            · cases hd
      · cases hstep
    · cases hstep
  | startUn t =>
    simp only [State.run] at hstep
    split at hstep
    next ht =>
      cases hstep
      have hsound := h.setCall (d := .idle) ht nofun rfl nofun
      exact { hsound with }
    · cases hstep
  | stop t =>
    simp only [State.run] at hstep
    split at hstep
    next ht =>
      cases hstep
      have hsound := h.setCall (d := .stopLock) ht nofun rfl nofun
      exact { hsound with }
    · cases hstep
  | stopLock t =>
    simp only [State.run] at hstep
    split at hstep
    next ht =>
      split at hstep
      next hfree =>
        split at hstep
        · cases hstep
          exact h.setCall ht nofun rfl nofun
        · cases hstep
          have hfree := free_iff.mp hfree
          refine ⟨rfl, ?_, ?_, ?_⟩
          · intro d hd b hb
            rcases List.mem_or_eq_of_mem_set hd with hd | rfl
            · rw [hfree d hd] at hb
              cases hb
            · cases hb
          · intro l b res hd
            rcases List.mem_or_eq_of_mem_set hd with hd | hd
            · exact h.returned l b res hd
            · cases hd
          · intro _ hswept
            -- this stop is still to clean the cache
            exact absurd rfl (hswept _ (List.mem_set (List.getElem?_eq_some_iff.mp ht).1 _))
      · cases hstep
    · cases hstep
  | stopClean t =>
    simp only [State.run] at hstep
    split at hstep
    next ht =>
      cases hstep
      refine ⟨h.privkey, ?_, ?_, ?_⟩
      · intro d hd
        rcases List.mem_or_eq_of_mem_set hd with hd | rfl
        · exact h.seen d hd
        · exact nofun
      · intro l b res hd
        rcases List.mem_or_eq_of_mem_set hd with hd | hd
        · exact h.returned l b res hd
        · cases hd
      · intro hstopped hswept
        unfold Drift at hsafe
        refine List.filter_eq_nil_iff.mpr fun e he hexp => hsafe ⟨hstopped, hswept, e, he, hexp⟩
    · cases hstep
  | stopReturn t =>
    simp only [State.run] at hstep
    split at hstep
    next ht =>
      cases hstep
      exact h.setCall ht nofun rfl nofun
    · cases hstep
  | lookUp t l =>
    simp only [State.run] at hstep
    split at hstep
    next ht =>
      split at hstep
      · cases hstep
        exact h.setCall ht nofun rfl nofun
      · split at hstep <;> cases hstep <;> exact h.setCall ht nofun rfl nofun
    · cases hstep
  | getCached t =>
    simp only [State.run] at hstep
    split at hstep
    next l ht =>
      split at hstep
      next cache hget =>
        cases hstep
        refine h.move ht nofun nofun nofun fun _ _ hnil => ?_
        rw [hnil] at hget
        cases hget
      · cases hstep
        exact h.setCall ht nofun rfl nofun
    · cases hstep
  | getLock t =>
    simp only [State.run] at hstep
    split at hstep
    next l ht =>
      cases hstep
      have hstarted : s.startedL = true := eq_true_of_ne_false hsafe
      refine h.move (k := s.cache) ht nofun ?_ ?_ fun _ _ => id
      · intro b hb
        rw [branch_seen, hstarted] at hb
        cases hb
        exact ⟨rfl, hstarted⟩
      · intro l' b res heq
        have := branch_seen l s.startedL
        rw [heq] at this
        cases this
    · cases hstep
  | getSym t =>
    simp only [State.run] at hstep
    split at hstep
    next l b sym ht =>
      have hstarted := h.seen _ (List.mem_of_getElem? ht) b rfl
      split at hstep
      next cache hget =>
        cases hstep
        refine h.move ht nofun ?_ nofun fun hstopped => absurd (hstarted.2.symm.trans hstopped) nofun
        rintro b' ⟨⟩
        exact hstarted
      · cases hstep
        exact h.locked ht rfl rfl
    · cases hstep
  | fetch t bad =>
    simp only [State.run] at hstep
    split at hstep
    next l b sym ht => split at hstep <;> cases hstep <;> exact h.locked ht rfl rfl
    · cases hstep
  | fetchTask t task =>
    simp only [State.run] at hstep
    split at hstep
    next l b ht =>
      split at hstep
      · cases hstep
        exact h.locked ht rfl rfl
      · cases hstep
        exact h.locked ht rfl rfl
      · split at hstep <;> cases hstep
        exact h.locked ht rfl rfl
    · cases hstep
  | decrypt t bad =>
    simp only [State.run] at hstep
    split at hstep
    next l b sym ht => split at hstep <;> cases hstep <;> exact h.locked ht rfl rfl
    · cases hstep
  | check t ok =>
    simp only [State.run] at hstep
    split at hstep
    next l b sym ht =>
      split at hstep
      · cases hstep
        exact h.locked ht rfl rfl
      · split at hstep <;> cases hstep <;> exact h.locked ht rfl rfl
    · cases hstep
  | addSym t =>
    simp only [State.run] at hstep
    split at hstep
    next l b sym ht =>
      cases hstep
      have hstarted := h.seen _ (List.mem_of_getElem? ht) b rfl
      refine h.move ht nofun ?_ nofun fun hstopped => absurd (hstarted.2.symm.trans hstopped) nofun
      rintro b' ⟨⟩
      exact hstarted
    · cases hstep
  | unlock t =>
    simp only [State.run] at hstep
    split at hstep
    next l b res ht =>
      cases hstep
      have hstarted := h.seen _ (List.mem_of_getElem? ht) b rfl
      refine h.move (k := s.cache) ht nofun nofun ?_ fun _ _ => id
      rintro l' b' res' ⟨⟩
      exact hstarted.1
    · cases hstep
  | release t =>
    simp only [State.run] at hstep
    split at hstep
    next l b ht => split at hstep <;> cases hstep <;> exact h.setCall ht nofun rfl nofun
    · cases hstep
  | releaseAdd t =>
    simp only [State.run] at hstep
    split at hstep
    next l ht =>
      cases hstep
      exact h.move ht nofun nofun nofun fun hstopped hswept => absurd ⟨hstopped, hswept⟩ hsafe
    · cases hstep
  | drop t =>
    simp only [State.run] at hstep
    split at hstep
    next ht =>
      cases hstep
      exact h.setCall ht nofun rfl nofun
    · cases hstep
  | fire i =>
    simp only [State.run] at hstep
    split at hstep
    next e hi =>
      cases hstep
      refine { h with cache := fun hstopped hswept => ?_ }
      rw [h.cache hstopped hswept] at hi
      cases hi
    · cases hstep
  | expire i =>
    simp only [State.run] at hstep
    split at hstep
    next e hi =>
      split at hstep <;> cases hstep
      refine { h with cache := fun hstopped hswept => ?_ }
      rw [h.cache hstopped hswept] at hi
      cases hi
    · cases hstep

/-! ## Runs -/

/-- In `psync_cloud_crypto_stop`. -/
def Call.stops : Call → Bool
  | .stopLock | .stopClean | .stopRefresh => true
  | _ => false

/-- No look-up decrypts with a key that is not there, one that has taken the lock while nothing was
started returns the error for that, and when a session is stopped the cache has no key. -/
structure Keyless (s : State) : Prop where
  decrypts : ∀ l b sym, Call.decrypt l b sym ∈ s.calls → s.privkey = true
  notStarted : ∀ l res, Call.returned l (some false) res ∈ s.calls → res = some .notStarted
  empty : s.startedL = false → (∀ c ∈ s.calls, c.stops = false) → s.cache = []

theorem sound_initial (h : Initial s) : Sound s := by
  obtain ⟨-, hstarted, hprivkey, hcache, hidle⟩ := h
  refine ⟨hprivkey.trans hstarted.symm, ?_, ?_, fun _ _ => hcache⟩
  · intro c hc b hb
    rw [hidle c hc] at hb
    cases hb
  · intro l b res hc
    cases hidle _ hc

theorem Sound.keyless (h : Sound s) : Keyless s where
  decrypts := fun l b sym hc => h.privkey.trans (h.seen _ hc b rfl).2
  notStarted := fun l res hc => absurd (h.returned l false res hc) nofun
  empty := by
    intro hstopped hnone
    refine h.cache hstopped fun c hc hclean => ?_
    have := hnone c hc
    rw [hclean] at this
    cases this

/-- A stopped session leaves no keys in every run in which no look-up takes the lock while nothing is
started, no release adds to the cache after the stop has cleaned it, and no element is expiring then. -/
theorem keyless_of_avoiding (h : Reachable Initial (Avoiding Session.step Drift) s) : Keyless s :=
  (h.invariant (fun _ => sound_initial) fun _ _ _ hs hstep => hs.step hstep.1 hstep.2).keyless

def nothingStarted : State :=
  { startedUn := false, startedL := false, privkey := false, cache := [], calls := [.idle, .idle] }

theorem nothingStarted_initial : Initial nothingStarted := ⟨rfl, rfl, rfl, rfl, by decide⟩

/-- A session is started, and a look-up of an encoder has passed the first test and found nothing in the
cache. -/
def started : List Event :=
  [.start 0 true, .startUn 0, .lookUp 1 ⟨.folderEncoder, 5, 0⟩, .getCached 1]

/-- It goes on to get an encoder, which is being given back. -/
def found : List Event :=
  [.getLock 1, .getSym 1, .fetch 1 none, .decrypt 1 none, .check 1 true, .addSym 1, .unlock 1, .release 1]

def stopped : List Event := [.stop 0, .stopLock 0, .stopClean 0, .stopReturn 0]

/-- The encoder and its key are in the cache when the session is stopped. -/
theorem keyless_after_stop : Keyless nothingStarted := by
  refine keyless_of_avoiding (Reachable.guarded (started ++ found ++ [.releaseAdd 1] ++ stopped) (.start nothingStarted_initial) ?_)
  decide

/-- A look-up is about to decrypt with a key that is not there. -/
def decryptsStopped : State :=
  { startedUn := false, startedL := false, privkey := false, cache := []
    calls := [.idle, .decrypt ⟨.folderEncoder, 5, 0⟩ false (some ⟨.fkey, 5, 0⟩)] }

/-- Everybody is done, and an encoder is in the cache. -/
def encoderLeft : State :=
  { startedUn := false, startedL := false, privkey := false, cache := [⟨⟨.flde, 5, 0⟩, false⟩], calls := [.idle, .idle] }

/-- The stop comes between the two tests of a look-up, or between the test of a release and what it adds. -/
theorem keys_left : (Reachable Initial Session.step decryptsStopped ∧ ¬Keyless decryptsStopped) ∧
    Reachable Initial Session.step encoderLeft ∧ ¬Keyless encoderLeft := by
  have hdecrypts : Reachable Initial (Avoiding Session.step fun _ _ => False) decryptsStopped :=
    Reachable.foldlM (started ++ stopped ++ [.getLock 1, .getSym 1, .fetch 1 none]) (.start nothingStarted_initial)
      (by decide) fun _ _ _ => id
  have hleft : Reachable Initial (Avoiding Session.step fun _ _ => False) encoderLeft :=
    Reachable.foldlM (started ++ found ++ stopped ++ [.releaseAdd 1]) (.start nothingStarted_initial)
      (by decide) fun _ _ _ => id
  refine ⟨⟨hdecrypts.avoiding, fun h => ?_⟩, hleft.avoiding, fun h => ?_⟩
  · cases h.decrypts _ _ _ (.tail _ (.head _))
  · cases h.empty rfl (by decide)

end Pclsync.Session
