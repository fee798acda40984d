import Mathlib.Tactic.Common
import Pclsync.PageCache.SharedApi

/-! The shared connection stays in step: what is outstanding on it are the requests of its
reader, then those of the waiting threads in the order of their list, then what the sender
has sent so far. -/
namespace Pclsync.PageCache.SharedApi
open Lib.Transition

variable {T C R : Type}

/-- The requests of a thread whose responses are outstanding. -/
def Phase.mine : Phase C R → List R
  | .idle => []
  | .sending _ sent _ => sent
  | .reading _ _ todo _ => todo
  | .sharing _ sent _ => sent
  | .waiting _ sent _ => sent

/-- The thread stands in the line behind the reader of the connection. -/
def Phase.InLine (p : Phase C R) (api : C) : Prop :=
  match p with
  | .waiting capi _ none => capi = api
  | .sharing a _ _ => a = api
  | _ => False

/-- The reader of a connection may have a line behind it. -/
def Phase.Reads (p : Phase C R) : Prop :=
  match p with
  | .sending .. => False
  | _ => True

theorem Phase.Holds.eq {p : Phase C R} {a b : C} (ha : p.Holds a) (hb : p.Holds b) : a = b := by
  unfold Phase.Holds at ha hb
  split at ha <;> simp_all

theorem Phase.Holds.not_inLine {p : Phase C R} {a : C} (ha : p.Holds a) (b : C) : ¬p.InLine b := by
  unfold Phase.Holds at ha
  split at ha <;> simp_all [Phase.InLine]

theorem Phase.Holds.not_sharing {p : Phase C R} {a b : C} {sent todo : List R} (ha : p.Holds a) :
    p ≠ .sharing b sent todo := by
  rintro rfl
  exact ha

/-- Who stands in line: the waiting threads, then the sender. -/
def State.line (s : State T C R) : List T := s.sharedapiwaiters ++ s.sharedapiMutex.toList

/-- What the threads of a line have outstanding. -/
def queued (phase : T → Phase C R) (line : List T) : List (T × R) :=
  line.flatMap fun t => (phase t).mine.map (t, ·)

theorem queued_append (phase : T → Phase C R) (l l' : List T) :
    queued phase (l ++ l') = queued phase l ++ queued phase l' :=
  List.flatMap_append

theorem queued_congr {phase phase' : T → Phase C R} {l : List T} (h : ∀ t ∈ l, (phase' t).mine = (phase t).mine) :
    queued phase' l = queued phase l :=
  List.flatMap_congr fun t ht => by rw [h t ht]

/-- What is outstanding on a connection behind the requests of its reader. -/
def State.behind [DecidableEq C] (s : State T C R) (api : C) : List (T × R) :=
  if s.sharedapi = some api then queued s.phase s.line else []

structure Tidy [DecidableEq C] (s : State T C R) : Prop where
  held : ∀ {t api}, (s.phase t).Holds api → s.status api = .taken
  taken : ∀ {api}, s.status api = .taken → ∃ t, (s.phase t).Holds api
  unique : ∀ {t t' api}, (s.phase t).Holds api → (s.phase t').Holds api → t = t'
  free : ∀ {api}, s.status api = .unused ∨ s.status api = .pooled → s.outstanding api = []
  stream : ∀ {t api}, (s.phase t).Holds api → s.outstanding api = (s.phase t).mine.map (t, ·) ++ s.behind api
  shared : ∀ {api}, s.sharedapi = some api → ∃ t, (s.phase t).Holds api ∧ (s.phase t).Reads
  unshared : s.sharedapi = none → s.line = []
  line : ∀ {t}, t ∈ s.line ↔ ∃ api, (s.phase t).InLine api
  inLine : ∀ {t api}, (s.phase t).InLine api → s.sharedapi = some api
  nodup : s.line.Nodup
  mutex : ∀ {t}, s.sharedapiMutex = some t ↔ ∃ api sent todo, s.phase t = .sharing api sent todo
  passed : ∀ {t capi sent api}, s.phase t = .waiting capi sent (some (some api)) → capi = api

/-! ### What an update leaves -/

section
variable [DecidableEq T] (s : State T C R) (t : T) (p : Phase C R)

@[simp] theorem setPhase_phase (u : T) : (s.setPhase t p).phase u = if u = t then p else s.phase u := by
  simp [State.setPhase, Function.update_apply]

@[simp] theorem setPhase_status : (s.setPhase t p).status = s.status := rfl
@[simp] theorem setPhase_outstanding : (s.setPhase t p).outstanding = s.outstanding := rfl
@[simp] theorem setPhase_sharedapi : (s.setPhase t p).sharedapi = s.sharedapi := rfl
@[simp] theorem setPhase_sharedapiMutex : (s.setPhase t p).sharedapiMutex = s.sharedapiMutex := rfl
@[simp] theorem setPhase_line : (s.setPhase t p).line = s.line := rfl

variable {s t p}

theorem queued_setPhase {line : List T} (h : t ∉ line) : queued (s.setPhase t p).phase line = queued s.phase line :=
  queued_congr fun u hu => by rw [setPhase_phase, if_neg fun heq : u = t => h (heq ▸ hu)]

theorem behind_setPhase [DecidableEq C] (h : t ∉ s.line) : (s.setPhase t p).behind = s.behind :=
  funext fun a => by rw [State.behind, State.behind, setPhase_line, queued_setPhase h, setPhase_sharedapi]

end

section
variable [DecidableEq C] (s : State T C R) (api : C) (status : Status)

@[simp] theorem setStatus_status (a : C) : (s.setStatus api status).status a = if a = api then status else s.status a := by
  simp [State.setStatus, Function.update_apply]

@[simp] theorem setStatus_phase : (s.setStatus api status).phase = s.phase := rfl
@[simp] theorem setStatus_outstanding : (s.setStatus api status).outstanding = s.outstanding := rfl
@[simp] theorem setStatus_sharedapi : (s.setStatus api status).sharedapi = s.sharedapi := rfl
@[simp] theorem setStatus_sharedapiMutex : (s.setStatus api status).sharedapiMutex = s.sharedapiMutex := rfl
@[simp] theorem setStatus_line : (s.setStatus api status).line = s.line := rfl
@[simp] theorem setStatus_behind : (s.setStatus api status).behind = s.behind := rfl

variable (l : List (T × R))

@[simp] theorem setOutstanding_outstanding (a : C) :
    (s.setOutstanding api l).outstanding a = if a = api then l else s.outstanding a := by
  simp [State.setOutstanding, Function.update_apply]
@[simp] theorem setOutstanding_phase : (s.setOutstanding api l).phase = s.phase := rfl
@[simp] theorem setOutstanding_status : (s.setOutstanding api l).status = s.status := rfl
@[simp] theorem setOutstanding_sharedapi : (s.setOutstanding api l).sharedapi = s.sharedapi := rfl
@[simp] theorem setOutstanding_sharedapiMutex : (s.setOutstanding api l).sharedapiMutex = s.sharedapiMutex := rfl
@[simp] theorem setOutstanding_line : (s.setOutstanding api l).line = s.line := rfl
@[simp] theorem setOutstanding_behind : (s.setOutstanding api l).behind = s.behind := rfl

end

/-! ### A connection of one's own -/

section
variable [DecidableEq C] {s : State T C R} {t : T} {api : C}

theorem Tidy.not_inLine (h : Tidy s) (hphase : ∀ a, ¬(s.phase t).InLine a) : t ∉ s.line :=
  fun hm => (h.line.mp hm).elim hphase

theorem Tidy.not_shared (h : Tidy s) (hstatus : s.status api ≠ .taken) : s.sharedapi ≠ some api :=
  fun hs => (h.shared hs).elim fun _ hu => hstatus (h.held hu.1)

theorem setOutstanding_self : s.setOutstanding api (s.outstanding api) = s := by
  simp [State.setOutstanding]

theorem Tidy.share (h : Tidy s) (hold : (s.phase t).Holds api) (hreads : (s.phase t).Reads)
    (hnone : s.sharedapi = none) : Tidy { s with sharedapi := some api } := by
  have hline := h.unshared hnone
  have hbehind : ({ s with sharedapi := some api } : State T C R).behind = s.behind := by
    funext a
    simp [State.behind, hnone, show ({ s with sharedapi := some api } : State T C R).line = s.line from rfl, hline, queued]
  obtain ⟨held, taken, unique, free, stream, shared, unshared, line, inLine, nodup, mutex, passed⟩ := h
  refine ⟨held, taken, unique, free, ?_, ?_, nofun, line, ?_, nodup, mutex, passed⟩
  · rw [hbehind]
    exact stream
  · intro a ha
    obtain rfl : api = a := Option.some.inj ha
    exact ⟨t, hold, hreads⟩
  · intro u a hu
    exact absurd (line.mpr ⟨a, hu⟩) (by rw [hline]; exact List.not_mem_nil)

theorem Tidy.unshare (h : Tidy s) (hline : s.line = []) : Tidy { s with sharedapi := none } := by
  have hbehind : ({ s with sharedapi := none } : State T C R).behind = s.behind := by
    funext a
    simp [State.behind, hline, queued]
  obtain ⟨held, taken, unique, free, stream, shared, unshared, line, inLine, nodup, mutex, passed⟩ := h
  refine ⟨held, taken, unique, free, ?_, nofun, fun _ => hline, line, ?_, nodup, mutex, passed⟩
  · rw [hbehind]
    exact stream
  · intro u a hu
    exact absurd (line.mpr ⟨a, hu⟩) (by rw [hline]; exact List.not_mem_nil)

theorem Tidy.waiter (h : Tidy s) (hmutex : s.sharedapiMutex = none) (ht : t ∈ s.line) :
    ∃ capi sent, s.phase t = .waiting capi sent none := by
  obtain ⟨a, ha⟩ := h.line.mp ht
  unfold Phase.InLine at ha
  split at ha
  · exact ⟨_, _, by assumption⟩
  · exact absurd (h.mutex.mpr ⟨_, _, _, by assumption⟩) (by rw [hmutex]; nofun)
  · exact ha.elim

/-- The sender stands last in the line. -/
theorem Tidy.line_of_sharing (h : Tidy s) {b : C} {sent todo : List R} (hphase : s.phase t = .sharing b sent todo) :
    s.line = s.sharedapiwaiters ++ [t] := by
  rw [State.line, h.mutex.mpr ⟨_, _, _, hphase⟩]
  rfl

theorem Tidy.inStep (h : Tidy s) : InStep s where
  own := fun hphase => by
    rw [h.stream (by rw [hphase]; rfl), hphase]
    exact ⟨_, rfl⟩
  taken := fun hstatus =>
    (h.taken hstatus).elim fun t ht => ⟨t, ht, fun _ hu => h.unique hu ht⟩
  held := h.held
  pooled := fun hstatus => h.free (.inr hstatus)

end

variable [DecidableEq T] [DecidableEq C] {s : State T C R} {t : T} {api : C} {r : R}

theorem Tidy.take (h : Tidy s) {requests : List R} (hphase : s.phase t = .idle)
    (hstatus : s.status api = .unused ∨ s.status api = .pooled) :
    Tidy ((s.setStatus api .taken).setPhase t (.sending api [] requests)) := by
  have hline : t ∉ s.line := h.not_inLine (by rw [hphase]; exact fun _ => id)
  have hnone : s.behind api = [] := if_neg (h.not_shared (by rcases hstatus with h | h <;> rw [h] <;> nofun))
  have hfree := h.free hstatus
  have hshared : s.status api ≠ .taken → s.sharedapi ≠ some api := h.not_shared
  obtain ⟨held, taken, unique, free, stream, shared, unshared, line, inLine, nodup, mutex, passed⟩ := h
  constructor
  case stream =>
    intro u a hu
    rw [behind_setPhase (s := s.setStatus api .taken) hline]
    simp only [setPhase_phase, setPhase_outstanding, setStatus_phase, setStatus_outstanding, setStatus_behind] at hu ⊢
    by_cases hut : u = t
    · rw [if_pos hut] at hu ⊢
      obtain rfl : api = a := hu
      rw [hfree, hnone]
      rfl
    · rw [if_neg hut] at hu ⊢
      exact stream hu
  all_goals
    simp only [setPhase_phase, setPhase_status, setPhase_outstanding, setPhase_sharedapi, setPhase_line,
      setPhase_sharedapiMutex, setStatus_phase, setStatus_status, setStatus_outstanding, setStatus_sharedapi,
      setStatus_line, setStatus_sharedapiMutex]
  all_goals grind [Phase.Holds, Phase.Reads, Phase.InLine]

/-- The thread that holds a connection goes on with it. -/
theorem Tidy.goOn (h : Tidy s) {p : Phase C R} {rest : List (T × R)} (hold : (s.phase t).Holds api)
    (hnew : p.Holds api) (hpassed : ∀ {capi sent a}, p ≠ .waiting capi sent a) (hreads : (s.phase t).Reads → p.Reads) (hrest : rest = p.mine.map (t, ·) ++ s.behind api) :
    Tidy ((s.setOutstanding api rest).setPhase t p) := by
  have hline : t ∉ s.line := h.not_inLine hold.not_inLine
  have hsharing : ∀ {b sent todo}, s.phase t ≠ .sharing b sent todo := hold.not_sharing
  have hsharing' : ∀ {b sent todo}, p ≠ .sharing b sent todo := hnew.not_sharing
  have hnot' := hnew.not_inLine
  have heq : ∀ {b}, (s.phase t).Holds b → b = api := fun hb => hb.eq hold
  have heq' : ∀ {b}, p.Holds b → b = api := fun hb => hb.eq hnew
  obtain ⟨held, taken, unique, free, stream, shared, unshared, line, inLine, nodup, mutex, passed⟩ := h
  constructor
  case stream =>
    intro u a hu
    rw [behind_setPhase (s := s.setOutstanding api rest) hline]
    simp only [setPhase_phase, setPhase_outstanding, setOutstanding_outstanding, setOutstanding_behind,
      setOutstanding_phase] at hu ⊢
    by_cases hut : u = t
    · rw [if_pos hut] at hu ⊢
      obtain rfl := heq' hu
      rw [if_pos rfl, hrest, hut]
    · rw [if_neg hut] at hu ⊢
      rw [if_neg fun ha : a = api => hut (unique hu (ha ▸ hold))]
      exact stream hu
  all_goals
    simp only [setPhase_phase, setPhase_status, setPhase_outstanding, setPhase_sharedapi, setPhase_line,
      setPhase_sharedapiMutex, setOutstanding_phase, setOutstanding_status, setOutstanding_outstanding,
      setOutstanding_sharedapi, setOutstanding_line, setOutstanding_sharedapiMutex]
  all_goals grind

/-- A connection that nobody else sends on is released. -/
theorem Tidy.release (h : Tidy s) {status : Status} (hold : (s.phase t).Holds api) (hnone : s.sharedapi ≠ some api)
    (hstatus : status = .closed ∨ status = .pooled ∧ (s.phase t).mine = []) :
    Tidy ((s.setStatus api status).setPhase t .idle) := by
  have hline : t ∉ s.line := h.not_inLine hold.not_inLine
  have hsharing : ∀ {b sent todo}, s.phase t ≠ .sharing b sent todo := hold.not_sharing
  have hnot := hold.not_inLine
  have heq : ∀ {b}, (s.phase t).Holds b → b = api := fun hb => hb.eq hold
  have hout : (s.phase t).mine = [] → s.outstanding api = [] := fun hmine => by
    rw [h.stream hold, hmine, State.behind, if_neg hnone]
    rfl
  obtain ⟨held, taken, unique, free, stream, shared, unshared, line, inLine, nodup, mutex, passed⟩ := h
  constructor
  case stream =>
    intro u a hu
    rw [behind_setPhase (s := s.setStatus api status) hline]
    simp only [setPhase_phase, setPhase_outstanding, setStatus_outstanding, setStatus_behind, setStatus_phase] at hu ⊢
    by_cases hut : u = t
    · rw [if_pos hut] at hu
      exact hu.elim
    · rw [if_neg hut] at hu ⊢
      exact stream hu
  all_goals
    simp only [setPhase_phase, setPhase_status, setPhase_outstanding, setPhase_sharedapi, setPhase_line,
      setPhase_sharedapiMutex, setStatus_phase, setStatus_status, setStatus_outstanding,
      setStatus_sharedapi, setStatus_line, setStatus_sharedapiMutex]
  all_goals grind [Phase.Holds, Phase.InLine]

/-! ### The shared connection -/

/-- The first of the waiting threads reads next. -/
theorem Tidy.pass (h : Tidy s) {waiter : T} {rest : List T} (hold : (s.phase t).Holds api)
    (hmine : (s.phase t).mine = []) (hmutex : s.sharedapiMutex = none) (hshared : s.sharedapi = some api)
    (hwaiters : s.sharedapiwaiters = waiter :: rest) :
    Tidy ({ s.setPhase t .idle with sharedapiwaiters := rest }.handOver waiter api) := by
  have hline : s.line = waiter :: rest := by simp [State.line, hwaiters, hmutex]
  have hin : waiter ∈ s.line := by rw [hline]; exact List.mem_cons_self
  have htline : t ∉ s.line := h.not_inLine hold.not_inLine
  obtain ⟨capi, sent, hwaiter⟩ := h.waiter hmutex hin
  have hne : waiter ≠ t := fun heq => htline (heq ▸ hin)
  obtain rfl : capi = api := Option.some.inj ((h.inLine (by rw [hwaiter]; rfl)).symm.trans hshared)
  have hout : s.outstanding capi = sent.map (waiter, ·) ++ queued s.phase rest := by
    rw [h.stream hold, hmine, State.behind, if_pos hshared, hline]
    simp [queued, hwaiter, Phase.mine]
  have hothers : ∀ {a}, a ≠ capi → s.behind a = [] := fun ha =>
    if_neg fun heq => ha (Option.some.inj (heq.symm.trans hshared))
  generalize hs' : { s.setPhase t .idle with sharedapiwaiters := rest }.handOver waiter capi = s'
  have hstate : s' = ({ s with sharedapiwaiters := rest }.setPhase t .idle).setPhase waiter
      (.waiting capi sent (some (some capi))) := by
    rw [← hs', State.handOver]
    rw [show ({ s.setPhase t .idle with sharedapiwaiters := rest } : State T C R).phase waiter = _ from
      (setPhase_phase s t .idle waiter).trans (by rw [if_neg hne, hwaiter])]
    rfl
  have hphase : ∀ u, s'.phase u =
      if u = waiter then .waiting capi sent (some (some capi)) else if u = t then .idle else s.phase u := by
    simp [hstate]
  have hqueued : queued s'.phase rest = queued s.phase rest := queued_congr fun u hu => by
    have : u ∈ s.line := by rw [hline]; exact List.mem_cons_of_mem _ hu
    have hnodup := hline ▸ h.nodup
    rw [hphase, if_neg (by rintro rfl; exact (List.nodup_cons.mp hnodup).1 hu), if_neg (by rintro rfl; exact htline this)]
  have hline' : s'.line = rest := by
    rw [hstate]
    show rest ++ s.sharedapiMutex.toList = rest
    simp [hmutex]
  have hbehind : ∀ a, s'.behind a = if s.sharedapi = some a then queued s.phase rest else [] := by
    intro a
    rw [State.behind, hline', hqueued, hstate]
    rfl
  have hstatus : s'.status = s.status := by rw [hstate]; rfl
  have houtstanding : s'.outstanding = s.outstanding := by rw [hstate]; rfl
  have hsharedapi : s'.sharedapi = s.sharedapi := by rw [hstate]; rfl
  have hmutex' : s'.sharedapiMutex = s.sharedapiMutex := by rw [hstate]; rfl
  have heq : ∀ {b}, (s.phase t).Holds b → b = capi := fun hb => hb.eq hold
  obtain ⟨held, taken, unique, free, stream, shared, unshared, line, inLine, nodup, mutex, passed⟩ := h
  constructor
  case stream =>
    intro u a hu
    rw [hbehind, houtstanding]
    rw [hphase] at hu ⊢
    by_cases huw : u = waiter
    · rw [if_pos huw] at hu ⊢
      obtain rfl : capi = a := hu
      rw [if_pos hshared, hout, huw]
      rfl
    · rw [if_neg huw] at hu ⊢
      by_cases hut : u = t
      · rw [if_pos hut] at hu
        exact hu.elim
      · rw [if_neg hut] at hu ⊢
        have ha : a ≠ capi := fun ha => hut (unique hu (ha ▸ hold))
        rw [stream hu, hothers ha, if_neg fun heq => ha (Option.some.inj (heq.symm.trans hshared))]
  all_goals simp only [hphase, hstatus, houtstanding, hsharedapi, hmutex', hline']
  all_goals grind [Phase.Holds, Phase.Reads, Phase.InLine]

/-- The reader declares the connection bad and closes it; the waiting threads give up. -/
theorem State.closed_phase (s : State T C R) (t u : T) (api : C) (hline : s.line = s.sharedapiwaiters) :
    ((({ s.signalAllWaiters with sharedapi := none } : State T C R).setPhase t .idle).setStatus api .closed).phase u =
      if u = t then .idle else match s.phase u with
      | .waiting capi sent a => .waiting capi sent (if u ∈ s.line then some none else a)
      | p => p := by
  rw [setStatus_phase, setPhase_phase, hline]
  rfl

theorem Tidy.closeShared (h : Tidy s) (hold : (s.phase t).Holds api) (hmutex : s.sharedapiMutex = none)
    (hshared : s.sharedapi = some api) :
    Tidy (((s.markSharedApiBad api).setPhase t .idle).setStatus api .closed) := by
  have htline : t ∉ s.line := h.not_inLine hold.not_inLine
  have hline : s.line = s.sharedapiwaiters := by simp [State.line, hmutex]
  have hothers : ∀ {a}, a ≠ api → s.behind a = [] := fun ha =>
    if_neg fun heq => ha (Option.some.inj (heq.symm.trans hshared))
  rw [State.markSharedApiBad, if_pos hshared]
  generalize hs' : (({ s.signalAllWaiters with sharedapi := none } : State T C R).setPhase t .idle).setStatus api .closed = s'
  have hphase := fun u => s.closed_phase t u api hline
  rw [hs'] at hphase
  have hline' : s'.line = [] := by
    rw [← hs']
    show [] ++ s.sharedapiMutex.toList = []
    simp [hmutex]
  have hbehind : ∀ a, s'.behind a = [] := fun a => by rw [← hs']; exact if_neg (by simp)
  have hstatus : ∀ a, s'.status a = if a = api then .closed else s.status a := by
    intro a
    rw [← hs', setStatus_status]
    rfl
  have houtstanding : s'.outstanding = s.outstanding := by rw [← hs']; rfl
  have hsharedapi : s'.sharedapi = none := by rw [← hs']; rfl
  have hmutex' : s'.sharedapiMutex = s.sharedapiMutex := by rw [← hs']; rfl
  have heq : ∀ {b}, (s.phase t).Holds b → b = api := fun hb => hb.eq hold
  obtain ⟨held, taken, unique, free, stream, shared, unshared, line, inLine, nodup, mutex, passed⟩ := h
  have hholds : ∀ {u a}, (s'.phase u).Holds a ↔ u ≠ t ∧ (s.phase u).Holds a := by
    intro u a
    rw [hphase]
    by_cases hut : u = t
    · simp [hut, Phase.Holds]
    · rw [if_neg hut]
      cases hp : s.phase u with
      | waiting capi sent b =>
        by_cases hu : u ∈ s.line
        · obtain ⟨c, hc⟩ := line.mp hu
          rw [hp] at hc
          cases b with
          | none => simp [hu, hut, Phase.Holds]
          | some => exact hc.elim
        · simp [hu, hut]
      | _ => simp [hut]
  have hnot : ∀ {u a}, ¬(s'.phase u).InLine a := by
    intro u a
    rw [hphase]
    by_cases hut : u = t
    · simp [hut, Phase.InLine]
    · rw [if_neg hut]
      cases hp : s.phase u with
      | waiting capi sent b =>
        by_cases hu : u ∈ s.line
        · simp [hu, Phase.InLine]
        · simp only [if_neg hu]
          exact fun ha => hu (line.mpr ⟨a, hp ▸ ha⟩)
      | sharing => simp [mutex.mpr ⟨_, _, _, hp⟩] at hmutex
      | _ => exact id
  constructor
  case stream =>
    intro u a hu
    obtain ⟨hut, hu⟩ := hholds.mp hu
    have hmine : (s'.phase u).mine = (s.phase u).mine := by
      rw [hphase, if_neg hut]
      split <;> simp_all [Phase.mine]
    rw [hbehind, houtstanding, stream hu, hmine, hothers fun ha : a = api => hut (unique hu (ha ▸ hold))]
  case passed =>
    intro u capi sent a hu
    rw [hphase] at hu
    grind
  case mutex =>
    intro u
    rw [hmutex', mutex, hphase]
    have := @mutex u
    grind
  all_goals simp only [hholds, hstatus, houtstanding, hsharedapi, hline']
  all_goals grind

/-- A thread that does not hold a connection sends on the shared one. -/
theorem Tidy.getShared (h : Tidy s) {requests : List R} (hphase : s.phase t = .idle)
    (hmutex : s.sharedapiMutex = none) (hshared : s.sharedapi = some api) :
    Tidy ({ s with sharedapiMutex := some t }.setPhase t (.sharing api [] requests)) := by
  have hline : t ∉ s.line := h.not_inLine (by rw [hphase]; exact fun _ => id)
  have hwaiters : s.line = s.sharedapiwaiters := by simp [State.line, hmutex]
  generalize hs' : ({ s with sharedapiMutex := some t } : State T C R).setPhase t (.sharing api [] requests) = s'
  have hphase' : ∀ u, s'.phase u = if u = t then .sharing api [] requests else s.phase u := by simp [← hs']
  have hline' : s'.line = s.line ++ [t] := by
    rw [hwaiters, ← hs']
    rfl
  have hbehind : ∀ a, s'.behind a = s.behind a := by
    intro a
    rw [State.behind, hline', queued_append, @queued_congr _ _ _ s.phase]
    · rw [← hs']
      simp [State.behind, queued, Phase.mine]
    · intro u hu
      rw [hphase', if_neg fun heq : u = t => hline (heq ▸ hu)]
  have hstatus : s'.status = s.status := by rw [← hs']; rfl
  have houtstanding : s'.outstanding = s.outstanding := by rw [← hs']; rfl
  have hsharedapi : s'.sharedapi = s.sharedapi := by rw [← hs']; rfl
  have hmutex' : s'.sharedapiMutex = some t := by rw [← hs']; rfl
  obtain ⟨held, taken, unique, free, stream, shared, unshared, line, inLine, nodup, mutex, passed⟩ := h
  constructor
  case stream =>
    intro u a hu
    rw [hbehind, houtstanding]
    rw [hphase'] at hu ⊢
    by_cases hut : u = t
    · rw [if_pos hut] at hu
      exact hu.elim
    · rw [if_neg hut] at hu ⊢
      exact stream hu
  case line =>
    intro u
    rw [hline', List.mem_append, List.mem_singleton, line, hphase']
    by_cases hut : u = t
    · simp [hut, Phase.InLine]
    · simp [hut]
  all_goals simp only [hphase', hstatus, houtstanding, hsharedapi, hmutex', hline']
  all_goals grind [Phase.Holds, Phase.Reads, Phase.InLine]

theorem Tidy.sendShared (h : Tidy s) {sent todo : List R} (hphase : s.phase t = .sharing api sent (r :: todo)) :
    Tidy ((s.sendOn api t r).setPhase t (.sharing api (sent ++ [r]) todo)) := by
  have hline := h.line_of_sharing hphase
  have hshared : s.sharedapi = some api := h.inLine (t := t) (by rw [hphase]; rfl)
  have hwaiters : t ∉ s.sharedapiwaiters := fun ht =>
    (List.nodup_append.mp (hline ▸ h.nodup)).2.2 t ht t List.mem_cons_self rfl
  generalize hs' : (s.sendOn api t r).setPhase t (.sharing api (sent ++ [r]) todo) = s'
  have hphase' : ∀ u, s'.phase u = if u = t then .sharing api (sent ++ [r]) todo else s.phase u := by
    intro u
    rw [← hs', setPhase_phase]
    rfl
  have houtstanding : ∀ a, s'.outstanding a = if a = api then s.outstanding api ++ [(t, r)] else s.outstanding a := by
    intro a
    rw [← hs', setPhase_outstanding, State.sendOn, setOutstanding_outstanding]
  have hline' : s'.line = s.line := by rw [← hs']; rfl
  have hbehind : ∀ a, s'.behind a = if a = api then s.behind a ++ [(t, r)] else s.behind a := by
    intro a
    rw [State.behind, State.behind, hline', hline, queued_append, queued_append, @queued_congr _ _ _ s.phase]
    · rw [← hs']
      by_cases ha : a = api
      · simp [ha, hshared, queued, hphase, Phase.mine, State.sendOn]
      · simp [hshared, Ne.symm ha, ha, State.sendOn]
    · intro u hu
      rw [hphase', if_neg fun heq : u = t => hwaiters (heq ▸ hu)]
  have hstatus : s'.status = s.status := by rw [← hs']; rfl
  have hsharedapi : s'.sharedapi = s.sharedapi := by rw [← hs']; rfl
  have hmutex' : s'.sharedapiMutex = s.sharedapiMutex := by rw [← hs']; rfl
  obtain ⟨held, taken, unique, free, stream, shared, unshared, line, inLine, nodup, mutex, passed⟩ := h
  constructor
  case stream =>
    intro u a hu
    rw [hbehind, houtstanding]
    rw [hphase'] at hu ⊢
    by_cases hut : u = t
    · rw [if_pos hut] at hu
      exact hu.elim
    · rw [if_neg hut] at hu ⊢
      by_cases ha : a = api
      · rw [if_pos ha, if_pos ha, ← ha, stream hu, List.append_assoc]
      · rw [if_neg ha, if_neg ha, stream hu]
  case free =>
    intro a ha
    obtain ⟨u, hu, -⟩ := shared hshared
    rw [hstatus] at ha
    have hne : a ≠ api := by
      rintro rfl
      have := held hu
      rcases ha with ha | ha <;> rw [this] at ha <;> cases ha
    rw [houtstanding, if_neg hne]
    exact free ha
  case line =>
    intro u
    rw [hline', line, hphase']
    by_cases hut : u = t
    · simp [hut, hphase, Phase.InLine]
    · rw [if_neg hut]
  all_goals simp only [hphase', hstatus, hsharedapi, hmutex', hline']
  all_goals grind [Phase.Holds, Phase.Reads, Phase.InLine]

theorem Tidy.waitShared (h : Tidy s) {sent : List R} (hphase : s.phase t = .sharing api sent []) :
    Tidy ({ s with sharedapiwaiters := s.sharedapiwaiters ++ [t], sharedapiMutex := none }.setPhase t
      (.waiting api sent none)) := by
  have hline := h.line_of_sharing hphase
  have hshared : s.sharedapi = some api := h.inLine (t := t) (by rw [hphase]; rfl)
  have honly : ∀ {u b sent todo}, s.phase u = .sharing b sent todo → u = t := fun hu =>
    Option.some.inj ((h.mutex.mpr ⟨_, _, _, hu⟩).symm.trans (h.mutex.mpr ⟨_, _, _, hphase⟩))
  generalize hs' : ({ s with sharedapiwaiters := s.sharedapiwaiters ++ [t], sharedapiMutex := none } : State T C R).setPhase
    t (.waiting api sent none) = s'
  have hphase' : ∀ u, s'.phase u = if u = t then .waiting api sent none else s.phase u := by simp [← hs']
  have hline' : s'.line = s.line := by
    rw [← hs', hline]
    exact List.append_nil _
  have hbehind : s'.behind = s.behind := by
    funext a
    rw [State.behind, State.behind, hline', @queued_congr _ _ _ s.phase]
    · rw [← hs']
      rfl
    · intro u hu
      rw [hphase']
      by_cases hut : u = t
      · rw [if_pos hut, hut, hphase]
        rfl
      · rw [if_neg hut]
  have hstatus : s'.status = s.status := by rw [← hs']; rfl
  have houtstanding : s'.outstanding = s.outstanding := by rw [← hs']; rfl
  have hsharedapi : s'.sharedapi = s.sharedapi := by rw [← hs']; rfl
  have hmutex' : s'.sharedapiMutex = none := by rw [← hs']; rfl
  obtain ⟨held, taken, unique, free, stream, shared, unshared, line, inLine, nodup, mutex, passed⟩ := h
  constructor
  case stream =>
    intro u a hu
    rw [hbehind, houtstanding]
    rw [hphase'] at hu ⊢
    by_cases hut : u = t
    · rw [if_pos hut] at hu
      exact hu.elim
    · rw [if_neg hut] at hu ⊢
      exact stream hu
  case line =>
    intro u
    rw [hline', line, hphase']
    by_cases hut : u = t
    · simp [hut, hphase, Phase.InLine]
    · rw [if_neg hut]
  all_goals simp only [hphase', hstatus, houtstanding, hsharedapi, hmutex', hline']
  all_goals grind [Phase.Holds, Phase.Reads, Phase.InLine]

/-- A thread that neither holds a connection nor stands in line goes on without one. -/
theorem Tidy.giveUp (h : Tidy s) (hnot : ∀ a, ¬(s.phase t).Holds a) (hline : t ∉ s.line)  :
    Tidy (s.setPhase t .idle) := by
  have hsharing : ∀ {b sent todo}, s.phase t ≠ .sharing b sent todo := fun hb =>
    hline (h.line.mpr ⟨_, by rw [hb]; exact rfl⟩)
  obtain ⟨held, taken, unique, free, stream, shared, unshared, line, inLine, nodup, mutex, passed⟩ := h
  constructor
  case stream =>
    intro u a hu
    rw [behind_setPhase hline, setPhase_outstanding]
    rw [setPhase_phase] at hu ⊢
    by_cases hut : u = t
    · rw [if_pos hut] at hu
      exact hu.elim
    · rw [if_neg hut] at hu ⊢
      exact stream hu
  all_goals simp only [setPhase_phase, setPhase_status, setPhase_outstanding, setPhase_sharedapi, setPhase_line,
      setPhase_sharedapiMutex]
  all_goals grind [Phase.Holds, Phase.InLine]

/-- A sender that has sent nothing declares the connection bad, and nobody else waits. -/
theorem Tidy.sendSharedFails (h : Tidy s) {todo : List R} (hphase : s.phase t = .sharing api [] todo)
    (hwaiters : s.sharedapiwaiters = []) :
    Tidy ({ s.markSharedApiBad api with sharedapiMutex := none }.setPhase t .idle) := by
  have hline : s.line = [t] := by rw [h.line_of_sharing hphase, hwaiters]; rfl
  have hshared : s.sharedapi = some api := h.inLine (t := t) (by rw [hphase]; rfl)
  have hbehind : ∀ a, s.behind a = [] := by
    intro a
    rw [State.behind, hline]
    simp [queued, hphase, Phase.mine]
  rw [State.markSharedApiBad, if_pos hshared]
  generalize hs' : ({ ({ s.signalAllWaiters with sharedapi := none } : State T C R) with sharedapiMutex := none }
    : State T C R).setPhase t .idle = s'
  have hphase' : ∀ u, s'.phase u = if u = t then .idle else s.phase u := by
    intro u
    rw [← hs', setPhase_phase]
    simp only [State.signalAllWaiters, hwaiters]
    by_cases hut : u = t
    · rw [if_pos hut, if_pos hut]
    · rw [if_neg hut, if_neg hut]
      cases s.phase u <;> simp
  have hline' : s'.line = [] := by rw [← hs']; rfl
  have hbehind' : ∀ a, s'.behind a = [] := fun a => by rw [← hs']; exact if_neg (by simp)
  have hstatus : s'.status = s.status := by rw [← hs']; rfl
  have houtstanding : s'.outstanding = s.outstanding := by rw [← hs']; rfl
  have hsharedapi : s'.sharedapi = none := by rw [← hs']; rfl
  have hmutex' : s'.sharedapiMutex = none := by rw [← hs']; rfl
  have honly : ∀ {u b sent todo}, s.phase u = .sharing b sent todo → u = t := fun hu =>
    Option.some.inj ((h.mutex.mpr ⟨_, _, _, hu⟩).symm.trans (h.mutex.mpr ⟨_, _, _, hphase⟩))
  have hin : ∀ {u a}, (s.phase u).InLine a → u = t := fun ha => by
    simpa [hline] using h.line.mpr ⟨_, ha⟩
  obtain ⟨held, taken, unique, free, stream, shared, unshared, line, inLine, nodup, mutex, passed⟩ := h
  constructor
  case stream =>
    intro u a hu
    rw [hbehind', houtstanding]
    rw [hphase'] at hu ⊢
    by_cases hut : u = t
    · rw [if_pos hut] at hu
      exact hu.elim
    · rw [if_neg hut] at hu ⊢
      rw [stream hu, hbehind]
  case line =>
    intro u
    rw [hline', hphase']
    by_cases hut : u = t
    · simp [hut, Phase.InLine]
    · simpa [hut] using fun a ha => hut (hin ha)
  all_goals simp only [hphase', hstatus, houtstanding, hsharedapi, hmutex', hline']
  all_goals grind [Phase.Holds, Phase.InLine]

/-! ### Runs -/

theorem Tidy.step {s' : State T C R} {e : Event T C R} (h : Tidy s) (hs : Avoiding step Drifts s e s') : Tidy s' := by
  obtain ⟨hrun, hdrift⟩ := hs
  cases e with
  | take t api requests =>
    unfold SharedApi.step State.run at hrun
    dsimp only at hrun
    split at hrun
    · next hphase hstatus => exact Option.some.inj hrun ▸ h.take hphase (.inl hstatus)
    · next hphase hstatus => exact Option.some.inj hrun ▸ h.take hphase (.inr hstatus)
    · cases hrun
  | send t ok =>
    unfold SharedApi.step State.run at hrun
    dsimp only at hrun
    split at hrun
    · next api sent r todo hphase =>
      have hold : (s.phase t).Holds api := by rw [hphase]; rfl
      have hnone : s.sharedapi ≠ some api := fun hs => by
        obtain ⟨u, hu, hreads⟩ := h.shared hs
        rw [h.unique hu hold, hphase] at hreads
        exact hreads
      split at hrun
      · refine Option.some.inj hrun ▸ h.goOn hold rfl nofun (by rw [hphase]; nofun) ?_
        rw [h.stream hold, hphase, State.behind, if_neg hnone]
        simp [Phase.mine]
      · exact Option.some.inj hrun ▸ h.release hold hnone (.inl rfl)
    · cases hrun
  | markApiShared t =>
    unfold SharedApi.step State.run at hrun
    dsimp only at hrun
    split at hrun
    · next api sent hphase hmutex =>
      have hold : (s.phase t).Holds api := by rw [hphase]; rfl
      have hstream := h.stream hold
      rw [hphase] at hstream
      have hreading := h.goOn (p := .reading api [] sent false) hold rfl nofun (fun _ => trivial) hstream
      rw [setOutstanding_self] at hreading
      obtain rfl := Option.some.inj hrun
      cases hshared : s.sharedapi with
      | some b => exact (show s = { s with sharedapi := some b } by rw [← hshared]) ▸ hreading
      | none =>
        refine hreading.share (t := t) ?_ ?_ hshared
        · rw [setPhase_phase, if_pos rfl]
          rfl
        · rw [setPhase_phase, if_pos rfl]
          trivial
    · cases hrun
  | read t outcome =>
    unfold SharedApi.step State.run at hrun
    dsimp only at hrun
    split at hrun
    · next api done r todo passed hphase =>
      have hold : (s.phase t).Holds api := by rw [hphase]; rfl
      split at hrun
      · split at hrun
        · cases hrun
        · next head rest hout =>
          refine Option.some.inj hrun ▸ h.goOn hold rfl nofun (fun _ => trivial) ?_
          have hstream := h.stream hold
          rw [hphase, hout] at hstream
          exact (List.cons.inj hstream).2
      · split at hrun
        · next hout hmutex =>
          have hclosed : s.readFailed t api done passed (outcome = .refused)
              = ((s.markSharedApiBad api).setPhase t .idle).setStatus api .closed := by
            refine if_neg ?_
            rintro ⟨hpassed, hrefused, hdone⟩
            obtain rfl : outcome = .refused := by simpa using hrefused
            obtain rfl := List.isEmpty_iff.mp hdone
            exact hdrift (by simpa [Drifts, hphase] using hpassed)
          rw [hclosed] at hrun
          obtain rfl := Option.some.inj hrun
          by_cases hshared : s.sharedapi = some api
          · exact h.closeShared hold hmutex hshared
          · rw [State.markSharedApiBad, if_neg hshared]
            exact h.release hold hshared (.inl rfl)
        · cases hrun
    · cases hrun
  | passSharedApi t =>
    unfold SharedApi.step State.run at hrun
    dsimp only at hrun
    split at hrun
    · next api done passed hphase hmutex =>
      have hold : (s.phase t).Holds api := by rw [hphase]; rfl
      have hmine : (s.phase t).mine = [] := by rw [hphase]; rfl
      obtain rfl := Option.some.inj hrun
      unfold State.passSharedApi
      by_cases hshared : s.sharedapi = some api
      · rw [if_neg (by simpa using hshared)]
        split
        · next hwaiters =>
          have hline : s.line = [] := by
            rw [State.line, hmutex]
            exact congrArg (· ++ []) hwaiters
          exact (h.unshare hline).release hold nofun (.inr ⟨rfl, hmine⟩)
        · next waiter rest hwaiters => exact h.pass hold hmine hmutex hshared hwaiters
      · rw [if_pos (by simpa using hshared)]
        exact h.release hold hshared (.inr ⟨rfl, hmine⟩)
    · cases hrun
  | getSharedApi t requests =>
    unfold SharedApi.step State.run at hrun
    dsimp only at hrun
    split at hrun
    · next hphase hmutex hshared => exact Option.some.inj hrun ▸ h.getShared hphase hmutex hshared
    · cases hrun
  | sendShared t ok =>
    unfold SharedApi.step State.run at hrun
    dsimp only at hrun
    split at hrun
    · next api sent r todo hphase =>
      cases ok with
      | true => exact Option.some.inj hrun ▸ h.sendShared hphase
      | false =>
        simp only [Drifts, hphase, not_or, not_not] at hdrift
        obtain ⟨rfl, hwaiters⟩ := hdrift
        exact Option.some.inj hrun ▸ h.sendSharedFails hphase hwaiters
    · cases hrun
  | waitSharedApi t =>
    unfold SharedApi.step State.run at hrun
    dsimp only at hrun
    split at hrun
    · next api sent capi hphase hshared =>
      obtain rfl : capi = api := Option.some.inj (hshared.symm.trans (h.inLine (t := t) (by rw [hphase]; rfl)))
      exact Option.some.inj hrun ▸ h.waitShared hphase
    · cases hrun
  | wake t =>
    unfold SharedApi.step State.run at hrun
    dsimp only at hrun
    split at hrun
    · next capi sent api hphase hmutex =>
      obtain rfl := Option.some.inj hrun
      cases api with
      | none =>
        rw [if_neg nofun]
        exact h.giveUp (by rw [hphase]; exact fun _ => id) (h.not_inLine (by rw [hphase]; exact fun _ => id))
      | some api =>
        obtain rfl := h.passed hphase
        have hold : (s.phase t).Holds capi := by rw [hphase]; rfl
        have hstream := h.stream hold
        rw [hphase] at hstream
        have := h.goOn (p := .reading capi [] sent true) hold rfl nofun (fun _ => trivial) hstream
        rw [if_pos rfl]
        rwa [setOutstanding_self] at this
    · cases hrun

omit [DecidableEq T] in
theorem Initial.tidy (h : Initial s) : Tidy s where
  held := fun ht => by rw [h.phase] at ht; exact ht.elim
  taken := fun ht => by rw [h.status] at ht; cases ht
  unique := fun ht => by rw [h.phase] at ht; exact ht.elim
  free := fun _ => h.outstanding _
  stream := fun ht => by rw [h.phase] at ht; exact ht.elim
  shared := fun hs => by rw [h.sharedapi] at hs; cases hs
  unshared := fun _ => by rw [State.line, h.sharedapiwaiters, h.sharedapiMutex]; rfl
  line := fun {t} => by
    rw [State.line, h.sharedapiwaiters, h.sharedapiMutex, h.phase]
    exact ⟨nofun, fun ⟨_, ha⟩ => ha.elim⟩
  inLine := fun ht => by rw [h.phase] at ht; exact ht.elim
  nodup := by rw [State.line, h.sharedapiwaiters, h.sharedapiMutex]; exact List.nodup_nil
  mutex := fun {t} => by
    rw [h.sharedapiMutex, h.phase]
    exact ⟨nofun, fun ⟨_, _, _, ha⟩ => nomatch ha⟩
  passed := fun ht => by rw [h.phase] at ht; cases ht

def fresh : State T C R where
  phase := fun _ => .idle
  status := fun _ => .unused
  outstanding := fun _ => []
  sharedapiMutex := none
  sharedapi := none
  sharedapiwaiters := []

omit [DecidableEq T] [DecidableEq C] in
theorem fresh_initial : Initial (fresh : State T C R) := ⟨fun _ => rfl, fun _ => rfl, fun _ => rfl, rfl, rfl, rfl⟩

end Pclsync.PageCache.SharedApi
