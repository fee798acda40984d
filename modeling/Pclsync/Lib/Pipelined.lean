import Mathlib.Data.List.Basic
import Mathlib.Tactic.Common

/-! Commands on a connection that are answered one after the other, in the order in which they were sent. -/
namespace Pclsync.Lib.Pipelined

variable {κ ω β : Type}

/-- The commands that were sent, what came of those that were served, and how many answers were read. -/
structure Line (κ ω : Type) where
  sent : List κ
  served : List ω
  read : ℕ
deriving DecidableEq, Repr

namespace Line

def send (l : Line κ ω) (c : κ) : Line κ ω := { l with sent := l.sent ++ [c] }

/-- The next command is served. -/
def serve (l : Line κ ω) (w : ω) : Option (Line κ ω) :=
  if l.served.length < l.sent.length then some { l with served := l.served ++ [w] } else none

/-- The next answer. -/
def answer (l : Line κ ω) : Option (κ × ω) :=
  match l.sent[l.read]?, l.served[l.read]? with
  | some c, some w => some (c, w)
  | _, _ => none

def receive (l : Line κ ω) : Line κ ω := { l with read := l.read + 1 }

def fresh : Line κ ω := ⟨[], [], 0⟩

/-- No command is served that was not sent, and no answer read that was not given. -/
structure Sound (l : Line κ ω) : Prop where
  read : l.read ≤ l.served.length
  served : l.served.length ≤ l.sent.length

/-- The commands that are not answered have ascending ranks. -/
def Ordered (rank : κ → ℕ) (l : Line κ ω) : Prop :=
  ∀ k k' c c', l.read ≤ k → k < k' → l.sent[k]? = some c → l.sent[k']? = some c' → rank c < rank c'

/-- After command `k` there are only commands of higher ranks. -/
def Latest (rank : κ → ℕ) (l : Line κ ω) (k : ℕ) (c : κ) : Prop :=
  l.sent[k]? = some c ∧ ∀ k' c', k < k' → l.sent[k']? = some c' → rank c < rank c'

/-- For each rank below `p` the latest command was not refused, as far as is known. -/
def Settled (rank : κ → ℕ) (accepted : ω → Prop) (l : Line κ ω) (p : ℕ) : Prop :=
  ∀ j < p, ∃ k c, rank c = j ∧ l.Latest rank k c ∧ (k < l.read → ∃ w, l.served[k]? = some w ∧ accepted w)

/-- For each rank below `p` the latest command was not refused. -/
def Closed (rank : κ → ℕ) (accepted : ω → Prop) (l : Line κ ω) (p : ℕ) : Prop :=
  ∀ j < p, ∃ k c, rank c = j ∧ l.Latest rank k c ∧ ∃ w, l.served[k]? = some w ∧ accepted w

end Line

variable {l l' : Line κ ω} {c : κ} {w : ω} {rank : κ → ℕ} {accepted : ω → Prop} {p q : ℕ}

open Line

/-- A command that was sent before, or the new one. -/
theorem sent_send {k : ℕ} {d : κ} (h : (l.send c).sent[k]? = some d) :
    l.sent[k]? = some d ∨ k = l.sent.length ∧ d = c := by
  unfold Line.send at h
  simp only at h
  rcases Nat.lt_or_ge k l.sent.length with hk | hk
  · rw [List.getElem?_append_left hk] at h
    exact .inl h
  · rw [List.getElem?_append_right hk] at h
    obtain ⟨hk', hd⟩ := List.getElem?_eq_some_iff.mp h
    rw [List.length_singleton] at hk'
    simp only [List.getElem_singleton] at hd
    exact .inr ⟨by omega, hd.symm⟩

theorem send_old {k : ℕ} {d : κ} (h : l.sent[k]? = some d) : (l.send c).sent[k]? = some d := by
  obtain ⟨hk, _⟩ := List.getElem?_eq_some_iff.mp h
  exact (List.getElem?_append_left hk).trans h

theorem send_new : (l.send c).sent[l.sent.length]? = some c := by
  unfold Line.send
  rw [List.getElem?_append_right (Nat.le_refl _), Nat.sub_self]
  rfl

/-! ## Soundness -/

theorem Line.Sound.send (h : l.Sound) : (l.send c).Sound where
  read := h.read
  served := by
    unfold Line.send
    rw [List.length_append]
    exact Nat.le_add_right_of_le h.served

theorem serve_eq (h : l.serve w = some l') : l.served.length < l.sent.length ∧ l' = { l with served := l.served ++ [w] } := by
  unfold Line.serve at h
  split at h
  next hlt => exact ⟨hlt, (Option.some.inj h).symm⟩
  · cases h

theorem Line.Sound.serve (h : l.Sound) (hserve : l.serve w = some l') : l'.Sound := by
  obtain ⟨hlt, rfl⟩ := serve_eq hserve
  constructor
  · rw [List.length_append]
    exact Nat.le_add_right_of_le h.read
  · rw [List.length_append]
    exact hlt

theorem answer_eq (h : l.answer = some (c, w)) : l.sent[l.read]? = some c ∧ l.served[l.read]? = some w := by
  unfold Line.answer at h
  split at h
  next hc hw =>
    cases h
    exact ⟨hc, hw⟩
  · cases h

theorem Line.Sound.receive (h : l.Sound) (hanswer : l.answer = some (c, w)) : l.receive.Sound where
  read := (List.getElem?_eq_some_iff.mp (answer_eq hanswer).2).1
  served := h.served

theorem fresh_sound : (Line.fresh : Line κ ω).Sound := ⟨Nat.le_refl _, Nat.le_refl _⟩

/-! ## The order of what is not answered -/

theorem Line.Ordered.send (h : l.Ordered rank) (hlast : ∀ k d, l.read ≤ k → l.sent[k]? = some d → rank d < rank c) :
    (l.send c).Ordered rank := by
  intro k k' d d' hk hlt hd hd'
  rcases sent_send hd' with hold' | ⟨rfl, rfl⟩
  · rcases sent_send hd with hold | ⟨rfl, rfl⟩
    · exact h k k' d d' hk hlt hold hold'
    · exact absurd (List.getElem?_eq_some_iff.mp hold').1 (Nat.not_lt_of_lt hlt)
  · rcases sent_send hd with hold | ⟨rfl, rfl⟩
    · exact hlast k d hk hold
    · exact absurd hlt (Nat.lt_irrefl _)

theorem Line.Ordered.serve (h : l.Ordered rank) (hserve : l.serve w = some l') : l'.Ordered rank := by
  obtain ⟨_, rfl⟩ := serve_eq hserve
  exact h

theorem Line.Ordered.receive (h : l.Ordered rank) : l.receive.Ordered rank :=
  fun k k' d d' hk => h k k' d d' (Nat.le_of_succ_le hk)

/-! ## What is settled -/

/-- The next rank is sent. -/
theorem Line.Settled.send (h : l.Settled rank accepted (rank c)) (hsound : l.Sound) :
    (l.send c).Settled rank accepted (rank c + 1) := by
  intro j hj
  rcases Nat.lt_succ_iff_lt_or_eq.mp hj with hj | rfl
  · obtain ⟨k, d, rfl, ⟨hd, hafter⟩, haccepted⟩ := h j hj
    refine ⟨k, d, rfl, ⟨send_old hd, fun k' d' hk' hd' => ?_⟩, haccepted⟩
    rcases sent_send hd' with hold | ⟨rfl, rfl⟩
    · exact hafter k' d' hk' hold
    · exact hj
  · refine ⟨l.sent.length, c, rfl, ⟨send_new, fun k' d' hk' hd' => ?_⟩, fun hread => ?_⟩
    · rcases sent_send hd' with hold | ⟨rfl, rfl⟩
      · exact absurd (List.getElem?_eq_some_iff.mp hold).1 (Nat.not_lt_of_lt hk')
      · exact absurd hk' (Nat.lt_irrefl _)
    · exact absurd (Nat.le_trans hsound.read hsound.served) (Nat.not_le_of_lt hread)

/-- And what has none of the ranks. -/
theorem Line.Settled.sendAbove (h : l.Settled rank accepted p) (hrank : p ≤ rank c) : (l.send c).Settled rank accepted p := by
  intro j hj
  obtain ⟨k, d, rfl, ⟨hd, hafter⟩, haccepted⟩ := h j hj
  refine ⟨k, d, rfl, ⟨send_old hd, fun k' d' hk' hd' => ?_⟩, haccepted⟩
  rcases sent_send hd' with hold | ⟨rfl, rfl⟩
  · exact hafter k' d' hk' hold
  · exact Nat.lt_of_lt_of_le hj hrank

theorem Line.Settled.serve (h : l.Settled rank accepted p) (hsound : l.Sound) (hserve : l.serve w = some l') :
    l'.Settled rank accepted p := by
  obtain ⟨_, rfl⟩ := serve_eq hserve
  intro j hj
  obtain ⟨k, d, hrank, hlatest, haccepted⟩ := h j hj
  refine ⟨k, d, hrank, hlatest, fun hread => ?_⟩
  obtain ⟨v, hv, hok⟩ := haccepted hread
  exact ⟨v, (List.getElem?_append_left (Nat.lt_of_lt_of_le hread hsound.read)).trans hv, hok⟩

theorem Line.Settled.receive (h : l.Settled rank accepted p) (hanswer : l.answer = some (c, w)) (hok : accepted w) :
    l.receive.Settled rank accepted p := by
  intro j hj
  obtain ⟨k, d, hrank, hlatest, haccepted⟩ := h j hj
  refine ⟨k, d, hrank, hlatest, fun hread => ?_⟩
  rcases Nat.lt_succ_iff_lt_or_eq.mp hread with hread | rfl
  · exact haccepted hread
  · exact ⟨w, (answer_eq hanswer).2, hok⟩

/-- When a command is refused, the lower ranks stay, and nothing that is not answered yet matters to them. -/
theorem Line.Settled.refuse (h : l.Settled rank accepted p) (hordered : l.Ordered rank) (hanswer : l.answer = some (c, w))
    (hle : rank c ≤ p) : l.Closed rank accepted (rank c) := by
  intro j hj
  obtain ⟨k, d, rfl, hlatest, haccepted⟩ := h j (Nat.lt_of_lt_of_le hj hle)
  have hsent := (answer_eq hanswer).1
  have hread : k < l.read := by
    by_contra hge
    rcases Nat.lt_or_eq_of_le (Nat.not_lt.mp hge) with hlt | rfl
    · exact absurd (hordered l.read k c d (Nat.le_refl _) hlt hsent hlatest.1) (Nat.not_lt_of_lt hj)
    · rw [hlatest.1] at hsent
      cases hsent
      exact absurd hj (Nat.lt_irrefl _)
  exact ⟨k, d, rfl, hlatest, haccepted hread⟩

theorem Line.Closed.settled (h : l.Closed rank accepted p) : l.Settled rank accepted p := by
  intro j hj
  obtain ⟨k, d, hrank, hlatest, hok⟩ := h j hj
  exact ⟨k, d, hrank, hlatest, fun _ => hok⟩

theorem Line.Closed.mono (h : l.Closed rank accepted p) (hle : q ≤ p) : l.Closed rank accepted q :=
  fun j hj => h j (Nat.lt_of_lt_of_le hj hle)

theorem Line.Closed.serve (h : l.Closed rank accepted p) (hserve : l.serve w = some l') : l'.Closed rank accepted p := by
  obtain ⟨_, rfl⟩ := serve_eq hserve
  intro j hj
  obtain ⟨k, d, hrank, hlatest, v, hv, hok⟩ := h j hj
  exact ⟨k, d, hrank, hlatest, v, (List.getElem?_append_left (List.getElem?_eq_some_iff.mp hv).1).trans hv, hok⟩

theorem Line.Closed.receive (h : l.Closed rank accepted p) : l.receive.Closed rank accepted p := h

theorem fresh_settled : (Line.fresh : Line κ ω).Settled rank accepted 0 := nofun

theorem fresh_ordered : (Line.fresh : Line κ ω).Ordered rank := nofun

/-- When all answers were read. -/
theorem Line.Settled.closed (h : l.Settled rank accepted p) (hread : l.read = l.sent.length) : l.Closed rank accepted p := by
  intro j hj
  obtain ⟨k, d, hrank, hlatest, haccepted⟩ := h j hj
  exact ⟨k, d, hrank, hlatest, haccepted (hread ▸ (List.getElem?_eq_some_iff.mp hlatest.1).1)⟩

/-- A command that was refused was sent again, and all that have higher ranks. -/
theorem Line.Closed.again (h : l.Closed rank accepted p) {k : ℕ} (hsent : l.sent[k]? = some c) (hserved : l.served[k]? = some w) (hrefused : ¬accepted w) {j : ℕ}
    (hj : rank c ≤ j) (hlt : j < p) :
    ∃ k' c' w', k < k' ∧ l.sent[k']? = some c' ∧ rank c' = j ∧ l.served[k']? = some w' ∧ accepted w' := by
  obtain ⟨k', c', rfl, hlatest, w', hw', hok⟩ := h j hlt
  refine ⟨k', c', w', ?_, hlatest.1, rfl, hw', hok⟩
  by_contra hge
  rcases Nat.lt_or_eq_of_le (Nat.not_lt.mp hge) with hbefore | rfl
  · exact absurd hj (Nat.not_le_of_lt (hlatest.2 k c hbefore hsent))
  · rw [hserved] at hw'
    cases hw'
    exact hrefused hok

/-! ## What a list of updates leaves -/

/-- What stands at a place is from the last update that changes it. -/
theorem foldl_last {α ι : Type} {f : (ι → β) → α → ι → β} {as : List α} {k : ℕ} {a : α} {i : ι} {b : β} (init : ι → β)
    (ha : as[k]? = some a) (hwrites : ∀ s, f s a i = b) (hafter : ∀ k' a', k < k' → as[k']? = some a' → ∀ s, f s a' i = s i) :
    as.foldl f init i = b := by
  induction as generalizing init k with
  | nil => cases ha
  | cons a₀ as ih =>
    rw [List.foldl_cons]
    cases k with
    | zero =>
      cases ha
      have hsame : ∀ (bs : List α) (s : ι → β), (∀ a' ∈ bs, ∀ s, f s a' i = s i) → bs.foldl f s i = s i := by
        intro bs
        induction bs with
        | nil => exact fun _ _ => rfl
        | cons b₀ bs ihb =>
          intro s hbs
          rw [List.foldl_cons, ihb _ fun a' ha' => hbs a' (.tail _ ha'), hbs b₀ (.head _)]
      rw [hsame as _ fun a' ha' => ?_]
      · exact hwrites init
      · obtain ⟨k', hk'⟩ := List.mem_iff_getElem?.mp ha'
        exact hafter (k' + 1) a' (Nat.succ_pos _) hk'
    | succ k => exact ih (f init a₀) ha fun k' a' hk' ha' => hafter (k' + 1) a' (Nat.succ_lt_succ hk') ha'

end Pclsync.Lib.Pipelined
