import Mathlib.Data.List.Count
import Mathlib.Tactic.Common

/-! Programs that take things and give them back, and what their calls return.

A run is one of the many that the calls allow, and its trace is all it took, gave back and was
told. What a run still holds is a list; a program that gives back what it does not hold is lost. -/
namespace Pclsync.Lib.Held

/-- The calls of a program, and what each of them may return. -/
structure Calls where
  Call : Type
  Ret : Call → Type

variable {R : Type} {S : Calls} {α β : Type}

/-! ### Traces -/

inductive Event (R : Type) (S : Calls) where
  | take (r : R)
  | give (r : R)
  | returned (c : S.Call) (ret : S.Ret c)

section
variable [DecidableEq R]

def Event.takes (r : R) : Event R S → Bool
  | take r' => r' = r
  | _ => false

def Event.gives (r : R) : Event R S → Bool
  | give r' => r' = r
  | _ => false

/-- How often something was taken. -/
def taken (r : R) (trace : List (Event R S)) : ℕ := trace.countP (Event.takes r)

def given (r : R) (trace : List (Event R S)) : ℕ := trace.countP (Event.gives r)

/-- Nothing is given back that is not held, and all is given back. -/
structure Balanced (trace : List (Event R S)) : Prop where
  held : ∀ r pre post, trace = pre ++ .give r :: post → given r pre < taken r pre
  settled : ∀ r, given r trace = taken r trace

/-- What is held after a step. -/
def Event.check (held : List R) : Event R S → Option (List R)
  | take r => some (r :: held)
  | give r => if r ∈ held then some (held.erase r) else none
  | returned _ _ => some held

def check (held : List R) : List (Event R S) → Option (List R)
  | [] => some held
  | e :: trace => (e.check held).bind fun held => check held trace

variable {held held' : List R} {e : Event R S} {trace : List (Event R S)} {r : R}

theorem taken_cons : taken r (e :: trace) = taken r trace + (e.takes r).toNat := by
  rw [taken, List.countP_cons]
  cases e.takes r <;> rfl

theorem given_cons : given r (e :: trace) = given r trace + (e.gives r).toNat := by
  rw [given, List.countP_cons]
  cases e.gives r <;> rfl

/-- What a step adds to the counts. -/
theorem count_check (he : e.check held = some held') : held'.count r + (e.gives r).toNat = held.count r + (e.takes r).toNat := by
  cases e with
  | take r' =>
    cases he
    rw [List.count_cons]
    by_cases hr : r' = r <;> simp [Event.gives, Event.takes, hr]
  | give r' =>
    rw [Event.check] at he
    split_ifs at he with hmem
    cases he
    rw [List.count_erase]
    by_cases hr : r' = r
    · subst hr
      have := List.count_pos_iff.mpr hmem
      simp only [Event.gives, Event.takes, decide_true, Bool.toNat_true, Bool.toNat_false, beq_self_eq_true, if_true]
      omega
    · simp [Event.gives, Event.takes, hr]
  | returned c ret =>
    cases he
    rfl

/-- A trace that can be gone through keeps to the rule, and leaves what its counts say. -/
theorem check_sound (h : check held trace = some held') :
    (∀ r pre post, trace = pre ++ .give r :: post → given r pre < held.count r + taken r pre) ∧
      ∀ r, held'.count r + given r trace = held.count r + taken r trace := by
  induction trace generalizing held with
  | nil =>
    cases h
    exact ⟨fun r pre post heq => by simp at heq, fun r => rfl⟩
  | cons e trace ih =>
    obtain ⟨mid, he, hrest⟩ := Option.bind_eq_some_iff.mp h
    obtain ⟨hkeeps, hcount⟩ := ih hrest
    refine ⟨fun r pre post heq => ?_, fun r => ?_⟩
    · cases pre with
      | nil =>
        obtain ⟨rfl, -⟩ := List.cons.inj heq
        rw [Event.check] at he
        split_ifs at he with hmem
        exact List.count_pos_iff.mpr hmem
      | cons e' pre =>
        obtain ⟨rfl, rfl⟩ := List.cons.inj heq
        have hlt := hkeeps r pre post rfl
        have hstep := @count_check R S _ held mid e r he
        rw [given_cons, taken_cons]
        omega
    · have hstep := @count_check R S _ held mid e r he
      have hrest := hcount r
      rw [given_cons, taken_cons]
      omega

/-- And one that keeps to the rule can be gone through. -/
theorem exists_check (h : ∀ r pre post, trace = pre ++ .give r :: post → given r pre < held.count r + taken r pre) :
    ∃ held', check held trace = some held' := by
  induction trace generalizing held with
  | nil => exact ⟨held, rfl⟩
  | cons e trace ih =>
    have hfirst : ∃ mid, e.check held = some mid := by
      cases e with
      | take r => exact ⟨r :: held, rfl⟩
      | give r => exact ⟨held.erase r, if_pos (List.count_pos_iff.mp (h r [] trace rfl))⟩
      | returned c ret => exact ⟨held, rfl⟩
    obtain ⟨mid, he⟩ := hfirst
    obtain ⟨held', hrest⟩ := @ih mid fun r pre post heq => by
      have hlt := h r (e :: pre) post (congrArg (e :: ·) heq)
      have hstep := @count_check R S _ held mid e r he
      rw [given_cons, taken_cons] at hlt
      omega
    exact ⟨held', by rw [check, he]; exact hrest⟩

theorem balanced_iff : Balanced trace ↔ check [] trace = some [] := by
  constructor
  · intro h
    obtain ⟨held', hcheck⟩ := @exists_check R S _ [] trace fun r pre post heq => by
      rw [List.count_nil, Nat.zero_add]
      exact h.held r pre post heq
    have hcount := (check_sound hcheck).2
    have hnone : held' = [] := by
      refine List.eq_nil_iff_forall_not_mem.mpr fun r hr => ?_
      have hpos := List.count_pos_iff.mpr hr
      have heq := hcount r
      rw [h.settled r, List.count_nil] at heq
      omega
    rw [hcheck, hnone]
  · intro h
    obtain ⟨hkeeps, hcount⟩ := check_sound h
    refine ⟨fun r pre post heq => ?_, fun r => ?_⟩
    · have hlt := hkeeps r pre post heq
      rwa [List.count_nil, Nat.zero_add] at hlt
    · have heq := hcount r
      rwa [List.count_nil, Nat.zero_add, Nat.zero_add] at heq

end

/-! ### Programs -/

inductive Program (R : Type) (S : Calls) (α : Type) where
  | pure (a : α)
  /-- It does not end. -/
  | stuck
  | take (r : R) (next : Program R S α)
  | give (r : R) (next : Program R S α)
  | call (c : S.Call) (next : S.Ret c → Program R S α)

namespace Program

def bind : Program R S α → (α → Program R S β) → Program R S β
  | pure a, f => f a
  | stuck, _ => stuck
  | take r next, f => take r (next.bind f)
  | give r next, f => give r (next.bind f)
  | call c next, f => call c fun ret => (next ret).bind f

instance : Monad (Program R S) where
  pure := pure
  bind := bind

def acquire (r : R) : Program R S Unit := take r (Pure.pure ())

def release (r : R) : Program R S Unit := give r (Pure.pure ())

def ask (c : S.Call) : Program R S (S.Ret c) := call c Pure.pure

/-- It may end with a result and a trace. -/
def Runs : Program R S α → α → List (Event R S) → Prop
  | pure a, b, trace => a = b ∧ trace = []
  | stuck, _, _ => False
  | take r next, b, trace => ∃ rest, trace = .take r :: rest ∧ next.Runs b rest
  | give r next, b, trace => ∃ rest, trace = .give r :: rest ∧ next.Runs b rest
  | call c next, b, trace => ∃ ret rest, trace = .returned c ret :: rest ∧ (next ret).Runs b rest

/-! ### What holds of every run -/

variable [DecidableEq R] {fatal : (c : S.Call) → S.Ret c → Bool}

/-- What is held, if no rule was broken, and that nothing fatal was returned. -/
structure Status (R : Type) where
  held : Option (List R)
  spared : Bool

def Status.next (fatal : (c : S.Call) → S.Ret c → Bool) (s : Status R) (e : Event R S) : Status R where
  held := s.held.bind fun held => e.check held
  spared :=
    match e with
    | .returned c ret => s.spared && !fatal c ret
    | _ => s.spared

/-- Every run from `s` that ends has a result and a status of which `Q` holds. -/
def Wp (fatal : (c : S.Call) → S.Ret c → Bool) : Program R S α → Status R → (α → Status R → Prop) → Prop
  | pure a, s, Q => Q a s
  | stuck, _, _ => True
  | take r next, s, Q => next.Wp fatal (s.next fatal (.take r)) Q
  | give r next, s, Q => next.Wp fatal (s.next fatal (.give r)) Q
  | call c next, s, Q => ∀ ret, (next ret).Wp fatal (s.next fatal (.returned c ret)) Q

variable {p : Program R S α} {s : Status R} {Q Q' : α → Status R → Prop}

theorem Wp.mono (h : p.Wp fatal s Q) (hQ : ∀ a s, Q a s → Q' a s) : p.Wp fatal s Q' := by
  induction p generalizing s with
  | pure a => exact hQ a s h
  | stuck => trivial
  | take r next ih => exact ih h
  | give r next ih => exact ih h
  | call c next ih => exact fun ret => ih ret (h ret)

theorem wp_bind {f : α → Program R S β} {Q : β → Status R → Prop} :
    (p >>= f).Wp fatal s Q ↔ p.Wp fatal s fun a s => (f a).Wp fatal s Q := by
  show (p.bind f).Wp fatal s Q ↔ _
  induction p generalizing s with
  | pure a => exact Iff.rfl
  | stuck => exact Iff.rfl
  | take r next ih => exact ih
  | give r next ih => exact ih
  | call c next ih => exact forall_congr' fun ret => ih ret

theorem Wp.bind {f : α → Program R S β} {Q : β → Status R → Prop} (h : p.Wp fatal s Q')
    (hf : ∀ a s, Q' a s → (f a).Wp fatal s Q) : (p >>= f).Wp fatal s Q :=
  wp_bind.mpr (h.mono hf)

theorem Wp.ite {c : Prop} [Decidable c] {q : Program R S α} (hp : c → p.Wp fatal s Q) (hq : ¬c → q.Wp fatal s Q) :
    (if c then p else q).Wp fatal s Q := by
  by_cases hc : c
  · rw [if_pos hc]
    exact hp hc
  · rw [if_neg hc]
    exact hq hc

/-! ### Programs that hold at their end what they held at their start -/

/-- A program is told nothing fatal and leaves what is held as it was. -/
def Keeps (fatal : (c : S.Call) → S.Ret c → Bool) (p : Program R S α) : Prop :=
  ∀ held, p.Wp fatal ⟨some held, true⟩ fun _ s => s = ⟨some held, true⟩

variable {f : α → Program R S β} {r : R}

theorem Keeps.bind (h : p.Keeps fatal) (hf : ∀ a, (f a).Keeps fatal) : (p >>= f).Keeps fatal := fun held =>
  Wp.bind (h held) fun a s hs => by
    rw [hs]
    exact hf a held

theorem Keeps.pure {a : α} : (Pure.pure a : Program R S α).Keeps fatal := fun _ => rfl

theorem Keeps.ite {c : Prop} [Decidable c] {q : Program R S α} (hp : c → p.Keeps fatal) (hq : ¬c → q.Keeps fatal) :
    (if c then p else q).Keeps fatal := fun held => Wp.ite (fun hc => hp hc held) fun hc => hq hc held

theorem keeps_ask {c : S.Call} (h : ∀ ret, fatal c ret = false) : (ask c : Program R S (S.Ret c)).Keeps fatal := by
  intro held ret
  show (⟨_, true && !fatal c ret⟩ : Status R) = _
  rw [h]
  rfl

/-- Before a program that keeps what is held. -/
theorem Keeps.wp {Q : β → Status R → Prop} {held : List R} (h : p.Keeps fatal) (hf : ∀ a, (f a).Wp fatal ⟨some held, true⟩ Q) :
    (p >>= f).Wp fatal ⟨some held, true⟩ Q :=
  Wp.bind (h held) fun a s hs => by
    rw [hs]
    exact hf a

/-- A call that may be fatal. -/
theorem wp_ask {c : S.Call} {g : S.Ret c → Program R S β} {held : Option (List R)} {Q : β → Status R → Prop}
    (h : ∀ ret, (g ret).Wp fatal ⟨held, !fatal c ret⟩ Q) : (ask c >>= g).Wp fatal ⟨held, true⟩ Q := by
  intro ret
  have hret := h ret
  cases held <;> exact hret

/-- What is taken is held first. -/
theorem wp_acquire {f : Unit → Program R S β} {held : List R} {spared : Bool} {Q : β → Status R → Prop}
    (h : (f ()).Wp fatal ⟨some (r :: held), spared⟩ Q) : (acquire r >>= f).Wp fatal ⟨some held, spared⟩ Q := h

theorem wp_release {f : Unit → Program R S β} {held held' : List R} {spared : Bool} {Q : β → Status R → Prop} (hr : r ∈ held)
    (heq : held.erase r = held') (h : (f ()).Wp fatal ⟨some held', spared⟩ Q) : (release r >>= f).Wp fatal ⟨some held, spared⟩ Q := by
  show (f ()).Wp fatal ⟨if r ∈ held then some (held.erase r) else none, spared⟩ Q
  rwa [if_pos hr, heq]

theorem wp_release_head {f : Unit → Program R S β} {held : List R} {spared : Bool} {Q : β → Status R → Prop}
    (h : (f ()).Wp fatal ⟨some held, spared⟩ Q) : (release r >>= f).Wp fatal ⟨some (r :: held), spared⟩ Q :=
  wp_release List.mem_cons_self (List.erase_cons_head r held) h

/-! ### Programs that end well or are lost -/

variable {held mid held' : List R} {g : α → Program R S β}

/-! ### What a trace says -/

def Status.of (fatal : (c : S.Call) → S.Ret c → Bool) (s : Status R) (trace : List (Event R S)) : Status R :=
  trace.foldl (Status.next fatal) s

theorem Wp.sound (h : p.Wp fatal s Q) {a : α} {trace : List (Event R S)} (hrun : p.Runs a trace) : Q a (s.of fatal trace) := by
  induction p generalizing s trace with
  | pure b =>
    obtain ⟨rfl, rfl⟩ := hrun
    exact h
  | stuck => exact hrun.elim
  | take r next ih =>
    obtain ⟨rest, rfl, hrest⟩ := hrun
    exact ih h hrest
  | give r next ih =>
    obtain ⟨rest, rfl, hrest⟩ := hrun
    exact ih h hrest
  | call c next ih =>
    obtain ⟨ret, rest, rfl, hrest⟩ := hrun
    exact ih ret (h ret) hrest

theorem of_held (held : Option (List R)) (spared : Bool) (trace : List (Event R S)) :
    (Status.of fatal ⟨held, spared⟩ trace).held = held.bind fun held => check held trace := by
  induction trace generalizing held spared with
  | nil =>
    cases held <;> rfl
  | cons e trace ih =>
    show (Status.of fatal ⟨held.bind fun held => e.check held, _⟩ trace).held = _
    rw [ih]
    cases held <;> rfl

theorem of_spared (s : Status R) (trace : List (Event R S)) :
    (s.of fatal trace).spared = true ↔ s.spared = true ∧ ∀ c ret, .returned c ret ∈ trace → fatal c ret = false := by
  induction trace generalizing s with
  | nil => simp [Status.of]
  | cons e trace ih =>
    show (Status.of fatal (s.next fatal e) trace).spared = true ↔ _
    rw [ih]
    cases e with
    | take r => simp [Status.next]
    | give r => simp [Status.next]
    | returned c ret =>
      simp only [Status.next, Bool.and_eq_true, Bool.not_eq_true', List.mem_cons]
      constructor
      · rintro ⟨⟨hs, hc⟩, hrest⟩
        refine ⟨hs, fun c' ret' hmem => ?_⟩
        rcases hmem with heq | hmem
        · cases heq
          exact hc
        · exact hrest c' ret' hmem
      · rintro ⟨hs, hall⟩
        exact ⟨⟨hs, hall c ret (.inl rfl)⟩, fun c' ret' hmem => hall c' ret' (.inr hmem)⟩

/-- A run ends with nothing held exactly if it was spared. -/
def Settled (s : Status R) : Prop := s.held = some [] ↔ s.spared = true

/-- A program that fails to balance exactly when something fatal is returned. -/
theorem Wp.balanced_iff (h : p.Wp fatal ⟨some [], true⟩ fun _ s => Settled s) {a : α} {trace : List (Event R S)}
    (hrun : p.Runs a trace) : Balanced trace ↔ ∀ c ret, .returned c ret ∈ trace → fatal c ret = false := by
  have hsettled := h.sound hrun
  rw [Settled, of_held, of_spared] at hsettled
  rw [Held.balanced_iff]
  exact hsettled.trans (and_iff_right rfl)

/-- One that is never told anything fatal balances. -/
theorem Keeps.balanced (h : p.Keeps fatal) {a : α} {trace : List (Event R S)} (hrun : p.Runs a trace) : Balanced trace := by
  have hs := Wp.sound (h []) hrun
  rw [Held.balanced_iff]
  exact (of_held (some []) true trace).symm.trans (congrArg Status.held hs)

end Program

end Pclsync.Lib.Held
