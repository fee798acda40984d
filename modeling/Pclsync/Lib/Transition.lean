import Mathlib.Tactic.Common

/-! Runs of a step relation, and the rule of invariants. -/
namespace Pclsync.Lib.Transition

variable {σ α : Type}

/-- The states of the runs that start in `init`. -/
inductive Reachable (init : σ → Prop) (step : σ → α → σ → Prop) : σ → Prop where
  | start {s : σ} : init s → Reachable init step s
  | next {s s' : σ} {a : α} : Reachable init step s → step s a s' → Reachable init step s'

/-- The steps that are not bad. -/
def Avoiding (step : σ → α → σ → Prop) (bad : σ → α → Prop) (s : σ) (a : α) (s' : σ) : Prop :=
  step s a s' ∧ ¬bad s a

variable {init : σ → Prop} {step step' : σ → α → σ → Prop} {inv : σ → Prop} {s : σ}

theorem Reachable.invariant (h : Reachable init step s) (hinit : ∀ s, init s → inv s)
    (hstep : ∀ s a s', inv s → step s a s' → inv s') : inv s := by
  induction h with
  | start h => exact hinit _ h
  | next _ h ih => exact hstep _ _ _ ih h

theorem Reachable.mono (h : Reachable init step s) (hmono : ∀ s a s', step s a s' → step' s a s') :
    Reachable init step' s := by
  induction h with
  | start h => exact .start h
  | next _ h ih => exact .next ih (hmono _ _ _ h)

theorem Reachable.avoiding {bad : σ → α → Prop} (h : Reachable init (Avoiding step bad) s) : Reachable init step s :=
  h.mono fun _ _ _ h => h.1

/-- A list of steps. -/
theorem Reachable.runs {run : σ → α → Option σ} {s' : σ} (as : List α) (h : Reachable init (fun s a s' => run s a = some s') s)
    (hrun : as.foldlM run s = some s') : Reachable init (fun s a s' => run s a = some s') s' := by
  induction as generalizing s with
  | nil =>
    cases hrun
    exact h
  | cons a as ih =>
    rw [List.foldlM_cons] at hrun
    obtain ⟨t, ht, hrest⟩ := Option.bind_eq_some_iff.mp hrun
    exact ih (h.next ht) hrest

/-- A list of steps, none of which is bad in any state. -/
theorem Reachable.foldlM {run : σ → α → Option σ} {bad : σ → α → Prop} {s' : σ} (as : List α)
    (h : Reachable init (Avoiding (fun s a s' => run s a = some s') bad) s) (hrun : as.foldlM run s = some s')
    (hsafe : ∀ a ∈ as, ∀ s, ¬bad s a) : Reachable init (Avoiding (fun s a s' => run s a = some s') bad) s' := by
  induction as generalizing s with
  | nil =>
    cases hrun
    exact h
  | cons a as ih =>
    rw [List.foldlM_cons] at hrun
    obtain ⟨t, ht, hrest⟩ := Option.bind_eq_some_iff.mp hrun
    exact ih (h.next ⟨ht, hsafe a (.head _) s⟩) hrest fun b hb => hsafe b (.tail _ hb)

/-- A list of steps, each of which is seen not to be bad where it is made. -/
theorem Reachable.guarded {run : σ → α → Option σ} {bad : σ → α → Prop} [∀ s a, Decidable (bad s a)] {s' : σ} (as : List α)
    (h : Reachable init (Avoiding (fun s a s' => run s a = some s') bad) s)
    (hrun : as.foldlM (fun s a => if bad s a then none else run s a) s = some s') :
    Reachable init (Avoiding (fun s a s' => run s a = some s') bad) s' := by
  induction as generalizing s with
  | nil =>
    cases hrun
    exact h
  | cons a as ih =>
    rw [List.foldlM_cons] at hrun
    obtain ⟨t, ht, hrest⟩ := Option.bind_eq_some_iff.mp hrun
    split at ht
    · cases ht
    next hsafe => exact ih (h.next ⟨ht, hsafe⟩) hrest

end Pclsync.Lib.Transition

/-! Inverting computations in `Except`: what a successful or failed `do` block says
about its steps. -/
namespace Pclsync.Lib.Fallible

variable {ε α β : Type}

@[simp] theorem ok_bind (a : α) (f : α → Except ε β) : (Except.ok a >>= f) = f a := rfl

@[simp] theorem error_bind (e : ε) (f : α → Except ε β) : (Except.error e >>= f) = .error e := rfl

@[simp] theorem pure_eq_ok (a : α) : (pure a : Except ε α) = .ok a := rfl

@[simp] theorem throw_eq_error (e : ε) : (throw e : Except ε α) = .error e := rfl

theorem bind_eq_ok {x : Except ε α} {f : α → Except ε β} {b : β} :
    (x >>= f) = .ok b ↔ ∃ a, x = .ok a ∧ f a = .ok b := by
  cases x with
  | ok a => simp
  | error e => simp

end Pclsync.Lib.Fallible
