import Mathlib.Logic.Function.Basic
import Mathlib.Tactic.Common

/-! Programs on a heap, and what they do.

A program runs on a heap of cells and stops without a result where the code would:
at a failed assertion or at a pointer that leads nowhere. `Does x h Q` says that `x`,
started on `h`, ends and that `Q` holds of its result and of the heap it leaves. -/
namespace Pclsync.Lib.HeapProgram

/-- The cells in use. -/
abbrev Heap (P C : Type) := P → Option C

abbrev Program (P C α : Type) := StateT (Heap P C) Option α

variable {P C α β : Type}

/-- A pointer that must not be `NULL`. -/
def deref (p : Option P) : Program P C P := fun h => p.map (·, h)

def load (p : P) : Program P C C := fun h => (h p).map (·, h)

/-- A store in fields of a cell. -/
def store [DecidableEq P] (p : P) (f : C → C) : Program P C Unit :=
  fun h => (h p).map fun c => ((), Function.update h p (some (f c)))

def assert (c : Prop) [Decidable c] : Program P C Unit := fun h => if c then some ((), h) else none

/-- A cell taken into use, at a pointer that the allocator answered. -/
def alloc [DecidableEq P] (p : P) (c : C) : Program P C Unit := fun h =>
  match h p with
  | none => some ((), Function.update h p (some c))
  | some _ => none

def free [DecidableEq P] (p : P) : Program P C Unit :=
  fun h => (h p).map fun _ => ((), Function.update h p none)

def Does (x : Program P C α) (h : Heap P C) (Q : α → Heap P C → Prop) : Prop :=
  ∃ a h', x h = some (a, h') ∧ Q a h'

variable {h : Heap P C} {Q : α → Heap P C → Prop}

@[simp] theorem does_pure {a : α} : Does (pure a : Program P C α) h Q ↔ Q a h := by
  constructor
  · rintro ⟨_, _, hrun, hq⟩
    cases hrun
    exact hq
  · exact fun hq => ⟨a, h, rfl, hq⟩

@[simp] theorem does_bind {x : Program P C β} {f : β → Program P C α} :
    Does (x >>= f) h Q ↔ Does x h fun b h' => Does (f b) h' Q := by
  constructor
  · rintro ⟨a, h'', hrun, hq⟩
    obtain ⟨⟨b, h'⟩, hx, hf⟩ := Option.bind_eq_some_iff.mp hrun
    exact ⟨b, h', hx, a, h'', hf, hq⟩
  · rintro ⟨b, h', hx, a, h'', hf, hq⟩
    exact ⟨a, h'', Option.bind_eq_some_iff.mpr ⟨(b, h'), hx, hf⟩, hq⟩

@[simp] theorem does_map {x : Program P C β} {f : β → α} :
    Does (f <$> x) h Q ↔ Does x h fun b h' => Q (f b) h' := by
  rw [← bind_pure_comp, does_bind]
  simp only [does_pure]

theorem Does.mono {x : Program P C α} {Q' : α → Heap P C → Prop} (hx : Does x h Q)
    (hq : ∀ a h', Q a h' → Q' a h') : Does x h Q' := by
  obtain ⟨a, h', hrun, h⟩ := hx
  exact ⟨a, h', hrun, hq a h' h⟩

@[simp] theorem does_deref_some {p : P} {Q : P → Heap P C → Prop} : Does (deref (some p)) h Q ↔ Q p h := by
  constructor
  · rintro ⟨_, _, hrun, hq⟩
    cases hrun
    exact hq
  · exact fun hq => ⟨p, h, rfl, hq⟩

@[simp] theorem does_load {p : P} {Q : C → Heap P C → Prop} :
    Does (load p) h Q ↔ ∃ c, h p = some c ∧ Q c h := by
  constructor
  · rintro ⟨c, _, hrun, hq⟩
    obtain ⟨c', hp, hpair⟩ := Option.map_eq_some_iff.mp hrun
    cases hpair
    exact ⟨c, hp, hq⟩
  · exact fun ⟨c, hp, hq⟩ => ⟨c, h, by simp only [load, hp, Option.map_some], hq⟩

@[simp] theorem does_store [DecidableEq P] {p : P} {f : C → C} {Q : Unit → Heap P C → Prop} :
    Does (store p f) h Q ↔ ∃ c, h p = some c ∧ Q () (Function.update h p (some (f c))) := by
  constructor
  · rintro ⟨_, _, hrun, hq⟩
    obtain ⟨c, hp, hpair⟩ := Option.map_eq_some_iff.mp hrun
    cases hpair
    exact ⟨c, hp, hq⟩
  · exact fun ⟨c, hp, hq⟩ => ⟨(), _, by simp only [store, hp, Option.map_some], hq⟩

@[simp] theorem does_assert {c : Prop} [Decidable c] {Q : Unit → Heap P C → Prop} :
    Does (assert c) h Q ↔ c ∧ Q () h := by
  constructor
  · rintro ⟨_, _, hrun, hq⟩
    by_cases hc : c
    · rw [assert, if_pos hc] at hrun
      cases hrun
      exact ⟨hc, hq⟩
    · rw [assert, if_neg hc] at hrun
      cases hrun
  · exact fun ⟨hc, hq⟩ => ⟨(), h, if_pos hc, hq⟩

@[simp] theorem does_alloc [DecidableEq P] {p : P} {c : C} {Q : Unit → Heap P C → Prop} :
    Does (alloc p c) h Q ↔ h p = none ∧ Q () (Function.update h p (some c)) := by
  constructor
  · rintro ⟨_, _, hrun, hq⟩
    rw [alloc] at hrun
    split at hrun
    · next hp =>
      cases hrun
      exact ⟨hp, hq⟩
    · cases hrun
  · exact fun ⟨hp, hq⟩ => ⟨(), _, by simp only [alloc, hp], hq⟩

@[simp] theorem does_free [DecidableEq P] {p : P} {Q : Unit → Heap P C → Prop} :
    Does (free p) h Q ↔ ∃ c, h p = some c ∧ Q () (Function.update h p none) := by
  constructor
  · rintro ⟨_, _, hrun, hq⟩
    obtain ⟨c, hp, hpair⟩ := Option.map_eq_some_iff.mp hrun
    cases hpair
    exact ⟨c, hp, hq⟩
  · exact fun ⟨c, hp, hq⟩ => ⟨(), _, by simp only [free, hp, Option.map_some], hq⟩

/-- A cell that a store elsewhere leaves. -/
theorem update_other [DecidableEq P] {p q : P} {c : Option C} (hne : q ≠ p) :
    Function.update h p c q = h q := Function.update_of_ne hne _ _

/-! ### A program on one part of every cell -/

section Part
variable {D : Type} {get : C → D} {set : C → D → C} {g : Heap P D}

def parts (get : C → D) (h : Heap P C) : Heap P D := fun p => (h p).map get

/-- The cells in use, each with another part. -/
def withParts (set : C → D → C) (h : Heap P C) (g : Heap P D) : Heap P C := fun p =>
  match h p, g p with
  | some c, some d => some (set c d)
  | c, _ => c

def onPart (get : C → D) (set : C → D → C) (x : Program P D α) : Program P C α := fun h =>
  (x (parts get h)).map fun (a, g) => (a, withParts set h g)

theorem does_onPart {x : Program P D α} :
    Does (onPart get set x) h Q ↔ Does x (parts get h) fun a g => Q a (withParts set h g) := by
  constructor
  · rintro ⟨a, h', hrun, hq⟩
    obtain ⟨⟨b, g⟩, hx, hpair⟩ := Option.map_eq_some_iff.mp hrun
    cases hpair
    exact ⟨_, _, hx, hq⟩
  · exact fun ⟨a, g, hx, hq⟩ => ⟨a, _, by simp only [onPart, hx, Option.map_some], hq⟩

theorem withParts_parts (hset : ∀ c, set c (get c) = c) : withParts set h (parts get h) = h := by
  funext p
  cases hp : h p with
  | none => simp only [withParts, hp]
  | some c => simp only [withParts, parts, hp, Option.map_some, hset]

theorem parts_withParts {p : P} {c : C} {d : D} (hget : ∀ c d, get (set c d) = d) (hp : h p = some c)
    (hd : g p = some d) : parts get (withParts set h g) p = g p := by
  simp only [parts, withParts, hp, hd, Option.map_some, hget]

/-- What a program on one part leaves of another one. -/
theorem map_withParts {E : Type} {other : C → E} (hother : ∀ c d, other (set c d) = other c) (p : P) :
    (withParts set h g p).map other = (h p).map other := by
  rw [withParts]
  split
  · next hp _ => rw [hp, Option.map_some, Option.map_some, hother]
  · rfl

end Part

end Pclsync.Lib.HeapProgram
