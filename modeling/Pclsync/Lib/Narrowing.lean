import Mathlib.Data.List.Induction
import Mathlib.Tactic.Common

/-! Narrowing along a way: each stage may take something away of what the ones before it left.

`narrow` takes what all stages leave. `narrowFrom` forgets at some stages what the ones before
them left. The two are the same when nothing comes back at such a stage that the later ones
leave. -/
namespace Pclsync.Lib.Narrowing

variable {α σ : Type} (op : α → α → α) (leaves : σ → α) (forgets : σ → Prop) [DecidablePred forgets]

/-- What all the stages leave. -/
def narrow (start : α) (stages : List σ) : α := stages.foldl (fun x s => op x (leaves s)) start

/-- What is left when some stages do not look at what was left before them. -/
def narrowFrom (start : α) (stages : List σ) : α := stages.foldl (fun x s => if forgets s then leaves s else op x (leaves s)) start

/-- What a stage and the later ones leave was left by the ones before, wherever these are forgotten. -/
def Falling (start : α) (stages : List σ) : Prop :=
  ∀ before s after, stages = before ++ s :: after → forgets s →
    op (narrow op leaves start before) (narrow op leaves (leaves s) after) = narrow op leaves (leaves s) after

variable {op leaves forgets} {start x y : α} {stages after : List σ} {s : σ}

theorem narrow_append : narrow op leaves start (stages ++ after) = narrow op leaves (narrow op leaves start stages) after :=
  List.foldl_append

section
variable [Std.Associative op]

/-- What was taken away before a way is taken away behind it. -/
theorem narrow_op : narrow op leaves (op x y) stages = op x (narrow op leaves y stages) := by
  induction stages generalizing y with
  | nil => rfl
  | cons s stages ih =>
    have hassoc : op (op x y) (leaves s) = op x (op y (leaves s)) := Std.Associative.assoc ..
    rw [narrow, List.foldl_cons, hassoc]
    exact ih

variable [Std.IdempotentOp op]

/-- What is left behind some stages is left by any part of them. -/
theorem op_narrow_append {before : List σ} :
    op (narrow op leaves start before) (narrow op leaves start (before ++ after)) = narrow op leaves start (before ++ after) := by
  rw [narrow_append]
  have hself : narrow op leaves start before = op (narrow op leaves start before) (narrow op leaves start before) :=
    (Std.IdempotentOp.idempotent _).symm
  conv_rhs => rw [hself]
  rw [narrow_op]

variable [Std.Commutative op]

/-- A later part of a way, to which the rest of the way is still to be added. -/
theorem narrowFrom_iff_of_rest (rest : List σ) :
    narrow op leaves (narrowFrom op leaves forgets start stages) rest = narrow op leaves (narrow op leaves start stages) rest ↔
      ∀ before s after, stages = before ++ s :: after → forgets s →
        op (narrow op leaves start before) (narrow op leaves (leaves s) (after ++ rest)) = narrow op leaves (leaves s) (after ++ rest) := by
  induction stages using List.reverseRecOn generalizing rest with
  | nil =>
    refine ⟨fun _ before s after h => ?_, fun _ => rfl⟩
    cases before <;> cases h
  | append_singleton stages x ih =>
    have hall : narrow op leaves start (stages ++ [x]) = op (narrow op leaves start stages) (leaves x) := by
      rw [narrow_append]
      rfl
    by_cases hx : forgets x
    · have hfrom : narrowFrom op leaves forgets start (stages ++ [x]) = leaves x := by
        rw [narrowFrom, List.foldl_append, List.foldl_cons, List.foldl_nil, if_pos hx]
      rw [hfrom, hall, narrow_op]
      refine ⟨fun h before s after heq hs => ?_, fun h => (h stages x [] rfl hx).symm⟩
      rcases List.eq_nil_or_concat after with rfl | ⟨after', z, rfl⟩
      · obtain ⟨hbefore, hlast⟩ := List.append_inj' heq rfl
        cases hlast
        rw [← hbefore, List.nil_append, ← h]
      · rw [List.concat_eq_append, ← List.cons_append, ← List.append_assoc] at heq
        obtain ⟨hstages, hlast⟩ := List.append_inj' heq rfl
        cases hlast
        have hsplit : narrow op leaves (leaves s) (after' ++ [x] ++ rest) =
            op (narrow op leaves (leaves s) after') (narrow op leaves (leaves x) rest) := by
          rw [narrow_append, narrow_append]
          exact narrow_op
        have hbefore : op (narrow op leaves start before) (narrow op leaves start stages) = narrow op leaves start stages := by
          rw [hstages]
          exact op_narrow_append
        have hassoc : ∀ x y z, op (op x y) z = op x (op y z) := Std.Associative.assoc
        have hcomm : ∀ x y, op x y = op y x := Std.Commutative.comm
        rw [List.concat_eq_append, hsplit, h, ← hassoc, ← hassoc, hcomm (narrow op leaves start before),
          hassoc _ (narrow op leaves start before), hbefore]
        exact Std.Associative.assoc ..
    · have hfrom : narrowFrom op leaves forgets start (stages ++ [x]) = op (narrowFrom op leaves forgets start stages) (leaves x) := by
        rw [narrowFrom, List.foldl_append, List.foldl_cons, List.foldl_nil, if_neg hx]
        rfl
      have hstep := ih (x :: rest)
      rw [hfrom, hall]
      refine Iff.trans hstep ⟨fun h before s after heq hs => ?_, fun h before s after heq hs => ?_⟩
      · rcases List.eq_nil_or_concat after with rfl | ⟨after', z, rfl⟩
        · obtain ⟨_, hlast⟩ := List.append_inj' heq rfl
          cases hlast
          exact absurd hs hx
        · rw [List.concat_eq_append, ← List.cons_append, ← List.append_assoc] at heq
          obtain ⟨hstages, hlast⟩ := List.append_inj' heq rfl
          cases hlast
          have hgiven := h before s after' hstages hs
          rwa [List.concat_eq_append, List.append_assoc, List.singleton_append]
      · have hgiven := h before s (after ++ [x]) (by rw [heq, List.append_assoc, List.cons_append]) hs
        rwa [List.append_assoc, List.singleton_append] at hgiven

/-- Forgetting makes no difference exactly when nothing comes back. -/
theorem narrowFrom_iff : narrowFrom op leaves forgets start stages = narrow op leaves start stages ↔ Falling op leaves forgets start stages := by
  have h : narrow op leaves (narrowFrom op leaves forgets start stages) [] = narrow op leaves (narrow op leaves start stages) [] ↔ _ :=
    narrowFrom_iff_of_rest []
  simp only [List.append_nil] at h
  exact h

end

end Pclsync.Lib.Narrowing
