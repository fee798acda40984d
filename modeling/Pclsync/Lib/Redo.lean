import Pclsync.Lib.Files

/-! Operations on a file that may be done again from their start.

After an interruption the file is as some first part of the operations left it. Doing
all of them again then ends as if there had been none, when they begin by setting the
length and set it to nothing else later: a position that some operation writes gets
what it would have got, and one that none writes was left alone both times. -/
namespace Pclsync.Lib.Redo
open Lib.Files

inductive Op where
  | truncate (n : ℕ)
  | write (data : Bytes) (off : ℕ)
deriving DecidableEq, Repr

def Op.apply (f : Bytes) : Op → Bytes
  | truncate n => Files.truncate f n
  | write data off => pwrite f data off

def run (ops : List Op) (f : Bytes) : Bytes := ops.foldl Op.apply f

/-- The operation writes at a position. -/
def Op.Writes (i : ℕ) : Op → Prop
  | truncate _ => False
  | write data off => off ≤ i ∧ i < off + data.length

/-- Two files that some operations make the same. -/
def Agree (ops : List Op) (f g : Bytes) : Prop :=
  f.length = g.length ∧ ∀ i, get f i = get g i ∨ ∃ op ∈ ops, op.Writes i

variable {f g : Bytes} {ops pre : List Op} {n i : ℕ}

theorem Agree.step {op : Op} (h : Agree (op :: ops) f g) : Agree ops (op.apply f) (op.apply g) := by
  obtain ⟨hlength, hget⟩ := h
  cases op with
  | truncate n =>
    refine ⟨by simp [Op.apply], fun i => ?_⟩
    rw [Op.apply, Op.apply, get_truncate, get_truncate]
    rcases hget i with heq | ⟨op, hop, hw⟩
    · exact .inl (by rw [heq])
    · rcases List.mem_cons.mp hop with rfl | hop
      · exact hw.elim
      · exact .inr ⟨op, hop, hw⟩
  | write data off =>
    refine ⟨by rw [Op.apply, Op.apply, length_pwrite, length_pwrite, hlength], fun i => ?_⟩
    rw [Op.apply, Op.apply, get_pwrite, get_pwrite]
    rcases hget i with heq | ⟨op, hop, hw⟩
    · exact .inl (by rw [heq])
    · rcases List.mem_cons.mp hop with rfl | hop
      · simp only [Op.Writes] at hw
        exact .inl (by rw [if_pos hw, if_pos hw])
      · exact .inr ⟨op, hop, hw⟩

theorem Agree.run (h : Agree ops f g) : run ops f = run ops g := by
  induction ops generalizing f g with
  | nil =>
    obtain ⟨hlength, hget⟩ := h
    exact ext_get hlength fun i _ => (hget i).resolve_right (by simp)
  | cons op ops ih => exact ih h.step

/-- Operations leave what they do not write. -/
theorem get_run (hlength : ∀ m, Op.truncate m ∈ ops → m = n) (hi : i < n) (hw : ∀ op ∈ ops, ¬op.Writes i) :
    get (run ops f) i = get f i := by
  induction ops generalizing f with
  | nil => rfl
  | cons op ops ih =>
    obtain ⟨hop, hrest⟩ := List.forall_mem_cons.mp hw
    refine (ih (fun m hm => hlength m (List.mem_cons_of_mem _ hm)) hrest).trans ?_
    cases op with
    | truncate m =>
      obtain rfl := hlength m (List.mem_cons_self ..)
      rw [Op.apply, get_truncate, if_pos hi]
    | write data off =>
      simp only [Op.Writes] at hop
      rw [Op.apply, get_pwrite, if_neg hop]

/-- All the operations, after some first part of them. -/
theorem run_again (hlength : ∀ m, Op.truncate m ∈ ops → m = n) (hpre : pre <+: .truncate n :: ops) :
    run (.truncate n :: ops) (run pre f) = run (.truncate n :: ops) f := by
  change run ops _ = run ops _
  refine Agree.run ⟨by simp [Op.apply], fun i => ?_⟩
  rw [Op.apply, Op.apply, get_truncate, get_truncate]
  by_cases hw : ∃ op ∈ ops, op.Writes i
  · exact .inr hw
  · refine .inl ?_
    split_ifs with hi
    · refine get_run (n := n) (fun m hm => ?_) hi fun op hop hwrites => ?_
      · rcases List.mem_cons.mp (hpre.subset hm) with heq | hm
        · exact (Op.truncate.inj heq)
        · exact hlength m hm
      · rcases List.mem_cons.mp (hpre.subset hop) with rfl | hop
        · exact hwrites
        · exact hw ⟨op, hop, hwrites⟩
    · rfl

end Pclsync.Lib.Redo
