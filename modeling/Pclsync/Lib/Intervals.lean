import Mathlib.Data.List.Basic
import Mathlib.Order.Interval.Set.LinearOrder
import Mathlib.Tactic.Common
import Mathlib.Data.Set.BooleanAlgebra
import Mathlib.Order.CompletePartialOrder

/-! Sets of points as lists of intervals, over any linear order.

An interval is a first point and an end that is not in it. A `Separated` list is the
one way to write its set down: the intervals are not empty, go up, and leave a gap
between each other. -/
namespace Pclsync.Lib.Intervals

variable {α : Type} [LinearOrder α]

def points (list : List (α × α)) : Set α := {x | ∃ i ∈ list, x ∈ Set.Ico i.1 i.2}

@[simp] theorem mem_points {list : List (α × α)} {x : α} : x ∈ points list ↔ ∃ i ∈ list, i.1 ≤ x ∧ x < i.2 := Iff.rfl

@[simp] theorem points_nil : points ([] : List (α × α)) = ∅ := by
  ext x
  simp

@[simp] theorem points_cons {i : α × α} {list : List (α × α)} :
    points (i :: list) = Set.Ico i.1 i.2 ∪ points list := by
  ext x
  simp

structure Separated (list : List (α × α)) : Prop where
  nonempty : ∀ i ∈ list, i.1 < i.2
  gap : list.Pairwise fun i j => i.2 < j.1

@[simp] theorem separated_nil : Separated ([] : List (α × α)) := ⟨by simp, .nil⟩

theorem separated_cons {i : α × α} {list : List (α × α)} :
    Separated (i :: list) ↔ i.1 < i.2 ∧ (∀ j ∈ list, i.2 < j.1) ∧ Separated list := by
  constructor
  · intro h
    obtain ⟨hi, hgap⟩ := List.pairwise_cons.mp h.gap
    exact ⟨h.nonempty i (List.mem_cons_self ..), hi, fun j hj => h.nonempty j (List.mem_cons_of_mem _ hj), hgap⟩
  · rintro ⟨hi, hj, h⟩
    exact ⟨List.forall_mem_cons.mpr ⟨hi, h.nonempty⟩, List.pairwise_cons.mpr ⟨hj, h.gap⟩⟩

theorem Separated.sublist {xs ys : List (α × α)} (h : Separated ys) (hs : xs.Sublist ys) : Separated xs :=
  ⟨fun i hi => h.nonempty i (hs.subset hi), h.gap.sublist hs⟩

/-- What comes before an interval ends before it. -/
theorem Separated.before {xs ys : List (α × α)} {i : α × α} (h : Separated (xs ++ i :: ys)) :
    ∀ j ∈ xs, j.2 < i.1 := fun j hj =>
  (List.pairwise_append.mp h.gap).2.2 j hj i (List.mem_cons_self ..)

theorem Separated.after {xs ys : List (α × α)} {i : α × α} (h : Separated (xs ++ i :: ys)) :
    i.1 < i.2 ∧ ∀ j ∈ ys, i.2 < j.1 :=
  ⟨h.nonempty i (by simp), (List.pairwise_cons.mp (List.pairwise_append.mp h.gap).2.1).1⟩

/-- Two intervals leave a gap between each other. -/
theorem Separated.apart {list : List (α × α)} {i j : α × α} (h : Separated list) (hi : i ∈ list) (hj : j ∈ list)
    (hne : i ≠ j) : i.2 < j.1 ∨ j.2 < i.1 := by
  induction list with
  | nil => exact absurd hi List.not_mem_nil
  | cons k list ih =>
    obtain ⟨-, hgap, hlater⟩ := separated_cons.mp h
    rcases List.mem_cons.mp hi with rfl | hi'
    · exact .inl (hgap j ((List.mem_cons.mp hj).resolve_left hne.symm))
    · rcases List.mem_cons.mp hj with rfl | hj'
      · exact .inr (hgap i hi')
      · exact ih hlater hi' hj'

/-! ### Adding -/

/-- What is left of a list that starts after an interval up to `hi` swallowed what it
touches, and how far the interval goes then. -/
def absorb (hi : α) : List (α × α) → α × List (α × α)
  | [] => (hi, [])
  | (a, b) :: list => if hi < a then (hi, (a, b) :: list) else if hi ≤ b then (b, list) else absorb hi list

/-- An interval that starts at `lo` and goes up to `hi` at least, in front of a list. -/
def front (lo hi : α) (list : List (α × α)) : List (α × α) := (lo, (absorb hi list).1) :: (absorb hi list).2

def add (f t : α) : List (α × α) → List (α × α)
  | [] => [(f, t)]
  | (a, b) :: list =>
    if b < f then (a, b) :: add f t list
    else if a ≤ f then if t ≤ b then (a, b) :: list else front a t list
    else front f t ((a, b) :: list)

theorem front_spec {lo hi : α} {list : List (α × α)} (hlo : lo < hi) (hlist : ∀ i ∈ list, lo ≤ i.1)
    (h : Separated list) : Separated (front lo hi list) ∧ points (front lo hi list) = Set.Ico lo hi ∪ points list := by
  induction list generalizing hi with
  | nil => exact ⟨separated_cons.mpr ⟨hlo, by simp [absorb], separated_nil⟩, by simp [front, absorb]⟩
  | cons i list ih =>
    obtain ⟨a, b⟩ := i
    obtain ⟨hab, hgap, hlater⟩ := separated_cons.mp h
    obtain ⟨hla, hrest⟩ := List.forall_mem_cons.mp hlist
    simp only at hab hgap hla
    simp only [front, absorb]
    split_ifs with hfar hend
    · refine ⟨separated_cons.mpr ⟨hlo, fun j hj => ?_, h⟩, by simp⟩
      rcases List.mem_cons.mp hj with rfl | hj
      · exact hfar
      · exact hfar.trans (hab.trans (hgap j hj))
    · refine ⟨separated_cons.mpr ⟨hlo.trans_le hend, hgap, hlater⟩, ?_⟩
      rw [points_cons, points_cons, ← Set.union_assoc, Set.Ico_union_Ico' (by exact not_lt.mp hfar) (hla.trans hab.le),
        min_eq_left hla, max_eq_right hend]
    · obtain ⟨hs, hp⟩ := ih hlo hrest hlater
      refine ⟨hs, hp.trans ?_⟩
      have hsub : Set.Ico a b ⊆ Set.Ico lo hi := Set.Ico_subset_Ico hla (not_le.mp hend).le
      rw [points_cons, ← Set.union_assoc, Set.union_eq_self_of_subset_right hsub]

/-- What lies before the interval stays as it is. -/
theorem add_append {f t : α} {xs ys : List (α × α)} (hxs : ∀ i ∈ xs, i.2 < f) :
    add f t (xs ++ ys) = xs ++ add f t ys := by
  induction xs with
  | nil => rfl
  | cons i xs ih =>
    obtain ⟨hi, hrest⟩ := List.forall_mem_cons.mp hxs
    rw [List.cons_append, add, if_pos hi, ih hrest, List.cons_append]

theorem add_front {f t : α} {list : List (α × α)} (hlist : ∀ i ∈ list, f < i.1) (h : Separated list) :
    add f t list = front f t list := by
  cases list with
  | nil => rfl
  | cons i list =>
    have hi := hlist i (List.mem_cons_self ..)
    have hne := (separated_cons.mp h).1
    rw [add, if_neg (not_lt.mpr (hi.trans hne).le), if_neg (not_le.mpr hi)]

theorem absorb_subset {hi : α} {list : List (α × α)} : (absorb hi list).2 ⊆ list := by
  induction list with
  | nil => exact List.Subset.refl _
  | cons i list ih =>
    obtain ⟨a, b⟩ := i
    rw [absorb]
    split_ifs
    · exact List.Subset.refl _
    · exact List.subset_cons_self ..
    · exact fun j hj => List.mem_cons_of_mem _ (ih hj)

/-- Nothing that an addition leaves starts before all it is given. -/
theorem lt_of_mem_add {f t x : α} {list : List (α × α)} (hf : x < f) (hlist : ∀ i ∈ list, x < i.1) :
    ∀ i ∈ add f t list, x < i.1 := by
  induction list with
  | nil => simpa [add] using hf
  | cons i list ih =>
    obtain ⟨a, b⟩ := i
    obtain ⟨ha, hrest⟩ := List.forall_mem_cons.mp hlist
    rw [add]
    split_ifs
    · exact List.forall_mem_cons.mpr ⟨ha, ih hrest⟩
    · exact hlist
    · exact List.forall_mem_cons.mpr ⟨ha, fun j hj => hrest j (absorb_subset hj)⟩
    · exact List.forall_mem_cons.mpr ⟨hf, fun j hj => hlist j (absorb_subset hj)⟩

/-- An addition starts no interval but its own. -/
theorem fst_of_mem_add {f t : α} {list : List (α × α)} {i : α × α} (hi : i ∈ add f t list) :
    i.1 = f ∨ ∃ j ∈ list, j.1 = i.1 := by
  induction list with
  | nil =>
    rw [add, List.mem_singleton] at hi
    exact .inl (by rw [hi])
  | cons j list ih =>
    obtain ⟨a, b⟩ := j
    rw [add] at hi
    split_ifs at hi
    · rcases List.mem_cons.mp hi with rfl | hi
      · exact .inr ⟨(a, b), List.mem_cons_self .., rfl⟩
      · exact (ih hi).imp_right fun ⟨j, hj, h⟩ => ⟨j, List.mem_cons_of_mem _ hj, h⟩
    · exact .inr ⟨i, hi, rfl⟩
    · rcases List.mem_cons.mp hi with rfl | hi
      · exact .inr ⟨(a, b), List.mem_cons_self .., rfl⟩
      · exact .inr ⟨i, List.mem_cons_of_mem _ (absorb_subset hi), rfl⟩
    · rcases List.mem_cons.mp hi with rfl | hi
      · exact .inl rfl
      · exact .inr ⟨i, absorb_subset hi, rfl⟩

theorem add_spec {f t : α} {list : List (α × α)} (hft : f < t) (h : Separated list) :
    Separated (add f t list) ∧ points (add f t list) = Set.Ico f t ∪ points list := by
  induction list with
  | nil => exact ⟨separated_cons.mpr ⟨hft, by simp, separated_nil⟩, by simp [add]⟩
  | cons i list ih =>
    obtain ⟨a, b⟩ := i
    obtain ⟨hab, hgap, hlater⟩ := separated_cons.mp h
    simp only at hab hgap
    rw [add]
    split_ifs with hbefore hstart hend
    · obtain ⟨hs, hp⟩ := ih hlater
      refine ⟨separated_cons.mpr ⟨hab, lt_of_mem_add hbefore hgap, hs⟩, ?_⟩
      rw [points_cons, hp, points_cons, Set.union_left_comm]
    · have hsub : Set.Ico f t ⊆ Set.Ico a b := Set.Ico_subset_Ico hstart hend
      exact ⟨h, by rw [points_cons, ← Set.union_assoc, Set.union_eq_self_of_subset_left hsub]⟩
    · obtain ⟨hs, hp⟩ := front_spec (hstart.trans_lt hft) (fun j hj => (hab.trans (hgap j hj)).le) hlater
      refine ⟨hs, hp.trans ?_⟩
      have hunion : Set.Ico f t ∪ Set.Ico a b = Set.Ico a t := by
        rw [Set.union_comm, Set.Ico_union_Ico' (not_lt.mp hbefore) (hstart.trans (hft.le)), min_eq_left hstart,
          max_eq_right (not_le.mp hend).le]
      rw [points_cons, ← Set.union_assoc, hunion]
    · have hfa := not_le.mp hstart
      refine front_spec hft (List.forall_mem_cons.mpr ⟨hfa.le, fun j hj => ?_⟩) h
      exact (hfa.trans (hab.trans (hgap j hj))).le

/-! ### Removing -/

/-- The part of an interval before `f`. -/
def head (f : α) (i : α × α) : List (α × α) := if i.1 < f then [(i.1, min i.2 f)] else []

/-- The part of an interval from `t` on. -/
def tail (t : α) (i : α × α) : List (α × α) := if t < i.2 then [(max i.1 t, i.2)] else []

def remove (f t : α) (list : List (α × α)) : List (α × α) := list.flatMap fun i => head f i ++ tail t i

def cutEnd (e : α) (list : List (α × α)) : List (α × α) := list.flatMap (head e)

theorem head_before {f : α} {i : α × α} (hne : i.1 < i.2) (hi : i.2 ≤ f) : head f i = [i] := by
  rw [head, if_pos (hne.trans_le hi), min_eq_left hi]

theorem head_after {f : α} {i : α × α} (hi : f ≤ i.1) : head f i = [] := if_neg (not_lt.mpr hi)

theorem tail_before {t : α} {i : α × α} (hi : i.2 ≤ t) : tail t i = [] := if_neg (not_lt.mpr hi)

theorem tail_after {t : α} {i : α × α} (hne : i.1 < i.2) (hi : t ≤ i.1) : tail t i = [i] := by
  rw [tail, if_pos (hi.trans_lt hne), max_eq_left hi]

theorem points_head {f : α} {i : α × α} : points (head f i) = Set.Ico i.1 i.2 ∩ Set.Iio f := by
  rw [head, Set.Ico_inter_Iio]
  split_ifs with hf
  · simp
  · have hmin : min i.2 f ≤ i.1 := (min_le_right ..).trans (not_lt.mp hf)
    rw [points_nil, Set.Ico_eq_empty (not_lt.mpr hmin)]

theorem points_tail {t : α} {i : α × α} : points (tail t i) = Set.Ico i.1 i.2 ∩ Set.Ici t := by
  have hinter : Set.Ico i.1 i.2 ∩ Set.Ici t = Set.Ico (max i.1 t) i.2 := by
    ext x
    simp only [Set.mem_inter_iff, Set.mem_Ico, Set.mem_Ici, sup_le_iff]
    tauto
  rw [tail, hinter]
  split_ifs with ht
  · simp
  · have hmax : i.2 ≤ max i.1 t := (not_lt.mp ht).trans (le_max_right ..)
    rw [points_nil, Set.Ico_eq_empty (not_lt.mpr hmax)]

theorem points_append {xs ys : List (α × α)} : points (xs ++ ys) = points xs ∪ points ys := by
  induction xs with
  | nil => simp
  | cons i xs ih => rw [List.cons_append, points_cons, points_cons, ih, Set.union_assoc]

/-- What keeps one set of points of every interval keeps it of the list. -/
theorem points_flatMap {list : List (α × α)} {g : α × α → List (α × α)} {s : Set α}
    (hg : ∀ i, points (g i) = Set.Ico i.1 i.2 ∩ s) : points (list.flatMap g) = points list ∩ s := by
  induction list with
  | nil => simp
  | cons i list ih => rw [List.flatMap_cons, points_append, hg, ih, points_cons, Set.union_inter_distrib_right]

/-- Parts of separated intervals are separated. -/
theorem Separated.flatMap {list : List (α × α)} {g : α × α → List (α × α)} (h : Separated list)
    (hg : ∀ i, i.1 < i.2 → Separated (g i) ∧ ∀ j ∈ g i, i.1 ≤ j.1 ∧ j.2 ≤ i.2) : Separated (list.flatMap g) := by
  refine ⟨fun j hj => ?_, List.pairwise_flatMap.mpr ⟨fun i hi => (hg i (h.nonempty i hi)).1.gap, ?_⟩⟩
  · obtain ⟨i, hi, hj⟩ := List.mem_flatMap.mp hj
    exact (hg i (h.nonempty i hi)).1.nonempty j hj
  · refine h.gap.imp_of_mem fun {i i'} hi hi' hgap j hj j' hj' => ?_
    have hj := (hg i (h.nonempty i hi)).2 j hj
    have hj' := (hg i' (h.nonempty i' hi')).2 j' hj'
    exact hj.2.trans_lt (hgap.trans_le hj'.1)

theorem separated_head {f : α} {i : α × α} (hi : i.1 < i.2) :
    Separated (head f i) ∧ ∀ j ∈ head f i, i.1 ≤ j.1 ∧ j.2 ≤ i.2 := by
  rw [head]
  split_ifs with hf
  · exact ⟨separated_cons.mpr ⟨lt_min hi hf, by simp, separated_nil⟩, by simp⟩
  · simp

omit [LinearOrder α] in
/-- What leaves every interval of a list as it is leaves the list. -/
theorem flatMap_self {list : List (α × α)} {g : α × α → List (α × α)} (hg : ∀ i ∈ list, g i = [i]) :
    list.flatMap g = list :=
  (List.flatMap_congr hg).trans (List.flatMap_singleton' list)

/-- A removal starts no interval but the one at its end. -/
theorem fst_of_mem_remove {f t : α} {list : List (α × α)} {i : α × α} (hi : i ∈ remove f t list) :
    i.1 = t ∨ ∃ j ∈ list, j.1 = i.1 := by
  obtain ⟨j, hj, hi⟩ := List.mem_flatMap.mp hi
  rw [head, tail] at hi
  rcases List.mem_append.mp hi with hi | hi <;> split_ifs at hi
  · obtain rfl := List.mem_singleton.mp hi
    exact .inr ⟨j, hj, rfl⟩
  · exact absurd hi List.not_mem_nil
  · obtain rfl := List.mem_singleton.mp hi
    rcases le_total t j.1 with h | h
    · exact .inr ⟨j, hj, (max_eq_left h).symm⟩
    · exact .inl (max_eq_right h)
  · exact absurd hi List.not_mem_nil

theorem remove_before {f t : α} {list : List (α × α)} (h : Separated list) (hft : f < t) (hlist : ∀ i ∈ list, i.2 ≤ f) :
    remove f t list = list := flatMap_self fun i hi => by
  rw [head_before (h.nonempty i hi) (hlist i hi), tail_before ((hlist i hi).trans hft.le), List.append_nil]

theorem remove_after {f t : α} {list : List (α × α)} (h : Separated list) (hft : f < t) (hlist : ∀ i ∈ list, t ≤ i.1) :
    remove f t list = list := flatMap_self fun i hi => by
  rw [head_after (hft.le.trans (hlist i hi)), tail_after (h.nonempty i hi) (hlist i hi), List.nil_append]

theorem cutEnd_before {e : α} {list : List (α × α)} (h : Separated list) (hlist : ∀ i ∈ list, i.2 ≤ e) :
    cutEnd e list = list := flatMap_self fun i hi => head_before (h.nonempty i hi) (hlist i hi)

theorem cutEnd_spec {e : α} {list : List (α × α)} (h : Separated list) :
    Separated (cutEnd e list) ∧ points (cutEnd e list) = points list ∩ Set.Iio e :=
  ⟨h.flatMap fun _ hi => separated_head hi, points_flatMap fun _ => points_head⟩

theorem remove_spec {f t : α} {list : List (α × α)} (hft : f < t) (h : Separated list) :
    Separated (remove f t list) ∧ points (remove f t list) = points list \ Set.Ico f t := by
  constructor
  · refine h.flatMap fun i hi => ?_
    obtain ⟨hs, hin⟩ := separated_head (f := f) hi
    rw [tail]
    split_ifs with ht
    · have htail : (max i.1 t, i.2).1 < (max i.1 t, i.2).2 := max_lt hi ht
      refine ⟨⟨?_, ?_⟩, ?_⟩
      · exact List.forall_mem_append.mpr ⟨hs.nonempty, by simpa using htail⟩
      · refine List.pairwise_append.mpr ⟨hs.gap, List.pairwise_singleton .., ?_⟩
        rw [head]
        split_ifs
        · simp [(min_le_right i.2 f).trans_lt hft]
        · simp
      · exact List.forall_mem_append.mpr ⟨hin, by simp⟩
    · rw [List.append_nil]
      exact ⟨hs, hin⟩
  · have hcompl : points list \ Set.Ico f t = points list ∩ (Set.Iio f ∪ Set.Ici t) := by
      ext x
      simp only [Set.mem_sdiff, Set.mem_inter_iff, Set.mem_union, Set.mem_Ico, Set.mem_Iio, Set.mem_Ici, not_and_or,
        not_le, not_lt]
    rw [hcompl]
    exact points_flatMap fun i => by rw [points_append, points_head, points_tail, Set.inter_union_distrib_left]

end Pclsync.Lib.Intervals
