import Pclsync.Lib.Rings

/-! The list operations of `plist.h`. -/
namespace Pclsync.PList
open Lib.HeapProgram Lib.Rings

variable {P : Type} [DecidableEq P]

/-- `psync_list_add_between` -/
def addBetween (l1 l2 a : P) : Program P (Links P) Unit := do
  store a fun c => { c with next := some l2 }
  store a fun c => { c with prev := some l1 }
  store l1 fun c => { c with next := some a }
  store l2 fun c => { c with prev := some a }

/-- `psync_list_add_tail` -/
def addTail (l a : P) : Program P (Links P) Unit := do
  let last ← deref (← load l).prev
  addBetween last l a

/-- `psync_list_add_before` -/
def addBefore (e a : P) : Program P (Links P) Unit := do
  let before ← deref (← load e).prev
  addBetween before e a

/-- `psync_list_add_after` -/
def addAfter (e a : P) : Program P (Links P) Unit := do
  let after ← deref (← load e).next
  addBetween e after a

/-- `psync_list_del` -/
def del (a : P) : Program P (Links P) Unit := do
  let c ← load a
  let next ← deref c.next
  store next fun d => { d with prev := c.prev }
  let c ← load a
  let prev ← deref c.prev
  store prev fun d => { d with next := c.next }

variable {h h' : Heap P (Links P)} {head l1 l2 a : P} {xs ys : List P}

/-! ### What they change -/

/-- `a` came between `l1` and `l2`. -/
structure Inserted (h h' : Heap P (Links P)) (l1 l2 a : P) : Prop where
  node : h' a = some ⟨some l2, some l1⟩
  before : ∃ c, h' l1 = some c ∧ c.next = some a
  after : ∃ c, h' l2 = some c ∧ c.prev = some a
  next : ∀ q, q ≠ a → q ≠ l1 → ∀ c, h q = some c → ∃ c', h' q = some c' ∧ c'.next = c.next
  prev : ∀ q, q ≠ a → q ≠ l2 → ∀ c, h q = some c → ∃ c', h' q = some c' ∧ c'.prev = c.prev
  other : ∀ q, q ≠ a → q ≠ l1 → q ≠ l2 → h' q = h q

theorem does_addBetween (hl1 : ∃ c, h l1 = some c) (hl2 : ∃ c, h l2 = some c) (ha : ∃ c, h a = some c) (hne1 : a ≠ l1) (hne2 : a ≠ l2) :
    Does (addBetween l1 l2 a) h fun _ h' => Inserted h h' l1 l2 a := by
  obtain ⟨c1, hl1⟩ := hl1
  obtain ⟨c2, hl2⟩ := hl2
  obtain ⟨c, ha⟩ := ha
  simp only [addBetween, does_bind, does_store]
  refine ⟨c, ha, _, Function.update_self .., c1, ?_, ?_⟩
  · rw [Function.update_of_ne hne1.symm, Function.update_of_ne hne1.symm, hl1]
  · by_cases hl : l2 = l1
    · subst hl
      rw [hl1] at hl2
      cases hl2
      refine ⟨_, Function.update_self .., ?_, ⟨_, Function.update_self .., rfl⟩, ⟨_, Function.update_self .., rfl⟩, ?_, ?_, ?_⟩
      · rw [Function.update_of_ne hne1, Function.update_of_ne hne1, Function.update_self]
      · intro q hqa hq c hc
        refine ⟨c, ?_, rfl⟩
        rw [Function.update_of_ne hq, Function.update_of_ne hq, Function.update_of_ne hqa, Function.update_of_ne hqa, hc]
      · intro q hqa hq c hc
        refine ⟨c, ?_, rfl⟩
        rw [Function.update_of_ne hq, Function.update_of_ne hq, Function.update_of_ne hqa, Function.update_of_ne hqa, hc]
      · intro q hqa hq _
        rw [Function.update_of_ne hq, Function.update_of_ne hq, Function.update_of_ne hqa, Function.update_of_ne hqa]
    · refine ⟨c2, ?_, ?_, ⟨{ c1 with next := some a }, ?_, rfl⟩, ⟨_, Function.update_self .., rfl⟩, ?_, ?_, ?_⟩
      · rw [Function.update_of_ne hl, Function.update_of_ne hne2.symm, Function.update_of_ne hne2.symm, hl2]
      · rw [Function.update_of_ne hne2, Function.update_of_ne hne1, Function.update_self]
      · rw [Function.update_of_ne (Ne.symm hl), Function.update_self]
      · intro q hqa hq d hd
        by_cases hq2 : q = l2
        · subst hq2
          rw [hl2] at hd
          cases hd
          exact ⟨_, Function.update_self .., rfl⟩
        · refine ⟨d, ?_, rfl⟩
          rw [Function.update_of_ne hq2, Function.update_of_ne hq, Function.update_of_ne hqa, Function.update_of_ne hqa, hd]
      · intro q hqa hq d hd
        by_cases hq1 : q = l1
        · subst hq1
          rw [hl1] at hd
          cases hd
          refine ⟨{ c1 with next := some a }, ?_, rfl⟩
          rw [Function.update_of_ne (Ne.symm hl), Function.update_self]
        · refine ⟨d, ?_, rfl⟩
          rw [Function.update_of_ne hq, Function.update_of_ne hq1, Function.update_of_ne hqa, Function.update_of_ne hqa, hd]
      · intro q hqa hq1 hq2
        rw [Function.update_of_ne hq2, Function.update_of_ne hq1, Function.update_of_ne hqa, Function.update_of_ne hqa]

/-- `a` went from between `l1` and `l2`. -/
structure Removed (h h' : Heap P (Links P)) (l1 l2 a : P) : Prop where
  node : h' a = h a
  before : ∃ c, h' l1 = some c ∧ c.next = some l2
  after : ∃ c, h' l2 = some c ∧ c.prev = some l1
  next : ∀ q, q ≠ l1 → ∀ c, h q = some c → ∃ c', h' q = some c' ∧ c'.next = c.next
  prev : ∀ q, q ≠ l2 → ∀ c, h q = some c → ∃ c', h' q = some c' ∧ c'.prev = c.prev
  other : ∀ q, q ≠ l1 → q ≠ l2 → h' q = h q

theorem does_del (h1 : Linked h l1 a) (h2 : Linked h a l2) (hne1 : a ≠ l1) (hne2 : a ≠ l2) :
    Does (del a) h fun _ h' => Removed h h' l1 l2 a := by
  obtain ⟨⟨c1, hl1, hn1⟩, c, ha, hp⟩ := h1
  obtain ⟨⟨c', ha', hn⟩, c2, hl2, hp2⟩ := h2
  obtain rfl : c' = c := Option.some.inj (ha'.symm.trans ha)
  simp only [del, does_bind, does_load, ha, Option.some.injEq, exists_eq_left', hn, hp, does_deref_some, does_store, hl2,
    Function.update_of_ne hne2]
  by_cases hl : l2 = l1
  · subst hl
    rw [hl1] at hl2
    cases hl2
    refine ⟨_, Function.update_self .., ?_, ⟨_, Function.update_self .., rfl⟩, ⟨_, Function.update_self .., rfl⟩, ?_, ?_, ?_⟩
    · rw [Function.update_of_ne hne1, Function.update_of_ne hne1]
    · intro q hq d hd
      refine ⟨d, ?_, rfl⟩
      rw [Function.update_of_ne hq, Function.update_of_ne hq, hd]
    · intro q hq d hd
      refine ⟨d, ?_, rfl⟩
      rw [Function.update_of_ne hq, Function.update_of_ne hq, hd]
    · intro q hq _
      rw [Function.update_of_ne hq, Function.update_of_ne hq]
  · refine ⟨c1, ?_, ?_, ⟨_, Function.update_self .., rfl⟩, ⟨{ c2 with prev := some l1 }, ?_, rfl⟩, ?_, ?_, ?_⟩
    · rw [Function.update_of_ne (Ne.symm hl), hl1]
    · rw [Function.update_of_ne hne1, Function.update_of_ne hne2]
    · rw [Function.update_of_ne hl, Function.update_self]
    · intro q hq d hd
      by_cases hq2 : q = l2
      · subst hq2
        rw [hl2] at hd
        cases hd
        refine ⟨{ c2 with prev := some l1 }, ?_, rfl⟩
        rw [Function.update_of_ne hl, Function.update_self]
      · refine ⟨d, ?_, rfl⟩
        rw [Function.update_of_ne hq, Function.update_of_ne hq2, hd]
    · intro q hq d hd
      by_cases hq1 : q = l1
      · subst hq1
        rw [hl1] at hd
        cases hd
        exact ⟨_, Function.update_self .., rfl⟩
      · refine ⟨d, ?_, rfl⟩
        rw [Function.update_of_ne hq1, Function.update_of_ne hq, hd]
    · intro q hq1 hq2
      rw [Function.update_of_ne hq1, Function.update_of_ne hq2]

/-! ### Rings -/

omit [DecidableEq P] in
/-- The nodes before a place are not those after it. -/
theorem apart_of_nodup (hnodup : (head :: (xs ++ ys)).Nodup) : (∀ x ∈ xs, x ∉ ys ++ [head]) ∧ ∀ y ∈ ys, y ∉ head :: xs := by
  have hapart : ∀ x ∈ xs, x ∉ ys ++ [head] := by
    intro x hx hmem
    rw [List.nodup_cons, List.nodup_append] at hnodup
    rcases List.mem_append.mp hmem with hmem | hmem
    · exact hnodup.2.2.2 x hx x hmem rfl
    · rw [List.mem_singleton] at hmem
      exact hnodup.1 (hmem ▸ List.mem_append_left ys hx)
  refine ⟨hapart, fun y hy hmem => ?_⟩
  rcases List.mem_cons.mp hmem with rfl | hmem
  · exact (List.nodup_cons.mp hnodup).1 (List.mem_append_right xs hy)
  · exact hapart y hmem (List.mem_append_left _ hy)

omit [DecidableEq P] in
theorem Inserted.ring (hi : Inserted h h' (lastOf head xs) (firstOf ys head) a) (hr : Ring h head (xs ++ ys))
    (ha : a ∉ head :: (xs ++ ys)) : Ring h' head (xs ++ a :: ys) := by
  obtain ⟨hsegment, hnodup⟩ := hr
  obtain ⟨hfront, hback⟩ := segment_split.mp hsegment
  have hne : ∀ x ∈ head :: (xs ++ ys), x ≠ a := fun x hx heq => ha (heq ▸ hx)
  have hxs : ∀ x ∈ head :: xs, x ∈ head :: (xs ++ ys) := fun x hx => List.mem_append_left ys hx
  have hys : ∀ x ∈ ys ++ [head], x ∈ head :: (xs ++ ys) := by
    intro x hx
    rcases List.mem_append.mp hx with hx | hx
    · exact List.mem_cons_of_mem head (List.mem_append_right xs hx)
    · rw [List.mem_singleton.mp hx]
      exact List.mem_cons_self
  obtain ⟨hapart, hapart'⟩ := apart_of_nodup hnodup
  have hfirst : Linked h' (lastOf head xs) a := ⟨hi.before, _, hi.node, rfl⟩
  have hlast : Linked h' a (firstOf ys head) := ⟨⟨_, hi.node, rfl⟩, hi.after⟩
  refine ⟨segment_append.mpr ⟨?_, ?_⟩, ?_⟩
  · refine hfront.relast (hnodup.sublist ((List.sublist_append_left xs ys).cons_cons head)) hfirst (fun x hx hxl => ?_) fun x hx => ?_
    · exact hi.next x (hne x (hxs x hx)) hxl
    · exact hi.prev x (hne x (hxs x (List.mem_cons_of_mem head hx))) fun heq => hapart x hx (heq ▸ firstOf_mem)
  · have hnodup' : (ys ++ [head]).Nodup := by
      rw [List.nodup_append_comm]
      exact hnodup.sublist ((List.sublist_append_right xs ys).cons_cons head)
    refine hback.refirst hnodup' hlast (fun y hy => ?_) fun x hx hxf => ?_
    · exact hi.next y (hne y (hys y (List.mem_append_left _ hy))) fun heq => hapart' y hy (heq ▸ lastOf_mem)
    · exact hi.prev x (hne x (hys x hx)) hxf
  · have hperm : (head :: (xs ++ a :: ys)).Perm (a :: head :: (xs ++ ys)) := (List.perm_middle.cons head).trans (.swap a head _)
    exact hperm.nodup_iff.mpr (List.nodup_cons.mpr ⟨ha, hnodup⟩)

omit [DecidableEq P] in
theorem Removed.ring (hi : Removed h h' (lastOf head xs) (firstOf ys head) a) (hr : Ring h head (xs ++ a :: ys)) :
    Ring h' head (xs ++ ys) := by
  obtain ⟨hsegment, hnodup⟩ := hr
  obtain ⟨hfront, hback⟩ := segment_append.mp hsegment
  have hperm : (head :: (xs ++ a :: ys)).Perm (a :: head :: (xs ++ ys)) := (List.perm_middle.cons head).trans (.swap a head _)
  have hnodup := (List.nodup_cons.mp (hperm.nodup_iff.mp hnodup)).2
  obtain ⟨hapart, hapart'⟩ := apart_of_nodup hnodup
  have hlink : Linked h' (lastOf head xs) (firstOf ys head) := ⟨hi.before, hi.after⟩
  refine ⟨segment_split.mpr ⟨?_, ?_⟩, hnodup⟩
  · refine hfront.relast (hnodup.sublist ((List.sublist_append_left xs ys).cons_cons head)) hlink (fun x hx hxl => ?_) fun x hx => ?_
    · exact hi.next x hxl
    · exact hi.prev x fun heq => hapart x hx (heq ▸ firstOf_mem)
  · have hnodup' : (ys ++ [head]).Nodup := by
      rw [List.nodup_append_comm]
      exact hnodup.sublist ((List.sublist_append_right xs ys).cons_cons head)
    refine hback.refirst hnodup' hlink (fun y hy => ?_) fun x hx hxf => ?_
    · exact hi.next y fun heq => hapart' y hy (heq ▸ lastOf_mem)
    · exact hi.prev x hxf

/-! ### The operations on rings -/

variable {e : P}

theorem del_ring (hr : Ring h head (xs ++ a :: ys)) :
    Does (del a) h fun _ h' => Ring h' head (xs ++ ys) ∧ h' a = h a ∧ ∀ q ∉ head :: (xs ++ a :: ys), h' q = h q := by
  obtain ⟨hfront, hback⟩ := segment_append.mp hr.segment
  have hperm : (head :: (xs ++ a :: ys)).Perm (a :: head :: (xs ++ ys)) := (List.perm_middle.cons head).trans (.swap a head _)
  have ha := (List.nodup_cons.mp (hperm.nodup_iff.mp hr.nodup)).1
  have hlast : lastOf head xs ∈ head :: (xs ++ ys) := List.mem_append_left ys lastOf_mem
  have hfirst : firstOf ys head ∈ head :: (xs ++ ys) := by
    rcases List.mem_append.mp (@firstOf_mem _ head ys) with hmem | hmem
    · exact List.mem_cons_of_mem head (List.mem_append_right xs hmem)
    · rw [List.mem_singleton.mp hmem]
      exact List.mem_cons_self
  refine (does_del hfront.linked_last hback.linked_first (fun heq => ha (heq ▸ hlast)) fun heq => ha (heq ▸ hfirst)).mono fun _ h' hdel => ?_
  refine ⟨hdel.ring hr, hdel.node, fun q hq => ?_⟩
  have hq' : q ∉ head :: (xs ++ ys) := fun hmem => hq (hperm.mem_iff.mpr (List.mem_cons_of_mem a hmem))
  exact hdel.other q (fun heq => hq' (heq ▸ hlast)) fun heq => hq' (heq ▸ hfirst)

theorem addBetween_ring (hr : Ring h head (xs ++ ys)) (ha : ∃ c, h a = some c) (hout : a ∉ head :: (xs ++ ys)) :
    Does (addBetween (lastOf head xs) (firstOf ys head) a) h fun _ h' =>
      Ring h' head (xs ++ a :: ys) ∧ ∀ q ∉ a :: head :: (xs ++ ys), h' q = h q := by
  have hlast : lastOf head xs ∈ head :: (xs ++ ys) := List.mem_append_left ys lastOf_mem
  have hfirst : firstOf ys head ∈ head :: (xs ++ ys) := by
    rcases List.mem_append.mp (@firstOf_mem _ head ys) with hmem | hmem
    · exact List.mem_cons_of_mem head (List.mem_append_right xs hmem)
    · rw [List.mem_singleton.mp hmem]
      exact List.mem_cons_self
  refine (does_addBetween (hr.used hlast) (hr.used hfirst) ha (fun heq => hout (heq ▸ hlast)) fun heq => hout (heq ▸ hfirst)).mono
    fun _ h' hadd => ?_
  refine ⟨hadd.ring hr hout, fun q hq => ?_⟩
  obtain ⟨hqa, hq⟩ := not_or.mp (List.mem_cons.not.mp hq)
  exact hadd.other q hqa (fun heq => hq (heq ▸ hlast)) fun heq => hq (heq ▸ hfirst)

theorem addTail_ring (hr : Ring h head xs) (ha : ∃ c, h a = some c) (hout : a ∉ head :: xs) :
    Does (addTail head a) h fun _ h' => Ring h' head (xs ++ [a]) ∧ ∀ q ∉ a :: head :: xs, h' q = h q := by
  obtain ⟨-, c, hc, hprev⟩ := hr.segment.linked_last
  simp only [addTail, does_bind, does_load, hc, Option.some.injEq, exists_eq_left', hprev, does_deref_some]
  rw [← List.append_nil xs] at hr hout
  refine (addBetween_ring hr ha hout).mono fun _ h' hadd => ⟨hadd.1, ?_⟩
  rw [List.append_nil] at hadd
  exact hadd.2

theorem addBefore_ring (hr : Ring h head (xs ++ e :: ys)) (ha : ∃ c, h a = some c) (hout : a ∉ head :: (xs ++ e :: ys)) :
    Does (addBefore e a) h fun _ h' => Ring h' head (xs ++ a :: e :: ys) ∧ ∀ q ∉ a :: head :: (xs ++ e :: ys), h' q = h q := by
  obtain ⟨-, c, hc, hprev⟩ := (segment_append.mp hr.segment).1.linked_last
  simp only [addBefore, does_bind, does_load, hc, Option.some.injEq, exists_eq_left', hprev, does_deref_some]
  exact addBetween_ring hr ha hout

theorem addAfter_ring (hr : Ring h head (xs ++ e :: ys)) (ha : ∃ c, h a = some c) (hout : a ∉ head :: (xs ++ e :: ys)) :
    Does (addAfter e a) h fun _ h' => Ring h' head (xs ++ e :: a :: ys) ∧ ∀ q ∉ a :: head :: (xs ++ e :: ys), h' q = h q := by
  obtain ⟨⟨c, hc, hnext⟩, -⟩ := (segment_append.mp hr.segment).2.linked_first
  simp only [addAfter, does_bind, does_load, hc, Option.some.injEq, exists_eq_left', hnext, does_deref_some]
  rw [List.append_cons] at hr hout
  have hadd := addBetween_ring hr ha hout
  rw [lastOf_concat, List.append_assoc, List.singleton_append, List.append_assoc, List.singleton_append] at hadd
  exact hadd

end Pclsync.PList
