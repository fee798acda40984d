import Pclsync.PList.Sort

/-! `psync_list_extract_repeating` of `plist.c`. -/
namespace Pclsync.PList.Extract
open Lib.HeapProgram Lib.Rings Lib.Comparators
open Syncs
open ListSort (equals equals_append)

/-! ### The code -/

section
variable {P : Type} [DecidableEq P] (cmp : P → P → ℤ) (l1 l2 extracted1 extracted2 : P)

/-- `while (li1!=l1 && li2!=l2)` -/
def extractFrom : (fuel : ℕ) → (li1 li2 : P) → Program P (Links P) Unit
  | fuel, li1, li2 =>
    if li1 ≠ l1 ∧ li2 ≠ l2 then
      match fuel with
      | 0 => fun _ => none
      | fuel + 1 =>
        let cr := cmp li1 li2
        if cr < 0 then do extractFrom fuel (← deref (← load li1).next) li2
        else if cr > 0 then do extractFrom fuel li1 (← deref (← load li2).next)
        else do
          let ln1 ← deref (← load li1).next
          let ln2 ← deref (← load li2).next
          del li1
          addTail extracted1 li1
          del li2
          addTail extracted2 li2
          extractFrom fuel ln1 ln2
    else pure ()

/-- `psync_list_extract_repeating`, of two lists with up to `fuel` nodes together. -/
def listExtractRepeating (fuel : ℕ) : Program P (Links P) Unit := do
  Sort.listSort cmp fuel l1
  Sort.listSort cmp fuel l2
  let li1 ← deref (← load l1).next
  let li2 ← deref (← load l2).next
  extractFrom cmp l1 l2 extracted1 extracted2 fuel li1 li2

end

/-! ### What is paired -/

/-- What is left of two lists in order, and the pairs that are taken from them. -/
inductive Paired {α : Type} (cmp : α → α → ℤ) : List α → List α → List α → List α → List (α × α) → Prop where
  | left (ys : List α) : Paired cmp [] ys [] ys []
  | right (xs : List α) : Paired cmp xs [] xs [] []
  | lt {x y : α} {xs ys ls rs : List α} {ps : List (α × α)} : cmp x y < 0 → Paired cmp xs (y :: ys) ls rs ps →
    Paired cmp (x :: xs) (y :: ys) (x :: ls) rs ps
  | gt {x y : α} {xs ys ls rs : List α} {ps : List (α × α)} : 0 < cmp x y → Paired cmp (x :: xs) ys ls rs ps →
    Paired cmp (x :: xs) (y :: ys) ls (y :: rs) ps
  | eq {x y : α} {xs ys ls rs : List α} {ps : List (α × α)} : cmp x y = 0 → Paired cmp xs ys ls rs ps →
    Paired cmp (x :: xs) (y :: ys) ls rs ((x, y) :: ps)

variable {P : Type} {cmp : P → P → ℤ} {xs ys ls rs : List P} {ps : List (P × P)}

theorem Paired.perm_left (hp : Paired cmp xs ys ls rs ps) : (ls ++ ps.map Prod.fst).Perm xs := by
  induction hp with
  | left ys => exact .refl []
  | right xs =>
    rw [List.map_nil, List.append_nil]
  | lt hlt _ ih => exact ih.cons _
  | gt hgt _ ih => exact ih
  | eq heq _ ih => exact List.perm_middle.trans (ih.cons _)

theorem Paired.perm_right (hp : Paired cmp xs ys ls rs ps) : (rs ++ ps.map Prod.snd).Perm ys := by
  induction hp with
  | left ys =>
    rw [List.map_nil, List.append_nil]
  | right xs => exact .refl []
  | lt hlt _ ih => exact ih
  | gt hgt _ ih => exact ih.cons _
  | eq heq _ ih => exact List.perm_middle.trans (ih.cons _)

theorem Paired.equal (hp : Paired cmp xs ys ls rs ps) : ∀ p ∈ ps, cmp p.1 p.2 = 0 := by
  induction hp with
  | left ys => exact List.forall_mem_nil _
  | right xs => exact List.forall_mem_nil _
  | lt hlt _ ih => exact ih
  | gt hgt _ ih => exact ih
  | eq heq _ ih => exact List.forall_mem_cons.mpr ⟨heq, ih⟩

/-- Of lists in order nothing is left that is equal. -/
theorem Paired.apart {l : List P} (hp : Paired cmp xs ys ls rs ps) (hcmp : Consistent cmp l) (hxs : xs ⊆ l) (hys : ys ⊆ l)
    (hsorted1 : xs.Pairwise fun a b => cmp a b ≤ 0) (hsorted2 : ys.Pairwise fun a b => cmp a b ≤ 0) :
    ∀ a ∈ ls, ∀ b ∈ rs, cmp a b ≠ 0 := by
  induction hp with
  | left ys => exact List.forall_mem_nil _
  | right xs => exact fun a _ => List.forall_mem_nil _
  | @lt x y xs ys ls rs ps hlt hp ih =>
    obtain ⟨hx, hxs⟩ := List.cons_subset.mp hxs
    obtain ⟨-, hsorted1⟩ := List.pairwise_cons.mp hsorted1
    refine List.forall_mem_cons.mpr ⟨fun b hb hxb => ?_, ih hxs hys hsorted1 hsorted2⟩
    have hb : b ∈ y :: ys := hp.perm_right.mem_iff.mp (List.mem_append_left _ hb)
    have hy := hys List.mem_cons_self
    have hyb := hcmp.head hy hsorted2 hb
    have hyx := hcmp.trans y hy b (hys hb) x hx hyb (hcmp.symm hx (hys hb) hxb).le
    have hswap := hcmp.swap y hy x hx
    omega
  | @gt x y xs ys ls rs ps hgt hp ih =>
    obtain ⟨hy, hys⟩ := List.cons_subset.mp hys
    obtain ⟨-, hsorted2⟩ := List.pairwise_cons.mp hsorted2
    refine fun a ha => List.forall_mem_cons.mpr ⟨fun hay => ?_, ih hxs hys hsorted1 hsorted2 a ha⟩
    have ha : a ∈ x :: xs := hp.perm_left.mem_iff.mp (List.mem_append_left _ ha)
    have hx := hxs List.mem_cons_self
    have hxy := hcmp.trans x hx a (hxs ha) y hy (hcmp.head hx hsorted1 ha) hay.le
    omega
  | eq heq hp ih =>
    exact ih (List.cons_subset.mp hxs).2 (List.cons_subset.mp hys).2 (List.pairwise_cons.mp hsorted1).2 (List.pairwise_cons.mp hsorted2).2

/-- Of each class as many are paired as there are in both lists. -/
theorem Paired.count {l : List P} {a : P} (hp : Paired cmp xs ys ls rs ps) (hcmp : Consistent cmp l) (hxs : xs ⊆ l) (hys : ys ⊆ l) (ha : a ∈ l)
    (hsorted1 : xs.Pairwise fun a b => cmp a b ≤ 0) (hsorted2 : ys.Pairwise fun a b => cmp a b ≤ 0) :
    (equals cmp a (ps.map Prod.fst)).length = min (equals cmp a xs).length (equals cmp a ys).length := by
  have hls : ls ⊆ l := fun b hb => hxs (hp.perm_left.mem_iff.mp (List.mem_append_left _ hb))
  have hrs : rs ⊆ l := fun b hb => hys (hp.perm_right.mem_iff.mp (List.mem_append_left _ hb))
  have hleft : (equals cmp a ls).length + (equals cmp a (ps.map Prod.fst)).length = (equals cmp a xs).length := by
    rw [← List.length_append, ← equals_append]
    exact (hp.perm_left.filter _).length_eq
  have hright : (equals cmp a rs).length + (equals cmp a (ps.map Prod.snd)).length = (equals cmp a ys).length := by
    rw [← List.length_append, ← equals_append]
    exact (hp.perm_right.filter _).length_eq
  have hsame : (equals cmp a (ps.map Prod.fst)).length = (equals cmp a (ps.map Prod.snd)).length := by
    have hmem : ∀ p ∈ ps, p.1 ∈ l ∧ p.2 ∈ l := fun p hp' =>
      ⟨hxs (hp.perm_left.mem_iff.mp (List.mem_append_right _ (List.mem_map_of_mem hp'))),
        hys (hp.perm_right.mem_iff.mp (List.mem_append_right _ (List.mem_map_of_mem hp')))⟩
    rw [equals, equals, List.filter_map, List.filter_map, List.length_map, List.length_map]
    refine congrArg List.length (List.filter_congr fun p hp' => decide_eq_decide.mpr ?_)
    have hp12 := hp.equal p hp'
    exact ⟨fun hap => hcmp.equal_trans ha (hmem p hp').1 (hmem p hp').2 hap hp12,
      fun hap => hcmp.equal_trans ha (hmem p hp').2 (hmem p hp').1 hap (hcmp.symm (hmem p hp').1 (hmem p hp').2 hp12)⟩
  have hempty : (equals cmp a ls).length = 0 ∨ (equals cmp a rs).length = 0 := by
    by_contra hne
    obtain ⟨hne1, hne2⟩ := not_or.mp hne
    obtain ⟨b, hb⟩ := List.exists_mem_of_length_pos (Nat.pos_of_ne_zero hne1)
    obtain ⟨c, hc⟩ := List.exists_mem_of_length_pos (Nat.pos_of_ne_zero hne2)
    obtain ⟨hbls, hab⟩ := List.mem_filter.mp hb
    obtain ⟨hcrs, hac⟩ := List.mem_filter.mp hc
    have hba := hcmp.symm ha (hls hbls) (of_decide_eq_true hab)
    exact hp.apart hcmp hxs hys hsorted1 hsorted2 b hbls c hcrs
      (hcmp.equal_trans (hls hbls) ha (hrs hcrs) hba (of_decide_eq_true hac))
  omega

/-! ### The four lists -/

variable {h h' : Heap P (Links P)} {l l1 l2 e e1 e2 x y q : P} {es fs before done1 done2 : List P} {fuel : ℕ}

def nodes (l1 l2 e1 e2 : P) (xs ys es fs : List P) : List P := (l1 :: xs) ++ ((e1 :: es) ++ ((l2 :: ys) ++ (e2 :: fs)))

/-- The lists have no node in common. -/
structure Lists (h : Heap P (Links P)) (l1 l2 e1 e2 : P) (xs ys es fs : List P) : Prop where
  list1 : Ring h l1 xs
  list2 : Ring h l2 ys
  out1 : Ring h e1 es
  out2 : Ring h e2 fs
  apart : (nodes l1 l2 e1 e2 xs ys es fs).Nodup

theorem nodes_symm : (nodes l1 l2 e1 e2 xs ys es fs).Perm (nodes l2 l1 e2 e1 ys xs fs es) := by
  rw [nodes, nodes, ← List.append_assoc, ← List.append_assoc (l2 :: ys)]
  exact List.perm_append_comm

theorem Lists.symm (hl : Lists h l1 l2 e1 e2 xs ys es fs) : Lists h l2 l1 e2 e1 ys xs fs es :=
  ⟨hl.list2, hl.list1, hl.out2, hl.out1, nodes_symm.nodup_iff.mp hl.apart⟩

theorem nodes_move : (nodes l1 l2 e1 e2 (before ++ x :: xs) ys es fs).Perm (nodes l1 l2 e1 e2 (before ++ xs) ys (es ++ [x]) fs) := by
  have hout : (l1 :: (before ++ x :: xs)).Perm (l1 :: (before ++ xs) ++ [x]) :=
    (List.perm_middle.trans (List.perm_append_singleton x _).symm).cons l1
  have hin : ([x] ++ (e1 :: es)).Perm (e1 :: (es ++ [x])) := List.perm_append_comm
  rw [nodes, nodes]
  refine (hout.append_right _).trans ?_
  rw [List.append_assoc, ← List.append_assoc [x]]
  exact (hin.append_right _).append_left _

variable [DecidableEq P]

/-- A node goes from one list to the end of another. -/
theorem move_spec (hl : Ring h l (before ++ x :: xs)) (he : Ring h e es) (hapart : ((l :: (before ++ x :: xs)) ++ (e :: es)).Nodup) :
    Does (del x) h fun _ h1 => Does (addTail e x) h1 fun _ h' => Ring h' l (before ++ xs) ∧ Ring h' e (es ++ [x]) ∧
      ∀ q ∉ (l :: (before ++ x :: xs)) ++ (e :: es), h' q = h q := by
  obtain ⟨-, -, hapart⟩ := List.nodup_append.mp hapart
  have hx : x ∈ l :: (before ++ x :: xs) := List.mem_cons_of_mem l (List.mem_append_right before List.mem_cons_self)
  have hperm : (l :: (before ++ x :: xs)).Perm (x :: l :: (before ++ xs)) := (List.perm_middle.cons l).trans (.swap x l _)
  refine (del_ring hl).mono fun _ h1 hdel => ?_
  obtain ⟨hl1, hx1, hframe⟩ := hdel
  have he1 := he.congr fun q hq => hframe q fun hmem => hapart q hmem q hq rfl
  have hused : ∃ c, h1 x = some c := by
    rw [hx1]
    exact hl.used hx
  refine (addTail_ring he1 hused fun hmem => hapart x hx x hmem rfl).mono fun _ h' hadd => ?_
  obtain ⟨he', hframe'⟩ := hadd
  refine ⟨hl1.congr fun q hq => hframe' q ?_, he', fun q hq => ?_⟩
  · have hne := List.nodup_cons.mp (hperm.nodup_iff.mp hl.nodup)
    have hql : q ∈ l :: (before ++ x :: xs) := hperm.mem_iff.mpr (List.mem_cons_of_mem x hq)
    refine List.not_mem_cons_of_ne_of_not_mem (fun heq => hne.1 (heq ▸ hq)) fun hmem => hapart q hql q hmem rfl
  · obtain ⟨hql, hqe⟩ := not_or.mp (List.mem_append.not.mp hq)
    rw [hframe' q (List.not_mem_cons_of_ne_of_not_mem (fun heq => hql (heq ▸ hx)) hqe), hframe q hql]

theorem Lists.move (hl : Lists h l1 l2 e1 e2 (before ++ x :: xs) ys es fs) :
    Does (del x) h fun _ h1 => Does (addTail e1 x) h1 fun _ h' => Lists h' l1 l2 e1 e2 (before ++ xs) ys (es ++ [x]) fs ∧
      ∀ q ∉ nodes l1 l2 e1 e2 (before ++ x :: xs) ys es fs, h' q = h q := by
  have hapart := hl.apart
  rw [nodes, ← List.append_assoc] at hapart
  obtain ⟨hmoved, -, hrest⟩ := List.nodup_append.mp hapart
  refine (move_spec hl.list1 hl.out1 hmoved).mono fun _ h1 h1' => h1'.mono fun _ h' hmove => ?_
  obtain ⟨hlist, hout, hframe⟩ := hmove
  refine ⟨⟨hlist, ?_, hout, ?_, nodes_move.nodup_iff.mp hl.apart⟩, fun q hq => ?_⟩
  · exact hl.list2.congr fun q hq => hframe q fun hmem => hrest q hmem q (List.mem_append_left _ hq) rfl
  · exact hl.out2.congr fun q hq => hframe q fun hmem => hrest q hmem q (List.mem_append_right _ hq) rfl
  · rw [nodes, ← List.append_assoc] at hq
    exact hframe q fun hmem => hq (List.mem_append_left _ hmem)

omit [DecidableEq P] in
/-- The node that `next` of a node in a ring leads to. -/
theorem next_of_ring (hl : Ring h l (before ++ x :: xs)) : ∃ c, h x = some c ∧ c.next = some (firstOf xs l) :=
  (segment_append.mp hl.segment).2.linked_first.1

omit [DecidableEq P] in
theorem ne_head (hl : Ring h l (before ++ x :: xs)) : x ≠ l :=
  fun heq => (List.nodup_cons.mp hl.nodup).1 (heq ▸ List.mem_append_right before List.mem_cons_self)

theorem extractFrom_spec (hl : Lists h l1 l2 e1 e2 (done1 ++ xs) (done2 ++ ys) es fs) (hfuel : xs.length + ys.length ≤ fuel) :
    Does (extractFrom cmp l1 l2 e1 e2 fuel (firstOf xs l1) (firstOf ys l2)) h fun _ h' => ∃ ls rs ps, Paired cmp xs ys ls rs ps ∧
      Lists h' l1 l2 e1 e2 (done1 ++ ls) (done2 ++ rs) (es ++ ps.map Prod.fst) (fs ++ ps.map Prod.snd) ∧
      ∀ q ∉ nodes l1 l2 e1 e2 (done1 ++ xs) (done2 ++ ys) es fs, h' q = h q := by
  induction fuel generalizing h done1 xs done2 ys es fs with
  | zero =>
    obtain rfl : xs = [] := List.length_eq_zero_iff.mp (by omega)
    rw [extractFrom, if_neg fun hne => hne.1 rfl, does_pure]
    refine ⟨[], ys, [], .left ys, ?_, fun _ _ => rfl⟩
    simp only [List.map_nil, List.append_nil] at hl ⊢
    exact hl
  | succ fuel ih =>
    cases xs with
    | nil =>
      rw [extractFrom, if_neg fun hne => hne.1 rfl, does_pure]
      refine ⟨[], ys, [], .left ys, ?_, fun _ _ => rfl⟩
      simp only [List.map_nil, List.append_nil] at hl ⊢
      exact hl
    | cons x xs =>
      cases ys with
      | nil =>
        rw [extractFrom, if_neg fun hne => hne.2 rfl, does_pure]
        refine ⟨x :: xs, [], [], .right _, ?_, fun _ _ => rfl⟩
        simp only [List.map_nil, List.append_nil] at hl ⊢
        exact hl
      | cons y ys =>
        obtain ⟨c, hx, hxnext⟩ := next_of_ring hl.list1
        obtain ⟨d, hy, hynext⟩ := next_of_ring hl.list2
        rw [firstOf_cons, firstOf_cons, extractFrom, if_pos ⟨ne_head hl.list1, ne_head hl.list2⟩]
        simp only [List.length_cons] at hfuel
        dsimp only
        split_ifs with hlt hgt
        · simp only [does_bind, does_load, hx, Option.some.injEq, exists_eq_left', hxnext, does_deref_some]
          rw [List.append_cons] at hl ⊢
          refine (ih hl (by simp only [List.length_cons]; omega)).mono fun _ h' hrest => ?_
          obtain ⟨ls, rs, ps, hp, hl', hframe⟩ := hrest
          rw [List.append_assoc, List.singleton_append] at hl'
          exact ⟨x :: ls, rs, ps, .lt hlt hp, hl', hframe⟩
        · simp only [does_bind, does_load, hy, Option.some.injEq, exists_eq_left', hynext, does_deref_some]
          rw [List.append_cons done2] at hl ⊢
          refine (ih hl (by simp only [List.length_cons]; omega)).mono fun _ h' hrest => ?_
          obtain ⟨ls, rs, ps, hp, hl', hframe⟩ := hrest
          rw [List.append_assoc, List.singleton_append] at hl'
          exact ⟨ls, y :: rs, ps, .gt hgt hp, hl', hframe⟩
        · simp only [does_bind, does_load, hx, hy, Option.some.injEq, exists_eq_left', hxnext, hynext, does_deref_some]
          refine hl.move.mono fun _ h1 h1' => h1'.mono fun _ h2 hmove1 => ?_
          obtain ⟨hl2, hframe1⟩ := hmove1
          refine hl2.symm.move.mono fun _ h3 h3' => h3'.mono fun _ h4 hmove2 => ?_
          obtain ⟨hl4, hframe2⟩ := hmove2
          refine (ih hl4.symm (by omega)).mono fun _ h' hrest => ?_
          obtain ⟨ls, rs, ps, hp, hl', hframe3⟩ := hrest
          refine ⟨ls, rs, (x, y) :: ps, .eq (by omega) hp, ?_, fun q hq => ?_⟩
          · rw [List.append_assoc, List.append_assoc] at hl'
            exact hl'
          · have hmem1 := (nodes_move.trans nodes_symm).mem_iff.not.mp hq
            have hmem2 := (nodes_move.trans nodes_symm).mem_iff.not.mp hmem1
            rw [hframe3 q hmem2, hframe2 q hmem1, hframe1 q hq]

/-- A sort of the first list leaves the others as they are. -/
theorem Lists.sort (hl : Lists h l1 l2 e1 e2 xs ys es fs) (hcmp : Consistent cmp xs) (hfuel : xs.length ≤ fuel) :
    Does (Sort.listSort cmp fuel l1) h fun _ h' => Lists h' l1 l2 e1 e2 (ListSort.listSort cmp xs) ys es fs ∧
      ∀ q ∉ nodes l1 l2 e1 e2 xs ys es fs, h' q = h q := by
  obtain ⟨-, -, hapart⟩ := List.nodup_append.mp hl.apart
  refine (Sort.does_listSort hcmp hl.list1 hfuel).mono fun _ h' hsorted => ?_
  obtain ⟨hring, hframe⟩ := hsorted
  have hother : ∀ q ∈ (e1 :: es) ++ ((l2 :: ys) ++ (e2 :: fs)), h' q = h q :=
    fun q hq => hframe q fun hmem => hapart q hmem q hq rfl
  have hperm : (nodes l1 l2 e1 e2 (ListSort.listSort cmp xs) ys es fs).Perm (nodes l1 l2 e1 e2 xs ys es fs) :=
    (ListSort.listSort_perm.cons l1).append_right _
  refine ⟨⟨hring, ?_, ?_, ?_, hperm.nodup_iff.mpr hl.apart⟩, fun q hq => hframe q fun hmem => hq (List.mem_append_left _ hmem)⟩
  · exact hl.list2.congr fun q hq => hother q (List.mem_append_right _ (List.mem_append_left _ hq))
  · exact hl.out1.congr fun q hq => hother q (List.mem_append_left _ hq)
  · exact hl.out2.congr fun q hq => hother q (List.mem_append_right _ (List.mem_append_right _ hq))

/-- `psync_list_extract_repeating` computes the intersection of two multisets. -/
theorem listExtractRepeating_intersects (hl : Lists h l1 l2 e1 e2 xs ys es fs) (hcmp : Consistent cmp (xs ++ ys))
    (hfuel : xs.length + ys.length ≤ fuel) :
    Does (listExtractRepeating cmp l1 l2 e1 e2 fuel) h fun _ h' => ∃ (ls rs : List P) (ps : List (P × P)),
      Lists h' l1 l2 e1 e2 ls rs (es ++ ps.map Prod.fst) (fs ++ ps.map Prod.snd) ∧
      (∀ p ∈ ps, cmp p.1 p.2 = 0) ∧ (∀ a ∈ ls, ∀ b ∈ rs, cmp a b ≠ 0) ∧
      (∀ a ∈ xs ++ ys, (equals cmp a (ps.map Prod.fst)).length = min (equals cmp a xs).length (equals cmp a ys).length) ∧
      (ls ++ ps.map Prod.fst).Perm xs ∧ (rs ++ ps.map Prod.snd).Perm ys ∧
      ∀ q ∉ nodes l1 l2 e1 e2 xs ys es fs, h' q = h q := by
  have hcmp1 : Consistent cmp xs := hcmp.subset (List.subset_append_left xs ys)
  have hcmp2 : Consistent cmp ys := hcmp.subset (List.subset_append_right xs ys)
  have hperm1 : (ListSort.listSort cmp xs).Perm xs := ListSort.listSort_perm
  have hperm2 : (ListSort.listSort cmp ys).Perm ys := ListSort.listSort_perm
  have hsorted1 := ListSort.listSort_sorts.sorted cmp xs hcmp1
  have hsorted2 := ListSort.listSort_sorts.sorted cmp ys hcmp2
  have hsub1 : ListSort.listSort cmp xs ⊆ xs ++ ys := fun a ha => List.mem_append_left ys (hperm1.mem_iff.mp ha)
  have hsub2 : ListSort.listSort cmp ys ⊆ xs ++ ys := fun a ha => List.mem_append_right xs (hperm2.mem_iff.mp ha)
  simp only [listExtractRepeating, does_bind]
  refine (hl.sort hcmp1 (by omega)).mono fun _ h1 hsort1 => ?_
  obtain ⟨hl1, hframe1⟩ := hsort1
  refine (hl1.symm.sort hcmp2 (by omega)).mono fun _ h2 hsort2 => ?_
  obtain ⟨hl2, hframe2⟩ := hsort2
  have hl2 : Lists h2 l1 l2 e1 e2 ([] ++ ListSort.listSort cmp xs) ([] ++ ListSort.listSort cmp ys) es fs := hl2.symm
  obtain ⟨⟨c, hc, hcnext⟩, -⟩ := hl2.list1.segment.linked_first
  obtain ⟨⟨d, hd, hdnext⟩, -⟩ := hl2.list2.segment.linked_first
  simp only [does_load, hc, hd, Option.some.injEq, exists_eq_left', hcnext, hdnext, does_deref_some]
  have hlen : (ListSort.listSort cmp xs).length + (ListSort.listSort cmp ys).length ≤ fuel := by
    rw [hperm1.length_eq, hperm2.length_eq]
    exact hfuel
  refine (extractFrom_spec hl2 hlen).mono fun _ h' hrest => ?_
  obtain ⟨ls, rs, ps, hp, hl', hframe⟩ := hrest
  refine ⟨ls, rs, ps, hl', hp.equal, hp.apart hcmp hsub1 hsub2 hsorted1 hsorted2, fun a ha => ?_, hp.perm_left.trans hperm1,
    hp.perm_right.trans hperm2, fun q hq => ?_⟩
  · have hcount := hp.count hcmp hsub1 hsub2 ha hsorted1 hsorted2
    have hlen1 : (equals cmp a (ListSort.listSort cmp xs)).length = (equals cmp a xs).length := (hperm1.filter _).length_eq
    have hlen2 : (equals cmp a (ListSort.listSort cmp ys)).length = (equals cmp a ys).length := (hperm2.filter _).length_eq
    rw [hcount, hlen1, hlen2]
  · have hnodes1 : (nodes l1 l2 e1 e2 xs ys es fs).Perm (nodes l2 l1 e2 e1 ys (ListSort.listSort cmp xs) fs es) :=
      nodes_symm.trans ((((hperm1.symm.cons l1).append_right _).append_left _).append_left _)
    have hnodes2 : (nodes l1 l2 e1 e2 xs ys es fs).Perm
        (nodes l1 l2 e1 e2 ([] ++ ListSort.listSort cmp xs) ([] ++ ListSort.listSort cmp ys) es fs) :=
      hnodes1.trans (((hperm2.symm.cons l2).append_right _).trans nodes_symm)
    rw [hframe q (hnodes2.mem_iff.not.mp hq), hframe2 q (hnodes1.mem_iff.not.mp hq), hframe1 q hq]

/-- The nodes 1 and 2, the node 4, and two lists without nodes. -/
def fourLists : Heap ℕ (Links ℕ)
  | 0 => some ⟨some 1, some 2⟩
  | 1 => some ⟨some 2, some 0⟩
  | 2 => some ⟨some 0, some 1⟩
  | 3 => some ⟨some 4, some 4⟩
  | 4 => some ⟨some 3, some 3⟩
  | 5 => some ⟨some 5, some 5⟩
  | 6 => some ⟨some 6, some 6⟩
  | _ => none

theorem listExtractRepeating_intersects_four : Does (listExtractRepeating Sort.oddFirst 0 3 5 6 3) fourLists fun _ h' =>
    ∃ (ls rs : List ℕ) (ps : List (ℕ × ℕ)), Lists h' 0 3 5 6 ls rs ([] ++ ps.map Prod.fst) ([] ++ ps.map Prod.snd) ∧
      (∀ p ∈ ps, Sort.oddFirst p.1 p.2 = 0) ∧ (∀ a ∈ ls, ∀ b ∈ rs, Sort.oddFirst a b ≠ 0) ∧
      (∀ a ∈ [1, 2] ++ [4], (equals Sort.oddFirst a (ps.map Prod.fst)).length =
        min (equals Sort.oddFirst a [1, 2]).length (equals Sort.oddFirst a [4]).length) ∧
      (ls ++ ps.map Prod.fst).Perm [1, 2] ∧ (rs ++ ps.map Prod.snd).Perm [4] ∧
      ∀ q ∉ nodes 0 3 5 6 [1, 2] [4] [] [], h' q = fourLists q := by
  have h1 : Segment fourLists 0 [1, 2] 0 := ⟨⟨⟨_, rfl, rfl⟩, _, rfl, rfl⟩, ⟨⟨_, rfl, rfl⟩, _, rfl, rfl⟩, ⟨_, rfl, rfl⟩, _, rfl, rfl⟩
  have h2 : Segment fourLists 3 [4] 3 := ⟨⟨⟨_, rfl, rfl⟩, _, rfl, rfl⟩, ⟨_, rfl, rfl⟩, _, rfl, rfl⟩
  have h3 : Segment fourLists 5 [] 5 := ⟨⟨_, rfl, rfl⟩, _, rfl, rfl⟩
  have h4 : Segment fourLists 6 [] 6 := ⟨⟨_, rfl, rfl⟩, _, rfl, rfl⟩
  exact listExtractRepeating_intersects ⟨⟨h1, by decide⟩, ⟨h2, by decide⟩, ⟨h3, by decide⟩, ⟨h4, by decide⟩, by decide⟩
    ⟨by decide, by decide⟩ le_rfl

end Pclsync.PList.Extract
