import Pclsync.IntervalTree.Cells

/-! Adding an interval. -/
namespace Pclsync.IntervalTree
open Lib.BinaryTree Lib.HeapProgram Lib.Intervals

variable {P : Type} [DecidableEq P] {h : IntervalHeap P}

/-- The heap holds a tree of these intervals, in order. -/
def Stores (intervals : List (ℕ × ℕ)) (tree : Option P) (h : IntervalHeap P) : Prop :=
  ∃ list, Keeps h tree list ∧ list.map (ends h) = intervals

/-- An interval swallows what it touches of the ones after it. -/
theorem consumeIntervals_spec {fuel rounds : ℕ} {tree : Option P} {xs ys : List P} {e : P}
    (hk : Keeps h tree (xs ++ e :: ys)) (hfuel : (xs ++ e :: ys).length < fuel) (hrounds : ys.length < rounds) :
    Does (consumeIntervals fuel rounds tree e) h
      (Stores (xs.map (ends h) ++ front (ends h e).1 (ends h e).2 (ys.map (ends h)))) := by
  induction rounds generalizing h tree ys with
  | zero => exact absurd hrounds (Nat.not_lt_zero _)
  | succ rounds ih =>
    simp only [consumeIntervals, does_bind]
    refine (getNext_spec hk hfuel).mono ?_
    rintro next h₀ ⟨rfl, rfl⟩
    cases ys with
    | nil => exact does_pure.mpr ⟨_, hk, by simp [front, absorb]⟩
    | cons q ys =>
      obtain ⟨c, hc⟩ := hk.used (p := q) (by simp)
      obtain ⟨x, hx⟩ := hk.used (p := e) (by simp)
      have hnodup := hk.nodup
      have hqe : e ≠ q := by
        rintro rfl
        simp [List.nodup_append, List.nodup_cons] at hnodup
      simp only [List.head?_cons, does_bind, does_load, hc, hx, Option.some.injEq, exists_eq_left', List.map_cons,
        ends_of hc, ends_of hx]
      split_ifs with hfar
      · refine does_pure.mpr ⟨_, hk, ?_⟩
        simp [front, absorb, hfar, ends_of hc, ends_of hx]
      have hshift : xs ++ e :: q :: ys = (xs ++ [e]) ++ q :: ys := by simp
      rw [hshift] at hk hfuel hnodup
      rw [does_bind]
      refine (del_spec hk hfuel).mono ?_
      rintro tree₁ h₁ ⟨hk₁, hs⟩
      obtain ⟨c₁, hc₁, hfrom, hto⟩ := hs.used hc
      obtain ⟨x₁, hx₁, hxfrom, hxto⟩ := hs.used hx
      have hq : q ∉ xs ++ [e] ++ ys := (List.nodup_cons.mp (List.nodup_middle.mp hnodup)).1
      simp only [does_bind, does_load, hc₁, hx₁, Option.some.injEq, exists_eq_left', hto, hxto]
      have hmid : xs ++ [e] ++ ys = xs ++ e :: ys := by simp
      have hlength : (xs ++ e :: ys).length < fuel := by
        simp only [List.length_append, List.length_cons] at hfuel ⊢
        omega
      rw [hmid] at hk₁ hq
      split_ifs with hend
      · simp only [does_bind, does_store, does_free, does_pure, hx₁, Option.some.injEq, exists_eq_left',
          update_other hqe.symm, hc₁]
        refine ⟨_, (hk₁.store hx₁ _ (by rfl)).elsewhere hq none, ?_⟩
        rw [map_ends_elsewhere hq, map_ends_update hk₁.nodup, hs.ends_eq]
        simp only [front, absorb, if_neg hfar, if_pos hend, hxfrom]
      · simp only [does_bind, does_free, hc₁, Option.some.injEq, exists_eq_left']
        have hrest := ih (hk₁.elsewhere hq none) hlength (by simp only [List.length_cons] at hrounds; omega)
        have hends : ∀ r ∈ xs ++ e :: ys, ends (Function.update h₁ q none) r = ends h₀ r := fun r hr => by
          rw [ends, update_other (ne_of_mem_of_not_mem hr hq), ← ends, hs.ends_eq]
        have hmap : ∀ zs : List P, zs ⊆ xs ++ e :: ys → zs.map (ends (Function.update h₁ q none)) = zs.map (ends h₀) :=
          fun zs hz => List.map_congr_left fun r hr => hends r (hz hr)
        rw [hmap xs (by simp), hmap ys (by intro r hr; simp [hr]), hends e (by simp), ends_of hx] at hrest
        simp only [front, absorb, if_neg hfar, if_neg hend]
        exact hrest

omit [DecidableEq P] in
theorem Stores.congr {intervals intervals' : List (ℕ × ℕ)} {tree : Option P} (hs : Stores intervals tree h)
    (heq : intervals = intervals') : Stores intervals' tree h := heq ▸ hs

/-- A new node beside another one. -/
theorem newBeside_spec {d : Side} {fuel from_ to_ : ℕ} {tree : Option P} {p e : P} {xs ys : List P}
    (hk : Keeps h tree (xs ++ e :: ys)) (hp : h p = none) (hfuel : (xs ++ e :: ys).length < fuel) :
    Does (new p from_ to_) h fun e2 h₁ => e2 = p ∧
      Does (onTree (PTree.getAdd d fuel tree (some e) e2)) h₁ fun tree' h' =>
        Keeps h' (some tree') (xs ++ (d.beside e p ++ ys)) ∧ ends h' = Function.update (ends h) p (from_, to_) ∧
        ∀ q c, h q = some c → ∃ c', h' q = some c' ∧ c'.from_ = c.from_ ∧ c'.to_ = c.to_ := by
  have hpl := hk.unused hp
  simp only [new, does_bind, does_alloc, does_pure, hp, true_and]
  refine (addBeside_spec (hk.elsewhere hpl _) hpl (Function.update_self ..) hfuel).mono ?_
  rintro tree' h' ⟨hk', hs⟩
  refine ⟨hk', ?_, fun q c hq => hs.used (by rw [update_other, hq]; rintro rfl; cases hp.symm.trans hq)⟩
  rw [hs.ends_eq]
  funext q
  by_cases hq : q = p
  · subst hq
    rw [ends_of (Function.update_self ..), Function.update_self]
  · rw [ends, update_other hq, Function.update_of_ne hq, ends]

omit [DecidableEq P] in
theorem length_beside (d : Side) (p e : P) (xs ys : List P) :
    (xs ++ (d.beside e p ++ ys)).length = (xs ++ e :: ys).length + 1 := by
  cases d <;> simp [Side.beside] <;> omega

/-- A new node beside the one that the descent ends at, and what it swallows. -/
theorem insert_spec {d : Side} {fuel from_ to_ : ℕ} {tree p e : P} {xs ys : List P} (xs' ys' : List P)
    (hk : Keeps h (some tree) (xs ++ e :: ys)) (hp : h p = none) (hfuel : (xs ++ e :: ys).length + 1 < fuel)
    (hlist : d.beside e p = xs' ++ p :: ys') :
    Does (do
      let e2 ← new p from_ to_
      let tree ← onTree (PTree.getAdd d fuel (some tree) (some e) e2)
      consumeIntervals fuel fuel (some tree) e2) h
      (Stores ((xs ++ xs').map (ends h) ++ front from_ to_ ((ys' ++ ys).map (ends h)))) := by
  rw [does_bind]
  refine (newBeside_spec (d := d) hk hp (Nat.lt_of_succ_lt hfuel)).mono ?_
  rintro p' h₁ ⟨rfl, hadd⟩
  rw [does_bind]
  refine hadd.mono ?_
  rintro tree' h' ⟨hk', hends, -⟩
  have hlength := length_beside d p' e xs ys
  have hmid : xs ++ (d.beside e p' ++ ys) = (xs ++ xs') ++ p' :: (ys' ++ ys) := by rw [hlist]; simp
  rw [hmid] at hk' hlength
  obtain ⟨hout, -⟩ := List.nodup_cons.mp (List.nodup_middle.mp hk'.nodup)
  rw [List.mem_append, not_or] at hout
  have hmap : ∀ zs : List P, p' ∉ zs → zs.map (ends h') = zs.map (ends h) := fun zs hz =>
    List.map_congr_left fun q hq => by rw [hends, Function.update_of_ne (ne_of_mem_of_not_mem hq hz)]
  have hrounds : (ys' ++ ys).length < fuel := by
    simp only [List.length_append, List.length_cons] at hlength hfuel ⊢
    omega
  have hconsume := consumeIntervals_spec hk' (hlength ▸ hfuel) hrounds
  rwa [hmap _ hout.1, hmap _ hout.2, hends, Function.update_self] at hconsume

omit [DecidableEq P] in
theorem mem_map_ends {xs : List P} {from_ : ℕ} (hxs : ∀ q ∈ xs, (ends h q).2 < from_) :
    ∀ i ∈ xs.map (ends h), i.2 < from_ := List.forall_mem_map.mpr hxs

/-- What the descent of `psync_interval_tree_get_add` does with the part of the tree under a node. -/
theorem getAddFrom_spec {fuel from_ to_ rounds : ℕ} {root p : P} {c : Context P} {l r : BinTree P} {e : P}
    (ht : PTree.Avl (trees h) (some root) (c.plug (.node l e r)))
    (hsep : Separated ((c.plug (.node l e r)).toList.map (ends h))) (hft : from_ < to_)
    (hbefore : ∀ q ∈ c.before, (ends h q).2 < from_) (hafter : ∀ q ∈ c.after, from_ < (ends h q).1) (hp : h p = none)
    (hfuel : (c.plug (.node l e r)).toList.length + 1 < fuel) (hrounds : (BinTree.node l e r).height ≤ rounds) :
    Does (getAddFrom fuel p from_ to_ root rounds e) h
      (Stores (add from_ to_ ((c.plug (.node l e r)).toList.map (ends h)))) := by
  induction rounds generalizing c l e r with
  | zero => exact absurd hrounds (Nat.not_succ_le_zero _)
  | succ rounds ih =>
    obtain ⟨x, hx, hleft, hright⟩ := cell_at ht
    have hends := ends_of hx
    have hk : Keeps h (some root) ((c.before ++ l.toList) ++ e :: (r.toList ++ c.after)) := ⟨_, ht, toList_around⟩
    rw [toList_around] at hsep hfuel ⊢
    obtain ⟨hl, hne, hr⟩ := separated_at hsep
    rw [hends] at hl hne hr
    simp only at hl hne hr
    simp only [BinTree.height] at hrounds
    simp only [getAddFrom, does_bind, does_load, does_assert, hx, Option.some.injEq, exists_eq_left', hleft, hright]
    refine ⟨hft.le, ?_⟩
    by_cases hin : x.from_ ≤ from_ ∧ x.to_ ≥ from_
    · obtain ⟨hlo, hhi⟩ := hin
      rw [if_pos ⟨hlo, hhi⟩, List.map_append, List.map_cons, hends,
        add_append (mem_map_ends fun q hq => (hl q hq).trans_le hlo), add, if_neg (not_lt.mpr hhi), if_pos hlo]
      by_cases hend : x.to_ ≥ to_
      · rw [if_pos hend, if_pos hend, does_pure]
        exact ⟨_, hk, by rw [List.map_append, List.map_cons, hends]⟩
      · rw [if_neg hend, if_neg hend, does_bind, does_store]
        refine ⟨x, hx, ?_⟩
        have hk' := hk.store hx { x with to_ := to_ } rfl
        have hrounds' : (r.toList ++ c.after).length < fuel := by
          simp only [List.length_append, List.length_cons] at hfuel ⊢
          omega
        have hconsume := consumeIntervals_spec hk' (Nat.lt_of_succ_lt hfuel) hrounds'
        obtain ⟨hout, -⟩ := List.nodup_cons.mp (List.nodup_middle.mp hk.nodup)
        rw [List.mem_append, not_or] at hout
        rwa [map_ends_elsewhere hout.1, map_ends_elsewhere hout.2, ends_of (Function.update_self ..)] at hconsume
    rw [if_neg hin]
    by_cases hbelow : x.from_ > from_
    · rw [if_pos hbelow]
      cases l with
      | node l' e' r' =>
        have hplug : (Context.frame .left e r c).plug (.node l' e' r') = c.plug (.node (.node l' e' r') e r) := rfl
        rw [← toList_around] at hsep hfuel ⊢
        rw [← hplug] at ht hsep hfuel ⊢
        refine ih ht hsep hbefore (fun q hq => ?_) hfuel (by omega)
        rcases List.mem_cons.mp hq with rfl | hq
        · rw [hends]
          exact hbelow
        · have := hr q hq
          omega
      | nil =>
        have hxs : ∀ q ∈ c.before ++ (BinTree.nil : BinTree P).toList, (ends h q).2 < from_ := by simpa using hbefore
        rw [List.map_append, List.map_cons, hends, add_append (mem_map_ends hxs), add,
          if_neg (show ¬x.to_ < from_ by omega), if_neg (not_le.mpr hbelow)]
        simp only [BinTree.root_nil]
        by_cases hin' : x.from_ ≤ to_ ∧ x.to_ ≥ to_
        · rw [if_pos hin', does_bind, does_store]
          refine ⟨x, hx, does_pure.mpr ⟨_, hk.store hx _ (by rfl), ?_⟩⟩
          rw [map_ends_update hk.nodup, front, absorb, if_neg (not_lt.mpr hin'.1), if_pos hin'.2]
        · rw [if_neg hin']
          refine (insert_spec [] [e] hk hp hfuel rfl).mono fun _ _ hs => hs.congr ?_
          simp [hends]
    · rw [if_neg hbelow, does_bind, does_assert]
      refine ⟨by omega, ?_⟩
      have hxs : ∀ q ∈ (c.before ++ l.toList) ++ [e], (ends h q).2 < from_ := by
        intro q hq
        rcases List.mem_append.mp hq with hq | hq
        · have := hl q hq
          omega
        · rw [List.mem_singleton.mp hq, hends]
          simp only
          omega
      cases r with
      | node l' e' r' =>
        have hplug : (Context.frame .right e l c).plug (.node l' e' r') = c.plug (.node l e (.node l' e' r')) := rfl
        rw [← toList_around] at hsep hfuel ⊢
        rw [← hplug] at ht hsep hfuel ⊢
        refine ih ht hsep (fun q hq => hxs q ?_) hafter hfuel (by omega)
        simpa [Context.before] using hq
      | nil =>
        refine (insert_spec [e] [] hk hp hfuel rfl).mono fun _ _ hs => hs.congr ?_
        have hmid : c.before ++ l.toList ++ e :: ((BinTree.nil : BinTree P).toList ++ c.after) =
            (c.before ++ l.toList ++ [e]) ++ c.after := by simp
        have hlater : Separated (c.after.map (ends h)) :=
          hsep.sublist (List.Sublist.map _ (hmid ▸ List.sublist_append_right ..))
        have hmap : ((c.before ++ l.toList ++ [e]) ++ c.after).map (ends h) =
            (c.before ++ l.toList ++ [e]).map (ends h) ++ c.after.map (ends h) := List.map_append
        rw [hmid, hmap, add_append (mem_map_ends hxs), add_front (List.forall_mem_map.mpr hafter) hlater]
        rfl

/-- `psync_interval_tree_add`. -/
theorem getAdd_spec {fuel from_ to_ : ℕ} {tree : Option P} {intervals : List (ℕ × ℕ)} {p : P}
    (hs : Stores intervals tree h) (hsep : Separated intervals) (hft : from_ < to_) (hp : h p = none)
    (hfuel : intervals.length + 1 < fuel) :
    Does (getAdd fuel p tree from_ to_) h (Stores (add from_ to_ intervals)) := by
  obtain ⟨list, hk, rfl⟩ := hs
  rw [List.length_map] at hfuel
  cases tree with
  | some root =>
    rw [getAdd, does_bind, does_assert]
    refine ⟨hft, ?_⟩
    obtain ⟨t, ht, rfl⟩ := hk
    cases t with
    | nil => cases ht.root
    | node l e r =>
      obtain rfl := Option.some.inj ht.root
      refine getAddFrom_spec (c := .top) ht hsep hft (by simp [Context.before]) (by simp [Context.after]) hp hfuel ?_
      exact (BinTree.node l e r).height_le_length.trans (Nat.le_of_lt (Nat.lt_of_succ_lt hfuel))
  | none =>
    obtain ⟨t, ht, rfl⟩ := hk
    obtain rfl := PTree.root_eq_none ht.root
    simp only [getAdd, treeNew, new, does_bind, does_assert, does_alloc, does_pure, hp, true_and]
    refine ⟨hft, ?_⟩
    have hcell : trees (Function.update h p (some ⟨⟨none, none, none, 0⟩, from_, to_⟩)) p = some ⟨none, none, none, 0⟩ :=
      trees_of (Function.update_self ..)
    have ht' : PTree.Avl (trees (Function.update h p (some ⟨⟨none, none, none, 0⟩, from_, to_⟩))) none BinTree.nil :=
      ht.frame (by simp)
    have hused : ∀ q ∈ [p], ∃ c, Function.update h p (some ⟨⟨none, none, none, 0⟩, from_, to_⟩) q = some c := by
      intro q hq
      rw [List.mem_singleton.mp hq]
      exact ⟨_, Function.update_self ..⟩
    have hnode : ∀ q, (none : Option P) = some q → q ∈ (BinTree.nil : BinTree P).toList := fun _ hq => by cases hq
    have hadd := PTree.getAdd_spec (d := .right) ht' hnode (by simp) ⟨_, hcell⟩ (Nat.lt_of_succ_lt hfuel)
    refine (does_change hused hadd).mono ?_
    rintro root h' ⟨hk, hs⟩
    exact ⟨[p], hk, by rw [hs.ends_eq, List.map_singleton, ends_of (Function.update_self ..)]; rfl⟩

end Pclsync.IntervalTree
