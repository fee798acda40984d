import Pclsync.IntervalTree.Addition

/-! Removing an interval, and cutting the end off. -/
namespace Pclsync.IntervalTree
open Lib.BinaryTree Lib.HeapProgram Lib.Intervals

variable {P : Type} [DecidableEq P] {h : IntervalHeap P}

omit [DecidableEq P] in
/-- The intervals up to a point and the ones that end after it. -/
theorem exists_split {list : List P} (point : ℕ) (hsep : Separated (list.map (ends h))) :
    ∃ xs ys, list = xs ++ ys ∧ (∀ q ∈ xs, (ends h q).2 ≤ point) ∧ ∀ q ∈ ys, point < (ends h q).2 := by
  induction list with
  | nil => exact ⟨[], [], rfl, by simp, by simp⟩
  | cons e list ih =>
    obtain ⟨-, -, hlater⟩ := @separated_at _ _ [] _ _ hsep
    by_cases hend : (ends h e).2 ≤ point
    · obtain ⟨xs, ys, rfl, hxs, hys⟩ := ih (hsep.sublist (List.sublist_cons_self ..))
      exact ⟨e :: xs, ys, rfl, List.forall_mem_cons.mpr ⟨hend, hxs⟩, hys⟩
    · refine ⟨[], e :: list, rfl, by simp, List.forall_mem_cons.mpr ⟨not_le.mp hend, fun q hq => ?_⟩⟩
      have := hlater q hq
      omega

/-- The loop of `psync_interval_tree_remove`, at the intervals `ys`. -/
theorem removeFrom_spec {fuel from_ to_ rounds : ℕ} {tree : Option P} {p : P} {xs ys : List P}
    (hk : Keeps h tree (xs ++ ys)) (hsep : Separated (ys.map (ends h))) (hft : from_ < to_)
    (hys : ∀ q ∈ ys, from_ < (ends h q).2) (hp : h p = none) (hfuel : (xs ++ ys).length < fuel)
    (hrounds : ys.length ≤ rounds) :
    Does (removeFrom fuel p from_ to_ rounds tree ys.head?) h
      (Stores (xs.map (ends h) ++ Lib.Intervals.remove from_ to_ (ys.map (ends h)))) := by
  induction ys generalizing h tree xs rounds with
  | nil =>
    rw [List.head?_nil, removeFrom, does_pure]
    exact ⟨xs, by simpa using hk, by simp [Lib.Intervals.remove]⟩
  | cons e ys ih =>
    cases rounds with
    | zero => exact absurd hrounds (Nat.not_succ_le_zero _)
    | succ rounds =>
      obtain ⟨x, hx⟩ := hk.used (p := e) (by simp)
      have hends := ends_of hx
      obtain ⟨hend, hrest⟩ := List.forall_mem_cons.mp hys
      rw [List.map_cons] at hsep
      obtain ⟨hne, hgap, hlater⟩ := separated_cons.mp hsep
      rw [hends] at hend hne hgap
      simp only at hend hne hgap
      have hnodup := hk.nodup
      obtain ⟨hout, -⟩ := List.nodup_cons.mp (List.nodup_middle.mp hnodup)
      rw [List.mem_append, not_or] at hout
      rw [List.head?_cons, removeFrom, does_bind, does_load]
      refine ⟨x, hx, ?_⟩
      rw [List.map_cons, hends, Lib.Intervals.remove, List.flatMap_cons, ← Lib.Intervals.remove]
      by_cases hsplit : x.from_ < from_ ∧ x.to_ > to_
      · rw [if_pos hsplit, does_bind]
        refine (newBeside_spec (d := .right) hk hp hfuel).mono ?_
        rintro p' h₁ ⟨rfl, hadd⟩
        rw [does_bind]
        refine hadd.mono ?_
        rintro tree' h₂ ⟨hk₂, hends₂, hused₂⟩
        obtain ⟨x₂, hx₂, hfrom₂, -⟩ := hused₂ e x hx
        rw [does_bind, does_store]
        refine ⟨x₂, hx₂, does_pure.mpr ⟨_, hk₂.store hx₂ _ (by rfl), ?_⟩⟩
        have hpl := hk.unused hp
        simp only [List.mem_append, List.mem_cons, not_or] at hpl
        have hsame : ∀ zs : List P, p' ∉ zs → zs.map (ends h₂) = zs.map (ends h) := fun zs hz =>
          List.map_congr_left fun q hq => by rw [hends₂, Function.update_of_ne (ne_of_mem_of_not_mem hq hz)]
        have hmap : (xs ++ e :: (p' :: ys)).map (ends (Function.update h₂ e (some { x₂ with to_ := from_ }))) = _ :=
          map_ends_update hk₂.nodup
        have hgone : ∀ i ∈ ys.map (ends h), to_ ≤ i.1 := fun i hi => by
          have := hgap i hi
          omega
        rw [remove_after hlater hft hgone, head, tail, if_pos hsplit.1, if_pos hsplit.2, min_eq_right hend.le,
          max_eq_right (hsplit.1.trans hft).le]
        refine hmap.trans ?_
        rw [List.map_cons, hsame xs hpl.1, hsame ys hpl.2.2, hends₂, Function.update_self, hfrom₂]
        rfl
      have hpe : p ≠ e := by
        rintro rfl
        cases hp.symm.trans hx
      have hlength : ((xs ++ [e]) ++ ys).length = (xs ++ e :: ys).length := by simp
      -- the rest of the loop, where the interval stays with other ends
      have hstay : ∀ c : Interval P, c.tree = x.tree →
          Does (removeFrom fuel p from_ to_ rounds tree ys.head?) (Function.update h e (some c))
            (Stores (xs.map (ends h) ++ (c.from_, c.to_) :: Lib.Intervals.remove from_ to_ (ys.map (ends h)))) := by
        intro c hc
        have hk' := hk.store hx _ hc
        have hmap := map_ends_elsewhere (h := h) (c := some c) hout.2
        have hys' : ∀ q ∈ ys, from_ < (ends (Function.update h e (some c)) q).2 := fun q hq => by
          rw [ends, update_other (ne_of_mem_of_not_mem hq hout.2)]
          exact hrest q hq
        have hloop := @ih _ rounds tree (xs ++ [e]) (by simpa using hk') (hmap ▸ hlater) hys'
          (by rw [update_other hpe, hp]) (hlength ▸ hfuel) (Nat.le_of_succ_le_succ hrounds)
        rw [hmap, List.map_append, map_ends_elsewhere hout.1, List.map_singleton, ends_of (Function.update_self ..),
          List.append_assoc] at hloop
        exact hloop
      rw [if_neg hsplit, does_bind]
      refine (getNext_spec hk hfuel).mono ?_
      rintro next h₀ ⟨rfl, rfl⟩
      by_cases hstart : from_ ≤ x.from_ ∧ x.from_ < to_
      · rw [if_pos hstart, does_bind, does_store]
        refine ⟨x, hx, ?_⟩
        simp only [does_bind, does_load, Function.update_self, Option.some.injEq, exists_eq_left']
        rw [head_after hstart.1, List.nil_append]
        by_cases hgone : to_ ≥ x.to_
        · rw [if_pos hgone, tail_before hgone, List.nil_append]
          have hk' := hk.store hx { x with from_ := to_ } rfl
          rw [does_bind]
          refine (del_spec hk' hfuel).mono ?_
          rintro tree' h₁ ⟨hk₁, hs⟩
          have hmap : ∀ zs : List P, e ∉ zs → zs.map (ends h₁) = zs.map (ends h₀) := fun zs hz => by
            rw [hs.ends_eq, map_ends_elsewhere hz]
          have hys' : ∀ q ∈ ys, from_ < (ends h₁ q).2 := fun q hq => by
            rw [hs.ends_eq, ends, update_other (ne_of_mem_of_not_mem hq hout.2)]
            exact hrest q hq
          have hloop := ih hk₁ (hmap ys hout.2 ▸ hlater) hys' (hs.unused (by rw [update_other hpe, hp]))
            (Nat.lt_of_le_of_lt (by simp) hfuel) (Nat.le_of_succ_le_succ hrounds)
          rwa [hmap xs hout.1, hmap ys hout.2] at hloop
        · rw [if_neg hgone, tail, if_pos (not_le.mp hgone), max_eq_right hstart.2.le, does_bind, does_pure]
          exact hstay { x with from_ := to_ } rfl
      rw [if_neg hstart]
      by_cases hbefore : x.from_ < from_
      · rw [if_pos hbefore, does_bind, does_store]
        refine ⟨x, hx, ?_⟩
        rw [head, if_pos hbefore, min_eq_right hend.le, tail_before (by simp only; omega), List.append_nil]
        exact hstay { x with to_ := from_ } rfl
      · rw [if_neg hbefore, does_pure]
        refine ⟨_, hk, ?_⟩
        rw [head_after (not_lt.mp hbefore), tail_after hne (by simp only; omega), remove_after hlater hft]
        · simp [hends]
        · intro i hi
          have := hgap i hi
          omega

/-- `psync_interval_tree_remove`. -/
theorem remove_spec {fuel from_ to_ : ℕ} {tree : Option P} {intervals : List (ℕ × ℕ)} {p : P}
    (hs : Stores intervals tree h) (hsep : Separated intervals) (hft : from_ < to_) (hp : h p = none)
    (hfuel : intervals.length < fuel) :
    Does (remove fuel p tree from_ to_) h (Stores (Lib.Intervals.remove from_ to_ intervals)) := by
  obtain ⟨list, hk, rfl⟩ := hs
  rw [List.length_map] at hfuel
  obtain ⟨xs, ys, rfl, hxs, hys⟩ := exists_split from_ hsep
  rw [remove, does_bind]
  refine (firstIntervalContainingOrAfter_spec hk hsep hfuel (Nat.le_of_lt hfuel)).mono ?_
  rintro q h₀ ⟨rfl, rfl⟩
  rw [find_head hxs hys, List.map_append, Lib.Intervals.remove, List.flatMap_append, ← Lib.Intervals.remove,
    ← Lib.Intervals.remove]
  rw [List.map_append] at hsep
  rw [remove_before (hsep.sublist (List.sublist_append_left ..)) hft (List.forall_mem_map.mpr hxs)]
  exact removeFrom_spec hk (hsep.sublist (List.sublist_append_right ..)) hft hys hp hfuel
    (Nat.le_of_lt (Nat.lt_of_le_of_lt (by simp) hfuel))

/-- The loop of `psync_interval_tree_get_cut_end`. -/
theorem getCutEndFrom_spec {fuel e rounds : ℕ} {tree : Option P} {list : List P} (hk : Keeps h tree list)
    (hsep : Separated (list.map (ends h))) (hfuel : list.length < fuel) (hrounds : list.length ≤ rounds) :
    Does (getCutEndFrom fuel e rounds tree list.getLast?) h (Stores (cutEnd e (list.map (ends h)))) := by
  induction rounds generalizing h tree list with
  | zero =>
    obtain rfl := List.length_eq_zero_iff.mp (Nat.le_zero.mp hrounds)
    rw [List.getLast?_nil, getCutEndFrom, does_pure]
    exact ⟨[], hk, rfl⟩
  | succ rounds ih =>
    rcases List.eq_nil_or_concat' list with rfl | ⟨xs, q, rfl⟩
    · rw [List.getLast?_nil, getCutEndFrom, does_pure]
      exact ⟨[], hk, rfl⟩
    obtain ⟨x, hx⟩ := hk.used (p := q) (by simp)
    have hends := ends_of hx
    obtain ⟨hbefore, hne, -⟩ := separated_at hsep
    rw [hends] at hbefore hne
    simp only at hbefore hne
    have hxs : Separated (xs.map (ends h)) := hsep.sublist (List.Sublist.map _ (List.sublist_append_left ..))
    have hout : q ∉ xs := fun hq => (List.nodup_append'.mp hk.nodup).2.2 hq (List.mem_singleton_self q)
    have hcut : cutEnd e ((xs ++ [q]).map (ends h)) = cutEnd e (xs.map (ends h)) ++ head e (x.from_, x.to_) := by
      rw [List.map_append, cutEnd, List.flatMap_append, List.map_singleton, hends, List.flatMap_singleton, ← cutEnd]
    have hwhole : x.from_ < e → cutEnd e (xs.map (ends h)) = xs.map (ends h) := fun hlt =>
      cutEnd_before hxs (List.forall_mem_map.mpr fun r hr => ((hbefore r hr).trans hlt).le)
    rw [List.getLast?_concat, getCutEndFrom, does_bind, does_load]
    refine ⟨x, hx, ?_⟩
    rw [hcut]
    by_cases hend : x.to_ > e
    · rw [if_pos hend]
      by_cases hstart : x.from_ < e
      · rw [if_pos hstart, does_bind, does_store]
        refine ⟨x, hx, does_pure.mpr ⟨_, hk.store hx _ (by rfl), ?_⟩⟩
        rw [map_ends_update hk.nodup, hwhole hstart, head, if_pos hstart, min_eq_right hend.le]
        rfl
      · rw [if_neg hstart, head_after (not_lt.mp hstart), List.append_nil, does_bind]
        refine (getPrev_spec hk hfuel).mono ?_
        rintro prev h₀ ⟨rfl, rfl⟩
        rw [does_bind]
        refine (del_spec hk hfuel).mono ?_
        rintro tree' h₁ ⟨hk₁, hs⟩
        rw [List.append_nil] at hk₁
        obtain ⟨x₁, hx₁, -⟩ := hs.used hx
        rw [does_bind, does_free]
        refine ⟨x₁, hx₁, ?_⟩
        have hmap : xs.map (ends (Function.update h₁ q none)) = xs.map (ends h₀) := by
          rw [map_ends_elsewhere hout, hs.ends_eq]
        have hloop := ih (hk₁.elsewhere hout none) (hmap ▸ hxs) (Nat.lt_of_le_of_lt (by simp) hfuel)
          (by simpa using hrounds)
        rwa [hmap] at hloop
    · have hbefore' : head e (x.from_, x.to_) = [(x.from_, x.to_)] := head_before hne (not_lt.mp hend)
      rw [if_neg hend, does_pure, hbefore', hwhole (by omega)]
      exact ⟨_, hk, by simp [hends]⟩

/-- `psync_interval_tree_cut_end`. -/
theorem getCutEnd_spec {fuel e : ℕ} {tree : Option P} {intervals : List (ℕ × ℕ)} (hs : Stores intervals tree h)
    (hsep : Separated intervals) (hfuel : intervals.length < fuel) :
    Does (getCutEnd fuel tree e) h (Stores (cutEnd e intervals)) := by
  obtain ⟨list, hk, rfl⟩ := hs
  rw [List.length_map] at hfuel
  rw [getCutEnd, does_bind]
  refine (getLast_spec hk hfuel).mono ?_
  rintro last h₀ ⟨rfl, rfl⟩
  exact getCutEndFrom_spec hk hsep hfuel (Nat.le_of_lt hfuel)

end Pclsync.IntervalTree

/-! Sequences of calls on one tree of intervals. -/
namespace Pclsync.IntervalTree
open Lib.BinaryTree Lib.HeapProgram Lib.Intervals

variable {P : Type} [DecidableEq P] {h : IntervalHeap P}

/-- The first two carry the pointer that `psync_new` answers if the call allocates. -/
inductive Call (P : Type) where
  | add (p : P) (from_ to_ : ℕ)
  | remove (p : P) (from_ to_ : ℕ)
  | cutEnd (e : ℕ)

def Call.run (fuel : ℕ) (tree : Option P) : Call P → Prog P (Option P)
  | add p from_ to_ => getAdd fuel p tree from_ to_
  | remove p from_ to_ => IntervalTree.remove fuel p tree from_ to_
  | cutEnd e => getCutEnd fuel tree e

def Call.Ready (h : IntervalHeap P) : Call P → Prop
  | add p from_ to_ | remove p from_ to_ => from_ < to_ ∧ h p = none
  | cutEnd _ => True

/-- What a call is for. -/
def Call.points (s : Set ℕ) : Call P → Set ℕ
  | add _ from_ to_ => Set.Ico from_ to_ ∪ s
  | remove _ from_ to_ => s \ Set.Ico from_ to_
  | cutEnd e => s ∩ Set.Iio e

/-- The nodes that a walk goes through. -/
def Walks (h : IntervalHeap P) (tree : Option P) (list : List P) : Prop :=
  ∀ fuel, list.length < fuel → forEach fuel tree h = some (list, h)

/-- The heap, the root and the points after some calls. Between two calls the rest of
the heap is anybody's, and a loop is given enough rounds for the intervals there are. -/
inductive Reached : IntervalHeap P → Option P → Set ℕ → Prop where
  | empty (h : IntervalHeap P) : Reached h none ∅
  | elsewhere {h h' tree s list} : Reached h tree s → Walks h tree list → (∀ q ∈ list, h' q = h q) →
      Reached h' tree s
  | call {h h' tree tree' s list} {c : Call P} {fuel : ℕ} : Reached h tree s → Walks h tree list → c.Ready h →
      list.length + 1 < fuel → c.run fuel tree h = some (tree', h') → Reached h' tree' (c.points s)

/-- One call. -/
theorem call_spec {tree : Option P} {intervals : List (ℕ × ℕ)} {c : Call P} {fuel : ℕ}
    (hs : Stores intervals tree h) (hsep : Separated intervals) (hready : c.Ready h)
    (hfuel : intervals.length + 1 < fuel) :
    Does (c.run fuel tree) h fun tree' h' => ∃ intervals', Stores intervals' tree' h' ∧ Separated intervals' ∧
      points intervals' = c.points (points intervals) := by
  cases c with
  | add p from_ to_ =>
    obtain ⟨hft, hp⟩ := hready
    obtain ⟨hsep', hpoints⟩ := Lib.Intervals.add_spec hft hsep
    exact (getAdd_spec hs hsep hft hp hfuel).mono fun _ _ hs' => ⟨_, hs', hsep', hpoints⟩
  | remove p from_ to_ =>
    obtain ⟨hft, hp⟩ := hready
    obtain ⟨hsep', hpoints⟩ := Lib.Intervals.remove_spec hft hsep
    exact (remove_spec hs hsep hft hp (Nat.lt_of_succ_lt hfuel)).mono fun _ _ hs' => ⟨_, hs', hsep', hpoints⟩
  | cutEnd e =>
    obtain ⟨hsep', hpoints⟩ := cutEnd_spec (e := e) hsep
    exact (getCutEnd_spec hs hsep (Nat.lt_of_succ_lt hfuel)).mono fun _ _ hs' => ⟨_, hs', hsep', hpoints⟩

theorem walk_of_keeps {tree : Option P} {list : List P} (hk : Keeps h tree list) : Walks h tree list := by
  intro fuel hfuel
  obtain ⟨nodes, h', hrun, rfl, rfl⟩ := forEach_spec hk hfuel
  exact hrun

theorem walk_unique {tree : Option P} {list list' : List P} (hw : Walks h tree list) (hw' : Walks h tree list') :
    list = list' := by
  have hrun := hw (max list.length list'.length + 1) (by omega)
  rw [hw' _ (by omega)] at hrun
  exact (Prod.mk.inj (Option.some.inj hrun)).1.symm

/-- After any calls the tree is a separated list of intervals of the points. -/
theorem reached_keeps {tree : Option P} {s : Set ℕ} (hr : Reached h tree s) :
    ∃ list, Keeps h tree list ∧ Separated (list.map (ends h)) ∧ points (list.map (ends h)) = s := by
  induction hr with
  | empty h => exact ⟨[], ⟨.nil, ⟨rfl, ⟨trivial, trivial⟩, trivial, List.nodup_nil⟩, rfl⟩, separated_nil, points_nil⟩
  | @elsewhere h₁ h₂ tree s list' _ hw hsame ih =>
    obtain ⟨list, hk, hsep, hpoints⟩ := ih
    obtain rfl := walk_unique (walk_of_keeps hk) hw
    have hends : list.map (ends h₂) = list.map (ends h₁) :=
      List.map_congr_left fun q hq => by rw [ends, hsame q hq, ← ends]
    rw [← hends] at hsep hpoints
    exact ⟨list, hk.frame fun q hq => by rw [trees, trees, parts, parts, hsame q hq], hsep, hpoints⟩
  | call _ hw hready hfuel hrun ih =>
    obtain ⟨list, hk, hsep, hpoints⟩ := ih
    obtain rfl := walk_unique (walk_of_keeps hk) hw
    obtain ⟨tree', h'', hrun', intervals', ⟨list', hk', rfl⟩, hsep', hpoints'⟩ :=
      call_spec ⟨list, hk, rfl⟩ hsep hready (by rwa [List.length_map])
    obtain ⟨rfl, rfl⟩ := Prod.mk.inj (Option.some.inj (hrun'.symm.trans hrun))
    exact ⟨list', hk', hsep', hpoints'.trans (by rw [hpoints])⟩

/-- After any calls the tree covers the points, its intervals are not empty, go up and
leave gaps, the search finds the first one that ends after a point, and every further
call comes to its end. -/
theorem calls_keep_points {tree : Option P} {s : Set ℕ} (hr : Reached h tree s) :
    ∃ list, Walks h tree list ∧ Separated (list.map (ends h)) ∧ points (list.map (ends h)) = s ∧
      (∀ fuel point, list.length < fuel → firstIntervalContainingOrAfter fuel point fuel tree h =
        some (list.find? fun q => point < (ends h q).2, h)) ∧
      ∀ (c : Call P) fuel, c.Ready h → list.length + 1 < fuel →
        ∃ tree' h', c.run fuel tree h = some (tree', h') ∧ Reached h' tree' (c.points s) := by
  obtain ⟨list, hk, hsep, rfl⟩ := reached_keeps hr
  have hw := walk_of_keeps hk
  refine ⟨list, hw, hsep, rfl, fun fuel point hfuel => ?_, fun c fuel hready hfuel => ?_⟩
  · have hdoes : Does (firstIntervalContainingOrAfter fuel point fuel tree) h _ :=
      firstIntervalContainingOrAfter_spec hk hsep hfuel (Nat.le_of_lt hfuel)
    obtain ⟨q, h', hrun, rfl, rfl⟩ := hdoes
    exact hrun
  · obtain ⟨tree', h', hrun, -⟩ := call_spec ⟨list, hk, rfl⟩ hsep hready (by rwa [List.length_map])
    exact ⟨tree', h', hrun, .call hr hw hready hfuel hrun⟩

theorem calls_keep_points_one : ∃ (h : IntervalHeap ℕ) (tree : Option ℕ) (list : List ℕ),
    Reached h tree (Set.Ico 2 6 ∪ ∅) ∧ Walks h tree list ∧ points (list.map (ends h)) = Set.Ico 2 6 ∪ ∅ := by
  obtain ⟨list, -, -, -, -, hcall⟩ := calls_keep_points (.empty fun _ : ℕ => none)
  obtain ⟨tree, h, -, hr⟩ := hcall (.add 1 2 6) (list.length + 2) ⟨by decide, rfl⟩ (by omega)
  obtain ⟨list', hw, -, hpoints, -⟩ := calls_keep_points hr
  exact ⟨h, tree, list', hr, hw, hpoints⟩

end Pclsync.IntervalTree
