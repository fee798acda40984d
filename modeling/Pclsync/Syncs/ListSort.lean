import Pclsync.Lib.Comparators

/-! `psync_list_sort` of `plist.c`: a merge sort from the bottom up. -/
namespace Pclsync.Syncs.ListSort
open Lib.Comparators

variable {α : Type}

/-- The two runs that start at `l1` and `l2`, one of them first where they are equal. -/
def mergeRuns (cmp : α → α → ℤ) (l1 l2 : List α) : List α := l1.merge l2 fun a b => cmp a b ≤ 0

/-- One turn of the outer loop, with the number of runs that it leaves. -/
def pass (cmp : α → α → ℤ) (depth : ℕ) : ℕ → List α → List α × ℕ
  | 0, l1 => (l1, 0)
  | fuel + 1, l1 =>
    let l2 := l1.drop depth
    if l1 = [] then ([], 0)
    else if l2 = [] then (l1, 1)
    else
      let rest := pass cmp depth fuel (l2.drop depth)
      (mergeRuns cmp (l1.take depth) (l2.take depth) ++ rest.1, rest.2 + 1)

def sortFrom (cmp : α → α → ℤ) : ℕ → ℕ → List α → List α
  | 0, _, ls => ls
  | fuel + 1, depth, ls =>
    let passed := pass cmp depth ls.length ls
    if passed.2 ≤ 1 then passed.1 else sortFrom cmp fuel (depth * 2) passed.1

/-- `psync_list_sort`. -/
def listSort (cmp : α → α → ℤ) (l : List α) : List α := if l = [] then [] else sortFrom cmp l.length 1 l

variable {cmp : α → α → ℤ} {depth n : ℕ} {l xs ys : List α}

/-! ### Nothing is lost -/

theorem mergeRuns_perm : (mergeRuns cmp xs ys).Perm (xs ++ ys) := List.merge_perm_append _

theorem pass_perm {fuel : ℕ} : (pass cmp depth fuel xs).1.Perm xs := by
  induction fuel generalizing xs with
  | zero => exact .refl xs
  | succ fuel ih =>
    rw [pass]
    dsimp only
    split_ifs with hl1
    · rw [hl1]
    · exact .refl _
    · have hruns : (mergeRuns cmp (xs.take depth) ((xs.drop depth).take depth)).Perm _ := mergeRuns_perm
      refine (hruns.append ih).trans (.of_eq ?_)
      rw [List.append_assoc, List.take_append_drop, List.take_append_drop]

theorem sortFrom_perm {fuel : ℕ} : (sortFrom cmp fuel depth xs).Perm xs := by
  induction fuel generalizing depth xs with
  | zero => exact .refl xs
  | succ fuel ih =>
    rw [sortFrom]
    split_ifs
    · exact pass_perm
    · exact ih.trans pass_perm

theorem listSort_perm : (listSort cmp l).Perm l := by
  rw [listSort]
  split_ifs with hl
  · rw [hl]
  · exact sortFrom_perm

/-! ### Runs -/

theorem pairwise_mergeRuns (h : Consistent cmp l) (hxs : xs ⊆ l) (hys : ys ⊆ l) (hx : xs.Pairwise fun a b => cmp a b ≤ 0)
    (hy : ys.Pairwise fun a b => cmp a b ≤ 0) : (mergeRuns cmp xs ys).Pairwise fun a b => cmp a b ≤ 0 := by
  unfold mergeRuns
  induction xs generalizing ys with
  | nil =>
    rw [List.nil_merge]
    exact hy
  | cons x xs ihx =>
    obtain ⟨hxl, hxsl⟩ := List.cons_subset.mp hxs
    obtain ⟨hxhead, hxtail⟩ := List.pairwise_cons.mp hx
    induction ys with
    | nil =>
      rw [List.merge_right]
      exact hx
    | cons y ys ihy =>
      obtain ⟨hyl, hysl⟩ := List.cons_subset.mp hys
      obtain ⟨hyhead, hytail⟩ := List.pairwise_cons.mp hy
      rw [List.cons_merge_cons]
      split_ifs with hle
      · have hxy : cmp x y ≤ 0 := of_decide_eq_true hle
        refine List.pairwise_cons.mpr ⟨fun b hb => ?_, ihx hxsl hys hxtail hy⟩
        rcases List.mem_merge.mp hb with hb | hb
        · exact hxhead b hb
        · rcases List.mem_cons.mp hb with rfl | hb
          · exact hxy
          · exact h.trans x hxl y hyl b (hysl hb) hxy (hyhead b hb)
      · have hyx : cmp y x ≤ 0 := le_of_lt ((h.swap x hxl y hyl).mp (not_le.mp fun hxy => hle (decide_eq_true hxy)))
        refine List.pairwise_cons.mpr ⟨fun b hb => ?_, ihy hysl hytail⟩
        rcases List.mem_merge.mp hb with hb | hb
        · rcases List.mem_cons.mp hb with rfl | hb
          · exact hyx
          · exact h.trans y hyl x hxl b (hxsl hb) hyx (hxhead b hb)
        · exact hyhead b hb

/-- `n` runs of `depth` elements, the last of which may have less, each of them in order. -/
inductive Runs (cmp : α → α → ℤ) (depth : ℕ) : List α → ℕ → Prop where
  | nil : Runs cmp depth [] 0
  | last {r : List α} : r ≠ [] → r.length ≤ depth → r.Pairwise (fun a b => cmp a b ≤ 0) → Runs cmp depth r 1
  | cons {r rs : List α} {n : ℕ} : r.length = depth → r.Pairwise (fun a b => cmp a b ≤ 0) → rs ≠ [] → Runs cmp depth rs n →
    Runs cmp depth (r ++ rs) (n + 1)

theorem Runs.count_nil (h : Runs cmp depth [] n) : n = 0 := by
  generalize hxs : ([] : List α) = xs at h
  cases h with
  | nil => rfl
  | last hne => exact absurd hxs.symm hne
  | cons _ _ hne => exact absurd (List.append_eq_nil_iff.mp hxs.symm).2 hne

theorem pass_nil {fuel : ℕ} : pass cmp depth fuel [] = ([], 0) := by
  cases fuel <;> rfl

/-- One run is left as it is. -/
theorem pass_last {fuel : ℕ} (hne : xs ≠ []) (hlen : xs.length ≤ depth) : pass cmp depth (fuel + 1) xs = (xs, 1) := by
  rw [pass, List.drop_eq_nil_of_le hlen]
  exact (if_neg hne).trans (if_pos rfl)

/-- A run and what is after it. -/
theorem pass_cons {fuel : ℕ} {r rs : List α} (hlen : r.length = depth) (hrs : rs ≠ []) (hr : r ++ rs ≠ []) :
    pass cmp depth (fuel + 1) (r ++ rs) = (mergeRuns cmp r (rs.take depth) ++ (pass cmp depth fuel (rs.drop depth)).1,
      (pass cmp depth fuel (rs.drop depth)).2 + 1) := by
  rw [pass, List.drop_left' hlen, List.take_left' hlen]
  exact (if_neg hr).trans (if_neg hrs)

/-- Where there is fuel enough a pass does not depend on it. -/
theorem pass_fuel (hdepth : 0 < depth) {fuel fuel' : ℕ} (hfuel : xs.length ≤ fuel) (hfuel' : xs.length ≤ fuel') :
    pass cmp depth fuel xs = pass cmp depth fuel' xs := by
  induction fuel generalizing xs fuel' with
  | zero =>
    obtain rfl := List.length_eq_zero_iff.mp (Nat.le_zero.mp hfuel)
    rw [pass_nil, pass_nil]
  | succ fuel ih =>
    cases fuel' with
    | zero =>
      obtain rfl := List.length_eq_zero_iff.mp (Nat.le_zero.mp hfuel')
      rw [pass_nil, pass_nil]
    | succ fuel' =>
      have hless : xs ≠ [] → ((xs.drop depth).drop depth).length + 1 ≤ xs.length := fun hne => by
        have hpos := List.length_pos_iff.mpr hne
        rw [List.length_drop, List.length_drop]
        omega
      rw [pass, pass]
      dsimp only
      split_ifs with hnil hlast
      · rfl
      · rfl
      · rw [ih (Nat.succ_le_succ_iff.mp ((hless hnil).trans hfuel)) (Nat.succ_le_succ_iff.mp ((hless hnil).trans hfuel'))]

/-- A pass merges the runs two by two. -/
theorem runs_pass (h : Consistent cmp l) (hdepth : 0 < depth) {fuel : ℕ} (hfuel : xs.length ≤ fuel) (hsub : xs ⊆ l)
    (hruns : Runs cmp depth xs n) : Runs cmp (depth * 2) (pass cmp depth fuel xs).1 ((n + 1) / 2) ∧ (pass cmp depth fuel xs).2 = (n + 1) / 2 := by
  induction fuel generalizing xs n with
  | zero =>
    obtain rfl := List.length_eq_zero_iff.mp (Nat.le_zero.mp hfuel)
    obtain rfl := hruns.count_nil
    exact ⟨.nil, rfl⟩
  | succ fuel ih =>
    cases hruns with
    | nil =>
      rw [pass_nil]
      exact ⟨.nil, rfl⟩
    | last hne hlen hr =>
      rw [pass_last hne hlen]
      exact ⟨.last hne (hlen.trans (by omega)) hr, rfl⟩
    | @cons r rs n hlen hr hrs hruns =>
      have hne : r ++ rs ≠ [] := fun heq => hrs (List.append_eq_nil_iff.mp heq).2
      obtain ⟨hrsub, hrssub⟩ := List.append_subset.mp hsub
      rw [List.length_append] at hfuel
      rw [pass_cons hlen hrs hne]
      cases hruns with
      | nil => exact absurd rfl hrs
      | last hne' hlen' hr' =>
        rw [List.drop_eq_nil_of_le hlen', List.take_of_length_le hlen', pass_nil, List.append_nil]
        have hmerged := pairwise_mergeRuns h hrsub hrssub hr hr'
        have hperm : (mergeRuns cmp r rs).Perm (r ++ rs) := mergeRuns_perm
        refine ⟨.last (fun heq => ?_) ?_ hmerged, rfl⟩
        · have hnil : mergeRuns cmp r rs = [] := heq
          rw [hnil] at hperm
          exact hne hperm.nil_eq.symm
        · rw [hperm.length_eq, List.length_append]
          omega
      | @cons r' rs' n hlen' hr' hrs' hruns' =>
        obtain ⟨hrsub', hrssub'⟩ := List.append_subset.mp hrssub
        rw [List.length_append] at hfuel
        rw [List.drop_left' hlen', List.take_left' hlen']
        obtain ⟨hrest, hcnt⟩ := ih (by omega) hrssub' hruns'
        have hmerged := pairwise_mergeRuns h hrsub hrsub' hr hr'
        have hperm : (mergeRuns cmp r r').Perm (r ++ r') := mergeRuns_perm
        have hhalf : (n + 1 + 1 + 1) / 2 = (n + 1) / 2 + 1 := by omega
        rw [hhalf, hcnt]
        refine ⟨.cons ?_ hmerged (fun heq => ?_) hrest, rfl⟩
        · rw [hperm.length_eq, List.length_append]
          omega
        · have hrestperm : (pass cmp depth fuel rs').1.Perm rs' := pass_perm
          rw [heq] at hrestperm
          exact hrs' hrestperm.nil_eq.symm

theorem runs_singles : Runs cmp 1 l l.length := by
  induction l with
  | nil => exact .nil
  | cons a l ih =>
    by_cases hl : l = []
    · rw [hl]
      exact .last nofun le_rfl (List.pairwise_singleton _ _)
    · exact .cons (r := [a]) rfl (List.pairwise_singleton _ _) hl ih

theorem Runs.pairwise (h : Runs cmp depth xs n) (hn : n ≤ 1) : xs.Pairwise fun a b => cmp a b ≤ 0 := by
  cases h with
  | nil => exact .nil
  | last _ _ hr => exact hr
  | cons _ _ hne hruns =>
    cases hruns with
    | nil => exact absurd rfl hne
    | last => omega
    | cons => omega

theorem sortFrom_pairwise (h : Consistent cmp l) (hdepth : 0 < depth) {fuel : ℕ} (hfuel : n ≤ fuel) (hn : 0 < n) (hsub : xs ⊆ l)
    (hruns : Runs cmp depth xs n) : (sortFrom cmp fuel depth xs).Pairwise fun a b => cmp a b ≤ 0 := by
  induction fuel generalizing depth xs n with
  | zero => omega
  | succ fuel ih =>
    obtain ⟨hpassed, hcnt⟩ := runs_pass h hdepth (le_refl xs.length) hsub hruns
    rw [sortFrom, hcnt]
    split_ifs with hone
    · exact hpassed.pairwise hone
    · exact ih (by omega) (by omega) (by omega) (fun a ha => hsub (pass_perm.mem_iff.mp ha)) hpassed

/-- Where there is fuel enough what comes out does not depend on it. -/
theorem sortFrom_fuel (h : Consistent cmp l) (hdepth : 0 < depth) {fuel fuel' : ℕ} (hfuel : n ≤ fuel) (hfuel' : n ≤ fuel') (hn : 0 < n)
    (hsub : xs ⊆ l) (hruns : Runs cmp depth xs n) : sortFrom cmp fuel depth xs = sortFrom cmp fuel' depth xs := by
  induction fuel generalizing depth xs n fuel' with
  | zero => omega
  | succ fuel ih =>
    obtain ⟨fuel', rfl⟩ : ∃ m, fuel' = m + 1 := ⟨fuel' - 1, by omega⟩
    obtain ⟨hpassed, hcnt⟩ := runs_pass h hdepth (le_refl xs.length) hsub hruns
    rw [sortFrom, sortFrom, hcnt]
    split_ifs with hone
    · rfl
    · exact ih (by omega) (by omega) (by omega) (by omega) (fun a ha => hsub (pass_perm.mem_iff.mp ha)) hpassed

/-! ### Equal elements keep their order -/

/-- The elements that are equal to `a`. -/
def equals (cmp : α → α → ℤ) (a : α) (l : List α) : List α := l.filter fun b => cmp a b = 0

theorem equals_append {a : α} : equals cmp a (xs ++ ys) = equals cmp a xs ++ equals cmp a ys := List.filter_append xs ys

theorem equals_mergeRuns (h : Consistent cmp l) (hxs : xs ⊆ l) (hys : ys ⊆ l) (hx : xs.Pairwise fun a b => cmp a b ≤ 0) {a : α} (ha : a ∈ l) :
    equals cmp a (mergeRuns cmp xs ys) = equals cmp a xs ++ equals cmp a ys := by
  unfold mergeRuns
  induction xs generalizing ys with
  | nil =>
    rw [List.nil_merge]
    rfl
  | cons x xs ihx =>
    obtain ⟨hxl, hxsl⟩ := List.cons_subset.mp hxs
    obtain ⟨hxhead, hxtail⟩ := List.pairwise_cons.mp hx
    induction ys with
    | nil => rw [List.merge_right, ← equals_append, List.append_nil]
    | cons y ys ihy =>
      obtain ⟨hyl, hysl⟩ := List.cons_subset.mp hys
      rw [List.cons_merge_cons]
      split_ifs with hle
      · rw [← List.singleton_append, equals_append, ihx hxsl hys hxtail, ← List.append_assoc, ← equals_append, List.singleton_append]
      · rw [← List.singleton_append, equals_append, ihy hysl, ← List.singleton_append (l := ys), equals_append]
        by_cases hay : cmp a y = 0
        · have hnone : equals cmp a (x :: xs) = [] := by
            refine List.filter_eq_nil_iff.mpr fun c hc hac => hle (decide_eq_true ?_)
            have hac : cmp a c = 0 := of_decide_eq_true hac
            have hca := h.swap c (hxs hc) a ha
            have hxc : cmp x c ≤ 0 := by
              rcases List.mem_cons.mp hc with rfl | hc
              · have hself := h.swap c hxl c hxl
                omega
              · exact hxhead c hc
            exact h.trans x hxl c (hxs hc) y hyl hxc (h.trans c (hxs hc) a ha y hyl (by omega) hay.le)
          rw [hnone, List.nil_append, List.nil_append]
        · have hnone : equals cmp a [y] = [] := List.filter_eq_nil_iff.mpr fun c hc hac =>
            hay (List.mem_singleton.mp hc ▸ of_decide_eq_true hac)
          rw [hnone, List.nil_append, List.nil_append]

theorem equals_pass (h : Consistent cmp l) {fuel : ℕ} (hsub : xs ⊆ l) (hruns : Runs cmp depth xs n) {a : α} (ha : a ∈ l) :
    equals cmp a (pass cmp depth fuel xs).1 = equals cmp a xs := by
  induction fuel generalizing xs n with
  | zero => rfl
  | succ fuel ih =>
    cases hruns with
    | nil => rw [pass_nil]
    | last hne hlen hr => rw [pass_last hne hlen]
    | @cons r rs n hlen hr hrs hruns =>
      have hne : r ++ rs ≠ [] := fun heq => hrs (List.append_eq_nil_iff.mp heq).2
      obtain ⟨hrsub, hrssub⟩ := List.append_subset.mp hsub
      rw [pass_cons hlen hrs hne]
      cases hruns with
      | nil => exact absurd rfl hrs
      | last hne' hlen' hr' =>
        rw [List.drop_eq_nil_of_le hlen', List.take_of_length_le hlen', pass_nil, List.append_nil, equals_mergeRuns h hrsub hrssub hr ha,
          equals_append]
      | @cons r' rs' n hlen' hr' hrs' hruns' =>
        obtain ⟨hrsub', hrssub'⟩ := List.append_subset.mp hrssub
        rw [List.drop_left' hlen', List.take_left' hlen', equals_append, ih hrssub' hruns', equals_mergeRuns h hrsub hrsub' hr ha,
          equals_append, equals_append, List.append_assoc]

theorem equals_sortFrom (h : Consistent cmp l) (hdepth : 0 < depth) {fuel : ℕ} (hsub : xs ⊆ l) (hruns : Runs cmp depth xs n) {a : α}
    (ha : a ∈ l) : equals cmp a (sortFrom cmp fuel depth xs) = equals cmp a xs := by
  induction fuel generalizing depth xs n with
  | zero => rfl
  | succ fuel ih =>
    obtain ⟨hpassed, -⟩ := runs_pass h hdepth (le_refl xs.length) hsub hruns
    rw [sortFrom]
    split_ifs
    · exact equals_pass h hsub hruns ha
    · rw [ih (by omega) (fun a ha => hsub (pass_perm.mem_iff.mp ha)) hpassed, equals_pass h hsub hruns ha]

theorem equals_listSort (h : Consistent cmp l) {a : α} (ha : a ∈ l) : equals cmp a (listSort cmp l) = equals cmp a l := by
  rw [listSort]
  split_ifs with hl
  · rw [hl]
  · exact equals_sortFrom h Nat.one_pos (fun _ ha => ha) runs_singles ha

/-- `psync_list_sort` does what is promised of a sort. -/
theorem listSort_sorts : Sorts (listSort (α := α)) where
  perm cmp l := listSort_perm
  sorted cmp l h := by
    rw [listSort]
    split_ifs with hl
    · exact .nil
    · exact sortFrom_pairwise h Nat.one_pos le_rfl (List.length_pos_iff.mpr hl) (fun _ ha => ha) runs_singles

end Pclsync.Syncs.ListSort
