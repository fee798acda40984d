import Pclsync.PList.Nodes
import Pclsync.Syncs.ListSort

/-! `psync_list_sort` of `plist.c` on the nodes. The `prev` of a node is not kept while it runs, and made anew at the end.

What it does to the order is `ListSort.listSort`; here the nodes are followed. -/
namespace Pclsync.PList.Sort
open Lib.HeapProgram Lib.Rings Lib.Comparators
open Syncs
open Syncs.ListSort (mergeRuns)

/-! ### The code -/

section
variable {P : Type}

/-- What `tail` points to: `ls`, or the `next` of a node. -/
inductive Tail (P : Type) where
  | ls
  | next (p : P)

structure Cursor (P : Type) where
  ls : Option P
  tail : Tail P

/-- How the inner loop is left. -/
inductive Merged (P : Type) where
  | l1fin (c : Cursor P) (l2 : P) (l2len : ℕ)
  | l2fin (c : Cursor P) (l1 : P) (l1len : ℕ) (l2 : Option P)

variable [DecidableEq P] (cmp : P → P → ℤ)

/-- `*tail=p` -/
def Cursor.set (c : Cursor P) (p : Option P) : Program P (Links P) (Cursor P) :=
  match c.tail with
  | .ls => pure { c with ls := p }
  | .next t => do
    store t fun d => { d with next := p }
    pure c

/-- The inner `while (1)`. -/
def merge : (fuel : ℕ) → Cursor P → (l1 l2 : P) → (l1len l2len : ℕ) → Program P (Links P) (Merged P)
  | 0, _, _, _, _, _ => fun _ => none
  | fuel + 1, c, l1, l2, l1len, l2len =>
    if cmp l1 l2 ≤ 0 then do
      let c ← c.set (some l1)
      let c : Cursor P := { c with tail := .next l1 }
      if l1len - 1 = 0 then pure (.l1fin c l2 l2len)
      else
        let l1 ← deref (← load l1).next
        merge fuel c l1 l2 (l1len - 1) l2len
    else do
      let c ← c.set (some l2)
      let c : Cursor P := { c with tail := .next l2 }
      match (← load l2).next with
      | none => pure (.l2fin c l1 l1len none)
      | some l2 => if l2len - 1 = 0 then pure (.l2fin c l1 l1len (some l2)) else merge fuel c l1 l2 l1len (l2len - 1)

/-- `for (i=0; i<depth && l2; i++) l2=l2->next`, with the last `i`. -/
def skip : (depth : ℕ) → Option P → Program P (Links P) (Option P × ℕ)
  | 0, l2 => pure (l2, 0)
  | _ + 1, none => pure (none, 0)
  | depth + 1, some l2 => do
    let (l2, i) ← skip depth (← load l2).next
    pure (l2, i + 1)

/-- `for (i=0; i<l1len-1; i++) l1=l1->next` -/
def forward : ℕ → P → Program P (Links P) P
  | 0, l1 => pure l1
  | n + 1, l1 => do forward n (← deref (← load l1).next)

/-- `for (i=0; l2->next && i<l2len-1; i++) l2=l2->next` -/
def forwardWhile : ℕ → P → Program P (Links P) P
  | 0, l2 => do
    let _ ← load l2
    pure l2
  | n + 1, l2 => do
    match (← load l2).next with
    | none => pure l2
    | some l2 => forwardWhile n l2

/-- What is after the merging: the rest of the run that is not at its end, and the next `l1`. -/
def join (m : Merged P) : Program P (Links P) (Cursor P × Option P) :=
  match m with
  | .l1fin c l2 l2len => do
    let c ← c.set (some l2)
    let l2 ← forwardWhile (l2len - 1) l2
    let n ← load l2
    pure ({ c with tail := .next l2 }, n.next)
  | .l2fin c l1 l1len l2 => do
    let c ← c.set (some l1)
    let l1 ← forward (l1len - 1) l1
    pure ({ c with tail := .next l1 }, l2)

/-- `while (l1)`: the new `ls` and `cnt`. -/
def pass (depth : ℕ) : (fuel : ℕ) → Cursor P → Option P → (cnt : ℕ) → Program P (Links P) (Option P × ℕ)
  | _, c, none, cnt => do
    let c ← c.set none
    pure (c.ls, cnt)
  | 0, _, some _, _ => fun _ => none
  | fuel + 1, c, some l1, cnt => do
    let (l2, i) ← skip depth (some l1)
    match l2 with
    | none =>
      let c ← c.set (some l1)
      pure (c.ls, cnt + 1)
    | some l2 =>
      let (c, l1) ← join (← merge cmp (i + depth) c l1 l2 i depth)
      pass depth fuel c l1 (cnt + 1)

/-- The outer `while (1)`. -/
def passes (size : ℕ) : (fuel depth : ℕ) → Option P → Program P (Links P) (Option P)
  | 0, _, _ => fun _ => none
  | fuel + 1, depth, ls => do
    let (ls, cnt) ← pass cmp depth size ⟨ls, .ls⟩ ls 0
    if cnt ≤ 1 then pure ls else passes size fuel (depth * 2) ls

/-- The last loop. -/
def relink : (fuel : ℕ) → (l1 : P) → Option P → Program P (Links P) P
  | _, l1, none => pure l1
  | 0, _, some _ => fun _ => none
  | fuel + 1, l1, some ls => do
    store ls fun c => { c with prev := some l1 }
    relink fuel ls (← load ls).next

/-- `psync_list_sort`, of a list with up to `fuel` nodes. -/
def listSort (fuel : ℕ) (l : P) : Program P (Links P) Unit := do
  let head ← load l
  if head.next = some l then pure ()
  else
    let ls := head.next
    let last ← deref head.prev
    store last fun c => { c with next := none }
    let ls ← passes cmp fuel fuel 1 ls
    store l fun c => { c with next := ls }
    let last ← relink fuel l ls
    store last fun c => { c with next := some l }
    store l fun c => { c with prev := some last }

end

variable {P : Type} {cmp : P → P → ℤ} {h h' : Heap P (Links P)} {c : Cursor P} {p q : Option P} {l1 l2 t x : P}
  {done before xs r1 r2 : List P} {l1len l2len depth fuel n cnt : ℕ}

/-! ### The end of what is done -/

/-- The nodes `done` follow each other from `ls`, and `tail` is where the next one goes. -/
def Cursor.Out (h : Heap P (Links P)) (c : Cursor P) (done : List P) : Prop :=
  match c.tail with
  | .ls => done = []
  | .next t => ∃ before, done = before ++ [t] ∧ Chain h c.ls before (some t) ∧ ∃ d, h t = some d

/-- The last node of a chain is where the next one goes. -/
theorem out_of_chain {ls : Option P} (hc : Chain h ls (before ++ [t]) q) : Cursor.Out h ⟨ls, .next t⟩ (before ++ [t]) := by
  obtain ⟨q, hbefore, rfl, d, hd, -⟩ := chain_append.mp hc
  exact ⟨before, rfl, hbefore, d, hd⟩

variable [DecidableEq P]

/-- A node, or `NULL`, is put behind what is done. -/
theorem set_spec (ho : c.Out h done) (hnodup : done.Nodup) (p : Option P) :
    Does (c.set p) h fun c' h' => Chain h' c'.ls done p ∧ ∀ x ∉ done, h' x = h x := by
  obtain ⟨ls, tail⟩ := c
  rw [Cursor.set]
  cases tail with
  | ls =>
    have hdone : done = [] := ho
    rw [hdone]
    exact ⟨_, _, rfl, rfl, fun _ _ => rfl⟩
  | next t =>
    obtain ⟨before, rfl, hbefore, d, hd⟩ := ho
    simp only [does_bind, does_store, does_pure]
    have ht : t ∉ before := fun hmem => (List.nodup_append.mp hnodup).2.2 t hmem t List.mem_cons_self rfl
    refine ⟨d, hd, chain_append.mpr ⟨some t, hbefore.congr fun x hx => ?_, rfl, _, Function.update_self .., rfl⟩, fun x hx => ?_⟩
    · exact update_other fun heq => ht (heq ▸ hx)
    · exact update_other fun heq => hx (heq ▸ List.mem_append_right _ List.mem_cons_self)

/-! ### Merging -/

/-- Where the inner loop is left: what is done, then the rest of one of the runs. -/
def Merged.At (h : Heap P (Links P)) (p : Option P) (out : List P) : Merged P → Prop
  | .l1fin c l2 l2len => ∃ done r2, c.Out h done ∧ Chain h (some l2) (l2 :: r2) p ∧ r2.length < l2len ∧
    (r2.length + 1 < l2len → p = none) ∧ out = done ++ l2 :: r2
  | .l2fin c l1 l1len l2 => ∃ done r1 q, c.Out h done ∧ Chain h (some l1) (l1 :: r1) q ∧ r1.length + 1 = l1len ∧ l2 = p ∧
    out = done ++ l1 :: r1

theorem merge_spec (ho : c.Out h done) (hnodup : (done ++ (l1 :: r1 ++ l2 :: r2)).Nodup) (h1 : Chain h (some l1) (l1 :: r1) q)
    (h2 : Chain h (some l2) (l2 :: r2) p) (hlen1 : r1.length + 1 = l1len) (hlen2 : r2.length < l2len)
    (hshort : r2.length + 1 < l2len → p = none) (hfuel : r1.length + r2.length + 2 ≤ fuel) :
    Does (merge cmp fuel c l1 l2 l1len l2len) h fun m h' => m.At h' p (done ++ mergeRuns cmp (l1 :: r1) (l2 :: r2)) ∧
      ∀ x ∉ done ++ (l1 :: r1 ++ l2 :: r2), h' x = h x := by
  induction fuel generalizing h c done l1 r1 l2 r2 l1len l2len with
  | zero => omega
  | succ fuel ih =>
    obtain ⟨hdone, hruns, hapart⟩ := List.nodup_append.mp hnodup
    have hout : ∀ x ∈ l1 :: r1 ++ l2 :: r2, x ∉ done := fun x hx hmem => hapart x hmem x hx rfl
    rw [merge, mergeRuns, List.cons_merge_cons]
    by_cases hle : cmp l1 l2 ≤ 0
    · rw [if_pos hle, if_pos (decide_eq_true hle)]
      simp only [does_bind]
      refine (set_spec ho hdone (some l1)).mono fun c' h' hset => ?_
      obtain ⟨hchain, hframe⟩ := hset
      have h1' := h1.congr fun x hx => hframe x (hout x (List.mem_append_left _ hx))
      have h2' := h2.congr fun x hx => hframe x (hout x (List.mem_append_right _ hx))
      obtain ⟨-, d, hd, hr1⟩ := h1'
      have ho' : Cursor.Out h' ⟨c'.ls, .next l1⟩ (done ++ [l1]) := ⟨done, rfl, hchain, d, hd⟩
      have hsplit : ∀ ys : List P, done ++ l1 :: ys = done ++ [l1] ++ ys := fun ys => by rw [List.append_assoc, List.singleton_append]
      by_cases hend : l1len - 1 = 0
      · obtain rfl : r1 = [] := List.length_eq_zero_iff.mp (by omega)
        rw [if_pos hend, does_pure, List.nil_merge]
        refine ⟨⟨done ++ [l1], r2, ho', h2', hlen2, hshort, hsplit _⟩, fun x hx => hframe x fun hmem => hx (List.mem_append_left _ hmem)⟩
      · cases r1 with
        | nil => exact absurd hlen1 (by simp only [List.length_nil]; omega)
        | cons l1' r1 =>
          obtain ⟨hnext, d', hd', hr1'⟩ := hr1
          rw [if_neg hend]
          simp only [does_bind, does_load, hd, Option.some.injEq, exists_eq_left', hnext, does_deref_some]
          rw [List.cons_append, hsplit] at hnodup
          simp only [List.length_cons] at hlen1 hfuel
          refine (ih ho' hnodup ⟨rfl, d', hd', hr1'⟩ h2' (by omega) hlen2 hshort (by omega)).mono fun m h'' hm => ?_
          obtain ⟨hat, hframe'⟩ := hm
          refine ⟨?_, fun x hx => ?_⟩
          · rw [hsplit]
            exact hat
          · rw [List.cons_append, hsplit] at hx
            rw [hframe' x hx, hframe x fun hmem => hx (List.mem_append_left _ (List.mem_append_left _ hmem))]
    · rw [if_neg hle, if_neg fun h => hle (of_decide_eq_true h)]
      simp only [does_bind]
      refine (set_spec ho hdone (some l2)).mono fun c' h' hset => ?_
      obtain ⟨hchain, hframe⟩ := hset
      have h1' := h1.congr fun x hx => hframe x (hout x (List.mem_append_left _ hx))
      have h2' := h2.congr fun x hx => hframe x (hout x (List.mem_append_right _ hx))
      obtain ⟨-, d, hd, hr2⟩ := h2'
      have ho' : Cursor.Out h' ⟨c'.ls, .next l2⟩ (done ++ [l2]) := ⟨done, rfl, hchain, d, hd⟩
      have hsplit : ∀ ys : List P, done ++ l2 :: ys = done ++ [l2] ++ ys := fun ys => by rw [List.append_assoc, List.singleton_append]
      simp only [does_load, hd, Option.some.injEq, exists_eq_left']
      cases r2 with
      | nil =>
        have hnext : d.next = p := hr2
        have hat : (Merged.l2fin ⟨c'.ls, .next l2⟩ l1 l1len p).At h' p (done ++ l2 :: (l1 :: r1).merge [] fun a b => decide (cmp a b ≤ 0)) := by
          refine ⟨done ++ [l2], r1, q, ho', h1', hlen1, rfl, ?_⟩
          rw [List.merge_right, hsplit]
        have hframe' : ∀ x ∉ done ++ (l1 :: r1 ++ [l2]), h' x = h x := fun x hx => hframe x fun hmem => hx (List.mem_append_left _ hmem)
        rw [hnext]
        cases p with
        | none => exact ⟨_, _, rfl, hat, hframe'⟩
        | some l2' =>
          have hend : l2len - 1 = 0 := by
            by_contra hne
            cases hshort (by simp only [List.length_nil]; omega)
          dsimp only
          rw [if_pos hend]
          exact ⟨_, _, rfl, hat, hframe'⟩
      | cons l2' r2 =>
        obtain ⟨hnext, d', hd', hr2'⟩ := hr2
        simp only [List.length_cons] at hlen2 hshort hfuel
        rw [hnext]
        dsimp only
        rw [if_neg (by omega)]
        have hperm : (done ++ (l1 :: r1 ++ l2 :: l2' :: r2)).Perm (done ++ [l2] ++ (l1 :: r1 ++ l2' :: r2)) := by
          rw [← hsplit]
          exact List.perm_middle.append_left done
        refine (ih ho' (hperm.nodup_iff.mp hnodup) h1' ⟨rfl, d', hd', hr2'⟩ hlen1 (by omega) (fun hlt => hshort (by omega))
          (by omega)).mono fun m h'' hm => ?_
        obtain ⟨hat, hframe'⟩ := hm
        refine ⟨?_, fun x hx => ?_⟩
        · rw [hsplit]
          exact hat
        · rw [hperm.mem_iff] at hx
          rw [hframe' x hx, hframe x fun hmem => hx (List.mem_append_left _ (List.mem_append_left _ hmem))]

/-! ### Passes -/

omit [DecidableEq P] in
theorem skip_spec (hc : Chain h p xs none) :
    Does (skip depth p) h fun r h' => h' = h ∧ r = ((xs.drop depth).head?, min depth xs.length) := by
  induction depth generalizing p xs with
  | zero =>
    cases xs with
    | nil =>
      obtain rfl : p = none := hc
      exact ⟨_, _, rfl, rfl, rfl⟩
    | cons x xs =>
      obtain ⟨rfl, -⟩ := hc
      exact ⟨_, _, rfl, rfl, by rw [Nat.zero_min]; rfl⟩
  | succ depth ih =>
    cases xs with
    | nil =>
      obtain rfl : p = none := hc
      exact ⟨_, _, rfl, rfl, rfl⟩
    | cons x xs =>
      obtain ⟨rfl, d, hd, hrest⟩ := hc
      simp only [skip, does_bind, does_load, hd, Option.some.injEq, exists_eq_left']
      refine (ih hrest).mono fun r h' hr => ?_
      obtain ⟨rfl, rfl⟩ := hr
      refine ⟨_, _, rfl, rfl, ?_⟩
      rw [List.drop_succ_cons, List.length_cons, Nat.succ_min_succ]

omit [DecidableEq P] in
theorem forward_spec (hc : Chain h (some l1) (l1 :: r1) q) : Does (forward r1.length l1) h fun t h' => h' = h ∧ ∃ before, l1 :: r1 = before ++ [t] := by
  induction r1 generalizing l1 with
  | nil => exact ⟨_, _, rfl, rfl, [], rfl⟩
  | cons x r1 ih =>
    obtain ⟨-, d, hd, hnext, hrest⟩ := hc
    simp only [List.length_cons, forward, does_bind, does_load, hd, Option.some.injEq, exists_eq_left', hnext, does_deref_some]
    refine (ih ⟨rfl, hrest⟩).mono fun t h' ht => ?_
    obtain ⟨rfl, before, hbefore⟩ := ht
    exact ⟨rfl, l1 :: before, by rw [hbefore, List.cons_append]⟩

omit [DecidableEq P] in
/-- A short run ends with `NULL`. -/
theorem forwardWhile_spec (hc : Chain h (some l2) (l2 :: r2) p) (hlen : r2.length ≤ n) (hshort : r2.length < n → p = none) :
    Does (forwardWhile n l2) h fun t h' => h' = h ∧ ∃ before, l2 :: r2 = before ++ [t] := by
  induction n generalizing l2 r2 with
  | zero =>
    obtain rfl := List.length_eq_zero_iff.mp (Nat.le_zero.mp hlen)
    obtain ⟨-, d, hd, -⟩ := hc
    simp only [forwardWhile, does_bind, does_load, does_pure]
    exact ⟨d, hd, trivial, [], rfl⟩
  | succ n ih =>
    obtain ⟨-, d, hd, hrest⟩ := hc
    simp only [forwardWhile, does_bind, does_load, hd, Option.some.injEq, exists_eq_left']
    cases r2 with
    | nil =>
      have hnext : d.next = none := Eq.trans hrest (hshort (Nat.succ_pos n))
      rw [hnext]
      exact ⟨_, _, rfl, rfl, [], rfl⟩
    | cons x r2 =>
      obtain ⟨hnext, hrest⟩ := hrest
      rw [hnext]
      simp only [List.length_cons] at hlen hshort
      refine (ih ⟨rfl, hrest⟩ (by omega) fun hlt => hshort (by omega)).mono fun t h' ht => ?_
      obtain ⟨rfl, before, hbefore⟩ := ht
      exact ⟨rfl, l2 :: before, by rw [hbefore, List.cons_append]⟩

/-- After the merging the pass goes on behind both runs. -/
theorem join_spec {m : Merged P} {out : List P} (hm : m.At h p out) (hnodup : out.Nodup) :
    Does (join m) h fun r h' => r.1.Out h' out ∧ r.2 = p ∧ ∀ x ∉ out, h' x = h x := by
  cases m with
  | l1fin c l2 l2len =>
    obtain ⟨done, r2, ho, h2, hlen, hshort, rfl⟩ := hm
    obtain ⟨hdone, -, hapart⟩ := List.nodup_append.mp hnodup
    simp only [join, does_bind]
    refine (set_spec ho hdone (some l2)).mono fun c' h' hset => ?_
    obtain ⟨hchain, hframe⟩ := hset
    have h2' := h2.congr fun x hx => hframe x fun hmem => hapart x hmem x hx rfl
    refine (forwardWhile_spec h2' (by omega) fun hlt => hshort (by omega)).mono fun t h'' ht => ?_
    obtain ⟨rfl, before, hbefore⟩ := ht
    have hwhole := chain_append.mpr ⟨_, hchain, h2'⟩
    rw [hbefore, ← List.append_assoc] at hwhole ⊢
    obtain ⟨_, -, rfl, d, hd, hnext⟩ := chain_append.mp hwhole
    simp only [does_load, does_pure]
    exact ⟨d, hd, out_of_chain hwhole, hnext, fun x hx => hframe x fun hmem => hx (List.mem_append_left _ (List.mem_append_left _ hmem))⟩
  | l2fin c l1 l1len l2 =>
    obtain ⟨done, r1, q, ho, h1, rfl, rfl, rfl⟩ := hm
    obtain ⟨hdone, -, hapart⟩ := List.nodup_append.mp hnodup
    simp only [join, does_bind]
    refine (set_spec ho hdone (some l1)).mono fun c' h' hset => ?_
    obtain ⟨hchain, hframe⟩ := hset
    have h1' := h1.congr fun x hx => hframe x fun hmem => hapart x hmem x hx rfl
    rw [Nat.add_sub_cancel]
    refine (forward_spec h1').mono fun t h'' ht => ?_
    obtain ⟨rfl, before, hbefore⟩ := ht
    have hwhole := chain_append.mpr ⟨_, hchain, h1'⟩
    rw [hbefore, ← List.append_assoc] at hwhole ⊢
    exact ⟨_, _, rfl, out_of_chain hwhole, rfl, fun x hx => hframe x fun hmem => hx (List.mem_append_left _ (List.mem_append_left _ hmem))⟩

/-- A pass leaves what is done, and behind it the nodes as `ListSort.pass` orders them. -/
theorem pass_spec (hdepth : 0 < depth) (ho : c.Out h done) (hnodup : (done ++ xs).Nodup) (hxs : Chain h p xs none) (hfuel : xs.length ≤ fuel) :
    Does (pass cmp depth fuel c p cnt) h fun r h' => Chain h' r.1 (done ++ (ListSort.pass cmp depth fuel xs).1) none ∧
      r.2 = cnt + (ListSort.pass cmp depth fuel xs).2 ∧ ∀ x ∉ done ++ xs, h' x = h x := by
  induction fuel generalizing h c done p xs cnt with
  | zero =>
    obtain rfl := List.length_eq_zero_iff.mp (Nat.le_zero.mp hfuel)
    obtain rfl : p = none := hxs
    rw [pass, ListSort.pass]
    simp only [List.append_nil, does_bind, does_pure] at hnodup ⊢
    refine (set_spec ho hnodup none).mono fun c' h' hset => ⟨hset.1, rfl, hset.2⟩
  | succ fuel ih =>
    cases xs with
    | nil =>
      obtain rfl : p = none := hxs
      rw [pass, ListSort.pass_nil]
      simp only [List.append_nil, does_bind, does_pure] at hnodup ⊢
      refine (set_spec ho hnodup none).mono fun c' h' hset => ⟨hset.1, rfl, hset.2⟩
    | cons l1 r1 =>
      obtain ⟨rfl, hl1⟩ := hxs
      have hxs : Chain h (some l1) (l1 :: r1) none := ⟨rfl, hl1⟩
      obtain ⟨hdone, hrun, hapart⟩ := List.nodup_append.mp hnodup
      rw [pass]
      simp only [does_bind]
      refine (skip_spec hxs).mono fun r h' hr => ?_
      obtain ⟨rfl, rfl⟩ := hr
      dsimp only
      cases hdrop : (l1 :: r1).drop depth with
      | nil =>
        rw [List.head?_nil, ListSort.pass, hdrop]
        simp only [does_bind, does_pure, if_neg (List.cons_ne_nil l1 r1), if_true]
        refine (set_spec ho hdone (some l1)).mono fun c' h' hset => ?_
        obtain ⟨hchain, hframe⟩ := hset
        refine ⟨chain_append.mpr ⟨_, hchain, hxs.congr fun x hx => hframe x fun hmem => hapart x hmem x hx rfl⟩, trivial, fun x hx => ?_⟩
        exact hframe x fun hmem => hx (List.mem_append_left _ hmem)
      | cons l2 r2 =>
        have hlong : depth < (l1 :: r1).length := by
          by_contra hle
          rw [List.drop_eq_nil_of_le (not_lt.mp hle)] at hdrop
          cases hdrop
        obtain ⟨depth, rfl⟩ : ∃ d, depth = d + 1 := ⟨depth - 1, by omega⟩
        rw [List.head?_cons, Nat.min_eq_left hlong.le]
        have hsplit : l1 :: r1 = l1 :: r1.take depth ++ (l2 :: r2.take depth ++ r2.drop depth) := by
          rw [List.cons_append (a := l2), List.take_append_drop, ← hdrop, List.drop_succ_cons, List.cons_append, List.take_append_drop]
        have hpassed : ListSort.pass cmp (depth + 1) (fuel + 1) (l1 :: r1) =
            (mergeRuns cmp (l1 :: r1.take depth) (l2 :: r2.take depth) ++ (ListSort.pass cmp (depth + 1) fuel (r2.drop depth)).1,
              (ListSort.pass cmp (depth + 1) fuel (r2.drop depth)).2 + 1) := by
          rw [ListSort.pass, hdrop]
          exact (if_neg (List.cons_ne_nil l1 r1)).trans (if_neg (List.cons_ne_nil l2 r2))
        have hperm : (mergeRuns cmp (l1 :: r1.take depth) (l2 :: r2.take depth)).Perm (l1 :: r1.take depth ++ l2 :: r2.take depth) :=
          ListSort.mergeRuns_perm
        have hwhole : (done ++ mergeRuns cmp (l1 :: r1.take depth) (l2 :: r2.take depth) ++ r2.drop depth).Perm (done ++ l1 :: r1) := by
          rw [hsplit, List.append_assoc, ← List.append_assoc (l1 :: r1.take depth)]
          exact (hperm.append_right _).append_left done
        have hnodup' := hwhole.nodup_iff.mpr hnodup
        obtain ⟨hrest, hlen1, hlen2⟩ : (r2.drop depth).length ≤ fuel ∧ (r1.take depth).length + 1 = depth + 1 ∧
            (r2.take depth).length < depth + 1 := by
          simp only [List.length_cons, List.length_drop, List.length_take] at hlong hfuel ⊢
          have hr2 := congrArg List.length hdrop
          simp only [List.length_drop, List.length_cons] at hr2
          omega
        rw [hsplit] at hxs hnodup
        obtain ⟨q, h1, hback⟩ := chain_append.mp hxs
        obtain ⟨p, h2, h3⟩ := chain_append.mp hback
        obtain rfl : q = some l2 := h2.1
        have hshort : (r2.take depth).length + 1 < depth + 1 → p = none := fun hlt => by
          rw [List.length_take] at hlt
          rw [List.drop_eq_nil_of_le (by omega)] at h3
          exact h3
        have hsub : (done ++ (l1 :: r1.take depth ++ l2 :: r2.take depth)).Sublist
            (done ++ (l1 :: r1.take depth ++ (l2 :: r2.take depth ++ r2.drop depth))) := by
          rw [← List.append_assoc (l1 :: r1.take depth)]
          exact (List.sublist_append_left _ _).append_left done
        rw [hpassed]
        simp only [does_bind]
        refine (@merge_spec _ _ _ _ _ _ _ _ _ _ _ _ _ (depth + 1 + (depth + 1)) _ ho (hnodup.sublist hsub) h1 h2 hlen1 hlen2 hshort (by omega)).mono
          fun m h' hm => ?_
        obtain ⟨hat, hframe⟩ := hm
        obtain ⟨-, -, hapart'⟩ := List.nodup_append.mp hnodup'
        refine (join_spec hat (hnodup'.sublist (List.sublist_append_left _ _))).mono fun r h'' hjoined => ?_
        obtain ⟨ho', rfl, hframe'⟩ := hjoined
        have hunused : ∀ x ∈ r2.drop depth, x ∉ done ++ mergeRuns cmp (l1 :: r1.take depth) (l2 :: r2.take depth) :=
          fun x hx hmem => hapart' x hmem x hx rfl
        have hboth : ∀ x, x ∈ done ++ mergeRuns cmp (l1 :: r1.take depth) (l2 :: r2.take depth) ↔
            x ∈ done ++ (l1 :: r1.take depth ++ l2 :: r2.take depth) := fun x => (hperm.append_left done).mem_iff
        have h3' := h3.congr fun x hx => (hframe' x (hunused x hx)).trans (hframe x ((hboth x).not.mp (hunused x hx)))
        refine (ih ho' hnodup' h3' hrest).mono fun s h''' hs => ?_
        obtain ⟨hchain, hcnt, hframe''⟩ := hs
        refine ⟨?_, ?_, fun x hx => ?_⟩
        · rw [← List.append_assoc]
          exact hchain
        · omega
        · have hout : x ∉ done ++ mergeRuns cmp (l1 :: r1.take depth) (l2 :: r2.take depth) ++ r2.drop depth := hwhole.mem_iff.not.mpr hx
          have hout' : x ∉ done ++ mergeRuns cmp (l1 :: r1.take depth) (l2 :: r2.take depth) :=
            fun hmem => hout (List.mem_append_left _ hmem)
          rw [hframe'' x hout, hframe' x hout', hframe x ((hboth x).not.mp hout')]

/-- The passes end, with the nodes as `ListSort.sortFrom` orders them. -/
theorem passes_spec {size : ℕ} {l : List P} (hcmp : Consistent cmp l) (hsub : xs ⊆ l) (hdepth : 0 < depth) (hn : 0 < n) (hfuel : n ≤ fuel)
    (hsize : xs.length ≤ size) (hruns : ListSort.Runs cmp depth xs n) (hnodup : xs.Nodup) (hxs : Chain h p xs none) :
    Does (passes cmp size fuel depth p) h fun p' h' => Chain h' p' (ListSort.sortFrom cmp fuel depth xs) none ∧ ∀ x ∉ xs, h' x = h x := by
  induction fuel generalizing h p depth xs n with
  | zero => omega
  | succ fuel ih =>
    obtain ⟨hpassed, hcnt⟩ := ListSort.runs_pass hcmp hdepth le_rfl hsub hruns
    have hperm : (ListSort.pass cmp depth xs.length xs).1.Perm xs := ListSort.pass_perm
    rw [passes, ListSort.sortFrom]
    simp only [does_bind]
    have ho : Cursor.Out h ⟨p, .ls⟩ [] := rfl
    refine (pass_spec hdepth ho hnodup hxs hsize).mono fun r h' hr => ?_
    obtain ⟨hchain, hr, hframe⟩ := hr
    rw [ListSort.pass_fuel hdepth hsize le_rfl, List.nil_append] at hchain
    rw [ListSort.pass_fuel hdepth hsize le_rfl, Nat.zero_add] at hr
    rw [List.nil_append] at hframe
    rw [hr]
    split_ifs with hone
    · exact does_pure.mpr ⟨hchain, hframe⟩
    · rw [hcnt] at hone
      have hmem : ∀ x, x ∈ (ListSort.pass cmp depth xs.length xs).1 ↔ x ∈ xs := fun x => hperm.mem_iff
      refine (ih (fun x hx => hsub ((hmem x).mp hx)) (by omega) (by omega) (by omega) (hperm.length_eq.trans_le hsize) hpassed
        (hperm.nodup_iff.mpr hnodup) hchain).mono fun p' h'' hp' => ?_
      obtain ⟨hsorted, hframe'⟩ := hp'
      refine ⟨hsorted, fun x hx => ?_⟩
      rw [hframe' x ((hmem x).not.mpr hx), hframe x hx]

/-! ### The links back -/

/-- Each node gets the one before as its `prev`. -/
theorem relink_spec (hused : ∃ d, h t = some d ∧ d.next = p) (hnodup : (t :: (before ++ [x])).Nodup) (hxs : Chain h p (before ++ [x]) none)
    (hfuel : before.length < fuel) :
    Does (relink fuel t p) h fun last h' => last = x ∧ Segment h' t before x ∧ ∀ y ∉ before ++ [x], h' y = h y := by
  induction before generalizing h t p fuel with
  | nil =>
    obtain ⟨fuel, rfl⟩ : ∃ n, fuel = n + 1 := ⟨fuel - 1, by omega⟩
    obtain ⟨rfl, c, hc, hnext⟩ := hxs
    obtain ⟨d, hd, hdnext⟩ := hused
    have hne : t ≠ x := List.ne_of_not_mem_cons (List.nodup_cons.mp hnodup).1
    have hcnext : c.next = none := hnext
    simp only [relink, does_bind, does_store, does_load]
    refine ⟨c, hc, _, Function.update_self .., ?_⟩
    rw [hcnext, relink.eq_1, does_pure]
    refine ⟨rfl, ⟨⟨d, ?_, hdnext⟩, _, Function.update_self .., rfl⟩, fun y hy => update_other fun heq => hy (heq ▸ List.mem_cons_self)⟩
    rw [update_other hne, hd]
  | cons y before ih =>
    obtain ⟨fuel, rfl⟩ : ∃ n, fuel = n + 1 := ⟨fuel - 1, by omega⟩
    obtain ⟨rfl, c, hc, hrest⟩ := hxs
    obtain ⟨d, hd, hdnext⟩ := hused
    obtain ⟨ht, hnodup⟩ := List.nodup_cons.mp hnodup
    have hy := (List.nodup_cons.mp hnodup).1
    have hne : t ≠ y := List.ne_of_not_mem_cons ht
    simp only [relink, does_bind, does_store, does_load]
    refine ⟨c, hc, _, Function.update_self .., ?_⟩
    have hrest' : Chain (Function.update h y (some { c with prev := some t })) c.next (before ++ [x]) none :=
      hrest.congr fun z hz => update_other fun heq => hy (heq ▸ hz)
    refine (ih ⟨_, Function.update_self .., rfl⟩ hnodup hrest' (by simp only [List.length_cons] at hfuel; omega)).mono fun last h' hlast => ?_
    obtain ⟨rfl, hsegment, hframe⟩ := hlast
    refine ⟨rfl, ⟨⟨⟨d, ?_, hdnext⟩, { c with prev := some t }, ?_, rfl⟩, hsegment⟩, fun z hz => ?_⟩
    · rw [hframe t fun hmem => ht (List.mem_cons_of_mem y hmem), update_other hne, hd]
    · rw [hframe y hy, Function.update_self]
    · have hzy : z ≠ y := List.ne_of_not_mem_cons hz
      rw [hframe z fun hmem => hz (List.mem_cons_of_mem y hmem), update_other hzy]

/-! ### The whole sort -/

/-- The nodes come out as `ListSort.listSort` orders them, in a ring. -/
theorem does_listSort {l : P} (hcmp : Consistent cmp xs) (hring : Ring h l xs) (hfuel : xs.length ≤ fuel) :
    Does (listSort cmp fuel l) h fun _ h' => Ring h' l (ListSort.listSort cmp xs) ∧ ∀ x ∉ l :: xs, h' x = h x := by
  rw [listSort, ListSort.listSort]
  obtain ⟨hsegment, hnodup⟩ := id hring
  rcases List.eq_nil_or_concat xs with rfl | ⟨zs, z, rfl⟩
  · obtain ⟨⟨c, hc, hnext⟩, -⟩ := hsegment
    simp only [does_bind, does_load, hc, Option.some.injEq, exists_eq_left', hnext, if_true, does_pure]
    exact ⟨hring, fun x _ => trivial⟩
  · rw [List.concat_eq_append] at hsegment hnodup hfuel hcmp ⊢
    obtain ⟨hl, hzs⟩ := List.nodup_cons.mp hnodup
    obtain ⟨head, hhead, hchain⟩ := hsegment.chain
    obtain ⟨⟨d, hz, hznext⟩, head', hhead', hprev⟩ := (segment_append.mp hsegment).2
    obtain rfl : head' = head := Option.some.inj (hhead'.symm.trans hhead)
    have hne : head'.next ≠ some l := by
      cases zs with
      | nil => exact fun heq => hl (Option.some.inj (heq.symm.trans hchain.1) ▸ List.mem_cons_self)
      | cons y zs => exact fun heq => hl (Option.some.inj (heq.symm.trans hchain.1) ▸ List.mem_cons_self)
    rw [if_neg (by simp)]
    simp only [does_bind, does_load, hhead, Option.some.injEq, exists_eq_left', if_neg hne, hprev, does_deref_some, does_store]
    refine ⟨d, hz, ?_⟩
    obtain ⟨q, hzchain, rfl, -⟩ := chain_append.mp hchain
    have hzout : z ∉ zs := fun hmem => (List.nodup_append.mp hzs).2.2 z hmem z List.mem_cons_self rfl
    have hcut : Chain (Function.update h z (some { d with next := none })) head'.next (zs ++ [z]) none :=
      chain_append.mpr ⟨_, hzchain.congr fun x hx => update_other fun heq => hzout (heq ▸ hx), rfl, _, Function.update_self .., rfl⟩
    have hpos : 0 < (zs ++ [z]).length := by simp
    have hlz : l ≠ z := fun heq => hl (heq ▸ List.mem_append_right zs List.mem_cons_self)
    refine (passes_spec hcmp (fun _ hx => hx) Nat.one_pos hpos hfuel hfuel ListSort.runs_singles hzs hcut).mono fun ls h' hls => ?_
    obtain ⟨hsorted, hframe⟩ := hls
    rw [ListSort.sortFrom_fuel hcmp Nat.one_pos hfuel le_rfl hpos (fun _ hx => hx) ListSort.runs_singles] at hsorted
    have hperm : (ListSort.sortFrom cmp (zs ++ [z]).length 1 (zs ++ [z])).Perm (zs ++ [z]) := ListSort.sortFrom_perm
    generalize ListSort.sortFrom cmp (zs ++ [z]).length 1 (zs ++ [z]) = ys at hsorted hperm ⊢
    have hys : (l :: ys).Nodup := (hperm.cons l).nodup_iff.mpr hnodup
    have hlen : ys.length ≤ fuel := hperm.length_eq.trans_le hfuel
    have hmem : ∀ x, x ∈ ys ↔ x ∈ zs ++ [z] := fun x => hperm.mem_iff
    have hne' : ys ≠ [] := fun heq => by
      rw [heq] at hperm
      exact List.append_ne_nil_of_right_ne_nil zs (List.cons_ne_nil z []) hperm.nil_eq.symm
    obtain ⟨before, x, rfl⟩ := (List.eq_nil_or_concat ys).resolve_left hne'
    rw [List.concat_eq_append] at hsorted hys hlen hmem ⊢
    have hl' : h' l = some head' := by rw [hframe l hl, update_other hlz, hhead]
    refine ⟨head', hl', ?_⟩
    have hlout := (List.nodup_cons.mp hys).1
    have hsorted' : Chain (Function.update h' l (some { head' with next := ls })) ls (before ++ [x]) none :=
      hsorted.congr fun y hy => update_other fun heq => hlout (heq ▸ hy)
    rw [List.length_append] at hlen
    refine (relink_spec ⟨_, Function.update_self .., rfl⟩ hys hsorted' (Nat.lt_of_succ_le hlen)).mono fun last h'' hlast => ?_
    obtain ⟨rfl, hback, hframe'⟩ := hlast
    obtain ⟨-, c, hlast, hlastprev⟩ := hback.linked_last
    have hll : l ≠ last := fun heq => hlout (heq ▸ List.mem_append_right before List.mem_cons_self)
    have hlast' : last ∉ l :: before := fun hmem => (List.nodup_append.mp hys).2.2 last hmem last List.mem_cons_self rfl
    have hl'' : h'' l = some { head' with next := ls } := by rw [hframe' l hlout, Function.update_self]
    refine ⟨c, hlast, { head' with next := ls }, by rw [update_other hll, hl''], ⟨segment_append.mpr ⟨?_, ?_⟩, hys⟩, fun y hy => ?_⟩
    · refine hback.congr (fun y hy b hb => ?_) fun y hy b hb => ?_
      · by_cases hyl : y = l
        · subst hyl
          rw [hl''] at hb
          cases hb
          exact ⟨_, Function.update_self .., rfl⟩
        · have hylast : y ≠ last := fun heq => hlast' (heq ▸ hy)
          refine ⟨b, ?_, rfl⟩
          rw [update_other hyl, update_other hylast, hb]
      · have hyl : y ≠ l := fun heq => hlout (heq ▸ hy)
        by_cases hylast : y = last
        · subst hylast
          rw [hlast] at hb
          cases hb
          exact ⟨{ c with next := some l }, by rw [update_other hyl, Function.update_self], rfl⟩
        · refine ⟨b, ?_, rfl⟩
          rw [update_other hyl, update_other hylast, hb]
    · exact ⟨⟨{ c with next := some l }, by rw [update_other hll.symm, Function.update_self], rfl⟩, _, Function.update_self .., rfl⟩
    · have hyl : y ≠ l := List.ne_of_not_mem_cons hy
      have hyxs := List.not_mem_of_not_mem_cons hy
      have hyz : y ≠ z := fun heq => hyxs (heq ▸ List.mem_append_right zs List.mem_cons_self)
      have hyout := (hmem y).not.mpr hyxs
      have hylast : y ≠ last := fun heq => hyout (heq ▸ List.mem_append_right before List.mem_cons_self)
      rw [update_other hyl, update_other hylast, hframe' y hyout, update_other hyl, hframe y hyxs, update_other hyz]

/-- `psync_list_sort` is a stable sort. -/
theorem listSort_stable {l : P} (hcmp : Consistent cmp xs) (hring : Ring h l xs) (hfuel : xs.length ≤ fuel) :
    Does (listSort cmp fuel l) h fun _ h' => ∃ ys, Ring h' l ys ∧ ys.Perm xs ∧ ys.Pairwise (fun a b => cmp a b ≤ 0) ∧
      (∀ a ∈ xs, ListSort.equals cmp a ys = ListSort.equals cmp a xs) ∧ ∀ x ∉ l :: xs, h' x = h x := by
  refine (does_listSort hcmp hring hfuel).mono fun _ h' hsorted => ?_
  obtain ⟨hring', hframe⟩ := hsorted
  refine ⟨_, hring', ListSort.listSort_perm, ListSort.listSort_sorts.sorted cmp xs hcmp, fun a ha => ?_, hframe⟩
  exact ListSort.equals_listSort hcmp ha

/-- A ring of three nodes. -/
def three : Heap ℕ (Links ℕ)
  | 0 => some ⟨some 1, some 3⟩
  | 1 => some ⟨some 2, some 0⟩
  | 2 => some ⟨some 3, some 1⟩
  | 3 => some ⟨some 0, some 2⟩
  | _ => none

/-- Odd nodes are before even ones. -/
def oddFirst (a b : ℕ) : ℤ := (b % 2 : ℤ) - a % 2

theorem listSort_stable_three : Does (listSort oddFirst 3 0) three fun _ h' =>
    ∃ ys, Ring h' 0 ys ∧ ys.Perm [1, 2, 3] ∧ ys.Pairwise (fun a b => oddFirst a b ≤ 0) ∧
      (∀ a ∈ [1, 2, 3], ListSort.equals oddFirst a ys = ListSort.equals oddFirst a [1, 2, 3]) ∧ ∀ x ∉ [0, 1, 2, 3], h' x = three x := by
  have hsegment : Segment three 0 [1, 2, 3] 0 :=
    ⟨⟨⟨_, rfl, rfl⟩, _, rfl, rfl⟩, ⟨⟨_, rfl, rfl⟩, _, rfl, rfl⟩, ⟨⟨_, rfl, rfl⟩, _, rfl, rfl⟩, ⟨_, rfl, rfl⟩, _, rfl, rfl⟩
  exact listSort_stable ⟨by decide, by decide⟩ ⟨hsegment, by decide⟩ le_rfl

end Pclsync.PList.Sort
