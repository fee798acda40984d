import Pclsync.Lib.Intervals
import Pclsync.IntervalTree.Nodes
import Pclsync.PTree.Deletion

/-! The intervals of a tree in the heap, as a list of pointers and their ends.

What the functions of the tree of nodes do is said here once for the cells around the
nodes. They keep the ends of every interval. -/
namespace Pclsync.IntervalTree
open Lib.BinaryTree Lib.HeapProgram

abbrev IntervalHeap (P : Type) := Heap P (Interval P)

variable {P : Type} {h h' : IntervalHeap P}

def trees (h : IntervalHeap P) : PTree.NodeHeap P := parts Interval.tree h

def Interval.ends (c : Interval P) : ℕ × ℕ := (c.from_, c.to_)

/-- The interval at a pointer. -/
def ends (h : IntervalHeap P) (p : P) : ℕ × ℕ := ((h p).map Interval.ends).getD (0, 0)

/-- The heap holds a balanced tree with these nodes, in order. -/
def Keeps (h : IntervalHeap P) (tree : Option P) (list : List P) : Prop := PTree.Leaves list tree (trees h)

/-- No interval got other ends. -/
def SameEnds (h h' : IntervalHeap P) : Prop := ∀ q, (h' q).map Interval.ends = (h q).map Interval.ends

theorem ends_of {p : P} {c : Interval P} (hp : h p = some c) : ends h p = (c.from_, c.to_) := by
  rw [ends, hp]
  rfl

theorem SameEnds.ends_eq (hs : SameEnds h h') : ends h' = ends h := by
  funext p
  rw [ends, ends, hs p]

theorem SameEnds.used (hs : SameEnds h h') {p : P} {c : Interval P} (hp : h p = some c) :
    ∃ c', h' p = some c' ∧ c'.from_ = c.from_ ∧ c'.to_ = c.to_ := by
  have hmap := hs p
  rw [hp, Option.map_some, Option.map_eq_some_iff] at hmap
  obtain ⟨c', hp', hends⟩ := hmap
  exact ⟨c', hp', congrArg Prod.fst hends, congrArg Prod.snd hends⟩

theorem SameEnds.unused (hs : SameEnds h h') {p : P} (hp : h p = none) : h' p = none := by
  have hmap := hs p
  rwa [hp, Option.map_none, Option.map_eq_none_iff] at hmap

theorem trees_of {p : P} {c : Interval P} (hp : h p = some c) : trees h p = some c.tree := by
  rw [trees, parts, hp, Option.map_some]

/-! ### What a tree needs of the heap -/

namespace Keeps
variable {tree : Option P} {list : List P} {p : P} {c : Interval P}

theorem used (hk : Keeps h tree list) (hp : p ∈ list) : ∃ c, h p = some c := by
  obtain ⟨t, ht, rfl⟩ := hk
  obtain ⟨n, hn⟩ := ht.holds.links.used hp
  obtain ⟨c, hc, -⟩ := Option.map_eq_some_iff.mp hn
  exact ⟨c, hc⟩

theorem nodup (hk : Keeps h tree list) : list.Nodup := by
  obtain ⟨t, ht, rfl⟩ := hk
  exact ht.nodup

theorem frame (hk : Keeps h tree list) (hsame : ∀ q ∈ list, trees h' q = trees h q) : Keeps h' tree list := by
  obtain ⟨t, ht, rfl⟩ := hk
  exact ⟨t, ht.frame hsame, rfl⟩

theorem elsewhere [DecidableEq P] (hk : Keeps h tree list) (hp : p ∉ list) (c : Option (Interval P)) :
    Keeps (Function.update h p c) tree list :=
  hk.frame fun q hq => by rw [trees, trees, parts, parts, update_other (ne_of_mem_of_not_mem hq hp)]

theorem unused (hk : Keeps h tree list) (hp : h p = none) : p ∉ list := fun hmem => by
  obtain ⟨c, hc⟩ := hk.used hmem
  cases hp.symm.trans hc

/-- Another interval at a node. -/
theorem store [DecidableEq P] (hk : Keeps h tree list) (hp : h p = some c) (c' : Interval P) (hc : c'.tree = c.tree) :
    Keeps (Function.update h p (some c')) tree list := by
  refine hk.frame fun q _ => ?_
  by_cases hq : q = p
  · subst hq
    rw [trees_of hp, trees_of (Function.update_self ..), hc]
  · rw [trees, trees, parts, parts, update_other hq]

theorem root_isSome (hk : Keeps h tree list) (hp : p ∈ list) : ∃ root, tree = some root := by
  obtain ⟨t, ht, rfl⟩ := hk
  cases tree with
  | none =>
    rw [PTree.root_eq_none ht.root] at hp
    cases hp
  | some root => exact ⟨root, rfl⟩

end Keeps

/-- The ends of the intervals of a list, where one interval got other ends. -/
theorem map_ends_update [DecidableEq P] {xs ys : List P} {p : P} {c : Interval P} (hnodup : (xs ++ p :: ys).Nodup) :
    (xs ++ p :: ys).map (ends (Function.update h p (some c))) =
      xs.map (ends h) ++ (c.from_, c.to_) :: ys.map (ends h) := by
  obtain ⟨hp, -⟩ := List.nodup_cons.mp (List.nodup_middle.mp hnodup)
  rw [List.mem_append, not_or] at hp
  have hsame : ∀ zs : List P, p ∉ zs → zs.map (ends (Function.update h p (some c))) = zs.map (ends h) := fun zs hz =>
    List.map_congr_left fun q hq => by rw [ends, ends, update_other (ne_of_mem_of_not_mem hq hz)]
  rw [List.map_append, List.map_cons, hsame xs hp.1, hsame ys hp.2, ends_of (Function.update_self ..)]

theorem map_ends_elsewhere [DecidableEq P] {list : List P} {p : P} {c : Option (Interval P)} (hp : p ∉ list) :
    list.map (ends (Function.update h p c)) = list.map (ends h) :=
  List.map_congr_left fun q hq => by rw [ends, ends, update_other (ne_of_mem_of_not_mem hq hp)]

/-! ### Functions of the tree of nodes -/

/-- A function that only reads. -/
theorem does_read {α : Type} {x : PTree.Prog P α} {Q : α → Prop} (hx : Does x (trees h) fun a g => g = trees h ∧ Q a) :
    Does (onTree x) h fun a h' => h' = h ∧ Q a :=
  does_onPart.mpr (hx.mono fun _ _ ⟨hg, hq⟩ => ⟨by rw [hg, trees, withParts_parts fun _ => rfl], hq⟩)

/-- A function that leaves another tree. -/
theorem does_change {α : Type} {x : PTree.Prog P α} {tree : α → Option P} {list : List P}
    (hused : ∀ q ∈ list, ∃ c, h q = some c) (hx : Does x (trees h) fun a => PTree.Leaves list (tree a)) :
    Does (onTree x) h fun a h' => Keeps h' (tree a) list ∧ SameEnds h h' := by
  refine does_onPart.mpr (hx.mono ?_)
  rintro a g ⟨t, ht, rfl⟩
  refine ⟨⟨t, ht.frame fun q hq => ?_, rfl⟩, map_withParts fun _ _ => rfl⟩
  obtain ⟨c, hc⟩ := hused q hq
  obtain ⟨n, hn⟩ := ht.holds.links.used hq
  exact parts_withParts (fun _ _ => rfl) hc hn

section Walk
variable [DecidableEq P] {tree : Option P} {xs ys : List P} {p : P} {fuel : ℕ}

theorem getNext_spec (hk : Keeps h tree (xs ++ p :: ys)) (hfuel : (xs ++ p :: ys).length < fuel) :
    Does (getNext fuel p) h fun q h' => h' = h ∧ q = ys.head? := by
  obtain ⟨t, ht, hlist⟩ := hk
  exact does_read (PTree.getNeighbour_spec (d := .right) ht.holds.links ht.nodup hlist (hlist ▸ hfuel))

theorem getPrev_spec (hk : Keeps h tree (xs ++ p :: ys)) (hfuel : (xs ++ p :: ys).length < fuel) :
    Does (getPrev fuel p) h fun q h' => h' = h ∧ q = xs.getLast? := by
  obtain ⟨t, ht, hlist⟩ := hk
  exact does_read (PTree.getNeighbour_spec (d := .left) ht.holds.links ht.nodup hlist (hlist ▸ hfuel))

omit [DecidableEq P] in
theorem getLast_spec {list : List P} (hk : Keeps h tree list) (hfuel : list.length < fuel) :
    Does (getLast fuel tree) h fun q h' => h' = h ∧ q = list.getLast? := by
  obtain ⟨t, ht, rfl⟩ := hk
  rw [← ht.root]
  exact does_read (PTree.getEnd_spec (d := .right) ht.holds.links hfuel)

theorem forEach_spec {list : List P} (hk : Keeps h tree list) (hfuel : list.length < fuel) :
    Does (forEach fuel tree) h fun nodes h' => h' = h ∧ nodes = list := by
  obtain ⟨t, ht, rfl⟩ := hk
  rw [← ht.root]
  exact does_read (PTree.forEach_spec ht.holds.links ht.nodup hfuel)

/-- `psync_interval_tree_del`. -/
theorem del_spec (hk : Keeps h tree (xs ++ p :: ys)) (hfuel : (xs ++ p :: ys).length < fuel) :
    Does (del fuel tree p) h fun tree' h' => Keeps h' tree' (xs ++ ys) ∧ SameEnds h h' := by
  have hmem : p ∈ xs ++ p :: ys := by simp
  obtain ⟨root, rfl⟩ := hk.root_isSome hmem
  have hused : ∀ q ∈ xs ++ ys, ∃ c, h q = some c := fun q hq => hk.used (by
    rw [List.mem_append, List.mem_cons]
    exact (List.mem_append.mp hq).imp_right .inr)
  have herase : (xs ++ p :: ys).erase p = xs ++ ys := by
    obtain ⟨hp, -⟩ := List.nodup_cons.mp (List.nodup_middle.mp hk.nodup)
    rw [List.erase_append_right _ fun hx => hp (List.mem_append_left _ hx), List.erase_cons_head]
  obtain ⟨t, ht, hlist⟩ := hk
  simp only [del, does_bind, does_deref_some]
  have hlength : t.toList.length < fuel := hlist ▸ hfuel
  have hdel := PTree.getDel_spec ht (hlist ▸ hmem) hlength
  rw [hlist, herase] at hdel
  exact does_change hused hdel

/-- `psync_tree_get_add_before` and `psync_tree_get_add_after`. -/
theorem addBeside_spec {d : Side} {q : P} {c : Interval P} (hk : Keeps h tree (xs ++ p :: ys))
    (hq : q ∉ xs ++ p :: ys) (hused : h q = some c) (hfuel : (xs ++ p :: ys).length < fuel) :
    Does (onTree (PTree.getAdd d fuel tree (some p) q)) h fun tree' h' =>
      Keeps h' (some tree') (xs ++ (d.beside p q ++ ys)) ∧ SameEnds h h' := by
  have hp : p ∉ xs := fun hx => (List.nodup_cons.mp (List.nodup_middle.mp hk.nodup)).1 (List.mem_append_left _ hx)
  have hall : ∀ r ∈ xs ++ (d.beside p q ++ ys), ∃ c, h r = some c := fun r hr => by
    have hr : r = q ∨ r ∈ xs ++ p :: ys := by
      cases d <;> simp [Side.beside] at hr ⊢ <;> tauto
    rcases hr with rfl | hr
    · exact ⟨c, hused⟩
    · exact hk.used hr
  obtain ⟨t, ht, hlist⟩ := hk
  have hnode : ∀ r, some p = some r → r ∈ t.toList := by
    rintro r ⟨⟩
    simp [hlist]
  have hlength : t.toList.length < fuel := hlist ▸ hfuel
  have hadd := PTree.getAdd_spec (d := d) ht hnode (hlist ▸ hq) ⟨_, trees_of hused⟩ hlength
  rw [hlist, PTree.insertAt, PTree.insertBeside_split q ys hp] at hadd
  exact does_change hall hadd

end Walk

end Pclsync.IntervalTree

/-! The descents by the ends of the intervals. -/
namespace Pclsync.IntervalTree
open Lib.BinaryTree Lib.HeapProgram Lib.Intervals

variable {P : Type} {h : IntervalHeap P}

/-- Where the intervals of some nodes stand towards the one of a node between them. -/
theorem separated_at {xs ys : List P} {p : P} (hsep : Separated ((xs ++ p :: ys).map (ends h))) :
    (∀ q ∈ xs, (ends h q).2 < (ends h p).1) ∧ (ends h p).1 < (ends h p).2 ∧
      ∀ q ∈ ys, (ends h p).2 < (ends h q).1 ∧ (ends h q).1 < (ends h q).2 := by
  rw [List.map_append, List.map_cons] at hsep
  obtain ⟨hne, hafter⟩ := hsep.after
  refine ⟨fun q hq => hsep.before _ (List.mem_map_of_mem hq), hne, fun q hq => ?_⟩
  exact ⟨hafter _ (List.mem_map_of_mem hq), hsep.nonempty _ (by simp [List.mem_map_of_mem hq])⟩

theorem toList_around {c : Context P} {l r : BinTree P} {p : P} :
    (c.plug (.node l p r)).toList = (c.before ++ l.toList) ++ p :: (r.toList ++ c.after) := by
  simp [Context.toList_plug]

/-- The cell of a node that a descent stands at. -/
theorem cell_at {root : Option P} {c : Context P} {l r : BinTree P} {p : P}
    (ht : PTree.Avl (trees h) root (c.plug (.node l p r))) :
    ∃ x, h p = some x ∧ x.tree.left = l.root ∧ x.tree.right = r.root := by
  obtain ⟨-, ⟨⟨k, hcell⟩, -, -⟩⟩ := PTree.links_plug.mp ht.holds.links
  obtain ⟨x, hx, htree⟩ := Option.map_eq_some_iff.mp hcell
  exact ⟨x, hx, by rw [htree], by rw [htree]⟩

/-- The first interval that ends after a point. -/
theorem find_head {point : ℕ} {xs ys : List P} (hxs : ∀ q ∈ xs, (ends h q).2 ≤ point)
    (hys : ∀ q ∈ ys, point < (ends h q).2) :
    (xs ++ ys).find? (fun q => point < (ends h q).2) = ys.head? := by
  have hnone : xs.find? (fun q => point < (ends h q).2) = none :=
    List.find?_eq_none.mpr fun q hq => by simpa using hxs q hq
  rw [List.find?_append, hnone, Option.none_or]
  cases ys with
  | nil => rfl
  | cons q ys => rw [List.find?_cons_of_pos (by simpa using hys q (List.mem_cons_self ..)), List.head?_cons]

theorem descent_spec [DecidableEq P] {fuel point rounds : ℕ} {root : Option P} {c : Context P} {l r : BinTree P} {p : P}
    (ht : PTree.Avl (trees h) root (c.plug (.node l p r)))
    (hsep : Separated ((c.plug (.node l p r)).toList.map (ends h)))
    (hbefore : ∀ q ∈ c.before, (ends h q).2 ≤ point) (hafter : ∀ q ∈ c.after, point < (ends h q).2)
    (hfuel : (c.plug (.node l p r)).toList.length < fuel) (hrounds : (BinTree.node l p r).height ≤ rounds) :
    Does (firstIntervalContainingOrAfter fuel point rounds (some p)) h fun q h' =>
      h' = h ∧ q = (c.plug (.node l p r)).toList.find? fun q => point < (ends h q).2 := by
  induction rounds generalizing c l p r with
  | zero => exact absurd hrounds (Nat.not_succ_le_zero _)
  | succ rounds ih =>
    obtain ⟨x, hx, hleft, hright⟩ := cell_at ht
    have hends := ends_of hx
    rw [toList_around] at hsep ⊢
    obtain ⟨hl, hne, hr⟩ := separated_at hsep
    rw [hends] at hl hne hr
    simp only at hl hne hr
    simp only [BinTree.height] at hrounds
    simp only [firstIntervalContainingOrAfter, does_bind, does_load, hx, Option.some.injEq, exists_eq_left', hleft, hright]
    split_ifs with hto hstop
    · have hxs : ∀ q ∈ c.before ++ l.toList ++ [p], (ends h q).2 ≤ point := by
        intro q hq
        rw [List.mem_append, List.mem_singleton] at hq
        rcases hq with hq | rfl
        · have := hl q hq
          omega
        · rw [hends]
          exact hto
      cases hroot : r.root with
      | none =>
        obtain rfl := PTree.root_eq_none hroot
        have hk : Keeps h root ((c.before ++ l.toList) ++ p :: c.after) := ⟨_, ht, by rw [toList_around]; rfl⟩
        refine (getNext_spec hk (by rw [toList_around] at hfuel; exact hfuel)).mono ?_
        rintro q h' ⟨rfl, rfl⟩
        refine ⟨rfl, ?_⟩
        rw [← find_head hxs hafter]
        simp
      | some q =>
        cases r with
        | nil => cases hroot
        | node l' p' r' =>
          obtain rfl := Option.some.inj hroot
          have hplug : (Context.frame .right p l c).plug (.node l' p' r') = c.plug (.node l p (.node l' p' r')) := rfl
          rw [← toList_around] at hsep ⊢
          rw [← hplug] at ht hsep hfuel ⊢
          refine ih ht hsep (fun q hq => hxs q ?_) hafter hfuel (by omega)
          simpa [Context.before] using hq
    · have hxs : ∀ q ∈ c.before ++ l.toList, (ends h q).2 ≤ point := by
        intro q hq
        rcases hstop with hpoint | hnone
        · have := hl q hq
          omega
        · obtain rfl := PTree.root_eq_none hnone
          exact hbefore q (by simpa using hq)
      refine does_pure.mpr ⟨rfl, ?_⟩
      rw [find_head hxs fun q hq => ?_, List.head?_cons]
      rcases List.mem_cons.mp hq with rfl | hq
      · rw [hends]
        exact not_le.mp hto
      · have := hr q hq
        omega
    · obtain ⟨hpoint, hsome⟩ := not_or.mp hstop
      cases l with
      | nil => exact absurd rfl hsome
      | node l' p' r' =>
        have hplug : (Context.frame .left p r c).plug (.node l' p' r') = c.plug (.node (.node l' p' r') p r) := rfl
        rw [← toList_around] at hsep ⊢
        rw [← hplug] at ht hsep hfuel ⊢
        refine ih ht hsep hbefore (fun q hq => ?_) hfuel (by omega)
        rcases List.mem_cons.mp hq with rfl | hq
        · rw [hends]
          exact not_le.mp hto
        · have := hr q hq
          omega

/-- `psync_interval_tree_first_interval_containing_or_after` answers the first interval
that ends after the point. -/
theorem firstIntervalContainingOrAfter_spec [DecidableEq P] {fuel point rounds : ℕ} {tree : Option P} {list : List P}
    (hk : Keeps h tree list) (hsep : Separated (list.map (ends h))) (hfuel : list.length < fuel)
    (hrounds : list.length ≤ rounds) :
    Does (firstIntervalContainingOrAfter fuel point rounds tree) h fun q h' =>
      h' = h ∧ q = list.find? fun q => point < (ends h q).2 := by
  obtain ⟨t, ht, rfl⟩ := hk
  have hroot := ht.root
  cases t with
  | nil =>
    subst hroot
    rw [BinTree.root_nil, firstIntervalContainingOrAfter, does_pure]
    exact ⟨rfl, rfl⟩
  | node l p r =>
    subst hroot
    exact descent_spec (c := .top) ht hsep (by simp [Context.before]) (by simp [Context.after]) hfuel
      ((BinTree.node l p r).height_le_length.trans hrounds)

end Pclsync.IntervalTree
