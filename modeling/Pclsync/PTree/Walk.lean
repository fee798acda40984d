import Pclsync.PTree.Rebalance

/-! Walking a tree in the heap goes through its nodes in order. -/
namespace Pclsync.PTree
open Lib.BinaryTree Lib.HeapProgram

variable {P : Type} {h : NodeHeap P}

theorem root_eq_none {t : BinTree P} (hr : t.root = none) : t = .nil := by
  cases t with
  | nil => rfl
  | node l p r => cases hr

/-- The descent to side `d` ends at a node with nothing on that side. -/
theorem goEnd_spec {d : Side} {fuel : ℕ} {parent : Option P} {t : BinTree P} {q : P} (hl : Links h parent t)
    (hq : t.root = some q) (hfuel : t.height ≤ fuel) :
    Does (goEnd d fuel q) h fun p h' => h' = h ∧ ∃ c b, c.Along d ∧ t = Context.plug c (.join d .nil p b) := by
  induction fuel generalizing parent t q with
  | zero =>
    cases t with
    | nil => cases hq
    | node l p r => exact absurd hfuel (Nat.not_succ_le_zero _)
  | succ fuel ih =>
    rcases t.cases_join d with rfl | ⟨a, p, b, rfl⟩
    · cases hq
    rw [BinTree.root_join] at hq
    obtain rfl : q = p := (Option.some.inj hq).symm
    obtain ⟨⟨k, hp⟩, ha, -⟩ := links_join.mp hl
    simp only [goEnd, does_bind, does_load, hp, Option.some.injEq, exists_eq_left', of_child]
    rw [BinTree.height_join] at hfuel
    cases ha' : a.root with
    | none =>
      obtain rfl := root_eq_none ha'
      exact does_pure.mpr ⟨rfl, .top, b, trivial, rfl⟩
    | some next =>
      refine (ih ha ha' (by omega)).mono ?_
      rintro p' h' ⟨rfl, c, b', halong, rfl⟩
      refine ⟨rfl, c.comp (.frame d q b .top), b', halong.comp ⟨rfl, trivial⟩, ?_⟩
      rw [Context.plug_comp]
      rfl

/-- The climb from side `d` ends at the nearest node there. -/
theorem goUpFrom_spec [DecidableEq P] {d : Side} {fuel : ℕ} {c : Context P} {p : P} {n : Node P}
    (hl : LinksAround h c (some p)) (hp : h p = some n) (hn : n.parent = c.parent)
    (hnodup : (c.plug (.node .nil p .nil)).toList.Nodup) (hfuel : c.depth < fuel) :
    Does (goUpFrom d fuel p) h fun q h' => h' = h ∧ q = d.nearest c.before c.after := by
  induction fuel generalizing c p n with
  | zero => exact absurd hfuel (Nat.not_lt_zero _)
  | succ fuel ih =>
    simp only [goUpFrom, does_bind, does_load, hp, Option.some.injEq, exists_eq_left', hn]
    cases c with
    | top =>
      refine does_pure.mpr ⟨rfl, ?_⟩
      cases d <;> rfl
    | frame d' q s c =>
      obtain ⟨⟨k, hq⟩, -, hup⟩ := hl
      obtain ⟨hjoin, -⟩ := Context.nodup_plug (c := c) hnodup
      rw [BinTree.toList_join, nodup_order] at hjoin
      have hps : s.root ≠ some p := root_ne (hjoin.2.2.2.2 (by simp))
      simp only [Context.parent_frame, does_bind, does_load, hq, Option.some.injEq, exists_eq_left']
      rcases eq_or_other d d' with rfl | rfl
      · rw [if_pos (by rw [of_child])]
        have hnodup' := Context.nodup_plug_sublist (c := c) (.node .nil q .nil) hnodup (by
          rw [BinTree.toList_join, BinTree.toList_node]
          exact List.singleton_sublist.mpr (mem_order.mpr (.inr (.inl rfl))))
        refine (ih hup hq (of_parent ..) hnodup' (Nat.lt_of_succ_lt_succ hfuel)).mono ?_
        rintro r h' ⟨rfl, rfl⟩
        refine ⟨rfl, ?_⟩
        cases d' <;> rfl
      · have hchild : ∀ up, (Node.of d.other (some p) s.root up k).child d = s.root := fun up => by
          cases d <;> rfl
        rw [if_neg (by rw [hchild]; exact hps)]
        refine does_pure.mpr ⟨rfl, ?_⟩
        cases d <;> simp [Side.nearest, Context.before, Context.after]

/-- A place in a tree is a place in its list. -/
theorem split_plug {c : Context P} {l r : BinTree P} {p : P} {xs ys : List P}
    (hnodup : (c.plug (.node l p r)).toList.Nodup) (hlist : (c.plug (.node l p r)).toList = xs ++ p :: ys) :
    xs = c.before ++ l.toList ∧ ys = r.toList ++ c.after := by
  rw [hlist] at hnodup
  rw [Context.toList_plug, BinTree.toList_node] at hlist
  have hxs : p ∉ xs := fun h => (List.nodup_append'.mp hnodup).2.2 h (List.mem_cons_self ..)
  have hys : p ∉ ys := (List.nodup_cons.mp (List.nodup_append'.mp hnodup).2.1).1
  have heq : xs ++ p :: ys = (c.before ++ l.toList) ++ p :: (r.toList ++ c.after) := by simp [← hlist]
  exact ((List.append_cons_inj_of_notMem hxs hys).mp heq).imp id And.right

/-- What a descent to side `d` finds is at that end of the list. -/
theorem end_plug {d : Side} {c : Context P} {p : P} {b : BinTree P} (halong : c.Along d) :
    ∃ rest, (c.plug (.join d .nil p b)).toList = match d with
      | .left => p :: rest
      | .right => rest ++ [p] := by
  rw [Context.toList_plug, BinTree.toList_join]
  cases d
  · exact ⟨b.toList ++ c.after, by rw [halong.before_left]; rfl⟩
  · exact ⟨c.before ++ b.toList, by rw [halong.after_right]; simp [Side.order]⟩

/-- The neighbour of a node with a subtree on side `d` is the end of that subtree. -/
theorem goEnd_neighbour {d : Side} {fuel : ℕ} {parent : Option P} {t : BinTree P} {q : P} (xs ys : List P)
    (hl : Links h parent t) (hq : t.root = some q) (hfuel : t.height ≤ fuel) :
    Does (goEnd d.other fuel q) h fun p h' => h' = h ∧
      some p = d.nearest (xs ++ t.toList) (t.toList ++ ys) := by
  refine (goEnd_spec hl hq hfuel).mono ?_
  rintro p h' ⟨rfl, c, b, halong, rfl⟩
  obtain ⟨rest, hrest⟩ := end_plug (b := b) (p := p) halong
  refine ⟨rfl, ?_⟩
  rw [hrest]
  cases d <;> simp [Side.nearest]

/-- `psync_tree_get_next` and `psync_tree_get_prev` answer the neighbour in order. -/
theorem getNeighbour_spec [DecidableEq P] {d : Side} {fuel : ℕ} {t : BinTree P} {p : P} {xs ys : List P}
    (hl : Links h none t) (hnodup : t.toList.Nodup) (hlist : t.toList = xs ++ p :: ys)
    (hfuel : t.toList.length < fuel) :
    Does (getNeighbour d fuel p) h fun q h' => h' = h ∧ q = d.nearest xs ys := by
  have hmem : p ∈ t.toList := by
    rw [hlist]
    exact List.mem_append_right _ (List.mem_cons_self ..)
  obtain ⟨c, l, r, rfl⟩ := Context.exists_plug hmem
  obtain ⟨rfl, rfl⟩ := split_plug hnodup hlist
  obtain ⟨hc, ⟨⟨k, hp⟩, hleft, hright⟩⟩ := links_plug.mp hl
  have hdepth := Context.depth_le_length c (.node l p r)
  have hheight : (BinTree.node l p r).height ≤ (c.plug (.node l p r)).toList.length := by
    have := (BinTree.node l p r).height_le_length
    rw [Context.toList_plug, List.length_append, List.length_append]
    omega
  simp only [BinTree.height] at hheight
  have hnodup' := Context.nodup_plug_sublist (.node .nil p .nil) hnodup (by simp)
  have hclimb : Does (goUpFrom d fuel p) h fun q h' => h' = h ∧ q = d.nearest c.before c.after :=
    goUpFrom_spec hc hp rfl hnodup' (by omega)
  simp only [getNeighbour, does_bind, does_load, hp, Option.some.injEq, exists_eq_left']
  cases d with
  | left =>
    cases hroot : l.root with
    | none =>
      obtain rfl := root_eq_none hroot
      simpa only [Node.child, hroot, BinTree.toList_nil, List.append_nil, Side.nearest] using hclimb
    | some q =>
      simp only [Node.child, does_bind, does_pure]
      exact goEnd_neighbour (d := .left) _ [] hleft hroot (by omega)
  | right =>
    cases hroot : r.root with
    | none =>
      obtain rfl := root_eq_none hroot
      simpa only [Node.child, hroot, BinTree.toList_nil, List.nil_append, Side.nearest] using hclimb
    | some q =>
      simp only [Node.child, does_bind, does_pure]
      exact goEnd_neighbour (d := .right) [] _ hright hroot (by omega)

/-- `psync_tree_get_first` and `psync_tree_get_last` answer the ends. -/
theorem getEnd_spec {d : Side} {fuel : ℕ} {parent : Option P} {t : BinTree P} (hl : Links h parent t)
    (hfuel : t.toList.length < fuel) :
    Does (getEnd d fuel t.root) h fun q h' => h' = h ∧ q = d.other.nearest t.toList t.toList := by
  have hheight := t.height_le_length
  cases hroot : t.root with
  | none =>
    obtain rfl := root_eq_none hroot
    refine does_pure.mpr ⟨rfl, ?_⟩
    cases d <;> rfl
  | some q =>
    simp only [getEnd, does_bind, does_pure]
    have hend : Does (goEnd d.other.other fuel q) h fun p h' => h' = h ∧
        some p = d.other.nearest ([] ++ t.toList) (t.toList ++ []) := goEnd_neighbour [] [] hl hroot (by omega)
    simpa only [other_other, List.nil_append, List.append_nil] using hend

/-- The walk from a node on goes through what is left of the list. -/
theorem forEachFrom_spec [DecidableEq P] {fuel rounds : ℕ} {t : BinTree P} (xs ys : List P) (hl : Links h none t)
    (hnodup : t.toList.Nodup) (hlist : t.toList = xs ++ ys) (hfuel : t.toList.length < fuel)
    (hrounds : ys.length ≤ rounds) :
    Does (forEachFrom fuel rounds ys.head?) h fun list h' => h' = h ∧ list = ys := by
  induction ys generalizing xs rounds with
  | nil =>
    simp only [List.head?_nil, forEachFrom]
    exact does_pure.mpr ⟨rfl, rfl⟩
  | cons p ys ih =>
    cases rounds with
    | zero => exact absurd hrounds (Nat.not_succ_le_zero _)
    | succ rounds =>
      simp only [List.head?_cons, forEachFrom, does_bind, does_pure]
      refine (getNeighbour_spec (d := .right) hl hnodup hlist hfuel).mono ?_
      rintro q h' ⟨rfl, rfl⟩
      refine (ih (xs ++ [p]) (by rw [hlist]; simp) (Nat.le_of_succ_le_succ hrounds)).mono ?_
      rintro rest h'' ⟨rfl, rfl⟩
      exact ⟨rfl, rfl⟩

/-- `psync_tree_for_each` goes through the nodes in order. -/
theorem forEach_spec [DecidableEq P] {fuel : ℕ} {t : BinTree P} (hl : Links h none t) (hnodup : t.toList.Nodup)
    (hfuel : t.toList.length < fuel) :
    Does (forEach fuel t.root) h fun list h' => h' = h ∧ list = t.toList := by
  rw [forEach, does_bind]
  refine (getEnd_spec (d := .left) hl hfuel).mono ?_
  rintro q h' ⟨rfl, rfl⟩
  exact forEachFrom_spec [] _ hl hnodup rfl hfuel (Nat.le_of_lt hfuel)

end Pclsync.PTree
