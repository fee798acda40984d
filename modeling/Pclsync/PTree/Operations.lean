import Pclsync.PTree.Walk

/-! The operations keep the tree balanced and change its list by one node. -/
namespace Pclsync.PTree
open Lib.BinaryTree Lib.HeapProgram

variable {P : Type} [DecidableEq P] {h h' : NodeHeap P}

omit [DecidableEq P] in
@[simp] theorem setChild_height (n : Node P) (d : Side) (q : Option P) : (n.setChild d q).height = n.height := by
  cases d <;> rfl

/-! ### Insertion -/

/-- A leaf linked at a null child slot, and the walk up from there. -/
theorem attach_relifts {d : Side} {p new tree : P} {s : BinTree P} {c : Context P} {fuel : ℕ}
    (ht : Avl h (some tree) ((Context.frame d p s c).plug .nil))
    (hnew : new ∉ ((Context.frame d p s c).plug .nil).toList) (hcell : h' new = some ⟨none, none, some p, 1⟩)
    (hp : ∀ n, h p = some n → h' p = some (n.setChild d (some new)))
    (hsame : ∀ q, q ≠ new → q ≠ p → h' q = h q) (hfuel : c.depth < fuel) :
    Does (goUpRebalanceAdd tree fuel p) h' (Relifts ((Context.frame d p s c).plug (.node .nil new .nil))) := by
  obtain ⟨hlinks, -⟩ := links_plug.mp ht.holds.links
  obtain ⟨hstored, -⟩ := stored_plug.mp ht.holds.stored
  obtain ⟨hbalanced, -⟩ := Context.balanced_plug.mp ht.balanced
  have hnodup := ht.nodup
  have hmem : ∀ q, q ∈ (Context.frame d p s c).before ∨ q ∈ (Context.frame d p s c).after → q ≠ new := by
    rintro q hq rfl
    exact hnew (Context.mem_plug_iff.mpr (.inr hq))
  obtain ⟨n, hn⟩ : ∃ n, h p = some n := ht.holds.links.used (Context.parent_mem rfl)
  have hnot : p ∉ s.toList ∧ p ∉ c.before ∧ p ∉ c.after := by
    obtain ⟨hjoin, hout⟩ := Context.nodup_plug (c := c) hnodup
    rw [BinTree.toList_join, nodup_order] at hjoin
    exact ⟨hjoin.2.1, hout p (by simp [mem_order])⟩
  have hleaf : Holds h' (some p) (.node .nil new .nil) :=
    holds_join (d := .left).mpr ⟨hcell, ⟨trivial, trivial⟩, ⟨trivial, trivial⟩⟩
  have haround : Around h' (.frame d p s c) (some new) 0 := by
    refine ⟨hlinks.rehole hn (hp n hn) hnot fun q hq hqp => ?_, hstored.frame fun q hq => ?_, hbalanced⟩
    · exact hsame q (hmem q (Context.mem_frame.mpr (.inr hq))) hqp
    · by_cases hqp : q = p
      · subst hqp
        rw [storedHeight_of hn, storedHeight_of (hp n hn), setChild_height]
      · rw [storedHeight, storedHeight, hsame q (hmem q hq) hqp]
  have hnodup' : ((Context.frame d p s c).plug (.node .nil new .nil)).toList.Nodup := by
    rw [Context.toList_plug] at hnodup hnew ⊢
    exact List.nodup_middle.mpr (List.nodup_cons.mpr ⟨hnew, hnodup⟩)
  have hroot : ((Context.frame d p s c).plug (.node .nil new .nil)).root = some tree := by
    rw [Context.root_plug_frame d p s c _ .nil, ht.root]
  obtain ⟨l, r, hf, hplug, hsides⟩ := haround.up hleaf ⟨by simp, by simp, trivial, trivial⟩ hnodup'
  have hgrown : Grown l r (max 0 s.height + 1) := by
    have hjoin := grown_join (t := .node .nil new .nil) hbalanced.1 hbalanced.2.1 rfl (.inr rfl)
    rcases hsides with ⟨rfl, rfl⟩ | ⟨rfl, rfl⟩
    · exact hjoin
    · exact hjoin.comm
  rw [hplug] at hroot ⊢
  exact goUpRebalanceAdd_relifts hf hgrown hroot hfuel

theorem attach_spec {d : Side} {p new tree : P} {s : BinTree P} {c : Context P} {fuel : ℕ}
    (ht : Avl h (some tree) ((Context.frame d p s c).plug .nil))
    (hnew : new ∉ ((Context.frame d p s c).plug .nil).toList) (hcell : h' new = some ⟨none, none, some p, 1⟩)
    (hp : ∀ n, h p = some n → h' p = some (n.setChild d (some new)))
    (hsame : ∀ q, q ≠ new → q ≠ p → h' q = h q) (hfuel : c.depth < fuel) :
    Does (goUpRebalanceAdd tree fuel p) h'
      (Rebalances ((Context.frame d p s c).plug (.node .nil new .nil)).toList) :=
  (attach_relifts ht hnew hcell hp hsame hfuel).mono fun _ _ => Relifts.rebalances

/-- `new` in the list right beside `p`, on side `d`. -/
def insertBeside (d : Side) (p new : P) : List P → List P
  | [] => []
  | q :: qs => if q = p then d.beside p new ++ qs else q :: insertBeside d p new qs

theorem insertBeside_split {d : Side} {p : P} (new : P) {xs : List P} (ys : List P) (hxs : p ∉ xs) :
    insertBeside d p new (xs ++ p :: ys) = xs ++ (d.beside p new ++ ys) := by
  induction xs with
  | nil => simp [insertBeside]
  | cons x xs ih =>
    simp only [List.mem_cons, not_or] at hxs
    simp only [List.cons_append, insertBeside, if_neg (Ne.symm hxs.1), ih hxs.2]

/-- `new` at the end of a list that is next to what the list stands on side `d` of. -/
def push (d : Side) (new : P) (list : List P) : List P :=
  match d with
  | .left => list ++ [new]
  | .right => new :: list

theorem insertBeside_plug {d : Side} {c : Context P} {a b : BinTree P} {p new : P}
    (hnodup : (c.plug (.join d a p b)).toList.Nodup) :
    insertBeside d p new (c.plug (.join d a p b)).toList =
      c.before ++ (d.order (push d new a.toList) p b.toList ++ c.after) := by
  obtain ⟨hjoin, hout⟩ := Context.nodup_plug hnodup
  rw [BinTree.toList_join, nodup_order] at hjoin
  have hbefore := (hout p (by simp [mem_order])).1
  rw [Context.toList_plug, BinTree.toList_join]
  cases d
  · have hxs : p ∉ c.before ++ a.toList := by simp [hbefore, hjoin.1]
    simpa [Side.order, Side.beside, push] using insertBeside_split (d := .left) new (b.toList ++ c.after) hxs
  · have hxs : p ∉ c.before ++ b.toList := by simp [hbefore, hjoin.2.1]
    simpa [Side.order, Side.beside, push] using insertBeside_split (d := .right) new (a.toList ++ c.after) hxs

/-- A leaf in a hole under a node stands beside the node. -/
theorem slot_plug {d : Side} {c : Context P} {s : BinTree P} {p new : P}
    (hnodup : ((Context.frame d p s c).plug .nil).toList.Nodup) :
    ((Context.frame d p s c).plug (.node .nil new .nil)).toList =
      insertBeside d p new ((Context.frame d p s c).plug .nil).toList := by
  rw [Context.plug] at hnodup
  rw [Context.plug, Context.plug, insertBeside_plug hnodup, Context.toList_plug, BinTree.toList_join]
  cases d <;> rfl

omit [DecidableEq P] in
/-- A leaf hung at the end of a subtree, on the way down to side `d.other`. -/
theorem push_plug {d : Side} {c : Context P} {b : BinTree P} {p new : P} (halong : c.Along d.other) :
    (c.plug (.join d.other (.node .nil new .nil) p b)).toList =
      push d new (c.plug (.join d.other .nil p b)).toList := by
  simp only [Context.toList_plug, BinTree.toList_join]
  cases d
  · simp [halong.after_right, Side.order, push]
  · simp [halong.before_left, Side.order, push]

omit [DecidableEq P] in
theorem Avl.frame {root : Option P} {t : BinTree P} (ht : Avl h root t) (hsame : ∀ q ∈ t.toList, h' q = h q) :
    Avl h' root t :=
  ⟨ht.root, ht.holds.frame hsame, ht.balanced, ht.nodup⟩

/-- An initialised node linked at a null child slot. -/
theorem link_spec {d : Side} {p new tree : P} {s : BinTree P} {c : Context P} {fuel : ℕ}
    (ht : Avl h (some tree) ((Context.frame d p s c).plug .nil))
    (hnew : new ∉ ((Context.frame d p s c).plug .nil).toList) (hcell : h new = some ⟨none, none, none, 1⟩)
    (hfuel : c.depth < fuel) :
    Does (do
      store p fun n => n.setChild d (some new)
      let node ← pure p
      store new fun n => { n with parent := some node }
      goUpRebalanceAdd tree fuel node) h
      (Rebalances ((Context.frame d p s c).plug (.node .nil new .nil)).toList) := by
  have hp : p ∈ ((Context.frame d p s c).plug .nil).toList := Context.parent_mem rfl
  have hne : new ≠ p := fun he => hnew (he ▸ hp)
  obtain ⟨n, hn⟩ := ht.holds.links.used hp
  simp only [does_bind, does_store, does_pure, hn, Option.some.injEq, exists_eq_left', ne_eq, hne, not_false_eq_true,
    Function.update_of_ne, hcell]
  refine attach_spec ht hnew (Function.update_self ..) (fun n' hn' => ?_) (fun q hqn hqp => ?_) hfuel
  · rw [update_other hne.symm, Function.update_self, Option.some.inj (hn.symm.trans hn')]
  · rw [update_other hqn, update_other hqp]

/-- Linking a node beside another one: the node goes to the nearest null child slot. -/
theorem addBeside_spec {d : Side} {tree node new : P} {t : BinTree P} {fuel : ℕ} (ht : Avl h (some tree) t)
    (hnode : node ∈ t.toList) (hnew : new ∉ t.toList) (hused : ∃ n, h new = some n)
    (hfuel : t.toList.length < fuel) :
    Does (addBeside d fuel tree node new) h (Rebalances (insertBeside d node new t.toList)) := by
  obtain ⟨c, l, r, rfl⟩ := Context.exists_plug hnode
  obtain ⟨n₀, hn₀⟩ := hused
  obtain ⟨a, b, hsides⟩ : ∃ a b, BinTree.node l node r = .join d a node b := by
    cases d
    · exact ⟨l, r, rfl⟩
    · exact ⟨r, l, rfl⟩
  rw [hsides] at ht hnode hnew hfuel ⊢
  have ht₁ : Avl (Function.update h new (some ⟨none, none, none, 1⟩)) (some tree) (c.plug (.join d a node b)) :=
    ht.frame fun q hq => update_other fun he => hnew (he ▸ hq)
  obtain ⟨hc, hlinks⟩ := links_plug.mp ht₁.holds.links
  obtain ⟨⟨k, hcell⟩, ha, hb⟩ := links_join.mp hlinks
  simp only [addBeside, initNode, does_bind, does_store, does_load, does_pure, hn₀, Option.some.injEq, exists_eq_left', hcell, of_child]
  have hdepth := Context.depth_le_length c (.join d a node b)
  cases hroot : a.root with
  | none =>
    obtain rfl := root_eq_none hroot
    have hlink := link_spec (s := b) (c := c) ht₁ hnew (Function.update_self ..) (Nat.lt_of_le_of_lt (by omega) hfuel)
    rwa [slot_plug ht.nodup] at hlink
  | some q =>
    have hheight := (BinTree.join d a node b).height_le_length
    have hlength : (BinTree.join d a node b).toList.length ≤ (c.plug (.join d a node b)).toList.length := by
      rw [Context.toList_plug, List.length_append, List.length_append]
      omega
    rw [BinTree.height_join] at hheight
    rw [does_bind]
    refine (goEnd_spec ha hroot (by omega)).mono ?_
    rintro p h' ⟨rfl, ce, b', halong, rfl⟩
    have hplug : ∀ t, (Context.frame d.other p b' (ce.comp (.frame d node b c))).plug t =
        c.plug (.join d (ce.plug (.join d.other t p b')) node b) := fun t => by
      rw [Context.plug, Context.plug_comp, Context.plug]
    have hlist : ((Context.frame d.other p b' (ce.comp (.frame d node b c))).plug (.node .nil new .nil)).toList =
        insertBeside d node new (c.plug (.join d (ce.plug (.join d.other .nil p b')) node b)).toList := by
      rw [insertBeside_plug ht.nodup, ← push_plug halong, hplug, Context.toList_plug, BinTree.toList_join]
    have hdepth' := Context.depth_le_length (Context.frame d.other p b' (ce.comp (.frame d node b c))) .nil
    rw [← hplug] at ht₁ hnew hfuel
    rw [← hlist]
    exact link_spec ht₁ hnew (Function.update_self ..) (by simp only [Context.depth] at hdepth'; omega)

/-- `new` beside `node`, or at the end of the list that `NULL` stands for. -/
def insertAt (d : Side) (node : Option P) (new : P) (list : List P) : List P :=
  match node with
  | some p => insertBeside d p new list
  | none => push d new list

omit [DecidableEq P] in
/-- An initialised node is a tree. -/
theorem initNode_avl {new : P} (hcell : h new = some ⟨none, none, none, 1⟩) :
    Avl h (some new) (.node .nil new .nil) :=
  ⟨rfl, holds_join (d := .left).mpr ⟨hcell, ⟨trivial, trivial⟩, ⟨trivial, trivial⟩⟩, by simp [BinTree.Balanced], by simp⟩

/-- `psync_tree_get_add_after` and `psync_tree_get_add_before`. -/
theorem getAdd_spec {d : Side} {root node : Option P} {new : P} {t : BinTree P} {fuel : ℕ} (ht : Avl h root t)
    (hnode : ∀ p, node = some p → p ∈ t.toList) (hnew : new ∉ t.toList) (hused : ∃ n, h new = some n)
    (hfuel : t.toList.length < fuel) :
    Does (getAdd d fuel root node new) h (Rebalances (insertAt d node new t.toList)) := by
  obtain ⟨n, hn⟩ := hused
  cases root with
  | none =>
    obtain rfl := root_eq_none ht.root
    have hnone : node = none := by
      cases node with
      | none => rfl
      | some p => exact nomatch hnode p rfl
    subst hnone
    simp only [getAdd, initNode, does_bind, does_store, does_pure, hn, Option.some.injEq, exists_eq_left']
    refine ⟨_, initNode_avl (Function.update_self ..), ?_⟩
    cases d <;> rfl
  | some tree =>
    cases node with
    | some p => exact addBeside_spec ht (hnode p rfl) hnew ⟨n, hn⟩ hfuel
    | none =>
      simp only [getAdd, does_bind]
      have hend := getEnd_spec (d := d.other) ht.holds.links hfuel
      rw [ht.root, other_other] at hend
      refine hend.mono ?_
      rintro q h' ⟨rfl, rfl⟩
      -- the end of the list is the node the other function is called with
      obtain ⟨p, hp, hmem, hlist⟩ : ∃ p, d.nearest t.toList t.toList = some p ∧ p ∈ t.toList ∧
          insertBeside d.other p new t.toList = push d new t.toList := by
        have hnodup := ht.nodup
        have hne : t.toList ≠ [] := List.ne_nil_of_mem (root_mem ht.root)
        cases d
        · obtain ⟨xs, p, hxs⟩ := (List.eq_nil_or_concat' t.toList).resolve_left hne
          rw [hxs] at hnodup ⊢
          have hp : p ∉ xs := fun h => (List.nodup_append'.mp hnodup).2.2 h (List.mem_singleton_self p)
          exact ⟨p, by simp [Side.nearest], by simp, by
            rw [insertBeside_split new [] hp]
            simp [Side.beside, push]⟩
        · obtain ⟨p, ys, hys⟩ := List.exists_cons_of_ne_nil hne
          rw [hys]
          exact ⟨p, rfl, List.mem_cons_self .., by simp [insertBeside, Side.beside, push]⟩
      rw [hp, does_deref_some]
      have hadd := addBeside_spec (d := d.other) ht hmem hnew ⟨n, hn⟩ hfuel
      rwa [hlist] at hadd

/-- `psync_tree_get_added_at`, after the caller linked the node at a null child slot. -/
theorem getAddedAt_relifts {d : Side} {p new tree : P} {s : BinTree P} {c : Context P} {fuel : ℕ}
    (ht : Avl h (some tree) ((Context.frame d p s c).plug .nil))
    (hnew : new ∉ ((Context.frame d p s c).plug .nil).toList) (hused : ∃ n, h new = some n)
    (hlinked : ∀ n, h p = some n → h' = Function.update h p (some (n.setChild d (some new))))
    (hfuel : c.depth < fuel) :
    Does (getAddedAt fuel tree (some p) new) h' (Relifts ((Context.frame d p s c).plug (.node .nil new .nil))) := by
  have hp : p ∈ ((Context.frame d p s c).plug .nil).toList := Context.parent_mem rfl
  have hne : new ≠ p := fun he => hnew (he ▸ hp)
  obtain ⟨n, hn⟩ := ht.holds.links.used hp
  obtain ⟨n₀, hn₀⟩ := hused
  have hh := hlinked n hn
  subst hh
  simp only [getAddedAt, initNode, does_bind, does_store, does_pure, ne_eq, hne, not_false_eq_true, Function.update_of_ne,
    hn₀, Option.some.injEq, exists_eq_left', Function.update_self]
  refine attach_relifts ht hnew (Function.update_self ..) (fun n' hn' => ?_) (fun q hqn hqp => ?_) hfuel
  · rw [update_other hne.symm, update_other hne.symm, Function.update_self, Option.some.inj (hn.symm.trans hn')]
  · rw [update_other hqn, update_other hqn, update_other hqp]

theorem getAddedAt_spec {d : Side} {p new tree : P} {s : BinTree P} {c : Context P} {fuel : ℕ}
    (ht : Avl h (some tree) ((Context.frame d p s c).plug .nil))
    (hnew : new ∉ ((Context.frame d p s c).plug .nil).toList) (hused : ∃ n, h new = some n)
    (hlinked : ∀ n, h p = some n → h' = Function.update h p (some (n.setChild d (some new))))
    (hfuel : c.depth < fuel) :
    Does (getAddedAt fuel tree (some p) new) h'
      (Rebalances ((Context.frame d p s c).plug (.node .nil new .nil)).toList) :=
  (getAddedAt_relifts ht hnew hused hlinked hfuel).mono fun _ _ => Relifts.rebalances

/-- A first node, which the caller made the root. -/
theorem getAddedAt_empty {new : P} {fuel : ℕ} (hused : ∃ n, h new = some n) :
    Does (getAddedAt fuel new none new) h (Rebalances [new]) := by
  obtain ⟨n, hn⟩ := hused
  simp only [getAddedAt, initNode, does_bind, does_store, does_pure, hn, Option.some.injEq, exists_eq_left',
    Function.update_self]
  exact ⟨_, initNode_avl (Function.update_self ..), rfl⟩

end Pclsync.PTree
