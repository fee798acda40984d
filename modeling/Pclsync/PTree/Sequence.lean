import Pclsync.PTree.Deletion

/-! Sequences of calls on one tree. -/
namespace Pclsync.PTree
open Lib.BinaryTree Lib.HeapProgram

variable {P : Type} [DecidableEq P] {h h' : NodeHeap P}

inductive Call (P : Type) where
  | addAfter (node : Option P) (newnode : P)
  | addBefore (node : Option P) (newnode : P)
  /-- The caller links the node at a null child slot first. -/
  | addedAt (parent : P) (slot : Side) (newnode : P)
  /-- The caller makes the node the root of an empty tree first. -/
  | addedFirst (newnode : P)
  | del (node : P)

/-- A call as its callers make it: the root of the tree after it. -/
def Call.run (fuel : ℕ) (tree : Option P) : Call P → Prog P (Option P)
  | addAfter node newnode => do return some (← getAddAfter fuel tree node newnode)
  | addBefore node newnode => do return some (← getAddBefore fuel tree node newnode)
  | addedAt parent slot newnode => do
    store parent fun n => n.setChild slot (some newnode)
    return some (← getAddedAt fuel (← deref tree) (some parent) newnode)
  | addedFirst newnode => do return some (← getAddedAt fuel newnode none newnode)
  | del node => do getDel fuel (← deref tree) node

/-- A node that a call may link: memory that no node of the tree is in. -/
def Fresh (h : NodeHeap P) (list : List P) (newnode : P) : Prop := newnode ∉ list ∧ ∃ n, h newnode = some n

/-- What a caller answers for, where the tree has the nodes `list`. -/
def Call.Ready (h : NodeHeap P) (list : List P) : Call P → Prop
  | addAfter node newnode | addBefore node newnode => (∀ p, node = some p → p ∈ list) ∧ Fresh h list newnode
  | addedAt parent slot newnode =>
    parent ∈ list ∧ (∃ n, h parent = some n ∧ n.child slot = none) ∧ Fresh h list newnode
  | addedFirst newnode => list = [] ∧ Fresh h list newnode
  | del node => node ∈ list

/-- The nodes in order after a call. -/
def Call.order (list : List P) : Call P → List P
  | addAfter node newnode => insertAt .right node newnode list
  | addBefore node newnode => insertAt .left node newnode list
  | addedAt parent slot newnode => insertBeside slot parent newnode list
  | addedFirst newnode => [newnode]
  | del node => list.erase node

/-- The heap, the root and the nodes in order after some calls. Between two calls the
rest of the heap is anybody's. -/
inductive Reached : NodeHeap P → Option P → List P → Prop where
  | empty (h : NodeHeap P) : Reached h none []
  | elsewhere {h h' tree list} : Reached h tree list → (∀ q ∈ list, h' q = h q) → Reached h' tree list
  | call {h h' tree tree' list} {c : Call P} {fuel : ℕ} : Reached h tree list → c.Ready h list →
      list.length < fuel → c.run fuel tree h = some (tree', h') → Reached h' tree' (c.order list)

omit [DecidableEq P] in
/-- A null child slot of a node is a hole of the tree. -/
theorem exists_hole {d : Side} {t : BinTree P} {root : Option P} {p : P} {n : Node P} (ht : Avl h root t)
    (hp : p ∈ t.toList) (hn : h p = some n) (hslot : n.child d = none) :
    ∃ s c, t = (Context.frame d p s c).plug .nil := by
  obtain ⟨c, l, r, rfl⟩ := Context.exists_plug hp
  obtain ⟨-, ⟨⟨k, hcell⟩, -, -⟩⟩ := links_plug.mp ht.holds.links
  obtain rfl := Option.some.inj (hn.symm.trans hcell)
  cases d
  · obtain rfl := root_eq_none (t := l) hslot
    exact ⟨r, c, rfl⟩
  · obtain rfl := root_eq_none (t := r) hslot
    exact ⟨l, c, rfl⟩

omit [DecidableEq P] in
theorem Avl.exists_root {t : BinTree P} {root : Option P} {p : P} (ht : Avl h root t) (hp : p ∈ t.toList) :
    ∃ tree, root = some tree := by
  cases root with
  | none =>
    rw [root_eq_none ht.root] at hp
    cases hp
  | some tree => exact ⟨tree, rfl⟩

omit [DecidableEq P] in
theorem leaves_some {x : Prog P P} {list : List P} (hx : Does x h (Rebalances list)) :
    Does (do return some (← x)) h (Leaves list) := by
  simp only [does_bind, does_pure]
  exact hx

/-- One call. -/
theorem call_spec {tree : Option P} {t : BinTree P} {c : Call P} {fuel : ℕ} (ht : Avl h tree t)
    (hready : c.Ready h t.toList) (hfuel : t.toList.length < fuel) :
    Does (c.run fuel tree) h (Leaves (c.order t.toList)) := by
  cases c with
  | addAfter node new =>
    obtain ⟨hnode, hnew, hused⟩ := hready
    exact leaves_some (getAdd_spec ht hnode hnew hused hfuel)
  | addBefore node new =>
    obtain ⟨hnode, hnew, hused⟩ := hready
    exact leaves_some (getAdd_spec ht hnode hnew hused hfuel)
  | addedAt parent slot new =>
    obtain ⟨hparent, ⟨n, hn, hslot⟩, hnew, hused⟩ := hready
    obtain ⟨tree, rfl⟩ := ht.exists_root hparent
    obtain ⟨s, c, rfl⟩ := exists_hole ht hparent hn hslot
    have hdepth : c.depth + 1 ≤ _ := Context.depth_le_length (.frame slot parent s c) .nil
    simp only [Call.run, does_bind, does_store, hn, Option.some.injEq, exists_eq_left', does_deref_some, does_pure]
    rw [Call.order, ← slot_plug ht.nodup]
    refine getAddedAt_spec (c := c) ht hnew hused (fun n' hn' => ?_) (Nat.lt_trans hdepth hfuel)
    rw [Option.some.inj (hn.symm.trans hn')]
  | addedFirst new =>
    obtain ⟨-, -, hused⟩ := hready
    exact leaves_some (getAddedAt_empty hused)
  | del node =>
    obtain ⟨tree, rfl⟩ := ht.exists_root hready
    simp only [Call.run, does_bind, does_deref_some]
    exact getDel_spec ht hready hfuel

/-- After any calls the heap holds a balanced tree of the nodes in order. -/
theorem reached_avl {tree : Option P} {list : List P} (hr : Reached h tree list) :
    ∃ t, Avl h tree t ∧ t.toList = list := by
  induction hr with
  | empty h => exact ⟨.nil, ⟨rfl, ⟨trivial, trivial⟩, trivial, List.nodup_nil⟩, rfl⟩
  | elsewhere _ hsame ih =>
    obtain ⟨t, ht, rfl⟩ := ih
    exact ⟨t, ht.frame hsame, rfl⟩
  | call _ hready hfuel hrun ih =>
    obtain ⟨t, ht, rfl⟩ := ih
    obtain ⟨tree', h'', hrun', hleaves⟩ := call_spec ht hready hfuel
    obtain ⟨rfl, rfl⟩ := Prod.mk.inj (Option.some.inj (hrun'.symm.trans hrun))
    exact hleaves

/-- `psync_tree_for_each` over a tree goes through its nodes. -/
theorem walk_of_avl {tree : Option P} {t : BinTree P} {fuel : ℕ} (ht : Avl h tree t) (hfuel : t.toList.length < fuel) :
    forEach fuel tree h = some (t.toList, h) := by
  obtain ⟨list, h', hrun, rfl, rfl⟩ := forEach_spec ht.holds.links ht.nodup hfuel
  rwa [← ht.root]

/-- After any calls the tree is balanced and its links and heights are right, and the
walk goes through its nodes in order; no further call stops at an assertion, and what it
leaves is such a tree again, with the one node more or less. -/
theorem calls_keep_tree {tree : Option P} {list : List P} (hr : Reached h tree list) :
    (∃ t, Avl h tree t ∧ t.toList = list) ∧
    (∀ fuel, list.length < fuel → forEach fuel tree h = some (list, h)) ∧
    ∀ (c : Call P) fuel, c.Ready h list → list.length < fuel → ∃ tree' h',
      c.run fuel tree h = some (tree', h') ∧ (∃ t', Avl h' tree' t' ∧ t'.toList = c.order list) ∧
      ∀ fuel', (c.order list).length < fuel' → forEach fuel' tree' h' = some (c.order list, h') := by
  obtain ⟨t, ht, rfl⟩ := reached_avl hr
  refine ⟨⟨t, ht, rfl⟩, fun fuel => walk_of_avl ht, fun c fuel hready hfuel => ?_⟩
  obtain ⟨tree', h', hrun, t', ht', horder⟩ := call_spec ht hready hfuel
  refine ⟨tree', h', hrun, ⟨t', ht', horder⟩, fun fuel' hfuel' => ?_⟩
  rw [← horder] at hfuel' ⊢
  exact walk_of_avl ht' hfuel'

theorem calls_keep_tree_two : ∃ (h : NodeHeap ℕ) (tree : Option ℕ), Reached h tree [1, 2] ∧
    forEach 3 tree h = some ([1, 2], h) ∧
    ∃ tree' h', (Call.del 1).run 3 tree h = some (tree', h') ∧ forEach 3 tree' h' = some ([2], h') := by
  obtain ⟨h₁, hone, hused⟩ : ∃ h : NodeHeap ℕ, Reached h (some 1) [1] ∧ ∃ n, h 2 = some n := by
    have hfirst : (Call.addedFirst 1).Ready (fun _ : ℕ => some ⟨none, none, none, 0⟩) [] := ⟨rfl, by simp, _, rfl⟩
    exact ⟨_, .call (.empty _) hfirst (by decide : 0 < 1) rfl, ⟨none, none, none, 0⟩, by simp⟩
  obtain ⟨-, -, hadd⟩ := calls_keep_tree hone
  have hready : (Call.addAfter (some 1) 2).Ready h₁ [1] := ⟨by simp, by simp, hused⟩
  obtain ⟨tree, h, hrun, -⟩ := hadd (.addAfter (some 1) 2) 2 hready (by decide)
  have htwo : Reached h tree [1, 2] := .call hone hready (by decide) hrun
  obtain ⟨-, hwalk, hdel⟩ := calls_keep_tree htwo
  obtain ⟨tree', h', hrun', -, hwalk'⟩ := hdel (.del 1) 3 (by simp [Call.Ready]) (by decide)
  exact ⟨h, tree, htwo, hwalk 3 (by decide), tree', h', hrun', hwalk' 3 (by decide)⟩

end Pclsync.PTree
