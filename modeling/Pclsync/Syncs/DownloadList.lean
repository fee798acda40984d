import Pclsync.PTree.Leaf
import Pclsync.PTree.Operations
import Pclsync.PTree.Deletion
import Pclsync.Lib.Transition
import Mathlib.Data.List.Perm.Subperm

/-! The list of the folders that are synced down, from `psyncer.c`: a tree ordered by folder id.

The loop of an addition goes on after it has linked the new node, from the node that it hangs from. -/
namespace Pclsync.Syncs.DownloadList
open Lib.BinaryTree Lib.HeapProgram Lib.Transition

/-- `synced_down_folder`. -/
structure Folder where
  tree : PTree.Node ℕ
  folderid : ℕ
deriving DecidableEq, Repr

abbrev Prog (α : Type) := Program ℕ Folder α

def Folder.setTree (f : Folder) (tree : PTree.Node ℕ) : Folder := { f with tree := tree }

/-- A function of the tree of nodes. -/
def onTree {α : Type} (x : PTree.Prog ℕ α) : Prog α := onPart Folder.tree Folder.setTree x

/-- `psync_new_sd_folder`: the node is not read before it is linked. -/
def newSdFolder (fresh folderid : ℕ) : Prog ℕ := do
  alloc fresh ⟨⟨none, none, none, 0⟩, folderid⟩
  return fresh

/-- A new folder at the null child of `f` on side `d`. -/
def addAt (d : Side) (fuel folderid tree fresh f : ℕ) : Prog ℕ := do
  let new ← newSdFolder fresh folderid
  store f fun c => { c with tree := c.tree.setChild d (some new) }
  onTree (PTree.getAddedAt fuel tree (some f) new)

/-- The loop of `psync_add_folder_to_downloadlist_locked`: the root and the next pointer that is not in use. -/
def addFrom (fuel folderid : ℕ) : ℕ → ℕ → ℕ → ℕ → Prog (ℕ × ℕ)
  | 0, _, _, _ => failure
  | rounds + 1, tree, fresh, f => do
    let c ← load f
    if folderid < c.folderid then
      match c.tree.left with
      | some left => addFrom fuel folderid rounds tree fresh left
      | none =>
        let tree ← addAt .left fuel folderid tree fresh f
        addFrom fuel folderid rounds tree (fresh + 1) f
    else if folderid > c.folderid then
      match c.tree.right with
      | some right => addFrom fuel folderid rounds tree fresh right
      | none =>
        let tree ← addAt .right fuel folderid tree fresh f
        addFrom fuel folderid rounds tree (fresh + 1) f
    else return (tree, fresh)

/-- `psync_add_folder_to_downloadlist_locked`. -/
def add (fuel folderid fresh : ℕ) : Option ℕ → Prog (ℕ × ℕ)
  | none => do
    let new ← newSdFolder fresh folderid
    return (← onTree (PTree.getAddAfter fuel none none new), fresh + 1)
  | some tree => addFrom fuel folderid fuel tree fresh tree

/-- The descent of `psync_del_folder_from_downloadlist` and `psync_is_folder_in_downloadlist`. -/
def find (folderid : ℕ) : ℕ → Option ℕ → Prog (Option ℕ)
  | _, none => return none
  | 0, some _ => failure
  | rounds + 1, some f => do
    let c ← load f
    if folderid < c.folderid then find folderid rounds c.tree.left
    else if folderid > c.folderid then find folderid rounds c.tree.right
    else return some f

/-- `psync_del_folder_from_downloadlist`. -/
def del (fuel folderid : ℕ) (tree : Option ℕ) : Prog (Option ℕ) := do
  match ← find folderid fuel tree with
  | none => return tree
  | some f =>
    let tree ← onTree (PTree.getDel fuel (← deref tree) f)
    free f
    return tree

/-- The memory, `synced_down_folders`, and the next pointer that is not in use. -/
structure State where
  heap : Heap ℕ Folder
  root : Option ℕ
  fresh : ℕ

/-- `synced_down_folders=PSYNC_TREE_EMPTY`. -/
def State.empty : State := ⟨fun _ => none, none, 0⟩

/-- How many turns a loop may take. -/
def State.fuel (s : State) : ℕ := 2 * s.fresh + 4

inductive Event where
  | add (folderid : ℕ)
  | del (folderid : ℕ)
deriving DecidableEq, Repr

def Event.folderid : Event → ℕ
  | add folderid | del folderid => folderid

/-- What a call leaves, or `none` where it does not come to its end. -/
def run (s : State) : Event → Option State
  | .add folderid => (add s.fuel folderid s.fresh s.root s.heap).map fun ((tree, fresh), heap) => ⟨heap, some tree, fresh⟩
  | .del folderid => (del s.fuel folderid s.root s.heap).map fun (tree, heap) => ⟨heap, tree, s.fresh⟩

/-- `psync_is_folder_in_downloadlist`. -/
def isFolderInDownloadlist (s : State) (folderid : ℕ) : Option Bool :=
  (find folderid s.fuel s.root s.heap).map fun (f, _) => f.isSome

/-- A folder id that goes between a leaf and the node whose only child that is. -/
def Squeezed (h : Heap ℕ Folder) (folderid : ℕ) : Prop :=
  ∃ d p e cp ce, h p = some cp ∧ h e = some ce ∧ cp.tree.left = none ∧ cp.tree.right = none ∧
    ce.tree.child d = some p ∧ ce.tree.child (Side.other d) = none ∧
    match d with
    | .left => cp.folderid < folderid ∧ folderid < ce.folderid
    | .right => ce.folderid < folderid ∧ folderid < cp.folderid

/-- The new node becomes the parent of the one that it was linked to. -/
def Drift (s : State) : Event → Prop
  | .add folderid => Squeezed s.heap folderid
  | .del _ => False

/-! ### The tree in memory -/

variable {h h' : Heap ℕ Folder} {root : Option ℕ} {c : Context ℕ} {t l r : BinTree ℕ} {p x : ℕ}

def trees (h : Heap ℕ Folder) : PTree.NodeHeap ℕ := parts Folder.tree h

def ids (h : Heap ℕ Folder) (p : ℕ) : ℕ := ((h p).map Folder.folderid).getD 0

theorem ids_of {f : Folder} (hp : h p = some f) : ids h p = f.folderid := by
  rw [ids, hp]
  rfl

def Sorted (h : Heap ℕ Folder) (list : List ℕ) : Prop := list.Pairwise fun p q => ids h p < ids h q

theorem toList_around : (c.plug (.node l p r)).toList = (c.before ++ l.toList) ++ p :: (r.toList ++ c.after) := by
  simp [Context.toList_plug]

/-- The cell of a node that a descent stands at. -/
theorem cell_at (ht : PTree.Avl (trees h) root (c.plug (.node l p r))) :
    ∃ f, h p = some f ∧ f.tree.left = l.root ∧ f.tree.right = r.root := by
  obtain ⟨-, ⟨⟨k, hcell⟩, -, -⟩⟩ := PTree.links_plug.mp ht.holds.links
  obtain ⟨f, hf, htree⟩ := Option.map_eq_some_iff.mp hcell
  exact ⟨f, hf, by rw [htree], by rw [htree]⟩

theorem sorted_at (hsorted : Sorted h (c.plug (.node l p r)).toList) :
    (∀ q ∈ c.before ++ l.toList, ids h q < ids h p) ∧ ∀ q ∈ r.toList ++ c.after, ids h p < ids h q := by
  rw [Sorted, toList_around, List.pairwise_append, List.pairwise_cons] at hsorted
  exact ⟨fun q hq => hsorted.2.2 q hq p (.head _), hsorted.2.1.1⟩

/-- What a search answers. -/
def Finds (h : Heap ℕ Folder) (list : List ℕ) (x : ℕ) : Option ℕ → Prop
  | none => ∀ p ∈ list, ids h p ≠ x
  | some p => p ∈ list ∧ ids h p = x

theorem find_spec {rounds : ℕ} (ht : PTree.Avl (trees h) root (c.plug t)) (hsorted : Sorted h (c.plug t).toList)
    (hbefore : ∀ q ∈ c.before, ids h q < x) (hafter : ∀ q ∈ c.after, x < ids h q) (hrounds : t.height ≤ rounds) :
    Does (find x rounds t.root) h fun q h' => h' = h ∧ Finds h (c.plug t).toList x q := by
  induction rounds generalizing c t with
  | zero =>
    obtain rfl := PTree.height_zero (Nat.le_zero.mp hrounds)
    refine does_pure.mpr ⟨rfl, fun q hq => ?_⟩
    rw [Context.toList_plug, BinTree.toList_nil, List.nil_append] at hq
    exact (List.mem_append.mp hq).elim (fun hq => (hbefore q hq).ne) fun hq => (hafter q hq).ne'
  | succ rounds ih =>
    cases t with
    | nil =>
      refine does_pure.mpr ⟨rfl, fun q hq => ?_⟩
      rw [Context.toList_plug, BinTree.toList_nil, List.nil_append] at hq
      exact (List.mem_append.mp hq).elim (fun hq => (hbefore q hq).ne) fun hq => (hafter q hq).ne'
    | node l p r =>
      obtain ⟨f, hf, hleft, hright⟩ := cell_at ht
      obtain ⟨hl, hr⟩ := sorted_at hsorted
      have hid := ids_of hf
      simp only [BinTree.height] at hrounds
      simp only [BinTree.root, find, does_bind, does_load, hf, Option.some.injEq, exists_eq_left', hleft, hright]
      split_ifs with hlt hgt
      · refine ih (c := .frame .left p r c) ht hsorted hbefore (fun q hq => ?_) (by omega)
        rcases List.mem_cons.mp hq with rfl | hq
        · omega
        · have := hr q hq
          omega
      · refine ih (c := .frame .right p l c) ht hsorted (fun q hq => ?_) hafter (by omega)
        rw [Context.before, ← List.append_assoc, List.mem_append, List.mem_singleton] at hq
        rcases hq with hq | rfl
        · have := hl q hq
          omega
        · omega
      · refine does_pure.mpr ⟨rfl, ?_, by omega⟩
        rw [toList_around]
        simp

/-! ### Functions of the tree of nodes -/

theorem avl_withParts {g : PTree.NodeHeap ℕ} (ht : PTree.Avl g root t) (hused : ∀ q ∈ t.toList, ∃ f, h q = some f) :
    PTree.Avl (trees (withParts Folder.setTree h g)) root t := by
  refine ht.frame fun q hq => ?_
  obtain ⟨f, hf⟩ := hused q hq
  obtain ⟨n, hn⟩ := ht.holds.links.used hq
  exact parts_withParts (fun _ _ => rfl) hf hn

theorem folderid_withParts {g : PTree.NodeHeap ℕ} (q : ℕ) :
    ((withParts Folder.setTree h g) q).map Folder.folderid = (h q).map Folder.folderid := by
  have hkeep : ∀ f tree, (Folder.setTree f tree).folderid = f.folderid := fun _ _ => rfl
  exact map_withParts hkeep q

/-- A node of the tree is in use. -/
theorem used_of_mem (ht : PTree.Avl (trees h) root t) (hp : p ∈ t.toList) : ∃ f, h p = some f := by
  obtain ⟨n, hn⟩ := ht.holds.links.used hp
  obtain ⟨f, hf, -⟩ := Option.map_eq_some_iff.mp hn
  exact ⟨f, hf⟩

/-! ### An addition -/

/-- The loop ends where it meets the folder. -/
theorem addFrom_found {fuel rounds tree fresh f q : ℕ} (ht : PTree.Avl (trees h) root (c.plug t)) (hsorted : Sorted h (c.plug t).toList)
    (hroot : t.root = some f) (hq : q ∈ t.toList) (hid : ids h q = x) (hrounds : t.height ≤ rounds) :
    Does (addFrom fuel x rounds tree fresh f) h fun res h' => h' = h ∧ res = (tree, fresh) := by
  induction rounds generalizing c t f with
  | zero =>
    obtain rfl := PTree.height_zero (Nat.le_zero.mp hrounds)
    cases hroot
  | succ rounds ih =>
    cases t with
    | nil => cases hroot
    | node l p r =>
      cases hroot
      obtain ⟨cell, hcell, hleft, hright⟩ := cell_at ht
      obtain ⟨hl, hr⟩ := sorted_at hsorted
      have hp := ids_of hcell
      have hside : (q ∈ l.toList ∧ x < cell.folderid) ∨ x = cell.folderid ∨ (q ∈ r.toList ∧ cell.folderid < x) := by
        rcases List.mem_append.mp hq with hq | hq
        · have := hl q (List.mem_append_right _ hq)
          exact .inl ⟨hq, by omega⟩
        · rcases List.mem_cons.mp hq with rfl | hq
          · exact .inr (.inl (by omega))
          · have := hr q (List.mem_append_left _ hq)
            exact .inr (.inr ⟨hq, by omega⟩)
      simp only [BinTree.height] at hrounds
      simp only [addFrom, does_bind, does_load, hcell, Option.some.injEq, exists_eq_left', hleft, hright]
      rcases hside with ⟨hql, hlt⟩ | rfl | ⟨hqr, hlt⟩
      · rw [if_pos hlt]
        cases hlroot : l.root with
        | none =>
          rw [PTree.root_eq_none hlroot] at hql
          cases hql
        | some left => exact ih (c := .frame .left f r c) ht hsorted hlroot hql (by omega)
      · rw [if_neg (lt_irrefl _), if_neg (lt_irrefl _)]
        exact does_pure.mpr ⟨rfl, rfl⟩
      · rw [if_neg hlt.asymm, if_pos hlt]
        cases hrroot : r.root with
        | none =>
          rw [PTree.root_eq_none hrroot] at hqr
          cases hqr
        | some right => exact ih (c := .frame .right f l c) ht hsorted hrroot hqr (by omega)

/-- The folder ids in memory, and one more. -/
def Gains (h h' : Heap ℕ Folder) (fresh x : ℕ) : Prop :=
  ∀ q, (h' q).map Folder.folderid = if q = fresh then some x else (h q).map Folder.folderid

theorem Gains.ids_eq {fresh q : ℕ} (hg : Gains h h' fresh x) : ids h' q = if q = fresh then x else ids h q := by
  unfold ids
  rw [hg q]
  split_ifs <;> rfl

theorem Gains.used {fresh q : ℕ} (hg : Gains h h' fresh x) (hq : q = fresh ∨ ∃ f, h q = some f) : ∃ f, h' q = some f := by
  have hgains := hg q
  split_ifs at hgains with hqf
  · obtain ⟨f, hf, -⟩ := Option.map_eq_some_iff.mp hgains
    exact ⟨f, hf⟩
  · obtain ⟨f, hf⟩ := hq.resolve_left hqf
    rw [hf, Option.map_some] at hgains
    obtain ⟨f', hf', -⟩ := Option.map_eq_some_iff.mp hgains
    exact ⟨f', hf'⟩

theorem addAt_spec {d : Side} {fuel tree fresh : ℕ} {s : BinTree ℕ} (ht : PTree.Avl (trees h) (some tree) ((Context.frame d p s c).plug .nil))
    (hfresh : h fresh = none) (hfuel : c.depth < fuel) :
    Does (addAt d fuel x tree fresh p) h fun tree' h' => Gains h h' fresh x ∧
      PTree.Relifts ((Context.frame d p s c).plug (.node .nil fresh .nil)) tree' (trees h') := by
  have hnew : fresh ∉ ((Context.frame d p s c).plug .nil).toList := fun hmem => by
    obtain ⟨f, hf⟩ := used_of_mem ht hmem
    cases hfresh.symm.trans hf
  have hp : p ∈ ((Context.frame d p s c).plug .nil).toList := Context.parent_mem rfl
  have hne : p ≠ fresh := fun he => hnew (he ▸ hp)
  obtain ⟨f, hf⟩ := used_of_mem ht hp
  simp only [addAt, newSdFolder, does_bind, does_alloc, does_pure, does_store, hfresh, true_and, update_other hne, hf, Option.some.injEq,
    exists_eq_left']
  -- the heap after the allocation, where the link is then set
  have hframe : PTree.Avl (trees (Function.update h fresh (some ⟨⟨none, none, none, 0⟩, x⟩))) (some tree) ((Context.frame d p s c).plug .nil) :=
    ht.frame fun q hq => by rw [trees, trees, parts, parts, update_other (ne_of_mem_of_not_mem hq hnew)]
  refine does_onPart.mpr ((PTree.getAddedAt_relifts hframe hnew ⟨⟨none, none, none, 0⟩, ?_⟩ (fun n hn => ?_) hfuel).mono ?_)
  · rw [trees, parts, Function.update_self]
    rfl
  · funext q
    rw [trees, parts, update_other hne, hf] at hn
    obtain rfl := Option.some.inj hn
    by_cases hqp : q = p
    · rw [hqp, parts, Function.update_self, Function.update_self]
      rfl
    · rw [parts, update_other hqp, update_other hqp]
      rfl
  · rintro tree' g ⟨t, hAvl, hrelifted⟩
    have hgains : Gains h (Function.update (Function.update h fresh (some ⟨⟨none, none, none, 0⟩, x⟩)) p
        (some ⟨f.tree.setChild d (some fresh), f.folderid⟩)) fresh x := fun q => by
      by_cases hqp : q = p
      · rw [hqp, Function.update_self, if_neg hne, hf]
        rfl
      · rw [update_other hqp]
        split_ifs with hqf
        · rw [hqf, Function.update_self]
          rfl
        · rw [update_other hqf]
    refine ⟨fun q => (folderid_withParts q).trans (hgains q), t, avl_withParts hAvl fun q hq => ?_, hrelifted⟩
    rw [hrelifted.toList_eq, Context.toList_plug, BinTree.toList_node, BinTree.toList_nil, List.nil_append, List.cons_append, List.nil_append,
      List.mem_append, List.mem_cons, or_left_comm] at hq
    refine hgains.used ?_
    rcases hq with rfl | hq
    · exact .inl rfl
    · refine .inr (used_of_mem ht ?_)
      rw [Context.toList_plug]
      exact List.mem_append.mpr hq

/-- The place between a leaf and the node whose only child that is, with the cells. -/
theorem cells_of_narrow {d : Side} {e : ℕ} (ht : PTree.Avl (trees h) root t) (hnarrow : PTree.Narrow d p e t) :
    ∃ cp ce, h p = some cp ∧ h e = some ce ∧ cp.tree.left = none ∧ cp.tree.right = none ∧ ce.tree.child d = some p ∧
      ce.tree.child d.other = none := by
  obtain ⟨c, rfl⟩ := hnarrow
  obtain ⟨-, hlinks⟩ := PTree.links_plug.mp ht.holds.links
  obtain ⟨⟨ke, he⟩, hnear, -⟩ := PTree.links_join.mp hlinks
  obtain ⟨⟨kp, hp⟩, -, -⟩ := PTree.links_join.mp hnear
  obtain ⟨ce, hce, hetree⟩ := Option.map_eq_some_iff.mp he
  obtain ⟨cp, hcp, hptree⟩ := Option.map_eq_some_iff.mp hp
  refine ⟨cp, ce, hcp, hce, ?_, ?_, ?_, ?_⟩
  · rw [hptree]
    cases d <;> rfl
  · rw [hptree]
    cases d <;> rfl
  · rw [hetree, PTree.of_child, BinTree.root_join]
  · rw [hetree, PTree.of_child_other]
    rfl

theorem squeezed_of_narrow {d : Side} {e fresh : ℕ} (ht : PTree.Avl (trees h) root t) (hnarrow : PTree.Narrow d p e t)
    (hfresh : h fresh = none) (hgains : Gains h h' fresh x)
    (hsorted : Sorted h' (c.plug (.join d (.join d .nil p (.node .nil fresh .nil)) e .nil)).toList) : Squeezed h x := by
  obtain ⟨cp, ce, hp, he, hleft, hright, hchild, hother⟩ := cells_of_narrow ht hnarrow
  refine ⟨d, p, e, cp, ce, hp, he, hleft, hright, hchild, hother, ?_⟩
  have hids : ids h' p = cp.folderid ∧ ids h' e = ce.folderid ∧ ids h' fresh = x := by
    have hpf : p ≠ fresh := fun heq => by
      rw [heq, hfresh] at hp
      cases hp
    have hef : e ≠ fresh := fun heq => by
      rw [heq, hfresh] at he
      cases he
    rw [hgains.ids_eq, hgains.ids_eq, hgains.ids_eq, if_neg hpf, if_neg hef, if_pos rfl, ids_of hp, ids_of he]
    exact ⟨rfl, rfl, rfl⟩
  rw [Sorted, Context.toList_plug, List.pairwise_append] at hsorted
  have hmid := (List.pairwise_append.mp hsorted.2.1).1
  rw [← hids.1, ← hids.2.1]
  rw [← hids.2.2]
  cases d with
  | left =>
    simp only [BinTree.join, BinTree.toList, List.nil_append, List.cons_append, List.pairwise_cons, List.mem_cons] at hmid
    exact ⟨hmid.1 fresh (.inl rfl), hmid.2.1 e (.inl rfl)⟩
  | right =>
    simp only [BinTree.join, BinTree.toList, List.nil_append, List.cons_append, List.pairwise_cons, List.mem_cons] at hmid
    exact ⟨hmid.1 fresh (.inl rfl), hmid.2.1 p (.inl rfl)⟩

/-- The folder is added, and the loop has met it. -/
structure Added (h h' : Heap ℕ Folder) (list : List ℕ) (fresh x root : ℕ) (t : BinTree ℕ) : Prop where
  gains : Gains h h' fresh x
  avl : PTree.Avl (trees h') (some root) t
  sorted : Sorted h' t.toList
  mem : ∀ q, q ∈ t.toList ↔ q = fresh ∨ q ∈ list

theorem sorted_hole {fresh : ℕ} (hsorted : Sorted h (c.plug .nil).toList) (hgains : Gains h h' fresh x) (hnew : fresh ∉ (c.plug .nil).toList)
    (hbefore : ∀ q ∈ c.before, ids h q < x) (hafter : ∀ q ∈ c.after, x < ids h q) :
    Sorted h' (c.plug (.node .nil fresh .nil)).toList := by
  have hsame : ∀ q ∈ (c.plug .nil).toList, ids h' q = ids h q := fun q hq => by
    rw [hgains.ids_eq, if_neg (ne_of_mem_of_not_mem hq hnew)]
  rw [Context.toList_plug, BinTree.toList_nil, List.nil_append] at hsorted hsame
  obtain ⟨hxs, hys, hacross⟩ := List.pairwise_append.mp hsorted
  have hx : ids h' fresh = x := by rw [hgains.ids_eq, if_pos rfl]
  have hb : ∀ q ∈ c.before, ids h' q = ids h q := fun q hq => hsame q (List.mem_append_left _ hq)
  have ha : ∀ q ∈ c.after, ids h' q = ids h q := fun q hq => hsame q (List.mem_append_right _ hq)
  rw [Context.toList_plug, BinTree.toList_node, BinTree.toList_nil, List.nil_append, List.cons_append, List.nil_append]
  refine List.pairwise_append.mpr ⟨hxs.imp_of_mem fun hp hq hlt => by rwa [hb _ hp, hb _ hq], List.pairwise_cons.mpr ⟨fun q hq => ?_,
    hys.imp_of_mem fun hp hq hlt => by rwa [ha _ hp, ha _ hq]⟩, fun p hp q hq => ?_⟩
  · rw [hx, ha q hq]
    exact hafter q hq
  · rw [hb p hp]
    rcases List.mem_cons.mp hq with rfl | hq
    · rw [hx]
      exact hbefore p hp
    · rw [ha q hq]
      exact hacross p hp q hq

theorem beside_hole {d : Side} {s : BinTree ℕ} {new : ℕ} :
    ∃ xs ys, ((Context.frame d p s c).plug (.node .nil new .nil)).toList = xs ++ (d.beside p new ++ ys) := by
  cases d with
  | left => exact ⟨c.before, s.toList ++ c.after, by simp [Context.toList_plug, Context.before, Context.after, Side.beside]⟩
  | right => exact ⟨c.before ++ s.toList, c.after, by simp [Context.toList_plug, Context.before, Context.after, Side.beside]⟩

/-- A link to the new folder, and the turn of the loop after it. -/
theorem link_spec {d : Side} {fuel rounds tree fresh : ℕ} {s : BinTree ℕ}
    (ht : PTree.Avl (trees h) (some tree) ((Context.frame d p s c).plug .nil)) (hsorted : Sorted h ((Context.frame d p s c).plug .nil).toList)
    (hbefore : ∀ q ∈ (Context.frame d p s c).before, ids h q < x) (hafter : ∀ q ∈ (Context.frame d p s c).after, x < ids h q)
    (hfresh : h fresh = none) (hsqueezed : ¬Squeezed h x) (hfuel : ((Context.frame d p s c).plug .nil).toList.length < fuel)
    (hrounds : ((Context.frame d p s c).plug .nil).toList.length < rounds) :
    Does (do
      let tree ← addAt d fuel x tree fresh p
      addFrom fuel x rounds tree (fresh + 1) p) h fun res h' =>
        res.2 = fresh + 1 ∧ ∃ t, Added h h' ((Context.frame d p s c).plug .nil).toList fresh x res.1 t := by
  have hnew : fresh ∉ ((Context.frame d p s c).plug .nil).toList := fun hmem => by
    obtain ⟨f, hf⟩ := used_of_mem ht hmem
    cases hfresh.symm.trans hf
  have hp : p ∈ ((Context.frame d p s c).plug .nil).toList := Context.parent_mem rfl
  have hdepth := Context.depth_le_length (.frame d p s c) .nil
  rw [does_bind]
  refine (addAt_spec ht hfresh (by simp only [Context.depth] at hdepth; omega)).mono ?_
  rintro tree' h' ⟨hgains, t, hAvl, hrelifted⟩
  have hleaf := sorted_hole hsorted hgains hnew hbefore hafter
  have hlist := hrelifted.toList_eq
  have hnodup : ((Context.frame d p s c).plug (.node .nil fresh .nil)).toList.Nodup := hlist ▸ hAvl.nodup
  have hbare : PTree.Bare fresh t := (hrelifted.bare hnodup).resolve_right fun hlifted => by
    obtain ⟨d', p', e', hnarrow, c', heq⟩ := hlifted
    exact hsqueezed (squeezed_of_narrow ht hnarrow hfresh hgains (heq ▸ hleaf))
  have hmem : ∀ q, q ∈ t.toList ↔ q = fresh ∨ q ∈ ((Context.frame d p s c).plug .nil).toList := fun q => by
    rw [hlist, Context.toList_plug, Context.toList_plug, BinTree.toList_node, BinTree.toList_nil, List.nil_append, List.nil_append, List.cons_append,
      List.nil_append, List.mem_append, List.mem_append, List.mem_cons, or_left_comm]
  have hsorted' : Sorted h' t.toList := by
    rw [hlist]
    exact hleaf
  obtain ⟨c', l, r, rfl⟩ := Context.exists_plug ((hmem p).mpr (.inr hp))
  have hbelow : fresh ∈ (BinTree.node l p r).toList := by
    obtain ⟨xs, ys, hbeside⟩ : ∃ xs ys, ((Context.frame d p s c).plug (.node .nil fresh .nil)).toList = xs ++ (d.beside p fresh ++ ys) :=
      beside_hole
    rw [BinTree.toList_node, List.mem_append, List.mem_cons]
    cases d with
    | left => exact .inl (hbare.below hAvl.nodup (hlist.trans hbeside))
    | right => exact .inr (.inr (hbare.below hAvl.nodup (hlist.trans hbeside)))
  have hlength : (BinTree.node l p r).height ≤ rounds := by
    have hheight := BinTree.height_le_length (.node l p r)
    have hpart : (c'.plug (.node l p r)).toList.length = ((Context.frame d p s c).plug .nil).toList.length + 1 := by
      rw [hlist]
      simp only [Context.toList_plug, BinTree.toList_node, BinTree.toList_nil, List.nil_append, List.cons_append, List.length_append, List.length_cons]
      omega
    rw [Context.toList_plug, List.length_append, List.length_append] at hpart
    omega
  refine (addFrom_found hAvl hsorted' rfl hbelow (by rw [hgains.ids_eq, if_pos rfl]) hlength).mono ?_
  rintro res h'' ⟨rfl, rfl⟩
  exact ⟨rfl, _, hgains, hAvl, hsorted', hmem⟩

/-- What the loop leaves. -/
def Adds (h h' : Heap ℕ Folder) (list : List ℕ) (tree fresh x : ℕ) (res : ℕ × ℕ) : Prop :=
  (h' = h ∧ res = (tree, fresh) ∧ ∃ q ∈ list, ids h q = x) ∨
    (res.2 = fresh + 1 ∧ (∀ q ∈ list, ids h q ≠ x) ∧ ∃ t, Added h h' list fresh x res.1 t)

/-- The loop of `psync_add_folder_to_downloadlist_locked`. -/
theorem addFrom_spec {fuel rounds tree fresh f : ℕ} (ht : PTree.Avl (trees h) (some tree) (c.plug t)) (hsorted : Sorted h (c.plug t).toList)
    (hroot : t.root = some f) (hbefore : ∀ q ∈ c.before, ids h q < x) (hafter : ∀ q ∈ c.after, x < ids h q) (hfresh : h fresh = none)
    (hsqueezed : ¬Squeezed h x) (hfuel : (c.plug t).toList.length < fuel) (hrounds : t.height + (c.plug t).toList.length < rounds) :
    Does (addFrom fuel x rounds tree fresh f) h fun res h' => Adds h h' (c.plug t).toList tree fresh x res := by
  induction rounds generalizing c t f with
  | zero => exact absurd hrounds (Nat.not_lt_zero _)
  | succ rounds ih =>
    cases t with
    | nil => cases hroot
    | node l p r =>
      obtain ⟨cell, hcell, hleft, hright⟩ := cell_at ht
      obtain ⟨hl, hr⟩ := sorted_at hsorted
      have hid := ids_of hcell
      have hbelow : ∀ q ∈ (Context.frame .right p l c).before, ids h q ≤ ids h p := fun q hq => by
        rw [Context.before, ← List.append_assoc, List.mem_append, List.mem_singleton] at hq
        exact hq.elim (fun hq => (hl q hq).le) fun hq => by rw [hq]
      have habove : ∀ q ∈ (Context.frame .left p r c).after, ids h p ≤ ids h q := fun q hq =>
        (List.mem_cons.mp hq).elim (fun hq => by rw [hq]) fun hq => (hr q hq).le
      obtain rfl : p = f := Option.some.inj hroot
      have hlone : ∀ c : Context ℕ, (∀ q ∈ c.before, ids h q < x) → (∀ q ∈ c.after, x < ids h q) →
          ∀ q ∈ (c.plug .nil).toList, ids h q ≠ x := fun c hb ha q hq => by
        rw [Context.toList_plug, BinTree.toList_nil, List.nil_append] at hq
        exact (List.mem_append.mp hq).elim (fun hq => (hb q hq).ne) fun hq => (ha q hq).ne'
      have hturns : l.height + (c.plug (.node l p r)).toList.length < rounds ∧ r.height + (c.plug (.node l p r)).toList.length < rounds := by
        simp only [BinTree.height] at hrounds
        omega
      simp only [addFrom, does_bind, does_load, hcell, Option.some.injEq, exists_eq_left', hleft, hright]
      split_ifs with hlt hgt
      · have hafter' : ∀ q ∈ (Context.frame .left p r c).after, x < ids h q := fun q hq => by
          have := habove q hq
          omega
        cases hlroot : l.root with
        | some left => exact ih (c := .frame .left p r c) ht hsorted hlroot hbefore hafter' hfuel hturns.1
        | none =>
          obtain rfl := PTree.root_eq_none hlroot
          refine (link_spec (d := .left) ht hsorted hbefore hafter' hfresh hsqueezed hfuel ?_).mono ?_
          · exact Nat.lt_of_le_of_lt (Nat.le_add_left _ _) hturns.1
          · rintro res h' ⟨hres, hadded⟩
            exact .inr ⟨hres, hlone (.frame .left p r c) hbefore hafter', hadded⟩
      · have hbefore' : ∀ q ∈ (Context.frame .right p l c).before, ids h q < x := fun q hq => by
          have := hbelow q hq
          omega
        cases hrroot : r.root with
        | some right => exact ih (c := .frame .right p l c) ht hsorted hrroot hbefore' hafter hfuel hturns.2
        | none =>
          obtain rfl := PTree.root_eq_none hrroot
          refine (link_spec (d := .right) ht hsorted hbefore' hafter hfresh hsqueezed hfuel ?_).mono ?_
          · exact Nat.lt_of_le_of_lt (Nat.le_add_left _ _) hturns.2
          · rintro res h' ⟨hres, hadded⟩
            exact .inr ⟨hres, hlone (.frame .right p l c) hbefore' hafter, hadded⟩
      · refine does_pure.mpr (.inl ⟨rfl, rfl, p, ?_, by omega⟩)
        rw [toList_around]
        simp

/-! ### Runs -/

/-- Every folder in memory is in the tree, which is ordered by the folder ids. -/
structure Good (s : State) (t : BinTree ℕ) : Prop where
  avl : PTree.Avl (trees s.heap) s.root t
  sorted : Sorted s.heap t.toList
  used : ∀ p f, s.heap p = some f → p ∈ t.toList
  below : ∀ p ∈ t.toList, p < s.fresh

theorem Good.length_le {s : State} (h : Good s t) : t.toList.length ≤ s.fresh := by
  have hsub : t.toList ⊆ List.range s.fresh := fun p hp => List.mem_range.mpr (h.below p hp)
  have hle := (List.subperm_of_subset h.avl.nodup hsub).length_le
  rwa [List.length_range] at hle

theorem Good.fresh_unused {s : State} (h : Good s t) : s.heap s.fresh = none := by
  cases hf : s.heap s.fresh with
  | none => rfl
  | some f => exact absurd (h.below _ (h.used _ _ hf)) (lt_irrefl _)

/-- The folder is in the list. -/
def State.Has (s : State) (x : ℕ) : Prop := ∃ p, (s.heap p).map Folder.folderid = some x

theorem Good.has_iff {s : State} (h : Good s t) : s.Has x ↔ ∃ q ∈ t.toList, ids s.heap q = x := by
  constructor
  · rintro ⟨p, hp⟩
    obtain ⟨f, hf, rfl⟩ := Option.map_eq_some_iff.mp hp
    exact ⟨p, h.used p f hf, ids_of hf⟩
  · rintro ⟨q, hq, rfl⟩
    obtain ⟨f, hf⟩ := used_of_mem h.avl hq
    exact ⟨q, by rw [hf, ids_of hf]; rfl⟩

theorem Good.find {s : State} (h : Good s t) (x : ℕ) : ∃ q, DownloadList.find x s.fuel s.root s.heap = some (q, s.heap) ∧ Finds s.heap t.toList x q := by
  have hheight := BinTree.height_le_length t
  have hlength := h.length_le
  have hspec := @find_spec _ _ .top _ x s.fuel h.avl h.sorted (fun _ hq => (nomatch hq)) (fun _ hq => (nomatch hq))
    (by simp only [State.fuel]; omega)
  rw [h.avl.root] at hspec
  obtain ⟨q, h', hrun, rfl, hfinds⟩ := hspec
  exact ⟨q, hrun, hfinds⟩

/-- `psync_is_folder_in_downloadlist` answers what is in memory. -/
theorem Good.isFolder {s : State} (h : Good s t) (x : ℕ) : ∃ b, isFolderInDownloadlist s x = some b ∧ (b = true ↔ s.Has x) := by
  obtain ⟨q, hrun, hfinds⟩ := h.find x
  refine ⟨q.isSome, by rw [isFolderInDownloadlist, hrun]; rfl, ?_⟩
  rw [h.has_iff]
  cases q with
  | none => exact ⟨fun hb => (nomatch hb), fun ⟨p, hp, hid⟩ => absurd hid (hfinds p hp)⟩
  | some p => exact ⟨fun _ => ⟨p, hfinds⟩, fun _ => rfl⟩

theorem add_spec {s : State} (h : Good s t) (hsqueezed : ¬Squeezed s.heap x) :
    Does (add s.fuel x s.fresh s.root) s.heap fun res h' =>
      (h' = s.heap ∧ some res.1 = s.root ∧ res.2 = s.fresh ∧ s.Has x) ∨
        res.2 = s.fresh + 1 ∧ ∃ t', Added s.heap h' t.toList s.fresh x res.1 t' := by
  have hfresh := h.fresh_unused
  have hlength := h.length_le
  have hheight := BinTree.height_le_length t
  cases hroot : s.root with
  | some tree =>
    have ht := h.avl
    rw [hroot] at ht
    refine (addFrom_spec (c := .top) ht h.sorted ht.root (fun _ hq => by cases hq) (fun _ hq => by cases hq) hfresh hsqueezed
      (by simp only [Context.plug, State.fuel]; omega) (by simp only [Context.plug, State.fuel]; omega)).mono ?_
    rintro res h' (⟨rfl, rfl, hthere⟩ | ⟨hres, -, hadded⟩)
    · exact .inl ⟨rfl, rfl, rfl, h.has_iff.mpr hthere⟩
    · exact .inr ⟨hres, hadded⟩
  | none =>
    obtain rfl := PTree.root_eq_none (h.avl.root.trans hroot)
    simp only [add, newSdFolder, does_bind, does_alloc, does_pure, hfresh, true_and]
    have hcell : trees (Function.update s.heap s.fresh (some ⟨⟨none, none, none, 0⟩, x⟩)) s.fresh = some ⟨none, none, none, 0⟩ := by
      rw [trees, parts, Function.update_self]
      rfl
    have hempty : PTree.Avl (trees (Function.update s.heap s.fresh (some ⟨⟨none, none, none, 0⟩, x⟩))) none .nil := by
      rw [← hroot]
      exact h.avl.frame fun q hq => by cases hq
    have hnode : ∀ p, (none : Option ℕ) = some p → p ∈ (BinTree.nil : BinTree ℕ).toList := fun _ heq => by cases heq
    refine does_onPart.mpr ((PTree.getAdd_spec hempty hnode (fun hmem => by cases hmem) ⟨_, hcell⟩
      (by simp only [BinTree.toList_nil, List.length_nil, State.fuel]; omega)).mono ?_)
    rintro tree g ⟨t', hAvl, hlist⟩
    have hlist' : t'.toList = [s.fresh] := hlist
    have hgains : Gains s.heap (withParts Folder.setTree (Function.update s.heap s.fresh (some ⟨⟨none, none, none, 0⟩, x⟩)) g) s.fresh x :=
      fun q => by
        rw [folderid_withParts]
        split_ifs with hq
        · rw [hq, Function.update_self]
          rfl
        · rw [update_other hq]
    refine .inr ⟨t', hgains, avl_withParts hAvl fun q hq => ?_, ?_, fun q => ?_⟩
    · rw [hlist', List.mem_singleton] at hq
      rw [hq, Function.update_self]
      exact ⟨_, rfl⟩
    · rw [hlist']
      exact List.pairwise_singleton _ _
    · rw [hlist', BinTree.toList_nil, List.mem_singleton]
      exact ⟨.inl, fun hq => hq.elim id fun hq => by cases hq⟩

/-- An addition, where the new node does not take the place of the one that it is linked to. -/
theorem good_add {s : State} (h : Good s t) (hsqueezed : ¬Squeezed s.heap x) :
    ∃ s' t', run s (.add x) = some s' ∧ Good s' t' ∧ ∀ y, s'.Has y ↔ y = x ∨ s.Has y := by
  obtain ⟨⟨tree, fresh⟩, h', hrun, hpost⟩ := add_spec h hsqueezed
  have hstep : run s (.add x) = some ⟨h', some tree, fresh⟩ := by
    rw [run, hrun]
    rfl
  rcases hpost with ⟨rfl, hroot, rfl, hthere⟩ | ⟨rfl, t', hadded⟩
  · refine ⟨s, t, ?_, h, fun y => ⟨.inr, fun hy => hy.elim (fun heq => heq ▸ hthere) id⟩⟩
    rw [hstep]
    dsimp only at hroot
    rw [hroot]
  · have hfresh := h.fresh_unused
    refine ⟨_, t', hstep, ⟨hadded.avl, hadded.sorted, fun p f hp => ?_, fun p hp => ?_⟩, fun y => ?_⟩
    · refine (hadded.mem p).mpr (or_iff_not_imp_left.mpr fun hpf => ?_)
      have hgains := hadded.gains p
      have hp' : h' p = some f := hp
      rw [if_neg hpf, hp', Option.map_some] at hgains
      obtain ⟨f', hf', -⟩ := Option.map_eq_some_iff.mp hgains.symm
      exact h.used p f' hf'
    · rcases (hadded.mem p).mp hp with rfl | hp
      · exact Nat.lt_succ_self _
      · exact Nat.lt_succ_of_lt (h.below p hp)
    · constructor
      · rintro ⟨q, hq⟩
        have hq' := (hadded.gains q).symm.trans hq
        split_ifs at hq' with hqf
        · exact .inl (Option.some.inj hq').symm
        · exact .inr ⟨q, hq'⟩
      · rintro (rfl | ⟨q, hq⟩)
        · exact ⟨s.fresh, (hadded.gains _).trans (if_pos rfl)⟩
        · have hqf : q ≠ s.fresh := fun heq => by
            rw [heq, hfresh] at hq
            cases hq
          exact ⟨q, (hadded.gains q).trans ((if_neg hqf).trans hq)⟩

theorem ids_inj {list : List ℕ} {q : ℕ} (hsorted : Sorted h list) (hp : p ∈ list) (hq : q ∈ list) (hid : ids h p = ids h q) : p = q := by
  have hids : list.Pairwise fun p q => ids h p ≠ ids h q := hsorted.imp fun hlt => hlt.ne
  exact List.inj_on_of_nodup_map (List.pairwise_map.mpr hids) hp hq hid

theorem del_spec {s : State} (h : Good s t) :
    Does (del s.fuel x s.root) s.heap fun tree h' =>
      (h' = s.heap ∧ tree = s.root ∧ ¬s.Has x) ∨
        ∃ p t', p ∈ t.toList ∧ ids s.heap p = x ∧ PTree.Avl (trees h') tree t' ∧ t'.toList = t.toList.erase p ∧
          ∀ q, (h' q).map Folder.folderid = if q = p then none else (s.heap q).map Folder.folderid := by
  obtain ⟨q, hrun, hfinds⟩ := h.find x
  have hfind : Does (find x s.fuel s.root) s.heap fun q' h' => q' = q ∧ h' = s.heap := ⟨q, _, hrun, rfl, rfl⟩
  have hlength := h.length_le
  rw [del, does_bind]
  refine hfind.mono ?_
  rintro q' h' ⟨heq, rfl⟩
  rw [heq]
  cases q with
  | none =>
    refine does_pure.mpr (.inl ⟨rfl, rfl, fun hhas => ?_⟩)
    obtain ⟨p, hp, hid⟩ := h.has_iff.mp hhas
    exact hfinds p hp hid
  | some p =>
    obtain ⟨hp, hid⟩ := hfinds
    have ht := h.avl
    cases hroot : s.root with
    | none =>
      rw [PTree.root_eq_none (h.avl.root.trans hroot)] at hp
      cases hp
    | some tree =>
      rw [hroot] at ht
      simp only [does_bind, does_deref_some]
      refine does_onPart.mpr ((PTree.getDel_spec ht hp (by simp only [State.fuel]; omega)).mono ?_)
      rintro tree' g ⟨t', hAvl, hlist⟩
      obtain ⟨f, hf⟩ := used_of_mem h.avl hp
      have hpf := folderid_withParts (h := s.heap) (g := g) p
      rw [hf] at hpf
      obtain ⟨f', hf', -⟩ := Option.map_eq_some_iff.mp hpf
      have hAvl' := avl_withParts hAvl fun q hq => used_of_mem h.avl (List.mem_of_mem_erase (hlist ▸ hq))
      have hout : p ∉ t'.toList := by
        rw [hlist]
        exact h.avl.nodup.not_mem_erase
      rw [does_free]
      refine ⟨f', hf', does_pure.mpr (.inr ⟨p, t', hp, hid, hAvl'.frame fun q hq => ?_, hlist, fun q => ?_⟩)⟩
      · rw [trees, trees, parts, parts, update_other (ne_of_mem_of_not_mem hq hout)]
      · split_ifs with hq
        · rw [hq, Function.update_self]
          rfl
        · rw [update_other hq, folderid_withParts]

theorem good_del {s : State} (h : Good s t) : ∃ s' t', run s (.del x) = some s' ∧ Good s' t' ∧ ∀ y, s'.Has y ↔ y ≠ x ∧ s.Has y := by
  obtain ⟨tree, h', hrun, hpost⟩ := del_spec h (x := x)
  have hstep : run s (.del x) = some ⟨h', tree, s.fresh⟩ := by
    rw [run, hrun]
    rfl
  rcases hpost with ⟨rfl, rfl, hnot⟩ | ⟨p, t', hp, hid, hAvl, hlist, hids⟩
  · exact ⟨s, t, hstep, h, fun y => ⟨fun hy => ⟨fun heq => hnot (heq ▸ hy), hy⟩, fun hy => hy.2⟩⟩
  · have hsame : ∀ q, q ≠ p → ids h' q = ids s.heap q := fun q hq => by
      rw [ids, hids q, if_neg hq, ids]
    have hout : ∀ q ∈ t.toList.erase p, q ≠ p := fun q hq heq => h.avl.nodup.not_mem_erase (heq ▸ hq)
    refine ⟨_, t', hstep, ⟨hAvl, ?_, fun q f hq => ?_, fun q hq => ?_⟩, fun y => ?_⟩
    · rw [hlist]
      exact (h.sorted.sublist List.erase_sublist).imp_of_mem fun ha hb hlt => by
        rwa [hsame _ (hout _ ha), hsame _ (hout _ hb)]
    · have hq' := hids q
      have hcell : h' q = some f := hq
      rw [hcell] at hq'
      split_ifs at hq' with hqp
      · cases hq'
      obtain ⟨f', hf', -⟩ := Option.map_eq_some_iff.mp hq'.symm
      rw [hlist]
      exact (List.mem_erase_of_ne hqp).mpr (h.used q f' hf')
    · exact h.below q (List.mem_of_mem_erase (hlist ▸ hq))
    · constructor
      · rintro ⟨q, hq⟩
        have hq' := (hids q).symm.trans hq
        split_ifs at hq' with hqp
        obtain ⟨f, hf, rfl⟩ := Option.map_eq_some_iff.mp hq'
        refine ⟨fun heq => hqp ?_, q, hq'⟩
        exact ids_inj h.sorted (h.used q f hf) hp (by rw [ids_of hf, hid, heq])
      · rintro ⟨hne, q, hq⟩
        have hqp : q ≠ p := fun heq => by
          obtain ⟨f, hf, rfl⟩ := Option.map_eq_some_iff.mp hq
          rw [heq] at hf
          exact hne (by rw [← hid, ids_of hf])
        exact ⟨q, (hids q).trans ((if_neg hqp).trans hq)⟩

/-- The last call that named the folder is an addition. -/
def LastAdds (calls : List Event) (x : ℕ) : Prop := (calls.filter fun e => e.folderid = x).getLast? = some (.add x)

theorem lastAdds_append {calls : List Event} {e : Event} :
    LastAdds (calls ++ [e]) x ↔ if e.folderid = x then e = .add x else LastAdds calls x := by
  have hfilter : [e].filter (fun e => e.folderid = x) = if e.folderid = x then [e] else [] := by
    simp [List.filter_cons]
  unfold LastAdds
  rw [List.filter_append, hfilter]
  split_ifs with hx
  · rw [List.getLast?_concat]
    exact Option.some_inj
  · rw [List.append_nil]

/-- The list, and the calls that were made of it. -/
def Step (s : State × List Event) (e : Event) (s' : State × List Event) : Prop := run s.1 e = some s'.1 ∧ s'.2 = s.2 ++ [e]

def Start (s : State × List Event) : Prop := s = (State.empty, [])

/-- No folder id is stored twice, the list has what the calls added and did not delete since, and the next call ends. -/
structure IsSet (s : State) (calls : List Event) : Prop where
  once : ∀ p q f g, s.heap p = some f → s.heap q = some g → f.folderid = g.folderid → p = q
  listed : ∀ x, ∃ b, isFolderInDownloadlist s x = some b ∧ (b = true ↔ LastAdds calls x)
  ends : ∀ e, ¬Drift s e → (run s e).isSome

theorem good_run {s : State} {calls : List Event} {e : Event} (h : Good s t) (hhas : ∀ x, s.Has x ↔ LastAdds calls x) (hdrift : ¬Drift s e) :
    ∃ s' t', run s e = some s' ∧ Good s' t' ∧ ∀ x, s'.Has x ↔ LastAdds (calls ++ [e]) x := by
  cases e with
  | add y =>
    obtain ⟨s', t', hrun, hgood, hhas'⟩ := good_add h hdrift
    refine ⟨s', t', hrun, hgood, fun x => ?_⟩
    rw [hhas', lastAdds_append, hhas, Event.folderid]
    split_ifs with hx
    · rw [hx]
      exact ⟨fun _ => rfl, fun _ => .inl rfl⟩
    · exact ⟨fun h => h.resolve_left (Ne.symm hx), .inr⟩
  | del y =>
    obtain ⟨s', t', hrun, hgood, hhas'⟩ := good_del h (x := y)
    refine ⟨s', t', hrun, hgood, fun x => ?_⟩
    rw [hhas', lastAdds_append, hhas, Event.folderid]
    split_ifs with hx
    · exact ⟨fun h => absurd hx.symm h.1, fun h => (nomatch h)⟩
    · exact ⟨fun h => h.2, fun h => ⟨Ne.symm hx, h⟩⟩

theorem good_empty : Good State.empty .nil :=
  ⟨⟨rfl, ⟨trivial, trivial⟩, trivial, .nil⟩, .nil, fun _ _ h => (nomatch h), fun _ h => (nomatch h)⟩

/-- In a run in which no new folder becomes the parent of the one that it was linked to, the download list is a set. -/
theorem isSet_of_reachable {s : State} {calls : List Event} (h : Reachable Start (Avoiding Step fun s => Drift s.1) (s, calls)) :
    IsSet s calls := by
  have hinv : ∃ t, Good s t ∧ ∀ x, s.Has x ↔ LastAdds calls x := by
    refine @Reachable.invariant _ _ _ _ (fun s => ∃ t, Good s.1 t ∧ ∀ x, s.1.Has x ↔ LastAdds s.2 x) _ h ?_ ?_
    · rintro s rfl
      exact ⟨.nil, good_empty, fun x => ⟨fun ⟨p, hp⟩ => (nomatch hp), fun hlast => (nomatch hlast)⟩⟩
    · rintro ⟨s, calls⟩ e ⟨s', calls'⟩ ⟨t, hgood, hhas⟩ ⟨⟨hrun, rfl⟩, hdrift⟩
      obtain ⟨s₁, t₁, hrun₁, hgood₁, hhas₁⟩ := good_run hgood hhas hdrift
      cases hrun₁.symm.trans hrun
      exact ⟨t₁, hgood₁, hhas₁⟩
  obtain ⟨t, hgood, hhas⟩ := hinv
  refine ⟨fun p q f g hp hq hid => ?_, fun x => ?_, fun e hdrift => ?_⟩
  · exact ids_inj hgood.sorted (hgood.used p f hp) (hgood.used q g hq) (by rw [ids_of hp, ids_of hq, hid])
  · obtain ⟨b, hb, hiff⟩ := hgood.isFolder x
    exact ⟨b, hb, hiff.trans (hhas x)⟩
  · obtain ⟨s', t', hrun, -⟩ := good_run hgood hhas hdrift
    rw [hrun]
    rfl

/-- One folder is added. -/
theorem isSet_one : ∃ s, run State.empty (.add 7) = some s ∧ IsSet s [.add 7] :=
  ⟨_, rfl, isSet_of_reachable (.next (.start (s := (State.empty, [])) rfl) (a := .add 7)
    ⟨⟨rfl, rfl⟩, fun ⟨_, _, _, _, _, h, _⟩ => (nomatch h)⟩)⟩

theorem reachable_runs {s s' : State} {calls : List Event} (calls' : List Event) (h : Reachable Start Step (s, calls))
    (hrun : calls'.foldlM run s = some s') : Reachable Start Step (s', calls ++ calls') := by
  induction calls' generalizing s calls with
  | nil =>
    cases hrun
    rwa [List.append_nil]
  | cons e calls' ih =>
    rw [List.foldlM_cons] at hrun
    obtain ⟨s₁, hs₁, hrest⟩ := Option.bind_eq_some_iff.mp hrun
    have hnext : Reachable Start Step (s₁, calls ++ [e]) := .next h ⟨hs₁, rfl⟩
    have hall := ih hnext hrest
    rwa [List.append_assoc, List.singleton_append] at hall

/-- Folder 2 goes between folder 1 and folder 3, and is added twice: one of the two stays when it is deleted. -/
theorem add_twice : ∃ s calls, Reachable Start Step (s, calls) ∧ ¬IsSet s calls := by
  have hlisted : (([.add 3, .add 1, .add 2, .del 2] : List Event).foldlM run State.empty).bind (fun s => isFolderInDownloadlist s 2) =
      some true := by
    decide
  obtain ⟨s, hrun, hs⟩ := Option.bind_eq_some_iff.mp hlisted
  refine ⟨s, _, reachable_runs _ (.start rfl) hrun, fun h => ?_⟩
  obtain ⟨b, hb, hiff⟩ := h.listed 2
  cases hs.symm.trans hb
  exact absurd (hiff.mp rfl) (by unfold LastAdds; decide)

end Pclsync.Syncs.DownloadList
