import Pclsync.PTree.Sequence

/-! Cells that hold the links of a node, found by a descent from the root and added where one ends.

The descents of the callers differ only in how a cell compares to what they look for. -/
namespace Pclsync.PTree
open Lib.BinaryTree Lib.HeapProgram

/-- Where a cell has its node. -/
structure Cells (P C : Type) where
  tree : C → Node P
  setTree : C → Node P → C
  tree_setTree : ∀ c n, tree (setTree c n) = n
  setTree_tree : ∀ c, setTree c (tree c) = c
  setTree_setTree : ∀ c n n', setTree (setTree c n) n' = setTree c n'

variable {P C : Type}

/-- A cell without its node. -/
def Cells.rest (E : Cells P C) (c : C) : C := E.setTree c ⟨none, none, none, 0⟩

def Cells.nodes (E : Cells P C) (h : Heap P C) : NodeHeap P := parts E.tree h

/-- The heap holds a balanced tree with these cells, in order. -/
def Cells.Keeps (E : Cells P C) (h : Heap P C) (root : Option P) (list : List P) : Prop := Leaves list root (E.nodes h)

/-- Only the nodes of the cells are others. -/
def Cells.Retains (E : Cells P C) (h h' : Heap P C) : Prop := ∀ q, (h' q).map E.rest = (h q).map E.rest

/-- A function of the tree of nodes. -/
def Cells.onTree {α : Type} (E : Cells P C) (x : Prog P α) : Program P C α := onPart E.tree E.setTree x

/-- The loop of a descent from a node: where it ends, and the side of the null child it falls off, if it does. -/
def Cells.descend (E : Cells P C) (cmp : C → Ordering) : ℕ → P → Program P C (P × Option Side)
  | 0, _ => failure
  | rounds + 1, p => do
    let c ← load p
    match cmp c with
    | .eq => return (p, none)
    | .lt =>
      match (E.tree c).left with
      | some left => Cells.descend E cmp rounds left
      | none => return (p, some .left)
    | .gt =>
      match (E.tree c).right with
      | some right => Cells.descend E cmp rounds right
      | none => return (p, some .right)

/-- The node that a descent finds. -/
def Cells.find (E : Cells P C) (cmp : C → Ordering) : ℕ → Option P → Program P C (Option P)
  | _, none => return none
  | 0, some _ => failure
  | rounds + 1, some p => do
    let c ← load p
    match cmp c with
    | .eq => return some p
    | .lt => Cells.find E cmp rounds (E.tree c).left
    | .gt => Cells.find E cmp rounds (E.tree c).right

/-- A new cell at the null child of a node. -/
def Cells.addAt [DecidableEq P] (E : Cells P C) (fuel : ℕ) (root : Option P) (p : P) (d : Side) (new : P) : Program P C (Option P) := do
  store p fun c => E.setTree c ((E.tree c).setChild d (some new))
  let root ← deref root
  return some (← E.onTree (getAddedAt fuel root (some p) new))

/-- A new cell as the root. -/
def Cells.addRoot [DecidableEq P] (E : Cells P C) (fuel : ℕ) (new : P) : Program P C (Option P) := do
  return some (← E.onTree (getAddedAt fuel new none new))

/-! ### The nodes of the cells -/

variable {E : Cells P C} {h h' : Heap P C} {root : Option P} {list : List P} {p new : P} {c : C} {cmp : C → Ordering} {fuel : ℕ}

theorem nodes_of (hp : h p = some c) : E.nodes h p = some (E.tree c) := by rw [Cells.nodes, parts, hp, Option.map_some]

theorem used_of_nodes {n : Node P} (hp : E.nodes h p = some n) : ∃ c, h p = some c ∧ E.tree c = n := Option.map_eq_some_iff.mp hp

theorem nodes_update [DecidableEq P] (p : P) (c : C) :
    E.nodes (Function.update h p (some c)) = Function.update (E.nodes h) p (some (E.tree c)) := by
  funext q
  by_cases hq : q = p
  · rw [hq, Function.update_self, nodes_of (Function.update_self ..)]
  · rw [update_other hq, Cells.nodes, Cells.nodes, parts, parts, update_other hq]

theorem Cells.Keeps.used (hk : E.Keeps h root list) (hp : p ∈ list) : ∃ c, h p = some c := by
  obtain ⟨t, ht, rfl⟩ := hk
  obtain ⟨n, hn⟩ := ht.holds.links.used hp
  obtain ⟨c, hc, -⟩ := used_of_nodes hn
  exact ⟨c, hc⟩

theorem Cells.Keeps.nodup (hk : E.Keeps h root list) : list.Nodup := by
  obtain ⟨t, ht, rfl⟩ := hk
  exact ht.nodup

/-- Cells that keep their nodes keep the tree. -/
theorem Cells.Keeps.frame (hk : E.Keeps h root list) (hsame : ∀ q ∈ list, E.nodes h' q = E.nodes h q) : E.Keeps h' root list := by
  obtain ⟨t, ht, rfl⟩ := hk
  exact ⟨t, ht.frame hsame, rfl⟩

theorem keeps_empty : E.Keeps h none [] := ⟨.nil, ⟨rfl, ⟨trivial, trivial⟩, trivial, List.nodup_nil⟩, rfl⟩

/-- `psync_tree_for_each` goes through the cells. -/
theorem forEach_cells [DecidableEq P] (hk : E.Keeps h root list) (hfuel : list.length < fuel) :
    Does (E.onTree (forEach fuel root)) h fun walked h' => h' = h ∧ walked = list := by
  obtain ⟨t, ht, rfl⟩ := hk
  have hwalk := forEach_spec ht.holds.links ht.nodup hfuel
  rw [ht.root] at hwalk
  refine does_onPart.mpr (hwalk.mono fun walked g hq => ?_)
  obtain ⟨rfl, rfl⟩ := hq
  exact ⟨withParts_parts E.setTree_tree, rfl⟩

/-- What a function of the nodes leaves of the rest. -/
theorem retains_withParts {g : NodeHeap P} : E.Retains h (withParts E.setTree h g) :=
  map_withParts fun c n => E.setTree_setTree c n _

theorem Cells.Retains.trans {h'' : Heap P C} (hr : E.Retains h h') (hr' : E.Retains h' h'') : E.Retains h h'' := fun q =>
  (hr' q).trans (hr q)

theorem retains_store [DecidableEq P] (hp : h p = some c) (n : Node P) : E.Retains h (Function.update h p (some (E.setTree c n))) := by
  intro q
  by_cases hq : q = p
  · rw [hq, Function.update_self, hp, Option.map_some, Option.map_some, Cells.rest, Cells.rest, E.setTree_setTree]
  · rw [update_other hq]

theorem Cells.Retains.used (hr : E.Retains h h') (hp : ∃ c, h p = some c) : ∃ c, h' p = some c := by
  obtain ⟨c, hp⟩ := hp
  have hmap := hr p
  rw [hp, Option.map_some, Option.map_eq_some_iff] at hmap
  exact ⟨_, hmap.choose_spec.1⟩

/-- A tree of the nodes is one of the cells. -/
theorem keeps_withParts {g : NodeHeap P} (hlist : ∀ q ∈ list, ∃ c, h q = some c) (hg : Leaves list root g) :
    E.Keeps (withParts E.setTree h g) root list := by
  obtain ⟨t, ht, rfl⟩ := hg
  refine ⟨t, ht.frame fun q hq => ?_, rfl⟩
  obtain ⟨c, hc⟩ := hlist q hq
  obtain ⟨n, hn⟩ := ht.holds.links.used hq
  exact parts_withParts E.tree_setTree hc hn

theorem node_of_root {t : BinTree P} {p : P} (hroot : t.root = some p) : ∃ l r, t = .node l p r := by
  cases t with
  | nil => cases hroot
  | node l q r =>
    obtain rfl := Option.some.inj hroot
    exact ⟨l, r, rfl⟩

/-! ### Descents -/

/-- How the cell of a node compares to what is looked for. -/
def compared (cmp : C → Ordering) (h : Heap P C) (p : P) : Ordering := ((h p).map cmp).getD .eq

theorem compared_of (hp : h p = some c) : compared cmp h p = cmp c := by rw [compared, hp, Option.map_some, Option.getD_some]

/-- What is looked for stands behind the first of two cells or before the second. -/
def Ascends (f : P → Ordering) (list : List P) : Prop := list.Pairwise fun p q => f p = .gt ∨ f q = .lt

theorem Ascends.around {f : P → Ordering} {l r : BinTree P} (h : Ascends f (BinTree.node l p r).toList) :
    Ascends f l.toList ∧ Ascends f r.toList ∧ (f p ≠ .gt → ∀ q ∈ r.toList, f q = .lt) ∧ (f p ≠ .lt → ∀ q ∈ l.toList, f q = .gt) := by
  obtain ⟨hl, hpr, hacross⟩ := List.pairwise_append.mp h
  obtain ⟨hp, hr⟩ := List.pairwise_cons.mp hpr
  exact ⟨hl, hr, fun hne q hq => (hp q hq).resolve_left hne, fun hne q hq => (hacross q hq p List.mem_cons_self).resolve_right hne⟩

/-- The cell of a node that a descent stands at. -/
theorem cell_of_links {parent : Option P} {l r : BinTree P} (hl : Links (E.nodes h) parent (.node l p r)) :
    ∃ c, h p = some c ∧ (E.tree c).left = l.root ∧ (E.tree c).right = r.root := by
  obtain ⟨⟨k, hcell⟩, -, -⟩ := hl
  obtain ⟨c, hc, htree⟩ := used_of_nodes hcell
  exact ⟨c, hc, by rw [htree], by rw [htree]⟩

/-- A descent only finds a cell that is equal. -/
theorem find_sound {parent : Option P} {t : BinTree P} {rounds : ℕ} (hl : Links (E.nodes h) parent t) (hrounds : t.height ≤ rounds) :
    Does (E.find cmp rounds t.root) h fun found h' => h' = h ∧ ∀ q, found = some q → q ∈ t.toList ∧ compared cmp h q = .eq := by
  induction t generalizing parent rounds with
  | nil => cases rounds <;> exact does_pure.mpr ⟨rfl, fun q hq => (nomatch hq)⟩
  | node l p r ihLeft ihRight =>
    cases rounds with
    | zero => exact absurd hrounds (Nat.not_succ_le_zero _)
    | succ rounds =>
      obtain ⟨c, hc, hleft, hright⟩ := cell_of_links hl
      obtain ⟨-, hl, hr⟩ := hl
      have hheight := Nat.le_of_succ_le_succ hrounds
      simp only [BinTree.root_node, Cells.find, does_bind, does_load, hc, Option.some.injEq, exists_eq_left', hleft, hright]
      cases hcmp : cmp c with
      | eq =>
        refine does_pure.mpr ⟨rfl, fun q hq => ?_⟩
        obtain rfl := Option.some.inj hq
        exact ⟨by simp, (compared_of hc).trans hcmp⟩
      | lt =>
        refine (ihLeft hl (le_trans (le_max_left _ _) hheight)).mono fun found h' hfound => ⟨hfound.1, fun q hq => ?_⟩
        exact ⟨List.mem_append_left _ (hfound.2 q hq).1, (hfound.2 q hq).2⟩
      | gt =>
        refine (ihRight hr (le_trans (le_max_right _ _) hheight)).mono fun found h' hfound => ⟨hfound.1, fun q hq => ?_⟩
        exact ⟨List.mem_append_right _ (List.mem_cons_of_mem _ (hfound.2 q hq).1), (hfound.2 q hq).2⟩

/-- A descent finds the cell that is equal, if there is one. -/
theorem find_spec {parent : Option P} {t : BinTree P} {rounds : ℕ} (hl : Links (E.nodes h) parent t)
    (hasc : Ascends (compared cmp h) t.toList) (hrounds : t.height ≤ rounds) :
    Does (E.find cmp rounds t.root) h fun found h' => h' = h ∧
      ∀ q, found = some q ↔ q ∈ t.toList ∧ compared cmp h q = .eq := by
  induction t generalizing parent rounds with
  | nil => cases rounds <;> exact does_pure.mpr ⟨rfl, fun q => by simp⟩
  | node l p r ihLeft ihRight =>
    cases rounds with
    | zero => exact absurd hrounds (Nat.not_succ_le_zero _)
    | succ rounds =>
      obtain ⟨c, hc, hleft, hright⟩ := cell_of_links hl
      obtain ⟨-, hl, hr⟩ := hl
      obtain ⟨hascLeft, hascRight, hbehind, hahead⟩ := hasc.around
      have hp : compared cmp h p = cmp c := compared_of hc
      have hheight := Nat.le_of_succ_le_succ hrounds
      simp only [BinTree.root_node, Cells.find, does_bind, does_load, hc, Option.some.injEq, exists_eq_left', hleft, hright]
      cases hcmp : cmp c with
      | eq =>
        rw [hcmp] at hp
        refine does_pure.mpr ⟨rfl, fun q => ⟨fun hq => ?_, fun hq => ?_⟩⟩
        · obtain rfl := Option.some.inj hq
          exact ⟨by simp, hp⟩
        · obtain ⟨hmem, heq⟩ := hq
          rcases List.mem_append.mp hmem with hmem | hmem
          · rw [hahead (by rw [hp]; decide) q hmem] at heq
            cases heq
          · rcases List.mem_cons.mp hmem with rfl | hmem
            · rfl
            · rw [hbehind (by rw [hp]; decide) q hmem] at heq
              cases heq
      | lt =>
        rw [hcmp] at hp
        refine (ihLeft hl hascLeft (le_trans (le_max_left _ _) hheight)).mono fun found h' hfound => ⟨hfound.1, fun q => ?_⟩
        rw [hfound.2 q, BinTree.toList_node, List.mem_append, List.mem_cons]
        refine ⟨fun hq => ⟨.inl hq.1, hq.2⟩, fun hq => ⟨hq.1.resolve_right ?_, hq.2⟩⟩
        have heq := hq.2
        rintro (rfl | hmem)
        · cases hp.symm.trans heq
        · cases (hbehind (by rw [hp]; decide) q hmem).symm.trans heq
      | gt =>
        rw [hcmp] at hp
        refine (ihRight hr hascRight (le_trans (le_max_right _ _) hheight)).mono fun found h' hfound => ⟨hfound.1, fun q => ?_⟩
        rw [hfound.2 q, BinTree.toList_node, List.mem_append, List.mem_cons]
        refine ⟨fun hq => ⟨.inr (.inr hq.1), hq.2⟩, fun hq => ⟨?_, hq.2⟩⟩
        obtain ⟨hmem, heq⟩ := hq
        rcases hmem with hmem | rfl | hmem
        · cases (hahead (by rw [hp]; decide) q hmem).symm.trans heq
        · cases hp.symm.trans heq
        · exact hmem

/-- Where a descent ends: at an equal cell, or at a null child between the cells it went right at and those it went left at. -/
def Ends (f : P → Ordering) (whole : BinTree P) : P × Option Side → Prop
  | (p, none) => p ∈ whole.toList ∧ f p = .eq
  | (p, some d) => ∃ s c, whole = (Context.frame d p s c).plug .nil ∧ (∀ q ∈ (Context.frame d p s c).before, f q = .gt) ∧
      ∀ q ∈ (Context.frame d p s c).after, f q = .lt

theorem descend_spec {l r : BinTree P} {c : Context P} {rounds : ℕ} (hl : Links (E.nodes h) c.parent (.node l p r))
    (hasc : Ascends (compared cmp h) (BinTree.node l p r).toList) (hbefore : ∀ q ∈ c.before, compared cmp h q = .gt)
    (hafter : ∀ q ∈ c.after, compared cmp h q = .lt) (hrounds : (BinTree.node l p r).height ≤ rounds) :
    Does (E.descend cmp rounds p) h fun found h' => h' = h ∧ Ends (compared cmp h) (c.plug (.node l p r)) found := by
  induction rounds generalizing l p r c with
  | zero => exact absurd hrounds (Nat.not_succ_le_zero _)
  | succ rounds ih =>
    obtain ⟨x, hx, hleft, hright⟩ := cell_of_links hl
    obtain ⟨-, hl, hr⟩ := hl
    obtain ⟨hascLeft, hascRight, hbehind, hahead⟩ := hasc.around
    have hp : compared cmp h p = cmp x := compared_of hx
    have hheight := Nat.le_of_succ_le_succ hrounds
    simp only [Cells.descend, does_bind, does_load, hx, Option.some.injEq, exists_eq_left', hleft, hright]
    cases hcmp : cmp x with
    | eq => exact does_pure.mpr ⟨rfl, by rw [Context.toList_plug]; simp, hp.trans hcmp⟩
    | lt =>
      have hlt : compared cmp h p = .lt := hp.trans hcmp
      have hrest : ∀ q ∈ (Context.frame .left p r c).after, compared cmp h q = .lt := by
        intro q hq
        rcases List.mem_append.mp hq with hq | hq
        · rcases List.mem_cons.mp hq with rfl | hq
          · exact hlt
          · exact hbehind (by rw [hlt]; decide) q hq
        · exact hafter q hq
      cases l with
      | nil => exact does_pure.mpr ⟨rfl, r, c, rfl, hbefore, hrest⟩
      | node l' p' r' =>
        exact ih (c := .frame .left p r c) hl hascLeft hbefore hrest (le_trans (le_max_left _ _) hheight)
    | gt =>
      have hgt : compared cmp h p = .gt := hp.trans hcmp
      have hrest : ∀ q ∈ (Context.frame .right p l c).before, compared cmp h q = .gt := by
        intro q hq
        rcases List.mem_append.mp hq with hq | hq
        · exact hbefore q hq
        · rcases List.mem_append.mp hq with hq | hq
          · exact hahead (by rw [hgt]; decide) q hq
          · rw [List.mem_singleton.mp hq]
            exact hgt
      cases r with
      | nil => exact does_pure.mpr ⟨rfl, l, c, rfl, hrest, hafter⟩
      | node l' p' r' =>
        exact ih (c := .frame .right p l c) hr hascRight hrest hafter (le_trans (le_max_right _ _) hheight)

/-! ### Additions -/

/-- A cell added where a descent fell off the tree. -/
theorem addAt_spec [DecidableEq P] {d : Side} {s : BinTree P} {c : Context P} (ht : Avl (E.nodes h) root ((Context.frame d p s c).plug .nil))
    (hnew : new ∉ ((Context.frame d p s c).plug .nil).toList) (hused : ∃ x, h new = some x) (hfuel : c.depth < fuel) :
    Does (E.addAt fuel root p d new) h fun root' h' => E.Retains h h' ∧
      E.Keeps h' root' ((Context.frame d p s c).before ++ new :: (Context.frame d p s c).after) := by
  have hp : p ∈ ((Context.frame d p s c).plug .nil).toList := Context.parent_mem rfl
  obtain ⟨n, hn⟩ := ht.holds.links.used hp
  obtain ⟨x, hx, rfl⟩ := used_of_nodes hn
  obtain ⟨tree, rfl⟩ := ht.exists_root hp
  have hlist : ((Context.frame d p s c).plug (.node .nil new .nil)).toList =
      (Context.frame d p s c).before ++ new :: (Context.frame d p s c).after := Context.toList_plug _ _
  have hretains := retains_store (E := E) hx ((E.tree x).setChild d (some new))
  simp only [Cells.addAt, does_bind, does_store, hx, Option.some.injEq, exists_eq_left', does_deref_some, does_pure]
  refine does_onPart.mpr ((getAddedAt_spec ht hnew ⟨_, nodes_of hused.choose_spec⟩ (fun n' hn' => ?_) hfuel).mono fun tree' g hg => ?_)
  · rw [← Cells.nodes, nodes_update, E.tree_setTree, Option.some.inj (hn.symm.trans hn')]
  · refine ⟨hretains.trans retains_withParts, keeps_withParts (fun q hq => ?_) (hlist ▸ hg)⟩
    refine hretains.used ?_
    rw [← hlist, Context.mem_plug_iff, BinTree.toList_node, BinTree.toList_nil, List.nil_append, List.mem_singleton] at hq
    rcases hq with rfl | hq
    · exact hused
    · obtain ⟨n', hn'⟩ := ht.holds.links.used (Context.mem_plug_iff.mpr (.inr hq))
      obtain ⟨y, hy, -⟩ := used_of_nodes hn'
      exact ⟨y, hy⟩

theorem addRoot_spec [DecidableEq P] (hused : ∃ x, h new = some x) :
    Does (E.addRoot fuel new) h fun root' h' => E.Retains h h' ∧ E.Keeps h' root' [new] := by
  obtain ⟨x, hx⟩ := hused
  simp only [Cells.addRoot, does_bind, does_pure]
  refine does_onPart.mpr ((getAddedAt_empty ⟨_, nodes_of hx⟩).mono fun tree g hg => ⟨retains_withParts, keeps_withParts (fun q hq => ?_) hg⟩)
  rw [List.mem_singleton.mp hq]
  exact ⟨x, hx⟩

end Pclsync.PTree
