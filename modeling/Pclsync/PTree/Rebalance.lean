import Pclsync.PTree.Rotate

/-! The two walks that rebalance the tree from a node up.

Both find the tree around the node as it was before a subtree of the node changed its
height. `Grown` and `Shrunk` say what is stored at the node then, and each walk keeps
its one from a node to the parent. -/
namespace Pclsync.PTree
open Lib.BinaryTree Lib.HeapProgram

variable {P : Type} {h h' : NodeHeap P}

/-- The heap holds a balanced tree that hangs from `root`. -/
structure Avl (h : NodeHeap P) (root : Option P) (t : BinTree P) : Prop where
  root : t.root = root
  holds : Holds h none t
  balanced : t.Balanced
  nodup : t.toList.Nodup

/-- The tree around a hole, which was there when what hangs in the hole had height `k`. -/
structure Around (h : NodeHeap P) (c : Context P) (root : Option P) (k : ℕ) : Prop where
  links : LinksAround h c root
  stored : StoredAround h c k
  balanced : c.Balanced k

theorem Around.whole {c : Context P} {t : BinTree P} {root : Option P} (hc : Around h c t.root t.height)
    (ht : Holds h c.parent t) (hb : t.Balanced) (hnodup : (c.plug t).toList.Nodup) (hroot : (c.plug t).root = root) :
    Avl h root (c.plug t) :=
  ⟨hroot, ⟨links_plug.mpr ⟨hc.links, ht.links⟩, stored_plug.mpr ⟨hc.stored, ht.stored⟩⟩,
    Context.balanced_plug.mpr ⟨hc.balanced, hb⟩, hnodup⟩

/-- What is known of a node that a walk up looks at: the cell of `e`, with the height
`k` that is stored in it, its subtrees, and what is around it. -/
structure Focus (h : NodeHeap P) (c : Context P) (l : BinTree P) (e : P) (r : BinTree P) (k : ℕ) : Prop where
  cell : h e = some ⟨l.root, r.root, c.parent, k⟩
  left : Holds h (some e) l
  right : Holds h (some e) r
  around : Around h c (some e) k
  balancedLeft : l.Balanced
  balancedRight : r.Balanced
  nodup : (c.plug (.node l e r)).toList.Nodup

/-- `a` grew by one under a node where `k` is stored. -/
def Over (a b : BinTree P) (k : ℕ) : Prop :=
  k = a.height ∧ (a.height = b.height + 1 ∨ a.height = b.height + 2 ∧ ¬a.Even)

/-- One of the subtrees grew by one since `k` was stored. -/
def Grown (l r : BinTree P) (k : ℕ) : Prop :=
  (l.height = r.height ∧ k = l.height + 1) ∨ Over l r k ∨ Over r l k

/-- One of the subtrees may have shrunk by one since `k` was stored. -/
def Shrunk (l r : BinTree P) (k : ℕ) : Prop :=
  (l.height = r.height ∧ (k = l.height + 1 ∨ k = l.height + 2)) ∨
    (k = max l.height r.height + 1 ∧ l.height ≤ r.height + 2 ∧ r.height ≤ l.height + 2 ∧ l.height ≠ r.height)

theorem Grown.comm {l r : BinTree P} {k : ℕ} (hg : Grown l r k) : Grown r l k := by
  rcases hg with ⟨hlr, hk⟩ | hl | hr
  · exact .inl ⟨hlr.symm, hlr ▸ hk⟩
  · exact .inr (.inr hl)
  · exact .inr (.inl hr)

/-- What a walk up distinguishes after a subtree grew. -/
theorem Grown.cases {l r : BinTree P} {k : ℕ} (hg : Grown l r k) :
    (l.height = r.height ∧ k = l.height + 1) ∨
    ((l.height = r.height + 1 ∨ r.height = l.height + 1) ∧ k = max l.height r.height) ∨
    (l.height = r.height + 2 ∧ k = l.height ∧ ¬l.Even) ∨ (r.height = l.height + 2 ∧ k = r.height ∧ ¬r.Even) := by
  unfold Grown Over at hg
  rcases hg with hg | ⟨hk, hl | hl⟩ | ⟨hk, hr | hr⟩
  · exact .inl hg
  · exact .inr (.inl ⟨.inl hl, by omega⟩)
  · exact .inr (.inr (.inl ⟨hl.1, hk, hl.2⟩))
  · exact .inr (.inl ⟨.inr hr, by omega⟩)
  · exact .inr (.inr (.inr ⟨hr.1, hk, hr.2⟩))

theorem Shrunk.cases {l r : BinTree P} {k : ℕ} (hs : Shrunk l r k) :
    (l.height = r.height ∧ (k = l.height + 1 ∨ k = l.height + 2)) ∨
    ((l.height = r.height + 1 ∨ r.height = l.height + 1) ∧ k = max l.height r.height + 1) ∨
    (l.height = r.height + 2 ∧ k = l.height + 1) ∨ (r.height = l.height + 2 ∧ k = r.height + 1) := by
  unfold Shrunk at hs
  omega

theorem Shrunk.comm {l r : BinTree P} {k : ℕ} (hg : Shrunk l r k) : Shrunk r l k := by
  unfold Shrunk at *
  omega

theorem Focus.holds {c : Context P} {l r : BinTree P} {e : P} {k : ℕ} (hf : Focus h c l e r k)
    (hk : k = max l.height r.height + 1) : Holds h c.parent (.node l e r) :=
  holds_join (d := .left).mpr ⟨by rw [hf.cell, hk]; push_cast; rfl, hf.left, hf.right⟩

/-- A node on the way up is not among what is around it or under it. -/
theorem Focus.apart {c : Context P} {l r : BinTree P} {e : P} {k : ℕ} (hf : Focus h c l e r k) :
    e ∉ l.toList ∧ e ∉ r.toList ∧ e ∉ c.before ∧ e ∉ c.after := by
  obtain ⟨hnode, hc⟩ := Context.nodup_plug hf.nodup
  obtain ⟨hel, her, -⟩ := nodup_order (d := .left).mp hnode
  exact ⟨hel, her, hc e (by simp)⟩

/-- The height of a node put right. -/
theorem Focus.restore [DecidableEq P] {c : Context P} {l r : BinTree P} {e : P} {k : ℕ} {i : ℤ}
    (hf : Focus h c l e r k) (hi : i = max l.height r.height + 1)
    (hh : h' = Function.update h e (some ⟨l.root, r.root, c.parent, i⟩)) :
    Around h' c (some e) k ∧ Holds h' c.parent (.node l e r) := by
  obtain ⟨hel, her, hbefore, hafter⟩ := hf.apart
  have hsame : ∀ q, q ≠ e → h' q = h q := fun q hq => by rw [hh, update_other hq]
  have haround : ∀ q, q ∈ c.before ∨ q ∈ c.after → h' q = h q := by
    rintro q hq
    refine hsame q fun he => ?_
    subst he
    exact hq.elim hbefore hafter
  refine ⟨⟨hf.around.links.frame haround, hf.around.stored.frame fun q hq => ?_, hf.around.balanced⟩,
    holds_join (d := .left).mpr ⟨?_, ?_, ?_⟩⟩
  · rw [storedHeight, storedHeight, haround q hq]
  · rw [hh, Function.update_self, hi]
    push_cast
    rfl
  · exact hf.left.frame fun q hq => hsame q fun he => hel (he ▸ hq)
  · exact hf.right.frame fun q hq => hsame q fun he => her (he ▸ hq)

/-- What a walk finds at the parent of a subtree that took the place of one of height `k`. -/
theorem Around.up {d : Side} {p : P} {s t : BinTree P} {c : Context P} {k : ℕ}
    (hc : Around h (.frame d p s c) t.root k) (ht : Holds h (some p) t) (hb : t.Balanced)
    (hnodup : ((Context.frame d p s c).plug t).toList.Nodup) :
    ∃ l r, Focus h c l p r (max k s.height + 1) ∧ (Context.frame d p s c).plug t = c.plug (.node l p r) ∧
      (l = t ∧ r = s ∨ l = s ∧ r = t) := by
  obtain ⟨⟨i, hp⟩, hs, hlinks⟩ := hc.links
  obtain ⟨hi, hs', hstored⟩ := hc.stored
  obtain ⟨-, -, hbs, hbc⟩ := hc.balanced
  rw [storedHeight_of hp, of_height] at hi
  subst hi
  cases d
  · exact ⟨t, s, ⟨hp, ht, ⟨hs, hs'⟩, ⟨hlinks, hstored, hbc⟩, hb, hbs, hnodup⟩, rfl, .inl ⟨rfl, rfl⟩⟩
  · exact ⟨s, t, ⟨hp, ⟨hs, hs'⟩, ht, ⟨hlinks, hstored, hbc⟩, hbs, hb, hnodup⟩, rfl, .inr ⟨rfl, rfl⟩⟩

/-- A walk ends with a balanced tree of the nodes `list`. -/
def Rebalances (list : List P) (root : P) (h : NodeHeap P) : Prop := ∃ t, Avl h (some root) t ∧ t.toList = list

/-- The parent of a subtree that grew by one and is not even, or is new. -/
theorem grown_join {t s : BinTree P} {k : ℕ} (hle : k ≤ s.height + 1) (hge : s.height ≤ k + 1)
    (ht : t.height = k + 1) (hnot : ¬t.Even ∨ k = 0) : Grown t s (max k s.height + 1) := by
  unfold Grown Over
  rcases Nat.lt_trichotomy s.height k with hlt | heq | hgt
  · exact .inr (.inl ⟨by omega, .inr ⟨by omega, hnot.resolve_right (by omega)⟩⟩)
  · exact .inr (.inl ⟨by omega, .inl (by omega)⟩)
  · exact .inl ⟨by omega, by omega⟩

theorem shrunk_join {t s : BinTree P} {k : ℕ} (hle : k ≤ s.height + 1) (hge : s.height ≤ k + 1)
    (ht : t.height = k ∨ t.height + 1 = k) : Shrunk t s (max k s.height + 1) := by
  unfold Shrunk
  omega

section Walks
variable [DecidableEq P]

/-- A node with a heavy side, brought back in balance. -/
theorem Focus.fix_lifts {c : Context P} {l r : BinTree P} {e tree : P} {k : ℕ} (hf : Focus h c l e r k) {d : Side}
    {near far : BinTree P} (hsides : BinTree.node l e r = .join d near e far) (hheavy : near.height = far.height + 2)
    (htree : (c.plug (.node l e r)).root = some tree) :
    Does (fixHeavy d tree e) h fun res h' => res.2 = c.parent ∧ ∃ s, Around h' c s.root k ∧ Holds h' c.parent s ∧
      s.Balanced ∧ (c.plug s).root = some res.1 ∧ Lifts d (.node l e r) s ∧
      (s.height = far.height + 2 ∨ s.height = far.height + 3 ∧ near.Even) := by
  have hspec : Does (fixHeavy d tree e) h fun res h' => res.2 = c.parent ∧ ∃ s, Hung h h' c s res.1 ∧
      Lifts d (.join d near e far) s ∧ s.Balanced ∧
      (s.height = far.height + 2 ∨ s.height = far.height + 3 ∧ near.Even) := by
    have hnodup := hf.nodup
    rw [hsides] at hnodup htree
    cases d
    · cases hsides
      exact fixHeavy_lifts hf.cell hf.left hf.right hf.around.links hf.balancedLeft hf.balancedRight hheavy hnodup htree
    · cases hsides
      exact fixHeavy_lifts hf.cell hf.right hf.left hf.around.links hf.balancedRight hf.balancedLeft hheavy hnodup htree
  refine hspec.mono ?_
  rintro res h' ⟨hparent, s, hung, hlifts, hb, hs⟩
  rw [← hsides] at hlifts
  have hlist := hlifts.toList_eq
  have hout := (Context.nodup_plug hf.nodup).2
  refine ⟨hparent, s, ⟨hung.around, ?_, hf.around.balanced⟩, hung.holds, hb, hung.root, hlifts, hs⟩
  refine hf.around.stored.frame fun q hq => hung.heights q fun hqs => ?_
  have := hout q (hlist ▸ hqs)
  exact hq.elim this.1 this.2

theorem Focus.fix {c : Context P} {l r : BinTree P} {e tree : P} {k : ℕ} (hf : Focus h c l e r k) {d : Side}
    {near far : BinTree P} (hsides : BinTree.node l e r = .join d near e far) (hheavy : near.height = far.height + 2)
    (htree : (c.plug (.node l e r)).root = some tree) :
    Does (fixHeavy d tree e) h fun res h' => res.2 = c.parent ∧ ∃ s, Around h' c s.root k ∧ Holds h' c.parent s ∧
      s.Balanced ∧ (c.plug s).root = some res.1 ∧ (c.plug s).toList = (c.plug (.node l e r)).toList ∧
      (s.height = far.height + 2 ∨ s.height = far.height + 3 ∧ near.Even) :=
  (hf.fix_lifts hsides hheavy htree).mono fun _ _ ⟨hparent, s, haround, hholds, hb, hroot, hlifts, hs⟩ =>
    ⟨hparent, s, haround, hholds, hb, hroot, Context.toList_plug_congr hlifts.toList_eq, hs⟩

/-- A walk after an insertion leaves the tree, or lifts one subtree of it. -/
inductive Relifted : BinTree P → BinTree P → Prop where
  | same {t : BinTree P} : Relifted t t
  | lifted {d : Side} {c : Context P} {near far s : BinTree P} {e : P} : near.height = far.height + 2 →
    Lifts d (.join d near e far) s → Relifted (c.plug (.join d near e far)) (c.plug s)

omit [DecidableEq P] in
theorem Relifted.toList_eq {t s : BinTree P} (hr : Relifted t s) : s.toList = t.toList := by
  cases hr with
  | same => rfl
  | lifted _ hlifts => exact Context.toList_plug_congr hlifts.toList_eq

/-- A walk ends with a balanced tree, which is `t` but for one subtree that it lifts. -/
def Relifts (t : BinTree P) (root : P) (h : NodeHeap P) : Prop := ∃ s, Avl h (some root) s ∧ Relifted t s

omit [DecidableEq P] in
theorem Relifts.rebalances {t : BinTree P} {root : P} (hr : Relifts t root h) : Rebalances t.toList root h := by
  obtain ⟨s, hs, hrelifted⟩ := hr
  exact ⟨s, hs, hrelifted.toList_eq⟩

/-- Where a subtree grew, the rotations give the height from before. -/
theorem Focus.fix_grown {c : Context P} {l r : BinTree P} {e tree : P} {k : ℕ} (hf : Focus h c l e r k) {d : Side}
    {near far : BinTree P} (hsides : BinTree.node l e r = .join d near e far) (hheavy : near.height = far.height + 2)
    (hk : k = near.height) (hnot : ¬near.Even) (htree : (c.plug (.node l e r)).root = some tree) :
    Does (fixHeavy d tree e) h fun res => Relifts (c.plug (.node l e r)) res.1 := by
  refine (hf.fix_lifts hsides hheavy htree).mono ?_
  rintro res h' ⟨-, s, haround, hholds, hb, hroot, hlifts, hs⟩
  have hnodup : (c.plug s).toList.Nodup := by
    rw [Context.toList_plug_congr hlifts.toList_eq]
    exact hf.nodup
  have hheight : s.height = k := by
    rcases hs with hs | hs
    · omega
    · exact absurd hs.2 hnot
  refine ⟨_, Around.whole (hheight ▸ haround) hholds hb hnodup hroot, ?_⟩
  rw [hsides] at hlifts ⊢
  exact .lifted hheavy hlifts

theorem goUpRebalanceAdd_relifts {fuel : ℕ} {c : Context P} {l r : BinTree P} {e tree : P} {k : ℕ}
    (hf : Focus h c l e r k) (hg : Grown l r k) (htree : (c.plug (.node l e r)).root = some tree)
    (hfuel : c.depth < fuel) :
    Does (goUpRebalanceAdd tree fuel e) h (Relifts (c.plug (.node l e r))) := by
  induction fuel generalizing h c l r e k with
  | zero => exact absurd hfuel (Nat.not_lt_zero _)
  | succ fuel ih =>
    simp only [goUpRebalanceAdd, does_bind, does_load, hf.cell, Option.some.injEq, exists_eq_left', does_height,
      hf.left.rootHeight, hf.right.rootHeight]
    rcases hg.cases with hlr | hone | hheavy | hheavy
    · rw [if_pos (by omega), does_pure]
      have hk : (BinTree.node l e r).height = k := by
        simp only [BinTree.height]
        omega
      exact ⟨_, Around.whole (hk ▸ hf.around) (hf.holds hk.symm)
        ⟨by omega, by omega, hf.balancedLeft, hf.balancedRight⟩ hf.nodup htree, .same⟩
    · rw [if_neg (by omega), if_pos (by omega), does_bind, does_store]
      refine ⟨_, hf.cell, ?_⟩
      rw [does_bind, does_load]
      refine ⟨_, Function.update_self .., ?_⟩
      have hi : (r.height : ℤ) + ((l.height : ℤ) - r.height + 1) / 2 + 1 = max l.height r.height + 1 := by
        omega
      obtain ⟨haround, hholds⟩ := hf.restore hi rfl
      have hb : (BinTree.node l e r).Balanced := ⟨by omega, by omega, hf.balancedLeft, hf.balancedRight⟩
      cases c with
      | top =>
        obtain rfl : e = tree := Option.some.inj htree
        simp only [Context.parent_top, does_bind, does_assert, does_pure, true_and]
        exact ⟨_, Around.whole (c := .top) (t := .node l e r) ⟨trivial, trivial, trivial⟩ hholds hb hf.nodup rfl, .same⟩
      | frame d p s c =>
        obtain ⟨l', r', hup, hplug, hsides⟩ := haround.up hholds hb hf.nodup
        have hgrown : Grown l' r' (max k s.height + 1) := by
          have hbc := haround.balanced
          have hnot : ¬(BinTree.node l e r).Even := fun h : l.height = r.height => by omega
          have hk : (BinTree.node l e r).height = k + 1 := by
            simp only [BinTree.height]
            omega
          have hjoin := grown_join hbc.1 hbc.2.1 hk (.inl hnot)
          rcases hsides with ⟨rfl, rfl⟩ | ⟨rfl, rfl⟩
          · exact hjoin
          · exact hjoin.comm
        rw [hplug] at htree ⊢
        exact ih hup hgrown htree (Nat.lt_of_succ_lt_succ hfuel)
    · rw [if_neg (by omega), if_neg (by omega), if_pos (by omega)]
      simp only [does_bind, does_pure]
      obtain ⟨hl, hk, hnot⟩ := hheavy
      exact hf.fix_grown (d := .left) rfl hl hk hnot htree
    · rw [if_neg (by omega), if_neg (by omega), if_neg (by omega)]
      have hassert : (l.height : ℤ) - r.height = -2 := by omega
      simp only [does_bind, does_assert, does_pure, hassert, true_and]
      obtain ⟨hr, hk, hnot⟩ := hheavy
      exact hf.fix_grown (d := .right) rfl hr hk hnot htree

/-- What a walk up after a deletion does next: it goes on at the parent of a subtree that
may have shrunk, or it is at the root. -/
theorem goUpRebalanceDel_next (fuel : ℕ) {c : Context P} {t : BinTree P} {tree : P} {k : ℕ} (hc : Around h c t.root k)
    (ht : Holds h c.parent t) (hb : t.Balanced) (hk : t.height = k ∨ t.height + 1 = k)
    (hnodup : (c.plug t).toList.Nodup) (hroot : (c.plug t).root = some tree)
    (ih : ∀ {c' : Context P} {l r : BinTree P} {e : P} {k : ℕ}, Focus h c' l e r k → Shrunk l r k →
      (c'.plug (.node l e r)).root = some tree → c'.depth + 1 = c.depth →
      Does (goUpRebalanceDel fuel tree e) h (Rebalances (c'.plug (.node l e r)).toList)) :
    match c.parent with
    | some up => Does (goUpRebalanceDel fuel tree up) h (Rebalances (c.plug t).toList)
    | none => t.root = some tree ∧ Rebalances (c.plug t).toList tree h := by
  cases c with
  | top => exact ⟨hroot, t, Around.whole (c := .top) ⟨trivial, trivial, trivial⟩ ht hb hnodup hroot, rfl⟩
  | frame d p s c =>
    obtain ⟨l, r, hup, hplug, hsides⟩ := hc.up ht hb hnodup
    have hshrunk : Shrunk l r (max k s.height + 1) := by
      have hjoin := shrunk_join hc.balanced.1 hc.balanced.2.1 hk
      rcases hsides with ⟨rfl, rfl⟩ | ⟨rfl, rfl⟩
      · exact hjoin
      · exact hjoin.comm
    rw [hplug] at hroot ⊢
    exact ih hup hshrunk hroot rfl

/-- After the rotations the walk goes on at the parent, from a subtree of height `k` or `k - 1`. -/
theorem Focus.fix_next {fuel : ℕ} {c : Context P} {l r near far : BinTree P} {e tree : P} {k : ℕ} {d : Side}
    (hf : Focus h c l e r k) (hsides : BinTree.node l e r = .join d near e far) (hheavy : near.height = far.height + 2)
    (hk : k = near.height + 1) (htree : (c.plug (.node l e r)).root = some tree)
    (ih : ∀ {h' : NodeHeap P} {c' : Context P} {l r : BinTree P} {e tree : P} {k : ℕ}, Focus h' c' l e r k → Shrunk l r k →
      (c'.plug (.node l e r)).root = some tree → c'.depth + 1 = c.depth →
      Does (goUpRebalanceDel fuel tree e) h' (Rebalances (c'.plug (.node l e r)).toList)) :
    Does (fixHeavy d tree e) h fun res h' => Does (match res with
      | (tree, some up) => goUpRebalanceDel fuel tree up
      | (tree, none) => pure tree) h' (Rebalances (c.plug (.node l e r)).toList) := by
  refine (hf.fix hsides hheavy htree).mono ?_
  rintro ⟨tree', up⟩ h' ⟨rfl, s, haround, hholds, hb, hroot, hlist, hheight⟩
  have hnext := goUpRebalanceDel_next fuel haround hholds hb (by omega) (hlist ▸ hf.nodup) hroot
    fun hf' hs' ht hd => ih hf' hs' ht hd
  rw [hlist] at hnext
  cases c with
  | top => exact does_pure.mpr hnext.2
  | frame d p s c => exact hnext

theorem goUpRebalanceDel_spec {fuel : ℕ} {c : Context P} {l r : BinTree P} {e tree : P} {k : ℕ}
    (hf : Focus h c l e r k) (hs : Shrunk l r k) (htree : (c.plug (.node l e r)).root = some tree)
    (hfuel : c.depth < fuel) :
    Does (goUpRebalanceDel fuel tree e) h (Rebalances (c.plug (.node l e r)).toList) := by
  induction fuel generalizing h c l r e k tree with
  | zero => exact absurd hfuel (Nat.not_lt_zero _)
  | succ fuel ih =>
    simp only [goUpRebalanceDel, does_bind, does_load, hf.cell, Option.some.injEq, exists_eq_left', does_height,
      hf.left.rootHeight, hf.right.rootHeight]
    rcases hs.cases with hlr | hone | hheavy | hheavy
    · rw [if_pos (by omega), does_bind, does_store]
      refine ⟨_, hf.cell, ?_⟩
      rw [does_bind, does_load]
      refine ⟨_, Function.update_self .., ?_⟩
      have hi : (r.height : ℤ) + 1 = max l.height r.height + 1 := by omega
      obtain ⟨haround, hholds⟩ := hf.restore hi rfl
      have hb : (BinTree.node l e r).Balanced := ⟨by omega, by omega, hf.balancedLeft, hf.balancedRight⟩
      have hk : (BinTree.node l e r).height = k ∨ (BinTree.node l e r).height + 1 = k := by
        simp only [BinTree.height]
        omega
      have hnext := goUpRebalanceDel_next fuel haround hholds hb hk hf.nodup htree fun hf' hs' ht hd =>
        ih hf' hs' ht (by omega)
      cases c with
      | top =>
        obtain ⟨hroot, hdone⟩ := hnext
        obtain rfl : e = tree := Option.some.inj hroot
        simpa only [Context.parent_top, does_bind, does_assert, does_pure, true_and] using hdone
      | frame d p s c => exact hnext
    · rw [if_neg (by omega), if_pos (by omega), does_pure]
      have hk : (BinTree.node l e r).height = k := by
        simp only [BinTree.height]
        omega
      exact ⟨_, Around.whole (hk ▸ hf.around) (hf.holds hk.symm)
        ⟨by omega, by omega, hf.balancedLeft, hf.balancedRight⟩ hf.nodup htree, rfl⟩
    · rw [if_neg (by omega), if_neg (by omega), if_pos (by omega), does_bind]
      exact hf.fix_next (d := .left) rfl hheavy.1 (by omega) htree fun hf' hs' ht hd => ih hf' hs' ht (by omega)
    · rw [if_neg (by omega), if_neg (by omega), if_neg (by omega)]
      have hassert : (l.height : ℤ) - r.height = -2 := by omega
      simp only [does_bind, does_assert, hassert, true_and]
      exact hf.fix_next (d := .right) rfl hheavy.1 (by omega) htree fun hf' hs' ht hd => ih hf' hs' ht (by omega)

end Walks

end Pclsync.PTree
