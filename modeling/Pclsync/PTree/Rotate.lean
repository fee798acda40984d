import Pclsync.PTree.Links

/-! What the rotations do to a tree in the heap. -/
namespace Pclsync.PTree
open Lib.BinaryTree Lib.HeapProgram

variable {P : Type} [DecidableEq P] {h : NodeHeap P}

/-- A rotation, cell by cell. -/
theorem rotate_cells {d : Side} {e x : P} {parent px n m f : Option P} {k kx i j l : ℤ} (hex : e ≠ x)
    (he : h e = some (.of d n (some x) parent k)) (hx : h x = some (.of d m f px kx))
    (hn : rootHeight h n = some i) (hm : rootHeight h m = some j) (hf : rootHeight h f = some l)
    (hi : 0 ≤ i) (hne : n ≠ some e) (hnx : n ≠ some x) (hnm : ∀ y, m = some y → n ≠ some y) (hme : m ≠ some e)
    (hmx : m ≠ some x) (hfe : f ≠ some e) (hfx : f ≠ some x) (hfm : ∀ y, m = some y → f ≠ some y) :
    Does (rotate d e) h fun top h' => top = x ∧ h' e = some (.of d n m (some x) (max i j + 1)) ∧
      h' x = some (.of d (some e) f parent (max (max i j + 1) l + 1)) ∧
      (∀ y c, m = some y → h y = some c → h' y = some { c with parent := some e }) ∧
      ∀ q, q ≠ e → q ≠ x → m ≠ some q → h' q = h q := by
  have hxe : x ≠ e := hex.symm
  cases m with
  | none =>
    obtain rfl : 0 = j := Option.some.inj hm
    rw [Int.max_eq_left hi]
    simp only [rotate, does_bind, does_load, does_store, does_deref_some, does_pure, does_height, he, hx, hxe, hex, ne_eq,
      not_false_eq_true, Function.update_self, Function.update_of_ne, of_child, of_child_other, of_setChild,
      of_setChild_other, of_set, of_parent, Option.some.injEq, exists_eq_left', rootHeight_update, hn, hne, hnx]
    rw [does_recalc (d := d) (Function.update_self ..) (i := i + 1) (j := l)]
    · exact ⟨trivial, by simp [hex], by simp, by simp, fun q hqe hqx _ => by simp [hqe, hqx]⟩
    · simp [rootHeight, hex]
    · simp [hfx, hfe, hf]
  | some y =>
    have hye : y ≠ e := fun h => hme (congrArg some h)
    have hyx : y ≠ x := fun h => hmx (congrArg some h)
    have hny := hnm y rfl
    have hfy := hfm y rfl
    obtain ⟨c, hy, hj⟩ := Option.map_eq_some_iff.mp hm
    simp only [rotate, does_bind, does_load, does_store, does_deref_some, does_pure, he, hx, hy, hxe, hex, hye, hyx,
      ne_eq, not_false_eq_true, Function.update_self, Function.update_of_ne, of_child, of_child_other,
      of_setChild_other, of_set, of_parent, Option.some.injEq, exists_eq_left']
    rw [does_recalc (d := d) (n := n) (f := some y) (p := parent) (k := k) (i := i) (j := j)
      (by simp [hye.symm]) (by simp [hn, hne, hnx, hny]) (by simp [rootHeight, hj])]
    simp only [hxe, hyx.symm, ne_eq, not_false_eq_true, Function.update_self,
      Function.update_of_ne, of_setChild, of_set, Option.some.injEq, exists_eq_left']
    rw [does_recalc (d := d) (n := some e) (f := f) (p := parent) (k := kx) (i := max i j + 1) (j := l)
      (by simp) (by simp [rootHeight, hex]) (by simp [hf, hfe, hfx, hfy])]
    refine ⟨trivial, by simp [hex], by simp, fun y' c' hy' hc' => ?_, fun q hqe hqx hqy => ?_⟩
    · cases hy'
      cases hy.symm.trans hc'
      simp [hye, hyx]
    · have : q ≠ y := fun h => hqy h.symm
      simp [hqe, hqx, this]

/-- A rotation at `e`, whatever the stored height of `e` is: the tree it turns into hangs
where `e` did, and no other node changes. -/
theorem rotate_spec {d : Side} {e x : P} {parent px : Option P} {k kx : ℤ} {a b c : BinTree P}
    (he : h e = some (.of d a.root (some x) parent k)) (hx : h x = some (.of d b.root c.root px kx))
    (ha : Holds h (some e) a) (hb : Holds h (some x) b) (hc : Holds h (some x) c)
    (hnodup : (BinTree.join d (.join d a e b) x c).toList.Nodup) :
    Does (rotate d e) h fun top h' => top = x ∧ Holds h' parent (.join d (.join d a e b) x c) ∧
      ∀ q ∉ (BinTree.join d (.join d a e b) x c).toList, h' q = h q := by
  simp only [BinTree.toList_join, nodup_order, mem_order, not_or] at hnodup
  obtain ⟨⟨hxa, hxe, hxb⟩, hxc, ⟨hea, heb, hna, hnb, hab⟩, hnc, hdisj⟩ := hnodup
  have hdisj' : ∀ q, q ∈ a.toList ∨ q = e ∨ q ∈ b.toList → q ∉ c.toList := fun q hq => hdisj (mem_order.mpr hq)
  have hex : e ≠ x := fun he => hxe he.symm
  have hec : e ∉ c.toList := hdisj' e (.inr (.inl rfl))
  have hroot : ∀ y, b.root = some y → y ∈ b.toList := fun y => root_mem
  refine (rotate_cells hex he hx ha.rootHeight hb.rootHeight hc.rootHeight (Int.natCast_nonneg _) (root_ne hea)
    (root_ne hxa) (fun y hy => root_ne fun hya => hab hya (hroot y hy)) (root_ne heb) (root_ne hxb) (root_ne hec)
    (root_ne hxc) (fun y hy => root_ne (hdisj' y (.inr (.inr (hroot y hy)))))).mono ?_
  rintro top h' ⟨rfl, hcellE, hcellX, hcellB, hsame⟩
  simp only [BinTree.toList_join, mem_order, not_or]
  have hkeep : ∀ q, q ≠ e → q ≠ top → q ∉ b.toList → h' q = h q := fun q hqe hqx hqb =>
    hsame q hqe hqx (root_ne hqb)
  refine ⟨trivial, holds_join.mpr ⟨?_, holds_join.mpr ⟨?_, ?_, ?_⟩, ?_⟩, ?_⟩
  · rw [hcellX, BinTree.root_join, BinTree.height_join]
    push_cast
    rfl
  · rw [hcellE]
    push_cast
    rfl
  · exact ha.frame fun q hq => hkeep q (fun he => hea (he ▸ hq)) (fun he => hxa (he ▸ hq)) (hab hq)
  · refine hb.reparent hnb hcellB fun q hq hr => hsame q (fun he => heb (he ▸ hq)) (fun he => hxb (he ▸ hq)) hr
  · exact hc.frame fun q hq => hkeep q (fun he => hec (he ▸ hq)) (fun he => hxc (he ▸ hq))
      fun hqb => hdisj' q (.inr (.inr hqb)) hq
  · rintro q ⟨⟨-, hqe, hqb⟩, hqx, -⟩
    exact hkeep q hqe hqx hqb

/-! ### Rotating inside a tree -/

/-- A tree with `root` at its top has hung `s` in the hole of `c`, and nothing but the
link to it changed outside of `s`. -/
structure Hung (h h' : NodeHeap P) (c : Context P) (s : BinTree P) (root : P) : Prop where
  root : (c.plug s).root = some root
  around : LinksAround h' c s.root
  holds : Holds h' c.parent s
  heights : ∀ q ∉ s.toList, storedHeight h' q = storedHeight h q

theorem does_relink {d : Side} {p e : P} {f up : Option P} {k : ℤ} {x : Prog P (Option P)}
    {Q : Unit → NodeHeap P → Prop} (hp : h p = some (.of d (some e) f up k)) (hf : f ≠ some e) :
    Does (relink p e x) h Q ↔ Does x h fun new h' => Does (store p fun n => n.setChild d new) h' Q := by
  cases d
  · simp [relink, hp, Node.of, Node.setChild]
  · simp [relink, hp, Node.of, Node.setChild, hf]

omit [DecidableEq P] in
/-- A node in the hole, and the frame it hangs from. -/
theorem frame_cells {d : Side} {p e : P} {s t : BinTree P} {c : Context P}
    (hnodup : ((Context.frame d p s c).plug t).toList.Nodup) (he : e ∈ t.toList) :
    p ∉ t.toList ∧ e ∉ s.toList ∧ (p ∉ s.toList ∧ p ∉ c.before ∧ p ∉ c.after) := by
  obtain ⟨hjoin, hc⟩ := Context.nodup_plug (c := c) hnodup
  rw [BinTree.toList_join, nodup_order] at hjoin
  obtain ⟨hpt, hps, -, -, hts⟩ := hjoin
  have hp := hc p (by rw [BinTree.toList_join, mem_order]; exact .inr (.inl rfl))
  exact ⟨hpt, hts he, hps, hp⟩

/-- The tree that `rotateAt` hangs in place of the one `e` was the root of. -/
theorem rotateAt_spec {d : Side} {tree e x : P} {px : Option P} {k kx : ℤ} {a b f : BinTree P} {c : Context P}
    (he : h e = some (.of d a.root (some x) c.parent k)) (hx : h x = some (.of d b.root f.root px kx))
    (ha : Holds h (some e) a) (hb : Holds h (some x) b) (hf : Holds h (some x) f) (hc : LinksAround h c (some e))
    (hnodup : (c.plug (.join d (.join d a e b) x f)).toList.Nodup)
    (htree : (c.plug (.join d a e (.join d b x f))).root = some tree) :
    Does (rotateAt d tree e) h fun res h' => res.2 = c.parent ∧
      Hung h h' c (.join d (.join d a e b) x f) res.1 := by
  obtain ⟨hs, hcs⟩ := Context.nodup_plug hnodup
  have hmem : e ∈ (BinTree.join d (.join d a e b) x f).toList := by
    simp [mem_order]
  have hrot := rotate_spec he hx ha hb hf hs
  cases c with
  | top =>
    obtain rfl : e = tree := by simpa [Context.plug] using htree
    rw [rotateAt, if_pos rfl]
    simp only [does_bind, does_pure]
    refine hrot.mono ?_
    rintro top h' ⟨rfl, hholds, hsame⟩
    exact ⟨rfl, by simp [Context.plug], trivial, hholds, fun q hq => by rw [storedHeight, storedHeight, hsame q hq]⟩
  | frame d' p s c =>
    obtain ⟨hpt, hes, hnot⟩ := frame_cells hnodup hmem
    obtain ⟨⟨kp, hp⟩, -, -⟩ := id hc
    have htree' := htree.symm.trans (Context.root_plug_frame d' p s c _ .nil)
    have hne : e ≠ tree := by
      rintro rfl
      have := root_mem htree'.symm
      rw [Context.mem_plug_iff] at this
      exact this.elim (fun h => by cases h) fun h => h.elim (hcs e hmem).1 (hcs e hmem).2
    rw [rotateAt, if_neg hne]
    simp only [does_bind, does_load, he, Option.some.injEq, exists_eq_left', of_parent, Context.parent_frame,
      does_deref_some, does_relink hp (root_ne hes), does_map, does_store, does_pure]
    refine hrot.mono ?_
    rintro top h' ⟨rfl, hholds, hsame⟩
    refine ⟨_, (hsame p hpt).trans hp, trivial, ?_, ?_, ?_, ?_⟩
    · rw [htree', Context.root_plug_frame]
    · rw [BinTree.root_join]
      refine hc.rehole hp (by simp) hnot fun q hq hqp => ?_
      rw [update_other hqp]
      refine hsame q fun hqs => ?_
      have := hcs q hqs
      exact (Context.mem_frame.mpr (.inr hq)).elim this.1 this.2
    · exact hholds.frame fun q hq => update_other fun hqp => hpt (hqp ▸ hq)
    · intro q hq
      by_cases hqp : q = p
      · subst hqp
        rw [storedHeight_of hp, storedHeight_of (Function.update_self ..), of_setChild, of_height, of_height]
      · rw [storedHeight, storedHeight, update_other hqp, hsame q hq]

/-- The outer rotation of a node that is heavy on side `d`. -/
theorem rotateAt_heavy {d : Side} {tree e x : P} {k : ℤ} {a b r : BinTree P} {c : Context P}
    (he : h e = some (.of d (some x) r.root c.parent k)) (hl : Holds h (some e) (.join d a x b))
    (hr : Holds h (some e) r) (hc : LinksAround h c (some e))
    (hnodup : (c.plug (.join d (.join d a x b) e r)).toList.Nodup)
    (htree : (c.plug (.join d (.join d a x b) e r)).root = some tree) :
    Does (rotateAt d.other tree e) h fun res h' => res.2 = c.parent ∧
      Hung h h' c (.join d a x (.join d b e r)) res.1 := by
  obtain ⟨hx, ha, hb⟩ := holds_join.mp hl
  rw [Context.toList_plug_congr (BinTree.toList_rotate ..)] at hnodup
  simp only [← BinTree.join_other d] at hnodup htree ⊢
  exact rotateAt_spec (he.trans (congrArg some of_other.symm)) (hx.trans (congrArg some of_other.symm)) hr hb ha hc
    hnodup htree

/-- What the rotations make of a subtree that is heavy on side `d`. -/
inductive Lifts (d : Side) : BinTree P → BinTree P → Prop where
  | single {a b r : BinTree P} {x e : P} : b.height ≤ a.height →
    Lifts d (.join d (.join d a x b) e r) (.join d a x (.join d b e r))
  | double {a m o r : BinTree P} {x y e : P} : a.height < (BinTree.join d m y o).height →
    Lifts d (.join d (.join d a x (.join d m y o)) e r) (.join d (.join d a x m) y (.join d o e r))

omit [DecidableEq P] in
theorem Lifts.toList_eq {d : Side} {t s : BinTree P} (hl : Lifts d t s) : s.toList = t.toList := by
  cases hl with
  | single => exact (BinTree.toList_rotate ..).symm
  | double => rw [← BinTree.toList_rotate, BinTree.toList_join_congr (BinTree.toList_rotate ..)]

/-- The walks up bring a node back in balance: the subtree under it is as high as before
its heavy side grew, but where that side is even it is one level higher. -/
theorem fixHeavy_lifts {d : Side} {tree e : P} {k : ℤ} {l r : BinTree P} {c : Context P}
    (he : h e = some (.of d l.root r.root c.parent k)) (hl : Holds h (some e) l) (hr : Holds h (some e) r)
    (hc : LinksAround h c (some e)) (hbl : l.Balanced) (hbr : r.Balanced) (hheavy : l.height = r.height + 2)
    (hnodup : (c.plug (.join d l e r)).toList.Nodup) (htree : (c.plug (.join d l e r)).root = some tree) :
    Does (fixHeavy d tree e) h fun res h' => res.2 = c.parent ∧ ∃ s, Hung h h' c s res.1 ∧
      Lifts d (.join d l e r) s ∧ s.Balanced ∧
      (s.height = r.height + 2 ∨ s.height = r.height + 3 ∧ l.Even) := by
  rcases l.cases_join d with rfl | ⟨ll, x, lr, rfl⟩
  · exact absurd hheavy (by simp)
  obtain ⟨hx, hll, hlr⟩ := holds_join.mp hl
  rw [BinTree.balanced_join] at hbl
  obtain ⟨hll', hlr', hbll, hblr⟩ := hbl
  rw [BinTree.height_join] at hheavy
  rw [BinTree.root_join] at he
  simp only [fixHeavy, does_bind, does_load, does_height, he, Option.some.injEq, exists_eq_left', of_child, does_deref_some,
    hx, of_child_other, hlr.rootHeight, hll.rootHeight]
  by_cases hin : lr.height > ll.height
  · rw [if_pos (by omega)]
    rcases lr.cases_join d with rfl | ⟨m, y, o, rfl⟩
    · exact absurd hin (by simp)
    obtain ⟨hy, hm, ho⟩ := holds_join.mp hlr
    rw [BinTree.balanced_join] at hblr
    obtain ⟨hm', ho', hbm, hbo⟩ := hblr
    rw [BinTree.height_join] at hll' hlr' hheavy
    obtain ⟨hjoin, hout⟩ := Context.nodup_plug hnodup
    rw [BinTree.toList_join, nodup_order, ← BinTree.toList_rotate] at hjoin
    obtain ⟨hel, her, hnl, -, hlr''⟩ := hjoin
    simp only [does_bind, BinTree.root_join] at hx ⊢
    refine (rotate_spec hx hy hll hm ho hnl).mono ?_
    rintro top h₁ ⟨rfl, hholds, hsame⟩
    rw [does_store]
    refine ⟨_, (hsame e hel).trans he, ?_⟩
    rw [of_setChild]
    have hkeep : ∀ q, q ≠ e → q ∉ (BinTree.join d (.join d ll x m) top o).toList →
        Function.update h₁ e (some (.of d (some top) r.root c.parent k)) q = h q := fun q hqe hq =>
      (update_other hqe).trans (hsame q hq)
    have hmem : e ∈ (BinTree.join d (.join d ll x (.join d m top o)) e r).toList := by
      simp [mem_order]
    have hl₂ := hholds.frame fun q hq =>
      update_other (c := some (Node.of d (some top) r.root c.parent k)) fun hqe : q = e => hel (hqe ▸ hq)
    have hr₂ := hr.frame fun q hq => hkeep q (fun hqe => her (hqe ▸ hq)) fun hql => hlr'' hql hq
    have hc₂ := hc.frame fun q hq => by
      refine hkeep q (fun hqe => ?_) fun hql => ?_
      · exact hq.elim (hqe ▸ (hout e hmem).1) (hqe ▸ (hout e hmem).2)
      · have := hout q (by rw [BinTree.toList_join, mem_order, ← BinTree.toList_rotate]; exact .inl hql)
        exact hq.elim this.1 this.2
    have hlist : (BinTree.join d (.join d (.join d ll x m) top o) e r).toList =
        (BinTree.join d (.join d ll x (.join d m top o)) e r).toList :=
      BinTree.toList_join_congr (BinTree.toList_rotate ..)
    refine (rotateAt_heavy (Function.update_self ..) hl₂ hr₂ hc₂ ?_ ?_).mono ?_
    · rwa [Context.toList_plug_congr hlist]
    · rwa [Context.root_plug_congr (.join d (.join d ll x (.join d m top o)) e r) (by simp)]
    rintro res h' ⟨hparent, hung⟩
    refine ⟨hparent, _, { hung with heights := fun q hq => ?_ }, .double hin, ?_, ?_⟩
    · rw [← BinTree.toList_rotate, BinTree.toList_join, mem_order, not_or, not_or] at hq
      rw [hung.heights q (by rw [← BinTree.toList_rotate, BinTree.toList_join, mem_order, not_or, not_or]; exact hq),
        storedHeight, storedHeight, hkeep q hq.2.1 hq.1]
    · rw [BinTree.height_join] at hin
      simp only [BinTree.balanced_join, BinTree.height_join]
      exact ⟨by omega, by omega, ⟨by omega, by omega, hbll, hbm⟩, by omega, by omega, hbo, hbr⟩
    · rw [BinTree.height_join] at hin
      simp only [BinTree.height_join]
      omega
  · rw [if_neg (by omega)]
    refine (rotateAt_heavy he hl hr hc hnodup htree).mono ?_
    rintro res h' ⟨hparent, hung⟩
    refine ⟨hparent, _, hung, .single (not_lt.mp hin), ?_, ?_⟩
    · simp only [BinTree.balanced_join, BinTree.height_join]
      refine ⟨by omega, by omega, hbll, by omega, by omega, hblr, hbr⟩
    · simp only [BinTree.even_join, BinTree.height_join]
      omega

end Pclsync.PTree
