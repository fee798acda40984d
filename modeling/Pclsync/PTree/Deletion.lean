import Pclsync.PTree.Operations

/-! Deletion: a node with one subtree gives its place to the subtree, a node with two to
its neighbour on the higher side. -/
namespace Pclsync.PTree
open Lib.BinaryTree Lib.HeapProgram

variable {P : Type} [DecidableEq P] {h h' : NodeHeap P}

/-- A deletion ends with a balanced tree of the nodes `list`, which may be empty. -/
def Leaves (list : List P) (root : Option P) (h : NodeHeap P) : Prop := ∃ t, Avl h root t ∧ t.toList = list

/-- The walk up from a hole whose tree was one higher. -/
theorem goUpFromHole {fuel : ℕ} {d : Side} {p tree : P} {s t : BinTree P} {c : Context P}
    (hc : Around h (.frame d p s c) t.root (t.height + 1)) (ht : Holds h (some p) t) (hb : t.Balanced)
    (hnodup : ((Context.frame d p s c).plug t).toList.Nodup)
    (hroot : ((Context.frame d p s c).plug t).root = some tree) (hfuel : c.depth < fuel) :
    Does (goUpRebalanceDel fuel tree p) h (Rebalances ((Context.frame d p s c).plug t).toList) :=
  goUpRebalanceDel_next fuel hc ht hb (.inr rfl) hnodup hroot fun hf hs htree hdepth =>
    goUpRebalanceDel_spec hf hs htree (by simp only [Context.depth] at hdepth; omega)

/-- A tree that hangs somewhere else, and nothing but its root's link changed. -/
theorem does_setParent {parent parent' : Option P} {t : BinTree P} {Q : Unit → NodeHeap P → Prop}
    (hl : Links h parent t) (hnodup : t.toList.Nodup)
    (hq : ∀ h', Links h' parent' t → (∀ q, t.root ≠ some q → h' q = h q) →
      (∀ q, storedHeight h' q = storedHeight h q) → Q () h') :
    Does (setParent t.root parent') h Q := by
  cases hroot : t.root with
  | none =>
    obtain rfl := root_eq_none hroot
    exact does_pure.mpr (hq h trivial (fun _ _ => rfl) fun _ => rfl)
  | some r =>
    obtain ⟨n, hn⟩ := hl.used (root_mem hroot)
    refine does_store.mpr ⟨n, hn, hq _ (hl.reparent hnodup ?_ ?_) ?_ ?_⟩
    · rintro p n' hp hn'
      obtain rfl : r = p := Option.some.inj (hroot.symm.trans hp)
      rw [Function.update_self, Option.some.inj (hn.symm.trans hn')]
    · exact fun q _ hq => update_other fun he => hq (he ▸ hroot)
    · exact fun q hq => update_other fun he => hq (he ▸ hroot)
    · intro q
      by_cases hqr : q = r
      · subst hqr
        rw [storedHeight_of hn, storedHeight_of (Function.update_self ..)]
      · rw [storedHeight, storedHeight, update_other hqr]

/-- A subtree in the place of a node that it was the only subtree of. -/
theorem replaceMeWith_spec {fuel : ℕ} {tree node : P} {c : Context P} {l r a : BinTree P}
    (ht : Avl h (some tree) (c.plug (.node l node r))) (hsides : l = a ∧ r = .nil ∨ l = .nil ∧ r = a)
    (hfuel : (c.plug (.node l node r)).toList.length < fuel) :
    Does (replaceMeWith fuel tree node a.root) h (Leaves (c.plug a).toList) := by
  obtain ⟨hc, ⟨⟨k, hcell⟩, hl, hr⟩⟩ := links_plug.mp ht.holds.links
  obtain ⟨hstored, -, hsl, hsr⟩ := stored_plug.mp ht.holds.stored
  obtain ⟨hbalanced, -, -, hbl, hbr⟩ := Context.balanced_plug.mp ht.balanced
  have hla : Links h (some node) a ∧ Stored h a ∧ a.Balanced ∧ (BinTree.node l node r).height = a.height + 1 ∧
      a.toList.Sublist (BinTree.node l node r).toList := by
    rcases hsides with ⟨rfl, rfl⟩ | ⟨rfl, rfl⟩
    · exact ⟨hl, hsl, hbl, by simp [BinTree.height], by simp⟩
    · exact ⟨hr, hsr, hbr, by simp [BinTree.height], by simp⟩
  obtain ⟨hla, hsa, hba, hheight, hsub⟩ := hla
  have hnodup := Context.nodup_plug_sublist a ht.nodup hsub
  have hna := (Context.nodup_plug hnodup).1
  simp only [replaceMeWith, does_bind, does_load, hcell, Option.some.injEq, exists_eq_left']
  cases c with
  | top =>
    obtain rfl : node = tree := Option.some.inj ht.root
    simp only [Context.parent_top, does_bind, does_assert, does_pure, true_and]
    refine does_setParent hla hna fun h' hlinks hsame hheights => ?_
    have hholds : Holds h' none a := ⟨hlinks, hsa.frame fun q _ => hheights q⟩
    cases a with
    | nil => exact does_pure.mpr ⟨.nil, ⟨rfl, hholds, trivial, hnodup⟩, rfl⟩
    | node al e ar =>
      obtain ⟨hcell', hal, har⟩ := (holds_join (d := .left)).mp hholds
      have hf : Focus h' .top al e ar (max al.height ar.height + 1) :=
        ⟨by rw [hcell']; push_cast; rfl, hal, har, ⟨trivial, trivial, trivial⟩, hba.2.2.1, hba.2.2.2, hnodup⟩
      have hs : Shrunk al ar (max al.height ar.height + 1) := by
        have := hba.1
        have := hba.2.1
        unfold Shrunk
        omega
      simp only [BinTree.root_node, does_bind, does_pure]
      exact goUpRebalanceDel_spec hf hs rfl (by simp only [Context.depth]; omega)
  | frame d p s c =>
    have hmem : node ∈ (BinTree.node l node r).toList := by simp
    obtain ⟨hpt, hns, hnot⟩ := frame_cells ht.nodup hmem
    obtain ⟨⟨i, hp⟩, -, -⟩ := id hc
    have hroot : ((Context.frame d p s c).plug a).root = some tree := by
      rw [← ht.root, Context.root_plug_frame d p s c a]
    simp only [Context.parent_frame, does_bind, does_relink hp (root_ne hns), does_pure, does_store, hp, Option.some.injEq,
      exists_eq_left', of_setChild]
    have hpa : p ∉ a.toList := fun h => hpt (hsub.subset h)
    have hla' := hla.frame fun q hq =>
      update_other (c := some (Node.of d a.root s.root c.parent i)) fun he : q = p => hpa (he ▸ hq)
    have hc' : LinksAround (Function.update h p (some (.of d a.root s.root c.parent i))) (.frame d p s c) a.root :=
      hc.rehole hp (by simp) hnot fun q _ hqp => update_other hqp
    have hkeep : ∀ q, storedHeight (Function.update h p (some (.of d a.root s.root c.parent i))) q =
        storedHeight h q := fun q => by
      by_cases hqp : q = p
      · subst hqp
        rw [storedHeight_of hp, storedHeight_of (Function.update_self ..), of_height, of_height]
      · rw [storedHeight, storedHeight, update_other hqp]
    refine does_setParent hla' hna fun h' hlinks hsame hheights => ?_
    have hheights' : ∀ q, storedHeight h' q = storedHeight h q := fun q => (hheights q).trans (hkeep q)
    have haround : Around h' (.frame d p s c) a.root (a.height + 1) := by
      rw [hheight] at hstored hbalanced
      refine ⟨hc'.frame fun q hq => hsame q fun hr => ?_, hstored.frame fun q _ => hheights' q, hbalanced⟩
      have := (Context.nodup_plug hnodup).2 q (root_mem hr)
      exact hq.elim this.1 this.2
    have hdepth := Context.depth_le_length (.frame d p s c) (.node l node r)
    exact goUpFromHole haround ⟨hlinks, hsa.frame fun q _ => hheights' q⟩ hba hnodup hroot
      (by simp only [Context.depth] at hdepth; omega)

/-! ### A node with two subtrees -/

omit [DecidableEq P] in
/-- The neighbour on a side, found with the field that points at it. -/
theorem goEndAt_spec {d d₀ : Side} {fuel : ℕ} {parent : Option P} {t : BinTree P} {q q₀ : P} (s₀ : BinTree P)
    (c₀ : Context P) (hl : Links h parent t) (hq : t.root = some q) (hfuel : t.height ≤ fuel) :
    Does (goEndAt d fuel (q₀, d₀) q) h fun res h' => h' = h ∧ ∃ c b, c.Along d ∧
      t = Context.plug c (.join d .nil res.2 b) ∧
      ∃ s up, c.comp (.frame d₀ q₀ s₀ c₀) = .frame res.1.2 res.1.1 s up := by
  induction fuel generalizing parent t q q₀ d₀ s₀ c₀ with
  | zero =>
    cases t with
    | nil => cases hq
    | node l p r => exact absurd hfuel (Nat.not_succ_le_zero _)
  | succ fuel ih =>
    rcases t.cases_join d with rfl | ⟨a, p, b, rfl⟩
    · cases hq
    rw [BinTree.root_join] at hq
    obtain rfl : q = p := (Option.some.inj hq).symm
    obtain ⟨⟨k, hp⟩, ha, -⟩ := links_join.mp hl
    simp only [goEndAt, does_bind, does_load, hp, Option.some.injEq, exists_eq_left', of_child]
    rw [BinTree.height_join] at hfuel
    cases ha' : a.root with
    | none =>
      obtain rfl := root_eq_none ha'
      exact does_pure.mpr ⟨rfl, .top, b, trivial, rfl, s₀, c₀, rfl⟩
    | some next =>
      refine (ih b (.frame d₀ q₀ s₀ c₀) ha ha' (by omega)).mono ?_
      rintro res h' ⟨rfl, c, b', halong, rfl, s, up, hframe⟩
      refine ⟨rfl, c.comp (.frame d q b .top), b', halong.comp ⟨rfl, trivial⟩, ?_, s, up, ?_⟩
      · rw [Context.plug_comp]
        rfl
      · rw [Context.comp_assoc]
        exact hframe

/-- What is left where the neighbour of a node was taken out: its parent holds a subtree
that is one level lower than what is stored around it. -/
structure Unlinked (h : NodeHeap P) (d : Side) (node : P) (b : BinTree P) (c ce : Context P) (rest : BinTree P)
    (res : P × P) : Prop where
  parent : ∃ d' s up, ce.comp (.frame d node b c) = .frame d' res.2 s up
  links : Links h none ((ce.comp (.frame d node b c)).plug rest)
  stored : StoredAround h (ce.comp (.frame d node b c)) (rest.height + 1)
  rest : Stored h rest
  used : ∃ n, h res.1 = some n

theorem unlinkNeighbour_spec {d : Side} {fuel : ℕ} {node : P} {a b : BinTree P} {c : Context P}
    (hh : Holds h none (c.plug (.join d a node b))) (hnodup : (c.plug (.join d a node b)).toList.Nodup)
    (ha : a ≠ .nil) (hfuel : (c.plug (.join d a node b)).toList.length < fuel) :
    Does (unlinkNeighbour d fuel node) h fun res h' => ∃ ce rest, ce.Along d.other ∧
      a = Context.plug ce (.join d rest res.1 .nil) ∧ Unlinked h' d node b c ce rest res := by
  obtain ⟨hc, hjoin⟩ := links_plug.mp hh.links
  obtain ⟨⟨k, hcell⟩, hla, hlb⟩ := links_join.mp hjoin
  have hheight := (BinTree.join d a node b).height_le_length
  have hlength : (BinTree.join d a node b).toList.length ≤ (c.plug (.join d a node b)).toList.length := by
    rw [Context.toList_plug, List.length_append, List.length_append]
    omega
  rw [BinTree.height_join] at hheight
  obtain ⟨q, hq⟩ : ∃ q, a.root = some q := by
    cases a with
    | nil => exact absurd rfl ha
    | node l q r => exact ⟨q, rfl⟩
  simp only [unlinkNeighbour, does_bind, does_load, hcell, Option.some.injEq, exists_eq_left', of_child, hq, does_deref_some]
  refine (goEndAt_spec b c hla hq (by omega)).mono ?_
  rintro ⟨⟨p, d'⟩, el⟩ h' ⟨rfl, ce, rest, halong, rfl, s, up, hframe⟩
  rw [BinTree.join_other] at *
  have hplug : ∀ t, c.plug (.join d (ce.plug t) node b) = (Context.frame d' p s up).plug t := fun t => by
    rw [← hframe, Context.plug_comp, Context.plug]
  rw [hplug] at hh hnodup
  obtain ⟨hlinks, hel⟩ := links_plug.mp hh.links
  obtain ⟨⟨k', hcell'⟩, hlrest, -⟩ := links_join.mp hel
  obtain ⟨hstored, hsel⟩ := stored_plug.mp hh.stored
  have hsrest := (stored_join.mp hsel).2.1
  have hmem : el ∈ (BinTree.join d rest el .nil).toList := by simp [mem_order]
  obtain ⟨hpt, hes, hnot⟩ := frame_cells hnodup hmem
  rw [BinTree.toList_join, mem_order, not_or, not_or] at hpt
  obtain ⟨hprest, hpe, -⟩ := hpt
  obtain ⟨hjoin', hout⟩ := Context.nodup_plug hnodup
  rw [BinTree.toList_join, nodup_order] at hjoin'
  obtain ⟨⟨i, hp⟩, -, -⟩ := id hlinks
  rw [BinTree.root_join] at hp hlinks
  simp only [hcell', Option.some.injEq, exists_eq_left', of_parent, Context.parent_frame, does_deref_some, of_child, does_store, hp,
    of_setChild, does_pure]
  have hother : ∀ q, q ≠ p → Function.update h' p (some (.of d' rest.root s.root up.parent i)) q = h' q :=
    fun q hq => update_other hq
  have hlrest' : Links (Function.update h' p (some (.of d' rest.root s.root up.parent i))) (some el) rest :=
    hlrest.frame fun q hq => hother q fun he => hprest (he ▸ hq)
  have haround : LinksAround (Function.update h' p (some (.of d' rest.root s.root up.parent i)))
      (.frame d' p s up) rest.root :=
    hlinks.rehole hp (by simp) hnot fun q _ hq => hother q hq
  have hkeep : ∀ q, storedHeight (Function.update h' p (some (.of d' rest.root s.root up.parent i))) q =
      storedHeight h' q := fun q => by
    by_cases hqp : q = p
    · subst hqp
      rw [storedHeight_of hp, storedHeight_of (Function.update_self ..), of_height, of_height]
    · rw [storedHeight, storedHeight, update_other hqp]
  refine does_setParent hlrest' hjoin'.2.2.1 fun h₂ hlinks₂ hsame hheights => ?_
  refine ⟨ce, rest, halong, rfl, ⟨d', s, up, hframe⟩, ?_, ?_, ?_, ?_⟩
  · rw [hframe]
    refine links_plug.mpr ⟨haround.frame fun q hq => hsame q fun hr => ?_, hlinks₂⟩
    have := hout q (by rw [BinTree.toList_join, mem_order]; exact .inl (root_mem hr))
    exact hq.elim this.1 this.2
  · rw [hframe]
    simp only [BinTree.height_join, BinTree.height_nil, Nat.max_zero] at hstored
    exact hstored.frame fun q _ => (hheights q).trans (hkeep q)
  · exact hsrest.frame fun q _ => (hheights q).trans (hkeep q)
  · refine ⟨_, (hsame el fun hr => hjoin'.1 (root_mem hr)).trans ((hother el (Ne.symm hpe)).trans hcell')⟩

/-- Another node in the place of one: the links of the tree with it there, and the stored
height of the one it replaced. -/
theorem takePlace_spec {tree node el : P} {l r : BinTree P} {c : Context P}
    (hh : Links h none (c.plug (.node l node r))) (hnodup : (c.plug (.node l node r)).toList.Nodup)
    (hel : el ∉ (c.plug (.node l node r)).toList) (hused : ∃ n, h el = some n)
    (htree : (c.plug (.node l node r)).root = some tree) :
    Does (takePlace tree node el) h fun tree' h' => (c.plug (.node l el r)).root = some tree' ∧
      Links h' none (c.plug (.node l el r)) ∧ storedHeight h' el = storedHeight h node ∧
      ∀ q, q ≠ el → storedHeight h' q = storedHeight h q := by
  obtain ⟨hc, ⟨⟨k, hcell⟩, hl, hr⟩⟩ := links_plug.mp hh
  obtain ⟨n, hn⟩ := hused
  obtain ⟨hjoin, hout⟩ := Context.nodup_plug hnodup
  obtain ⟨hnl, hnr, hdl, hdr, hlr⟩ := (nodup_order (d := .left)).mp hjoin
  rw [Context.mem_plug_iff, BinTree.toList_node, List.mem_append, List.mem_cons, not_or, not_or, not_or, not_or] at hel
  obtain ⟨⟨hell, heln, helr⟩, helb, hela⟩ := hel
  simp only [takePlace, does_bind, does_load, does_store, hcell, hn, Option.some.injEq, exists_eq_left']
  have hne : ∀ q, q ≠ el → Function.update h el (some ⟨l.root, r.root, c.parent, k⟩) q = h q := fun q hq =>
    update_other hq
  have hl₁ := hl.frame fun q hq => hne q fun he => hell (he ▸ hq)
  have hr₁ := hr.frame fun q hq => hne q fun he => helr (he ▸ hq)
  have hc₁ := hc.frame fun q hq => hne q fun he => by
    subst he
    exact hq.elim helb hela
  refine does_setParent hl₁ hdl fun h₂ hl₂ hsame₂ hheights₂ => ?_
  have hr₂ := hr₁.frame fun q hq => hsame₂ q fun he => hlr (root_mem he) hq
  refine does_setParent hr₂ hdr fun h₃ hr₃ hsame₃ hheights₃ => ?_
  have hl₃ := hl₂.frame fun q hq => hsame₃ q fun he => hlr hq (root_mem he)
  have hcell₃ : h₃ el = some ⟨l.root, r.root, c.parent, k⟩ := by
    rw [hsame₃ el (root_ne helr), hsame₂ el (root_ne hell), Function.update_self]
  have hc₃ := hc₁.frame fun q hq => by
    have hql : q ∉ l.toList := fun h => (hout q (by simp [h])).1.elim <| hq.resolve_right (hout q (by simp [h])).2
    have hqr : q ∉ r.toList := fun h => (hout q (by simp [h])).1.elim <| hq.resolve_right (hout q (by simp [h])).2
    exact (hsame₃ q (root_ne hqr)).trans (hsame₂ q (root_ne hql))
  have hheights : ∀ q, storedHeight h₃ q =
      storedHeight (Function.update h el (some ⟨l.root, r.root, c.parent, k⟩)) q := fun q =>
    (hheights₃ q).trans (hheights₂ q)
  have hheightEl : storedHeight h₃ el = storedHeight h node := by
    rw [hheights, storedHeight_of hcell, storedHeight_of (Function.update_self ..)]
  have hheightOther : ∀ q, q ≠ el → storedHeight h₃ q = storedHeight h q := fun q hq => by
    rw [hheights, storedHeight, storedHeight, hne q hq]
  cases c with
  | top =>
    obtain rfl : node = tree := Option.some.inj htree
    simp only [Context.parent_top, does_bind, does_assert, does_pure, true_and]
    exact ⟨rfl, ⟨⟨k, hcell₃⟩, hl₃, hr₃⟩, hheightEl, hheightOther⟩
  | frame d p s c =>
    obtain ⟨hpt, hns, hnot⟩ := frame_cells hnodup (show node ∈ (BinTree.node l node r).toList by simp)
    obtain ⟨⟨i, hp⟩, -, -⟩ := id hc₃
    simp only [BinTree.root_node] at hp
    simp only [Context.parent_frame, does_bind, does_relink hp (root_ne hns), does_pure, does_store, hp, Option.some.injEq,
      exists_eq_left', of_setChild]
    rw [BinTree.toList_node, List.mem_append, List.mem_cons, not_or, not_or] at hpt
    have hpel : el ≠ p := fun he => by
      have hmem : el ∈ (Context.frame d p s c).before ∨ el ∈ (Context.frame d p s c).after :=
        Context.mem_frame.mpr (.inl he)
      exact hmem.elim helb hela
    refine ⟨?_, links_plug.mpr ⟨?_, ⟨⟨k, ?_⟩, hl₃.frame fun q hq => ?_, hr₃.frame fun q hq => ?_⟩⟩, ?_, fun q hq => ?_⟩
    · rw [← htree, Context.root_plug_frame d p s c _ (.node l node r)]
    · exact hc₃.rehole hp (by simp) hnot fun q _ hq => update_other hq
    · rw [update_other hpel, hcell₃]
    · exact update_other fun he => hpt.1 (he ▸ hq)
    · exact update_other fun he => hpt.2.2 (he ▸ hq)
    · rw [← hheightEl, storedHeight, storedHeight, update_other hpel]
    · rw [← hheightOther q hq]
      by_cases hqp : q = p
      · subst hqp
        rw [storedHeight_of hp, storedHeight_of (Function.update_self ..), of_height, of_height]
      · rw [storedHeight, storedHeight, update_other hqp]

theorem erase_plug {c : Context P} {l r : BinTree P} {p : P} (hnodup : (c.plug (.node l p r)).toList.Nodup) :
    (c.plug (.node l p r)).toList.erase p = c.before ++ (l.toList ++ (r.toList ++ c.after)) := by
  obtain ⟨hjoin, hout⟩ := Context.nodup_plug hnodup
  have hp : p ∉ c.before ++ l.toList := by
    rw [List.mem_append, not_or]
    exact ⟨(hout p (by simp)).1, (nodup_order (d := .left).mp hjoin).1⟩
  have hlist : (c.plug (.node l p r)).toList = (c.before ++ l.toList) ++ p :: (r.toList ++ c.after) := by
    simp [Context.toList_plug]
  rw [hlist, List.erase_append_right _ hp, List.erase_cons_head, List.append_assoc]

omit [DecidableEq P] in
/-- What is stored around a hole does not change with the node that another one replaced. -/
theorem stored_rename {d : Side} {node el : P} {b rest : BinTree P} {c ce : Context P} {k : ℕ}
    (hs : StoredAround h (ce.comp (.frame d node b c)) k) (heq : storedHeight h' el = storedHeight h node)
    (hsame : ∀ q, q ≠ el → storedHeight h' q = storedHeight h q)
    (hel : el ∉ ((ce.comp (.frame d node b c)).plug rest).toList) :
    StoredAround h' (ce.comp (.frame d el b c)) k := by
  induction ce generalizing k rest with
  | top =>
    obtain ⟨hk, hb, hc⟩ := hs
    have hout : ∀ q, q = node ∨ q ∈ b.toList ∨ q ∈ c.before ∨ q ∈ c.after → q ≠ el := by
      rintro q hq rfl
      exact hel (Context.mem_plug_iff.mpr (.inr (Context.mem_frame.mpr hq)))
    exact ⟨heq.trans hk, hb.frame fun q hq => hsame q (hout q (.inr (.inl hq))),
      hc.frame fun q hq => hsame q (hout q (.inr (.inr hq)))⟩
  | frame d' p s ce ih =>
    obtain ⟨hk, hb, hc⟩ := hs
    have hout : ∀ q, q = p ∨ q ∈ s.toList → q ≠ el := by
      rintro q hq rfl
      exact hel (Context.mem_plug_iff.mpr (.inr (Context.mem_frame.mpr (hq.imp id .inl))))
    exact ⟨(hsame p (hout p (.inl rfl))).trans hk, hb.frame fun q hq => hsame q (hout q (.inr hq)), ih hc hel⟩

omit [DecidableEq P] in
theorem balanced_rename {d : Side} {node : P} (el : P) {b : BinTree P} {c ce : Context P} {k : ℕ} :
    (ce.comp (.frame d el b c)).Balanced k ↔ (ce.comp (.frame d node b c)).Balanced k := by
  induction ce generalizing k with
  | top => rfl
  | frame d' p s ce ih => simp only [Context.comp, Context.Balanced, ih]

/-- The field that pointed at the neighbour, once the neighbour stands where the node did. -/
theorem frame_rename {d d' : Side} {node q : P} (el : P) {b s : BinTree P} {c ce up : Context P}
    (hframe : ce.comp (.frame d node b c) = .frame d' q s up) (hnode : node ∉ ce.before ∧ node ∉ ce.after) :
    ∃ up', ce.comp (.frame d el b c) = .frame d' (if q = node then el else q) s up' := by
  cases ce with
  | top =>
    cases hframe
    exact ⟨c, by rw [if_pos rfl]; rfl⟩
  | frame d₁ p₁ s₁ ce =>
    cases hframe
    have hne : q ≠ node := by
      rintro rfl
      have hmem : q ∈ (Context.frame d' q s ce).before ∨ q ∈ (Context.frame d' q s ce).after :=
        Context.mem_frame.mpr (.inl rfl)
      exact hmem.elim hnode.1 hnode.2
    rw [if_neg hne]
    exact ⟨ce.comp (.frame d el b c), rfl⟩

/-- A node with two subtrees, its neighbour on side `d` put in its place. -/
theorem replaceByNeighbour {d : Side} {fuel : ℕ} {tree node : P} {l r a b : BinTree P} {c : Context P}
    (ht : Avl h (some tree) (c.plug (.node l node r))) (hsides : BinTree.node l node r = .join d a node b)
    (ha : a ≠ .nil) (hfuel : (c.plug (.node l node r)).toList.length < fuel) :
    Does (do
      let (el, parent) ← unlinkNeighbour d fuel node
      let parent := if parent = node then el else parent
      let tree ← takePlace tree node el
      return some (← goUpRebalanceDel fuel tree parent)) h (Leaves ((c.plug (.node l node r)).toList.erase node)) := by
  have herase : (c.plug (.node l node r)).toList.erase node = c.before ++ ((l.toList ++ r.toList) ++ c.after) := by
    rw [erase_plug ht.nodup, List.append_assoc]
  have hsub : ((c.plug (.node l node r)).toList.erase node).Sublist (c.plug (.node l node r)).toList :=
    List.erase_sublist
  have hnoderase := ht.nodup.sublist hsub
  simp only [does_bind, does_pure]
  have hT := ht
  rw [hsides] at hT
  refine (unlinkNeighbour_spec hT.holds hT.nodup ha (hsides ▸ hfuel)).mono ?_
  rintro ⟨el, parent⟩ h₁ ⟨ce, rest, halong, rfl, ⟨d', s, up, hframe⟩, hlinks, hstored, hsrest, hused⟩
  simp only at hframe hlinks hstored hsrest hused ⊢
  -- the tree with the neighbour taken out, and then with the neighbour in the place of the node
  have hplug : ∀ p t, c.plug (.join d (ce.plug t) p b) = (ce.comp (.frame d p b c)).plug t := fun p t => by
    rw [Context.plug_comp, Context.plug]
  have hnear : node ∉ (ce.plug (.join d rest el .nil)).toList := by
    obtain ⟨hjoin, -⟩ := Context.nodup_plug hT.nodup
    rw [BinTree.toList_join, nodup_order] at hjoin
    exact hjoin.1
  rw [Context.mem_plug_iff, not_or, not_or] at hnear
  obtain ⟨up', hframe'⟩ := frame_rename el hframe hnear.2
  rw [hplug] at hT
  obtain ⟨hbalanced, hbj⟩ := Context.balanced_plug.mp hT.balanced
  rw [BinTree.height_join, BinTree.height_nil, Nat.max_zero] at hbalanced
  have hbrest := (BinTree.balanced_join.mp hbj).2.2.1
  have hnodup₁ := Context.nodup_plug_sublist rest hT.nodup (by
    rw [BinTree.toList_join]
    cases d <;> simp [Side.order])
  obtain ⟨hjoin, hout⟩ := Context.nodup_plug hT.nodup
  rw [BinTree.toList_join, nodup_order] at hjoin
  have helOut := hout el (by simp [mem_order])
  have hel : el ∉ ((ce.comp (.frame d node b c)).plug rest).toList := by
    rw [Context.mem_plug_iff, not_or, not_or]
    exact ⟨hjoin.1, helOut⟩
  have hroot : ((ce.comp (.frame d node b c)).plug rest).root = some tree := by
    rw [← hT.root, hframe, Context.root_plug_frame d' parent s up rest]
  obtain ⟨l', r', hnode⟩ : ∃ l' r', ∀ p, BinTree.node l' p r' = .join d (ce.plug rest) p b := by
    cases d
    · exact ⟨ce.plug rest, b, fun _ => rfl⟩
    · exact ⟨b, ce.plug rest, fun _ => rfl⟩
  rw [← hplug, ← hnode] at hlinks hnodup₁ hel hroot
  refine (takePlace_spec hlinks hnodup₁ hel hused hroot).mono ?_
  rintro tree' h₂ ⟨hroot', hlinks', heq, hsame⟩
  rw [hnode, hplug] at hroot' hlinks' hel
  have hstored' := stored_rename hstored heq hsame hel
  have horder : d.order (ce.plug rest).toList el b.toList = l.toList ++ r.toList := by
    cases d
    · cases hsides
      simp [Side.order, Context.toList_plug, halong.after_right]
    · cases hsides
      simp [Side.order, Context.toList_plug, halong.before_left]
  have hlist : ((ce.comp (.frame d el b c)).plug rest).toList = (c.plug (.node l node r)).toList.erase node := by
    rw [← hplug el, Context.toList_plug, BinTree.toList_join, horder, herase]
  rw [← hlist] at hnoderase ⊢
  have hlength : ((ce.comp (.frame d el b c)).plug rest).toList.length ≤ (c.plug (.node l node r)).toList.length := by
    rw [hlist]
    exact hsub.length_le
  rw [← balanced_rename el] at hbalanced
  rw [hframe'] at hlinks' hroot' hstored' hnoderase hlength hbalanced ⊢
  obtain ⟨hlinksAround, hlrest⟩ := links_plug.mp hlinks'
  have hdepth := Context.depth_le_length (.frame d' (if parent = node then el else parent) s up') rest
  refine goUpFromHole ⟨hlinksAround, hstored', hbalanced⟩ ⟨hlrest, hsrest.frame fun q hq => hsame q ?_⟩ hbrest
    hnoderase hroot' (by simp only [Context.depth] at hdepth; omega)
  rintro rfl
  exact hjoin.1 hq

/-- `psync_tree_get_del`. -/
theorem getDel_spec {fuel : ℕ} {tree node : P} {t : BinTree P} (ht : Avl h (some tree) t) (hnode : node ∈ t.toList)
    (hfuel : t.toList.length < fuel) :
    Does (getDel fuel tree node) h (Leaves (t.toList.erase node)) := by
  obtain ⟨c, l, r, rfl⟩ := Context.exists_plug hnode
  obtain ⟨-, ⟨⟨k, hcell⟩, hl, hr⟩⟩ := links_plug.mp ht.holds.links
  have herase := erase_plug ht.nodup
  simp only [getDel, does_bind, does_load, hcell, Option.some.injEq, exists_eq_left']
  cases hroot : l.root with
  | none =>
    obtain rfl := root_eq_none hroot
    have hrepl := replaceMeWith_spec ht (.inr ⟨rfl, rfl⟩) hfuel
    rw [herase]
    rw [Context.toList_plug] at hrepl
    cases hroot' : r.root with
    | none => rwa [hroot'] at hrepl
    | some q => rwa [hroot'] at hrepl
  | some p =>
    cases hroot' : r.root with
    | none =>
      obtain rfl := root_eq_none hroot'
      have hrepl := replaceMeWith_spec ht (.inl ⟨rfl, rfl⟩) hfuel
      rw [herase]
      rw [Context.toList_plug, hroot] at hrepl
      exact hrepl
    | some q =>
      obtain ⟨np, hp⟩ := hl.used (root_mem hroot)
      obtain ⟨nq, hq⟩ := hr.used (root_mem hroot')
      simp only [does_bind, does_load, hp, hq, Option.some.injEq, exists_eq_left']
      have hlne : l ≠ .nil := by
        rintro rfl
        cases hroot
      have hrne : r ≠ .nil := by
        rintro rfl
        cases hroot'
      split
      · simpa only [does_bind, does_pure] using replaceByNeighbour ht (d := .left) rfl hlne hfuel
      · simpa only [does_bind, does_pure] using replaceByNeighbour ht (d := .right) rfl hrne hfuel

end Pclsync.PTree
