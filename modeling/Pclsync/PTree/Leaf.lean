import Pclsync.PTree.Walk

/-! A leaf that an insertion adds, and where the walk up leaves it. -/
namespace Pclsync.PTree
open Lib.BinaryTree Lib.HeapProgram

variable {P : Type} {n p : P} {t s : BinTree P}

/-- Nothing hangs from the node. -/
def Bare (n : P) : BinTree P → Prop
  | .nil => True
  | .node l p r => (p = n → l = .nil ∧ r = .nil) ∧ Bare n l ∧ Bare n r

theorem bare_join {d : Side} {a b : BinTree P} :
    Bare n (.join d a p b) ↔ (p = n → a = .nil ∧ b = .nil) ∧ Bare n a ∧ Bare n b := by
  cases d with
  | left => rfl
  | right => exact and_congr (forall_congr' fun _ => and_comm) and_comm

theorem bare_of_notMem (hn : n ∉ t.toList) : Bare n t := by
  induction t with
  | nil => trivial
  | node l p r ihl ihr =>
    rw [BinTree.toList, List.mem_append, List.mem_cons, not_or, not_or] at hn
    exact ⟨fun hp => absurd hp.symm hn.2.1, ihl hn.1, ihr hn.2.2⟩

theorem join_ne_nil {d : Side} {a b : BinTree P} : BinTree.join d a p b ≠ .nil := by
  cases d <;> nofun

theorem height_zero (ht : t.height = 0) : t = .nil := by
  cases t with
  | nil => rfl
  | node => cases ht

theorem Bare.plug {c : Context P} (hn : n ∉ c.before ∧ n ∉ c.after) (ht : Bare n t) : Bare n (c.plug t) := by
  induction c generalizing t with
  | top => exact ht
  | frame d p s c ih =>
    have hout : n ≠ p ∧ n ∉ s.toList ∧ n ∉ c.before ∧ n ∉ c.after := by
      cases d with
      | left =>
        simp only [Context.before, Context.after, List.cons_append, List.mem_cons, List.mem_append, not_or] at hn
        exact ⟨hn.2.1, hn.2.2.1, hn.1, hn.2.2.2⟩
      | right =>
        simp only [Context.before, Context.after, List.mem_append, List.mem_singleton, not_or] at hn
        exact ⟨hn.1.2.2, hn.1.2.1, hn.1.1, hn.2⟩
    exact ih hout.2.2 (bare_join.mpr ⟨fun hp => absurd hp.symm hout.1, ht, bare_of_notMem hout.2.1⟩)

theorem Bare.part {c : Context P} (h : Bare n (c.plug t)) : Bare n t := by
  induction c generalizing t with
  | top => exact h
  | frame d p s c ih => exact (bare_join.mp (ih h)).2.1

theorem Bare.replace {c : Context P} (ht : t ≠ .nil) (hts : Bare n t → Bare n s) (h : Bare n (c.plug t)) :
    Bare n (c.plug s) := by
  induction c generalizing t s with
  | top => exact hts h
  | frame d p u c ih =>
    refine ih join_ne_nil (fun hjoin => ?_) h
    obtain ⟨hp, hbt, hbu⟩ := bare_join.mp hjoin
    exact bare_join.mpr ⟨fun hpn => absurd (hp hpn).1 ht, hts hbt, hbu⟩

/-- What hangs from a bare node does not change in a rotation, but where it is what the two sides of the subtree are rotated around. -/
theorem Lifts.bare {d : Side} {near far : BinTree P} {e : P} (hl : Lifts d (.join d near e far) s)
    (hheavy : near.height = far.height + 2) (hb : Bare n (.join d near e far)) :
    Bare n s ∨ ∃ x, near = .join d .nil x (.node .nil n .nil) ∧ far = .nil := by
  generalize ht : BinTree.join d near e far = t at hl
  obtain ⟨he, hnear, hfar⟩ := bare_join.mp hb
  have hen : e ≠ n := fun hen => by
    rw [(he hen).1] at hheavy
    exact absurd hheavy (by simp [BinTree.height])
  cases hl with
  | @single a b r x e' hle =>
    obtain ⟨rfl, rfl, rfl⟩ : near = .join d a x b ∧ e = e' ∧ far = r := by
      cases d <;> cases ht <;> exact ⟨rfl, rfl, rfl⟩
    obtain ⟨hx, ha, hbb⟩ := bare_join.mp hnear
    have hxn : x ≠ n := fun hxn => by
      obtain ⟨rfl, rfl⟩ := hx hxn
      rw [BinTree.height_join] at hheavy
      simp only [BinTree.height] at hheavy
      omega
    exact .inl (bare_join.mpr ⟨fun h => absurd h hxn, ha, bare_join.mpr ⟨fun h => absurd h hen, hbb, hfar⟩⟩)
  | @double a m o r x y e' hlt =>
    obtain ⟨rfl, rfl, rfl⟩ : near = .join d a x (.join d m y o) ∧ e = e' ∧ far = r := by
      cases d <;> cases ht <;> exact ⟨rfl, rfl, rfl⟩
    obtain ⟨hx, ha, hinner⟩ := bare_join.mp hnear
    obtain ⟨hy, hm, ho⟩ := bare_join.mp hinner
    have hxn : x ≠ n := fun hxn => join_ne_nil (hx hxn).2
    by_cases hyn : y = n
    · obtain ⟨rfl, rfl⟩ := hy hyn
      rw [BinTree.height_join, BinTree.height_join] at hheavy
      rw [BinTree.height_join] at hlt
      simp only [BinTree.height] at hheavy hlt
      have ha : a = .nil := height_zero (by omega)
      have hr : far = .nil := height_zero (by omega)
      refine .inr ⟨x, ?_, hr⟩
      rw [ha, hyn]
      cases d <;> rfl
    · exact .inl (bare_join.mpr ⟨fun h => absurd h hyn, bare_join.mpr ⟨fun h => absurd h hxn, ha, hm⟩,
        bare_join.mpr ⟨fun h => absurd h hen, ho, hfar⟩⟩)

/-! ### The tree before the insertion -/

section Prune
variable [DecidableEq P]

/-- The tree without what hangs from a node, and without the node. -/
def prune (n : P) : BinTree P → BinTree P
  | .nil => .nil
  | .node l p r => if p = n then .nil else .node (prune n l) p (prune n r)

theorem prune_of_notMem (hn : n ∉ t.toList) : prune n t = t := by
  induction t with
  | nil => rfl
  | node l p r ihl ihr =>
    rw [BinTree.toList, List.mem_append, List.mem_cons, not_or, not_or] at hn
    rw [prune, if_neg (Ne.symm hn.2.1), ihl hn.1, ihr hn.2.2]

theorem prune_join {d : Side} {a b : BinTree P} (hp : p ≠ n) : prune n (.join d a p b) = .join d (prune n a) p (prune n b) := by
  cases d <;> exact if_neg hp

theorem prune_leaf : prune n (.node .nil n .nil) = .nil := if_pos rfl

theorem prune_plug {c : Context P} (hn : n ∉ c.before ∧ n ∉ c.after) : prune n (c.plug t) = c.plug (prune n t) := by
  induction c generalizing t with
  | top => rfl
  | frame d p s c ih =>
    have hout : p ≠ n ∧ n ∉ s.toList ∧ n ∉ c.before ∧ n ∉ c.after := by
      cases d with
      | left =>
        simp only [Context.before, Context.after, List.cons_append, List.mem_cons, List.mem_append, not_or] at hn
        exact ⟨Ne.symm hn.2.1, hn.2.2.1, hn.1, hn.2.2.2⟩
      | right =>
        simp only [Context.before, Context.after, List.mem_append, List.mem_singleton, not_or] at hn
        exact ⟨Ne.symm hn.1.2.2, hn.1.2.1, hn.1.1, hn.2⟩
    rw [Context.plug, ih hout.2.2, prune_join hout.1, prune_of_notMem hout.2.1, Context.plug]

end Prune

/-- The place between a node and its only child, which is a leaf. -/
def Narrow (d : Side) (x e : P) (t : BinTree P) : Prop := ∃ c, t = Context.plug c (.join d (.join d .nil x .nil) e .nil)

/-- A new leaf stays one, but where it goes between a leaf and the node whose only child that is. -/
theorem Relifted.bare [DecidableEq P] {c : Context P} (hr : Relifted (c.plug (.node .nil n .nil)) s)
    (hnodup : (c.plug (.node .nil n .nil)).toList.Nodup) :
    Bare n s ∨ ∃ d x e, Narrow d x e (c.plug .nil) ∧
      ∃ c', c.plug (.node .nil n .nil) = Context.plug c' (.join d (.join d .nil x (.node .nil n .nil)) e .nil) := by
  have hout := (Context.nodup_plug hnodup).2 n (by simp)
  have hbare : Bare n (c.plug (.node .nil n .nil)) := Bare.plug hout ⟨fun _ => ⟨rfl, rfl⟩, trivial, trivial⟩
  generalize ht : c.plug (.node .nil n .nil) = t at hr
  cases hr with
  | same => exact .inl (ht ▸ hbare)
  | @lifted d c' near far s' e hheavy hlifts =>
    rw [ht] at hbare hnodup
    rcases hlifts.bare hheavy hbare.part with hs | ⟨x, rfl, rfl⟩
    · exact .inl (hbare.replace join_ne_nil fun _ => hs)
    · obtain ⟨hjoin, hout'⟩ := Context.nodup_plug hnodup
      have hmem : n ∈ (BinTree.join d (.join d .nil x (.node .nil n .nil)) e .nil).toList := by
        simp [mem_order]
      have hne : x ≠ n ∧ e ≠ n := by
        simp only [BinTree.toList_join, nodup_order, mem_order, not_or] at hjoin
        exact ⟨fun h => hjoin.2.2.1.2.1 (by simp [h]), fun h => hjoin.1.2.2 (by simp [h])⟩
      refine .inr ⟨d, x, e, ⟨c', ?_⟩, c', rfl⟩
      have hpruned := congrArg (prune n) ht
      rw [prune_plug hout, prune_leaf, prune_plug (hout' n hmem), prune_join hne.2, prune_join hne.1, prune_leaf] at hpruned
      exact hpruned

theorem Bare.not_last {c : Context P} {xs : List P} (h : Bare n (c.plug t)) (ht : t ≠ .nil) : c.before ≠ xs ++ [n] := by
  induction c generalizing t with
  | top => exact fun heq => absurd heq.symm (by simp [Context.before])
  | frame d p s c ih =>
    cases d with
    | left => exact ih h join_ne_nil
    | right =>
      intro heq
      rw [Context.before, ← List.append_assoc] at heq
      have hp := (List.append_inj' heq rfl).2
      have hpn : p = n := List.singleton_inj.mp hp
      have hjoin : Bare n (.join .right t p s) := Bare.part (c := c) h
      exact ht ((bare_join.mp hjoin).1 hpn).1

theorem Bare.not_first {c : Context P} {ys : List P} (h : Bare n (c.plug t)) (ht : t ≠ .nil) : c.after ≠ n :: ys := by
  induction c generalizing t with
  | top => nofun
  | frame d p s c ih =>
    cases d with
    | right => exact ih h join_ne_nil
    | left =>
      intro heq
      have hpn : p = n := (List.cons.inj heq).1
      have hjoin : Bare n (.join .left t p s) := Bare.part (c := c) h
      exact ht ((bare_join.mp hjoin).1 hpn).1

/-- A leaf next to a node in order hangs below it. -/
theorem Bare.below {d : Side} {c : Context P} {l r : BinTree P} {xs ys : List P} (h : Bare n (c.plug (.node l p r)))
    (hnodup : (c.plug (.node l p r)).toList.Nodup) (hlist : (c.plug (.node l p r)).toList = xs ++ (d.beside p n ++ ys)) :
    n ∈ (match d with | .left => l | .right => r).toList := by
  cases d with
  | left =>
    have hsplit : (c.plug (.node l p r)).toList = (xs ++ [n]) ++ p :: ys := by
      rw [hlist]
      simp [Side.beside]
    have hbefore := (split_plug hnodup hsplit).1
    rcases List.eq_nil_or_concat' l.toList with hnil | ⟨zs, q, hl⟩
    · rw [hnil, List.append_nil] at hbefore
      exact absurd hbefore.symm (h.not_last nofun)
    · rw [hl, ← List.append_assoc] at hbefore
      have hq : [n] = [q] := (List.append_inj' hbefore rfl).2
      rw [hl, List.singleton_inj.mp hq]
      exact List.mem_append_right _ (.head _)
  | right =>
    have hafter := (split_plug hnodup hlist).2
    cases hr : r.toList with
    | nil =>
      rw [hr, List.nil_append] at hafter
      exact absurd hafter.symm (h.not_first nofun)
    | cons q zs =>
      rw [hr] at hafter
      rw [(List.cons.inj hafter).1]
      exact .head _

end Pclsync.PTree
