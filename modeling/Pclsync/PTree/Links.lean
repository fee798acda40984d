import Mathlib.Algebra.Order.Ring.Int
import Mathlib.Data.Nat.Cast.Order.Ring
import Pclsync.PTree.Nodes

/-! When a heap holds a tree.

`Links` says that the nodes of a tree point at each other as the tree says, in both
directions, and `Stored` that their stored heights are the true ones. Both are also
given for a tree with a hole, for the walks up that find the heights stale. -/
namespace Pclsync.PTree
open Lib.BinaryTree Lib.HeapProgram

variable {P : Type}

/-- A node with `near` as its child on side `d`. -/
def Node.of (d : Side) (near far parent : Option P) (height : ℤ) : Node P :=
  match d with
  | .left => ⟨near, far, parent, height⟩
  | .right => ⟨far, near, parent, height⟩

section Node
variable {d : Side} {near far parent q : Option P} {k k' : ℤ}

@[simp] theorem of_child : (Node.of d near far parent k).child d = near := by cases d <;> rfl
@[simp] theorem of_child_other : (Node.of d near far parent k).child d.other = far := by cases d <;> rfl
@[simp] theorem of_parent : (Node.of d near far parent k).parent = parent := by cases d <;> rfl
@[simp] theorem of_height : (Node.of d near far parent k).height = k := by cases d <;> rfl
@[simp] theorem of_setChild : (Node.of d near far parent k).setChild d q = .of d q far parent k := by
  cases d <;> rfl
@[simp] theorem of_setChild_other : (Node.of d near far parent k).setChild d.other q = .of d near q parent k := by
  cases d <;> rfl
@[simp] theorem of_set :
    (⟨(Node.of d near far parent k).left, (Node.of d near far parent k).right, q, k'⟩ : Node P) =
      .of d near far q k' := by
  cases d <;> rfl
theorem of_other : Node.of d.other far near parent k = .of d near far parent k := by cases d <;> rfl

end Node

abbrev NodeHeap (P : Type) := Heap P (Node P)

variable {h h' : NodeHeap P}

/-! ### Links -/

/-- The nodes of a tree that hangs from `parent` point at each other as the tree says. -/
def Links (h : NodeHeap P) : Option P → BinTree P → Prop
  | _, .nil => True
  | parent, .node l p r =>
    (∃ k, h p = some ⟨l.root, r.root, parent, k⟩) ∧ Links h (some p) l ∧ Links h (some p) r

/-- The nodes around a hole point at each other, and at `root` in the hole. -/
def LinksAround (h : NodeHeap P) : Context P → Option P → Prop
  | .top, _ => True
  | .frame d p s c, root =>
    (∃ k, h p = some (.of d root s.root c.parent k)) ∧ Links h (some p) s ∧ LinksAround h c (some p)

theorem links_join {d : Side} {parent : Option P} {a b : BinTree P} {p : P} :
    Links h parent (.join d a p b) ↔
      (∃ k, h p = some (.of d a.root b.root parent k)) ∧ Links h (some p) a ∧ Links h (some p) b := by
  cases d
  · rfl
  · show _ ∧ _ ∧ _ ↔ _
    rw [and_comm (a := Links h (some p) b)]
    rfl

theorem links_plug {c : Context P} {t : BinTree P} :
    Links h none (c.plug t) ↔ LinksAround h c t.root ∧ Links h c.parent t := by
  induction c generalizing t with
  | top => simp [Context.plug, LinksAround, Context.parent]
  | frame d p s c ih =>
    rw [Context.plug, ih, links_join, BinTree.root_join, LinksAround]
    show _ ↔ _ ∧ Links h (some p) t
    tauto

theorem Links.frame {parent : Option P} {t : BinTree P} (hl : Links h parent t) (hsame : ∀ q ∈ t.toList, h' q = h q) :
    Links h' parent t := by
  induction t generalizing parent with
  | nil => trivial
  | node l p r ihl ihr =>
    simp only [BinTree.toList_node, List.mem_append, List.mem_cons] at hsame
    obtain ⟨⟨k, hp⟩, hleft, hright⟩ := hl
    refine ⟨⟨k, ?_⟩, ihl hleft fun q hq => hsame q (.inl hq), ihr hright fun q hq => hsame q (.inr (.inr hq))⟩
    rw [hsame p (.inr (.inl rfl)), hp]

/-- Every node of the tree is in use. -/
theorem Links.used {parent : Option P} {t : BinTree P} (hl : Links h parent t) {p : P} (hp : p ∈ t.toList) :
    ∃ n, h p = some n := by
  induction t generalizing parent with
  | nil => cases hp
  | node l q r ihl ihr =>
    obtain ⟨⟨k, hq⟩, hleft, hright⟩ := hl
    rw [BinTree.toList_node, List.mem_append, List.mem_cons] at hp
    rcases hp with hp | rfl | hp
    · exact ihl hleft hp
    · exact ⟨_, hq⟩
    · exact ihr hright hp

theorem LinksAround.frame {c : Context P} {root : Option P} (hl : LinksAround h c root)
    (hsame : ∀ q, q ∈ c.before ∨ q ∈ c.after → h' q = h q) : LinksAround h' c root := by
  induction c generalizing root with
  | top => trivial
  | frame d p s c ih =>
    obtain ⟨⟨k, hp⟩, hs, hc⟩ := hl
    have hmem : ∀ q, q = p ∨ q ∈ s.toList ∨ q ∈ c.before ∨ q ∈ c.after → h' q = h q := fun q hq =>
      hsame q (Context.mem_frame.mpr hq)
    refine ⟨⟨k, ?_⟩, hs.frame fun q hq => hmem q (.inr (.inl hq)), ih hc fun q hq => hmem q (.inr (.inr hq))⟩
    rw [hmem p (.inl rfl), hp]

/-- Another tree in the hole: the node it hangs from points at it. -/
theorem LinksAround.rehole {d : Side} {p : P} {s : BinTree P} {c : Context P} {root root' : Option P} {n : Node P}
    (hl : LinksAround h (.frame d p s c) root) (hn : h p = some n) (hp : h' p = some (n.setChild d root'))
    (hnot : p ∉ s.toList ∧ p ∉ c.before ∧ p ∉ c.after)
    (hsame : ∀ q, q ∈ s.toList ∨ q ∈ c.before ∨ q ∈ c.after → q ≠ p → h' q = h q) :
    LinksAround h' (.frame d p s c) root' := by
  obtain ⟨⟨k, hk⟩, hs, hc⟩ := hl
  have hcell : n = .of d root s.root c.parent k := Option.some.inj (hn.symm.trans hk)
  refine ⟨⟨k, ?_⟩, hs.frame fun q hq => ?_, hc.frame fun q hq => ?_⟩
  · rw [hp, hcell, of_setChild]
  · exact hsame q (.inl hq) fun he => hnot.1 (he ▸ hq)
  · refine hsame q (.inr hq) fun he => ?_
    rcases hq with hq | hq
    · exact hnot.2.1 (he ▸ hq)
    · exact hnot.2.2 (he ▸ hq)

/-- Another parent: the root points at it. -/
theorem Links.reparent {parent parent' : Option P} {t : BinTree P} (hl : Links h parent t) (hnodup : t.toList.Nodup)
    (hroot : ∀ p n, t.root = some p → h p = some n → h' p = some { n with parent := parent' })
    (hsame : ∀ q ∈ t.toList, t.root ≠ some q → h' q = h q) : Links h' parent' t := by
  cases t with
  | nil => trivial
  | node l p r =>
    obtain ⟨⟨k, hp⟩, hleft, hright⟩ := hl
    simp only [BinTree.toList_node, List.mem_append, List.mem_cons, BinTree.root_node] at hsame
    rw [BinTree.toList_node, List.nodup_append, List.nodup_cons] at hnodup
    obtain ⟨-, ⟨hpr, -⟩, hdisj⟩ := hnodup
    refine ⟨⟨k, hroot p _ rfl hp⟩, hleft.frame fun q hq => ?_, hright.frame fun q hq => ?_⟩
    · exact hsame q (.inl hq) fun he => hdisj q hq p (List.mem_cons_self ..) (Option.some.inj he).symm
    · exact hsame q (.inr (.inr hq)) fun he => hpr (Option.some.inj he ▸ hq)

/-! ### Stored heights -/

def storedHeight (h : NodeHeap P) (p : P) : ℤ :=
  match h p with
  | some n => n.height
  | none => 0

theorem storedHeight_of {p : P} {n : Node P} (hp : h p = some n) : storedHeight h p = n.height := by
  rw [storedHeight, hp]

/-- The stored heights of a tree are the true ones. -/
def Stored (h : NodeHeap P) : BinTree P → Prop
  | .nil => True
  | .node l p r => storedHeight h p = max l.height r.height + 1 ∧ Stored h l ∧ Stored h r

/-- The stored heights around a hole are right for a tree of height `k` in it. -/
def StoredAround (h : NodeHeap P) : Context P → ℕ → Prop
  | .top, _ => True
  | .frame _ p s c, k =>
    storedHeight h p = max k s.height + 1 ∧ Stored h s ∧ StoredAround h c (max k s.height + 1)

theorem stored_join {d : Side} {a b : BinTree P} {p : P} :
    Stored h (.join d a p b) ↔ storedHeight h p = max a.height b.height + 1 ∧ Stored h a ∧ Stored h b := by
  cases d
  · rfl
  · show _ ∧ _ ∧ _ ↔ _
    rw [and_comm (a := Stored h b), Nat.max_comm]

theorem stored_plug {c : Context P} {t : BinTree P} :
    Stored h (c.plug t) ↔ StoredAround h c t.height ∧ Stored h t := by
  induction c generalizing t with
  | top => simp [Context.plug, StoredAround]
  | frame d p s c ih =>
    rw [Context.plug, ih, stored_join, BinTree.height_join, StoredAround]
    tauto

theorem Stored.frame {t : BinTree P} (hs : Stored h t)
    (hsame : ∀ q ∈ t.toList, storedHeight h' q = storedHeight h q) : Stored h' t := by
  induction t with
  | nil => trivial
  | node l p r ihl ihr =>
    simp only [BinTree.toList_node, List.mem_append, List.mem_cons] at hsame
    refine ⟨?_, ihl hs.2.1 fun q hq => hsame q (.inl hq), ihr hs.2.2 fun q hq => hsame q (.inr (.inr hq))⟩
    rw [hsame p (.inr (.inl rfl)), hs.1]

theorem StoredAround.frame {c : Context P} {k : ℕ} (hs : StoredAround h c k)
    (hsame : ∀ q, q ∈ c.before ∨ q ∈ c.after → storedHeight h' q = storedHeight h q) : StoredAround h' c k := by
  induction c generalizing k with
  | top => trivial
  | frame d p s c ih =>
    have hmem : ∀ q, q = p ∨ q ∈ s.toList ∨ q ∈ c.before ∨ q ∈ c.after →
        storedHeight h' q = storedHeight h q := fun q hq => hsame q (Context.mem_frame.mpr hq)
    refine ⟨?_, hs.2.1.frame fun q hq => hmem q (.inr (.inl hq)), ih hs.2.2 fun q hq => hmem q (.inr (.inr hq))⟩
    rw [hmem p (.inl rfl), hs.1]

/-- A tree in the heap, with its heights. -/
structure Holds (h : NodeHeap P) (parent : Option P) (t : BinTree P) : Prop where
  links : Links h parent t
  stored : Stored h t

theorem Holds.frame {parent : Option P} {t : BinTree P} (hh : Holds h parent t) (hsame : ∀ q ∈ t.toList, h' q = h q) :
    Holds h' parent t :=
  ⟨hh.links.frame hsame, hh.stored.frame fun q hq => by rw [storedHeight, storedHeight, hsame q hq]⟩

theorem Holds.reparent {parent parent' : Option P} {t : BinTree P} (hh : Holds h parent t) (hnodup : t.toList.Nodup)
    (hroot : ∀ p n, t.root = some p → h p = some n → h' p = some { n with parent := parent' })
    (hsame : ∀ q ∈ t.toList, t.root ≠ some q → h' q = h q) : Holds h' parent' t := by
  refine ⟨hh.links.reparent hnodup hroot hsame, hh.stored.frame fun q hq => ?_⟩
  by_cases hr : t.root = some q
  · obtain ⟨n, hn⟩ := hh.links.used hq
    rw [storedHeight_of hn, storedHeight_of (hroot q n hr hn)]
  · rw [storedHeight, storedHeight, hsame q hq hr]

theorem holds_join {d : Side} {parent : Option P} {a b : BinTree P} {p : P} :
    Holds h parent (.join d a p b) ↔
      h p = some (.of d a.root b.root parent (max a.height b.height + 1)) ∧ Holds h (some p) a ∧
        Holds h (some p) b := by
  constructor
  · intro hh
    obtain ⟨⟨k, hp⟩, ha, hb⟩ := links_join.mp hh.links
    obtain ⟨hk, ha', hb'⟩ := stored_join.mp hh.stored
    rw [storedHeight_of hp, of_height] at hk
    exact ⟨hk ▸ hp, ⟨ha, ha'⟩, ⟨hb, hb'⟩⟩
  · intro ⟨hp, ha, hb⟩
    exact ⟨links_join.mpr ⟨⟨_, hp⟩, ha.links, hb.links⟩,
      stored_join.mpr ⟨by rw [storedHeight_of hp, of_height], ha.stored, hb.stored⟩⟩

/-! ### Heights as the code asks for them -/

/-- What `psync_tree_height` answers. -/
def rootHeight (h : NodeHeap P) : Option P → Option ℤ
  | none => some 0
  | some p => (h p).map Node.height

@[simp] theorem does_height {r : Option P} {Q : ℤ → NodeHeap P → Prop} :
    Does (height r) h Q ↔ ∃ k, rootHeight h r = some k ∧ Q k h := by
  cases r with
  | none => simp [height, rootHeight]
  | some p =>
    simp only [height, does_bind, does_load, does_pure, rootHeight, Option.map_eq_some_iff]
    constructor
    · rintro ⟨n, hp, hq⟩
      exact ⟨_, ⟨n, hp, rfl⟩, hq⟩
    · rintro ⟨_, ⟨n, hp, hk⟩, hq⟩
      exact ⟨n, hp, hk ▸ hq⟩

@[simp] theorem rootHeight_update [DecidableEq P] {r : Option P} {q : P} {n : Option (Node P)} (hne : r ≠ some q) :
    rootHeight (Function.update h q n) r = rootHeight h r := by
  cases r with
  | none => rfl
  | some p => rw [rootHeight, Function.update_of_ne fun he => hne (congrArg some he), rootHeight]

theorem Holds.rootHeight {parent : Option P} {t : BinTree P} (hh : Holds h parent t) :
    rootHeight h t.root = some (t.height : ℤ) := by
  cases t with
  | nil => rfl
  | node l p r =>
    obtain ⟨⟨k, hp⟩, -, -⟩ := hh.links
    have hk := hh.stored.1
    rw [storedHeight_of hp] at hk
    subst hk
    simp only [BinTree.root_node, PTree.rootHeight, hp, Option.map_some]
    rfl

theorem root_ne {t : BinTree P} {p : P} (hp : p ∉ t.toList) : t.root ≠ some p := by
  cases t with
  | nil => exact fun he => nomatch he
  | node l q r =>
    rintro he
    cases he
    exact hp (by simp)

theorem root_mem {t : BinTree P} {p : P} (hp : t.root = some p) : p ∈ t.toList := by
  by_contra hnot
  exact root_ne hnot hp

theorem does_recalc [DecidableEq P] {d : Side} {e : P} {n f p : Option P} {k i j : ℤ}
    {Q : Unit → NodeHeap P → Prop} (he : h e = some (.of d n f p k)) (hn : PTree.rootHeight h n = some i)
    (hf : PTree.rootHeight h f = some j) :
    Does (recalcHeight e) h Q ↔ Q () (Function.update h e (some (.of d n f p (max i j + 1)))) := by
  cases d
  · simp [recalcHeight, he, Node.of, hn, hf]
  · rw [Int.max_comm]
    simp [recalcHeight, he, Node.of, hn, hf]

end Pclsync.PTree
