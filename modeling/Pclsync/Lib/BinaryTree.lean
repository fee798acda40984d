import Mathlib.Data.List.Nodup
import Mathlib.Tactic.Common

/-! Binary trees with the mirror images of a statement as one statement.

A `Side` names one of the two subtrees, and `BinTree.join` builds a node from the
subtree on that side and the other one. A `Context` is a tree with a hole, from
the hole outwards. -/
namespace Pclsync.Lib.BinaryTree

inductive Side where
  | left
  | right
deriving DecidableEq, Repr

def Side.other : Side → Side
  | .left => .right
  | .right => .left

@[simp] theorem other_left : Side.left.other = .right := rfl
@[simp] theorem other_right : Side.right.other = .left := rfl
@[simp] theorem other_other (d : Side) : d.other.other = d := by cases d <;> rfl

theorem eq_or_other (d d' : Side) : d' = d ∨ d' = d.other := by cases d <;> cases d' <;> decide

/-- Two parts in the order of their sides, with `near` on side `d`. -/
def Side.order {α : Type} (d : Side) (near : List α) (p : α) (far : List α) : List α :=
  match d with
  | .left => near ++ p :: far
  | .right => far ++ p :: near

/-- `new` next to `p` on side `d`. -/
def Side.beside {α : Type} (d : Side) (p new : α) : List α :=
  match d with
  | .left => [new, p]
  | .right => [p, new]

theorem mem_order {α : Type} {d : Side} {near far : List α} {p q : α} :
    q ∈ d.order near p far ↔ q ∈ near ∨ q = p ∨ q ∈ far := by
  cases d
  · simp [Side.order]
  · simp only [Side.order, List.mem_append, List.mem_cons]
    tauto

theorem nodup_order {α : Type} {d : Side} {near far : List α} {p : α} :
    (d.order near p far).Nodup ↔ p ∉ near ∧ p ∉ far ∧ near.Nodup ∧ far.Nodup ∧ near.Disjoint far := by
  cases d
  · rw [Side.order, List.nodup_middle, List.nodup_cons, List.nodup_append']
    simp only [List.mem_append]
    tauto
  · rw [Side.order, List.nodup_middle, List.nodup_cons, List.nodup_append', List.disjoint_comm]
    simp only [List.mem_append]
    tauto

/-- The nearest element on side `d` of what stands between `xs` and `ys`. -/
def Side.nearest {α : Type} (d : Side) (xs ys : List α) : Option α :=
  match d with
  | .left => xs.getLast?
  | .right => ys.head?

inductive BinTree (P : Type) where
  | nil
  | node (left : BinTree P) (p : P) (right : BinTree P)

variable {P Q : Type}

namespace BinTree

def root : BinTree P → Option P
  | nil => none
  | node _ p _ => some p

def toList : BinTree P → List P
  | nil => []
  | node l p r => l.toList ++ p :: r.toList

def height : BinTree P → ℕ
  | nil => 0
  | node l _ r => max l.height r.height + 1

/-- The heights of the two subtrees of every node differ by at most one. -/
def Balanced : BinTree P → Prop
  | nil => True
  | node l _ r => l.height ≤ r.height + 1 ∧ r.height ≤ l.height + 1 ∧ l.Balanced ∧ r.Balanced

/-- The two subtrees of the root are equally high. -/
def Even : BinTree P → Prop
  | nil => True
  | node l _ r => l.height = r.height

def map (f : P → Q) : BinTree P → BinTree Q
  | nil => nil
  | node l p r => node (l.map f) (f p) (r.map f)

/-- A node with `near` on side `d`. -/
def join (d : Side) (near : BinTree P) (p : P) (far : BinTree P) : BinTree P :=
  match d with
  | .left => node near p far
  | .right => node far p near

@[simp] theorem root_nil : (nil : BinTree P).root = none := rfl
@[simp] theorem root_node (l r : BinTree P) (p : P) : (node l p r).root = some p := rfl
@[simp] theorem root_join (d : Side) (a b : BinTree P) (p : P) : (join d a p b).root = some p := by
  cases d <;> rfl

@[simp] theorem toList_nil : (nil : BinTree P).toList = [] := rfl
@[simp] theorem toList_node (l r : BinTree P) (p : P) : (node l p r).toList = l.toList ++ p :: r.toList := rfl
@[simp] theorem toList_join (d : Side) (a b : BinTree P) (p : P) :
    (join d a p b).toList = d.order a.toList p b.toList := by
  cases d <;> rfl

@[simp] theorem height_nil : (nil : BinTree P).height = 0 := rfl
@[simp] theorem height_join (d : Side) (a b : BinTree P) (p : P) :
    (join d a p b).height = max a.height b.height + 1 := by
  cases d
  · rfl
  · rw [Nat.max_comm]
    rfl

theorem join_other (d : Side) (a b : BinTree P) (p : P) : join d.other a p b = join d b p a := by cases d <;> rfl

theorem balanced_join {d : Side} {a b : BinTree P} {p : P} :
    (join d a p b).Balanced ↔
      a.height ≤ b.height + 1 ∧ b.height ≤ a.height + 1 ∧ a.Balanced ∧ b.Balanced := by
  cases d
  · rfl
  · show _ ∧ _ ∧ _ ∧ _ ↔ _
    tauto

theorem even_join {d : Side} {a b : BinTree P} {p : P} : (join d a p b).Even ↔ a.height = b.height := by
  cases d
  · rfl
  · exact eq_comm

/-- A rotation keeps the order. -/
theorem toList_rotate (d : Side) (a b f : BinTree P) (p q : P) :
    (join d (join d a p b) q f).toList = (join d a p (join d b q f)).toList := by
  cases d <;> simp [Side.order]

theorem toList_join_congr {d : Side} {a a' b : BinTree P} {p : P} (h : a.toList = a'.toList) :
    (join d a p b).toList = (join d a' p b).toList := by
  rw [toList_join, toList_join, h]


/-- Every tree but the empty one has a node and a subtree on each side of it. -/
theorem cases_join (d : Side) (t : BinTree P) : t = nil ∨ ∃ a p b, t = join d a p b := by
  cases t with
  | nil => exact .inl rfl
  | node l p r =>
    cases d
    · exact .inr ⟨l, p, r, rfl⟩
    · exact .inr ⟨r, p, l, rfl⟩

theorem height_le_length (t : BinTree P) : t.height ≤ t.toList.length := by
  induction t with
  | nil => exact Nat.le_refl _
  | node l p r ihl ihr =>
    simp only [height, toList_node, List.length_append, List.length_cons]
    omega

end BinTree

/-- A tree with a hole: the frame around the hole first. -/
inductive Context (P : Type) where
  | top
  | frame (d : Side) (p : P) (sibling : BinTree P) (up : Context P)

namespace Context

/-- The node the hole hangs from. -/
def parent : Context P → Option P
  | top => none
  | frame _ p _ _ => some p

def plug : Context P → BinTree P → BinTree P
  | top, t => t
  | frame d p s c, t => c.plug (.join d t p s)

/-- The hole of `c'` filled with `c`. -/
def comp : Context P → Context P → Context P
  | top, c' => c'
  | frame d p s c, c' => frame d p s (c.comp c')

/-- What stands before the hole in order. -/
def before : Context P → List P
  | top => []
  | frame .left _ _ c => c.before
  | frame .right p s c => c.before ++ (s.toList ++ [p])

/-- What stands after the hole in order. -/
def after : Context P → List P
  | top => []
  | frame .left p s c => p :: s.toList ++ c.after
  | frame .right _ _ c => c.after

/-- How far down the hole is. -/
def depth : Context P → ℕ
  | top => 0
  | frame _ _ _ c => c.depth + 1

/-- The tree with a hole is balanced, where what hangs in the hole has height `k`. -/
def Balanced : Context P → ℕ → Prop
  | top, _ => True
  | frame _ _ s c, k => k ≤ s.height + 1 ∧ s.height ≤ k + 1 ∧ s.Balanced ∧ c.Balanced (max k s.height + 1)
@[simp] theorem parent_top : (top : Context P).parent = none := rfl
@[simp] theorem parent_frame (d : Side) (p : P) (s : BinTree P) (c : Context P) :
    (frame d p s c).parent = some p := rfl

theorem plug_comp (c c' : Context P) (t : BinTree P) : (c.comp c').plug t = c'.plug (c.plug t) := by
  induction c generalizing t with
  | top => rfl
  | frame d p s c ih => exact ih _

theorem comp_assoc (c c' c'' : Context P) : (c.comp c').comp c'' = c.comp (c'.comp c'') := by
  induction c with
  | top => rfl
  | frame d p s c ih => rw [comp, comp, comp, ih]

theorem toList_plug (c : Context P) (t : BinTree P) : (c.plug t).toList = c.before ++ (t.toList ++ c.after) := by
  induction c generalizing t with
  | top => simp [plug, before, after]
  | frame d p s c ih =>
    rw [plug, ih, BinTree.toList_join]
    cases d <;> simp [Side.order, before, after]

theorem parent_mem {c : Context P} {t : BinTree P} {p : P} (h : c.parent = some p) : p ∈ (c.plug t).toList := by
  cases c with
  | top => cases h
  | frame d q s c =>
    cases h
    rw [plug, toList_plug, BinTree.toList_join]
    cases d <;> simp [Side.order]

/-- Below the root the tree in the hole does not matter for the root. -/
theorem root_plug_frame (d : Side) (p : P) (s : BinTree P) (c : Context P) (t t' : BinTree P) :
    ((frame d p s c).plug t).root = ((frame d p s c).plug t').root := by
  induction c generalizing d p s t t' with
  | top => simp [plug]
  | frame d' p' s' c ih => exact ih d' p' s' _ _

theorem root_plug_congr {c : Context P} {t : BinTree P} (t' : BinTree P) (h : t.root = t'.root) :
    (c.plug t).root = (c.plug t').root := by
  cases c with
  | top => exact h
  | frame d p s c => exact root_plug_frame d p s c t t'

theorem mem_frame {d : Side} {p q : P} {s : BinTree P} {c : Context P} :
    q ∈ (frame d p s c).before ∨ q ∈ (frame d p s c).after ↔
      q = p ∨ q ∈ s.toList ∨ q ∈ c.before ∨ q ∈ c.after := by
  cases d <;> simp only [before, after, List.mem_append, List.mem_cons, List.not_mem_nil] <;> tauto

theorem toList_plug_congr {c : Context P} {t t' : BinTree P} (h : t.toList = t'.toList) :
    (c.plug t).toList = (c.plug t').toList := by
  rw [toList_plug, toList_plug, h]

theorem mem_plug_iff {c : Context P} {t : BinTree P} {p : P} :
    p ∈ (c.plug t).toList ↔ p ∈ t.toList ∨ p ∈ c.before ∨ p ∈ c.after := by
  rw [toList_plug, List.mem_append, List.mem_append]
  tauto

theorem nodup_plug {c : Context P} {t : BinTree P} (h : (c.plug t).toList.Nodup) :
    t.toList.Nodup ∧ ∀ p, p ∈ t.toList → p ∉ c.before ∧ p ∉ c.after := by
  rw [toList_plug, List.nodup_append', List.nodup_append'] at h
  obtain ⟨-, ⟨ht, -, hafter⟩, hbefore⟩ := h
  exact ⟨ht, fun p hp => ⟨fun hb => hbefore hb (List.mem_append_left _ hp), fun ha => hafter hp ha⟩⟩

theorem nodup_plug_sublist {c : Context P} {t : BinTree P} (t' : BinTree P) (h : (c.plug t).toList.Nodup)
    (hsub : t'.toList.Sublist t.toList) : (c.plug t').toList.Nodup := by
  rw [toList_plug] at *
  exact h.sublist ((List.Sublist.refl _).append (hsub.append (List.Sublist.refl _)))

theorem balanced_plug {c : Context P} {t : BinTree P} :
    (c.plug t).Balanced ↔ c.Balanced t.height ∧ t.Balanced := by
  induction c generalizing t with
  | top => simp [plug, Balanced]
  | frame d p s c ih =>
    rw [plug, ih, BinTree.height_join, BinTree.balanced_join, Balanced]
    tauto

/-- The place of a node of a tree. -/
theorem exists_plug {t : BinTree P} {p : P} (h : p ∈ t.toList) : ∃ c l r, t = plug c (.node l p r) := by
  induction t with
  | nil => cases h
  | node l q r ihl ihr =>
    rw [BinTree.toList_node, List.mem_append, List.mem_cons] at h
    rcases h with h | rfl | h
    · obtain ⟨c, l', r', rfl⟩ := ihl h
      exact ⟨c.comp (frame .left q r top), l', r', by rw [plug_comp]; rfl⟩
    · exact ⟨top, l, r, rfl⟩
    · obtain ⟨c, l', r', rfl⟩ := ihr h
      exact ⟨c.comp (frame .right q l top), l', r', by rw [plug_comp]; rfl⟩

/-- Every frame leads to side `d`. -/
def Along (d : Side) : Context P → Prop
  | top => True
  | frame d' _ _ c => d' = d ∧ c.Along d

theorem Along.comp {d : Side} {c c' : Context P} (h : c.Along d) (h' : c'.Along d) : (c.comp c').Along d := by
  induction c with
  | top => exact h'
  | frame d' p s c ih => exact ⟨h.1, ih h.2⟩

theorem Along.before_left {c : Context P} (h : c.Along .left) : c.before = [] := by
  induction c with
  | top => rfl
  | frame d p s c ih =>
    obtain ⟨rfl, hc⟩ := h
    exact ih hc

theorem Along.after_right {c : Context P} (h : c.Along .right) : c.after = [] := by
  induction c with
  | top => rfl
  | frame d p s c ih =>
    obtain ⟨rfl, hc⟩ := h
    exact ih hc

theorem depth_le_length (c : Context P) (t : BinTree P) : c.depth ≤ (c.plug t).toList.length := by
  induction c generalizing t with
  | top => exact Nat.zero_le _
  | frame d p s c ih =>
    rw [toList_plug]
    have := ih .nil
    rw [toList_plug] at this
    cases d <;> simp [depth, before, after] at * <;> omega

end Context

end Pclsync.Lib.BinaryTree
