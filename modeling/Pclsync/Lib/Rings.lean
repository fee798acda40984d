import Pclsync.Lib.HeapProgram
import Mathlib.Data.List.Nodup

/-! Lists on a heap: chains that are followed by `next`, and rings of nodes that point at each other both ways. -/
namespace Pclsync.Lib.Rings
open Lib.HeapProgram

variable {P : Type}

structure Links (P : Type) where
  next : Option P
  prev : Option P

/-! ### Chains -/

/-- The nodes `xs` follow each other from `p` to `q`. -/
def Chain (h : Heap P (Links P)) : Option P → List P → Option P → Prop
  | p, [], q => p = q
  | p, x :: xs, q => p = some x ∧ ∃ c, h x = some c ∧ Chain h c.next xs q

variable {h h' : Heap P (Links P)} {p q r : Option P} {a b x y head : P} {xs ys : List P} {c : Links P}

theorem chain_cons : Chain h p (x :: xs) q ↔ p = some x ∧ ∃ c, h x = some c ∧ Chain h c.next xs q := Iff.rfl

theorem chain_append : Chain h p (xs ++ ys) r ↔ ∃ q, Chain h p xs q ∧ Chain h q ys r := by
  induction xs generalizing p with
  | nil =>
    constructor
    · exact fun h => ⟨p, rfl, h⟩
    · rintro ⟨q, rfl, h⟩
      exact h
  | cons x xs ih =>
    simp only [List.cons_append, chain_cons, ih]
    constructor
    · rintro ⟨hp, c, hc, q, hxs, hys⟩
      exact ⟨q, ⟨hp, c, hc, hxs⟩, hys⟩
    · rintro ⟨q, ⟨hp, c, hc, hxs⟩, hys⟩
      exact ⟨hp, c, hc, q, hxs, hys⟩

/-- A chain does not depend on other nodes. -/
theorem Chain.congr (hc : Chain h p xs q) (heq : ∀ x ∈ xs, h' x = h x) : Chain h' p xs q := by
  induction xs generalizing p with
  | nil => exact hc
  | cons x xs ih =>
    obtain ⟨hhead, hrest⟩ := List.forall_mem_cons.mp heq
    obtain ⟨hp, c, hx, hxs⟩ := hc
    exact ⟨hp, c, hhead.trans hx, ih hxs hrest⟩

/-! ### Rings -/

/-- `b` is after `a`. -/
def Linked (h : Heap P (Links P)) (a b : P) : Prop :=
  (∃ c, h a = some c ∧ c.next = some b) ∧ ∃ c, h b = some c ∧ c.prev = some a

/-- The nodes `xs` are between `a` and `b`. -/
def Segment (h : Heap P (Links P)) : P → List P → P → Prop
  | a, [], b => Linked h a b
  | a, x :: xs, b => Linked h a x ∧ Segment h x xs b

/-- The ring of a head and its nodes. -/
structure Ring (h : Heap P (Links P)) (head : P) (xs : List P) : Prop where
  segment : Segment h head xs head
  nodup : (head :: xs).Nodup

theorem segment_cons : Segment h a (x :: xs) b ↔ Linked h a x ∧ Segment h x xs b := Iff.rfl

theorem segment_append : Segment h a (xs ++ y :: ys) b ↔ Segment h a xs y ∧ Segment h y ys b := by
  induction xs generalizing a with
  | nil => exact Iff.rfl
  | cons x xs ih => rw [List.cons_append, segment_cons, segment_cons, ih, and_assoc]

/-- Other `next` than those of its first nodes and other `prev` than those of its last ones are not in a segment. -/
theorem Segment.congr (hs : Segment h a xs b)
    (hnext : ∀ x ∈ a :: xs, ∀ c, h x = some c → ∃ c', h' x = some c' ∧ c'.next = c.next)
    (hprev : ∀ x ∈ xs ++ [b], ∀ c, h x = some c → ∃ c', h' x = some c' ∧ c'.prev = c.prev) : Segment h' a xs b := by
  induction xs generalizing a with
  | nil =>
    obtain ⟨⟨c, hc, hn⟩, d, hd, hp⟩ := hs
    obtain ⟨c', hc', hn'⟩ := hnext a List.mem_cons_self c hc
    obtain ⟨d', hd', hp'⟩ := hprev b List.mem_cons_self d hd
    exact ⟨⟨c', hc', hn'.trans hn⟩, d', hd', hp'.trans hp⟩
  | cons x xs ih =>
    obtain ⟨⟨⟨c, hc, hn⟩, d, hd, hp⟩, hrest⟩ := hs
    obtain ⟨c', hc', hn'⟩ := hnext a List.mem_cons_self c hc
    obtain ⟨d', hd', hp'⟩ := hprev x List.mem_cons_self d hd
    refine ⟨⟨⟨c', hc', hn'.trans hn⟩, d', hd', hp'.trans hp⟩, ih hrest (fun y hy => ?_) fun y hy => ?_⟩
    · exact hnext y (List.mem_cons_of_mem a hy)
    · exact hprev y (List.mem_cons_of_mem x hy)

/-- A ring does not depend on other nodes. -/
theorem Ring.congr (hr : Ring h head xs) (heq : ∀ x ∈ head :: xs, h' x = h x) : Ring h' head xs := by
  refine ⟨hr.segment.congr (fun x hx c hc => ⟨c, (heq x hx).trans hc, rfl⟩) fun x hx c hc => ⟨c, (heq x ?_).trans hc, rfl⟩, hr.nodup⟩
  rcases List.mem_append.mp hx with hx | hx
  · exact List.mem_cons_of_mem head hx
  · rw [List.mem_singleton.mp hx]
    exact List.mem_cons_self

theorem Segment.used (hs : Segment h a xs b) (hx : x ∈ a :: xs) : ∃ c, h x = some c := by
  induction xs generalizing a with
  | nil =>
    rw [List.mem_singleton.mp hx]
    exact hs.1.imp fun _ hc => hc.1
  | cons y xs ih =>
    rcases List.mem_cons.mp hx with rfl | hx
    · exact hs.1.1.imp fun _ hc => hc.1
    · exact ih hs.2 hx

theorem Ring.used (hr : Ring h head xs) (hx : x ∈ head :: xs) : ∃ c, h x = some c := hr.segment.used hx

/-- The nodes of a ring from one of them on are a chain. -/
theorem Segment.chain (hs : Segment h a xs b) : ∃ c, h a = some c ∧ Chain h c.next xs (some b) := by
  induction xs generalizing a with
  | nil =>
    obtain ⟨⟨c, hc, hn⟩, -⟩ := hs
    exact ⟨c, hc, hn⟩
  | cons x xs ih =>
    obtain ⟨⟨⟨c, hc, hn⟩, -⟩, hrest⟩ := hs
    obtain ⟨d, hd, hchain⟩ := ih hrest
    exact ⟨c, hc, hn, d, hd, hchain⟩

/-- The last node before the end. -/
def lastOf (a : P) (xs : List P) : P := xs.getLastD a

/-- The first node after the start. -/
def firstOf (xs : List P) (b : P) : P := xs.headD b

theorem lastOf_concat : lastOf a (xs ++ [x]) = x := by rw [lastOf, List.getLastD_concat]

theorem firstOf_cons : firstOf (x :: xs) b = x := rfl

theorem lastOf_mem : lastOf a xs ∈ a :: xs := by
  rcases List.eq_nil_or_concat xs with rfl | ⟨ys, y, rfl⟩
  · exact List.mem_cons_self
  · rw [List.concat_eq_append, lastOf_concat]
    exact List.mem_cons_of_mem a (List.mem_append_right ys List.mem_cons_self)

theorem firstOf_mem : firstOf xs b ∈ xs ++ [b] := by
  cases xs with
  | nil => exact List.mem_cons_self
  | cons x xs => exact List.mem_cons_self

theorem Segment.linked_first (hs : Segment h a xs b) : Linked h a (firstOf xs b) := by
  cases xs with
  | nil => exact hs
  | cons x xs => exact hs.1

theorem Segment.linked_last (hs : Segment h a xs b) : Linked h (lastOf a xs) b := by
  rcases List.eq_nil_or_concat xs with rfl | ⟨ys, y, rfl⟩
  · exact hs
  · rw [List.concat_eq_append] at hs ⊢
    rw [lastOf_concat]
    exact (segment_append.mp hs).2

theorem lastOf_cons : lastOf a (x :: xs) = lastOf x xs := List.getLastD_cons ..

/-- A segment in two parts that share the link between them. -/
theorem segment_split : Segment h a (xs ++ ys) b ↔ Segment h a xs (firstOf ys b) ∧ Segment h (lastOf a xs) ys b := by
  cases ys with
  | nil =>
    rw [List.append_nil]
    exact ⟨fun hs => ⟨hs, hs.linked_last⟩, And.left⟩
  | cons y ys =>
    rw [segment_append, segment_cons]
    exact ⟨fun hs => ⟨hs.1, hs.1.linked_last, hs.2⟩, fun hs => ⟨hs.1, hs.2.2⟩⟩

/-- The same nodes, with another one after the last. -/
theorem Segment.relast {e : P} (hs : Segment h a xs e) (hnodup : (a :: xs).Nodup) (hlast : Linked h' (lastOf a xs) b)
    (hnext : ∀ x ∈ a :: xs, x ≠ lastOf a xs → ∀ c, h x = some c → ∃ c', h' x = some c' ∧ c'.next = c.next)
    (hprev : ∀ x ∈ xs, ∀ c, h x = some c → ∃ c', h' x = some c' ∧ c'.prev = c.prev) : Segment h' a xs b := by
  induction xs generalizing a with
  | nil => exact hlast
  | cons x xs ih =>
    obtain ⟨⟨⟨c, hc, hn⟩, d, hd, hp⟩, hrest⟩ := hs
    rw [lastOf_cons] at hlast hnext
    obtain ⟨ha, hnodup⟩ := List.nodup_cons.mp hnodup
    obtain ⟨c', hc', hn'⟩ := hnext a List.mem_cons_self (fun heq => ha (heq ▸ lastOf_mem)) c hc
    obtain ⟨d', hd', hp'⟩ := hprev x List.mem_cons_self d hd
    refine ⟨⟨⟨c', hc', hn'.trans hn⟩, d', hd', hp'.trans hp⟩, ih hrest hnodup hlast (fun y hy => ?_) fun y hy => ?_⟩
    · exact hnext y (List.mem_cons_of_mem a hy)
    · exact hprev y (List.mem_cons_of_mem x hy)

/-- The same nodes, with another one before the first. -/
theorem Segment.refirst {e : P} (hs : Segment h e ys b) (hnodup : (ys ++ [b]).Nodup) (hfirst : Linked h' a (firstOf ys b))
    (hnext : ∀ x ∈ ys, ∀ c, h x = some c → ∃ c', h' x = some c' ∧ c'.next = c.next)
    (hprev : ∀ x ∈ ys ++ [b], x ≠ firstOf ys b → ∀ c, h x = some c → ∃ c', h' x = some c' ∧ c'.prev = c.prev) :
    Segment h' a ys b := by
  cases ys with
  | nil => exact hfirst
  | cons y ys =>
    have hy := (List.nodup_cons.mp hnodup).1
    refine ⟨hfirst, hs.2.congr hnext fun x hx => hprev x (List.mem_cons_of_mem y hx) ?_⟩
    rintro rfl
    exact hy hx

end Pclsync.Lib.Rings
