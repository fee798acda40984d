import Pclsync.Lib.BinaryTree

/-! Descents in a search tree. The order need not be a linear one on the type: it has to be
one on the nodes of the tree and what is searched for. -/
namespace Pclsync.Lib.BinaryTree

namespace BinTree
variable {P : Type}

/-- The node where a descent ends that goes by `cmp`, where what is searched for lies
relative to a node. -/
def search (cmp : P → Ordering) : BinTree P → Option P
  | nil => none
  | node left p right =>
    match cmp p with
    | .eq => some p
    | .lt => left.search cmp
    | .gt => right.search cmp

/-- The node where the descent ends, with the nodes before it and those after it. -/
def locate (cmp : P → Ordering) : BinTree P → Option (List P × P × List P)
  | nil => none
  | node left p right =>
    match cmp p with
    | .eq => some (left.toList, p, right.toList)
    | .lt => (left.locate cmp).map fun (before, q, after) => (before, q, after ++ p :: right.toList)
    | .gt => (right.locate cmp).map fun (before, q, after) => (left.toList ++ p :: before, q, after)

/-- A new leaf where the descent falls off the tree. -/
def addLeaf (cmp : P → Ordering) (new : P) : BinTree P → BinTree P
  | nil => node nil new nil
  | node left p right =>
    match cmp p with
    | .lt => node (left.addLeaf cmp new) p right
    | _ => node left p (right.addLeaf cmp new)

variable {cmp : P → Ordering} {r : P → P → Prop} {p new : P} {t : BinTree P}

theorem search_mem (h : t.search cmp = some p) : p ∈ t.toList ∧ cmp p = .eq := by
  induction t with
  | nil => cases h
  | node left q right ihLeft ihRight =>
    rw [search] at h
    rw [toList, List.mem_append, List.mem_cons]
    split at h
    · next heq =>
      obtain rfl := Option.some.inj h
      exact ⟨.inr (.inl rfl), heq⟩
    · exact ⟨.inl (ihLeft h).1, (ihLeft h).2⟩
    · exact ⟨.inr (.inr (ihRight h).1), (ihRight h).2⟩

theorem search_eq_locate : t.search cmp = (t.locate cmp).map fun found => found.2.1 := by
  induction t with
  | nil => rfl
  | node left q right ihLeft ihRight =>
    rw [search, locate]
    cases cmp q with
    | eq => rfl
    | lt => rw [ihLeft, Option.map_map]; rfl
    | gt => rw [ihRight, Option.map_map]; rfl

theorem toList_locate {before after : List P} (h : t.locate cmp = some (before, p, after)) : before ++ p :: after = t.toList := by
  induction t generalizing before after with
  | nil => cases h
  | node left q right ihLeft ihRight =>
    rw [locate] at h
    rw [toList]
    cases hcmp : cmp q with
    | eq =>
      rw [hcmp] at h
      cases h
      rfl
    | lt =>
      rw [hcmp] at h
      obtain ⟨⟨b, x, a⟩, hleft, heq⟩ := Option.map_eq_some_iff.mp h
      cases heq
      rw [← ihLeft hleft, List.append_assoc, List.cons_append]
    | gt =>
      rw [hcmp] at h
      obtain ⟨⟨b, x, a⟩, hright, heq⟩ := Option.map_eq_some_iff.mp h
      cases heq
      rw [← ihRight hright, List.append_assoc, List.cons_append]

/-- In a sorted tree the descent does not miss a node. -/
theorem search_ne_none (hsorted : t.toList.Pairwise r) (hp : p ∈ t.toList)
    (hbefore : ∀ q ∈ t.toList, r q p → cmp q ≠ .lt) (hafter : ∀ q ∈ t.toList, r p q → cmp q ≠ .gt)
    (heq : cmp p = .eq) : t.search cmp ≠ none := by
  induction t with
  | nil => cases hp
  | node left q right ihLeft ihRight =>
    rw [toList] at hsorted hp hbefore hafter
    obtain ⟨hleft, hright, hacross⟩ := List.pairwise_append.mp hsorted
    obtain ⟨hq, hright⟩ := List.pairwise_cons.mp hright
    have hqmem : q ∈ left.toList ++ q :: right.toList := List.mem_append_right _ List.mem_cons_self
    rw [search]
    rcases List.mem_append.mp hp with hp | hp
    · have hlt : cmp q ≠ .gt := hafter q hqmem (hacross p hp q List.mem_cons_self)
      cases hcmp : cmp q with
      | eq => nofun
      | gt => exact absurd hcmp hlt
      | lt =>
        refine ihLeft hleft hp (fun x hx => hbefore x ?_) (fun x hx => hafter x ?_)
        · exact List.mem_append_left _ hx
        · exact List.mem_append_left _ hx
    · rcases List.mem_cons.mp hp with rfl | hp
      · rw [heq]
        nofun
      · have hgt : cmp q ≠ .lt := hbefore q hqmem (hq p hp)
        cases hcmp : cmp q with
        | eq => nofun
        | lt => exact absurd hcmp hgt
        | gt =>
          refine ihRight hright hp (fun x hx => hbefore x ?_) (fun x hx => hafter x ?_)
          · exact List.mem_append_right _ (List.mem_cons_of_mem _ hx)
          · exact List.mem_append_right _ (List.mem_cons_of_mem _ hx)

theorem addLeaf_perm : (t.addLeaf cmp new).toList.Perm (new :: t.toList) := by
  induction t with
  | nil => exact .refl _
  | node left p right ihLeft ihRight =>
    rw [addLeaf]
    split
    · exact (ihLeft.append_right _)
    · exact ((ihRight.cons p).append_left _).trans (((List.Perm.swap new p _).append_left _).trans List.perm_middle)

theorem mem_addLeaf : p ∈ (t.addLeaf cmp new).toList ↔ p = new ∨ p ∈ t.toList := by
  rw [addLeaf_perm.mem_iff, List.mem_cons]

/-- The tree stays sorted, where the order of the new node and the old ones is transitive. -/
theorem pairwise_addLeaf (hsorted : t.toList.Pairwise r)
    (hlt : ∀ q ∈ t.toList, cmp q = .lt → r new q) (hgt : ∀ q ∈ t.toList, cmp q ≠ .lt → r q new)
    (hafter : ∀ q ∈ t.toList, ∀ q' ∈ t.toList, r new q → r q q' → r new q')
    (hbefore : ∀ q ∈ t.toList, ∀ q' ∈ t.toList, r q q' → r q' new → r q new) :
    (t.addLeaf cmp new).toList.Pairwise r := by
  induction t with
  | nil => exact List.pairwise_singleton _ _
  | node left p right ihLeft ihRight =>
    rw [toList] at hsorted hlt hgt hafter hbefore
    obtain ⟨hleft, hrest, hacross⟩ := List.pairwise_append.mp hsorted
    obtain ⟨hp, hright⟩ := List.pairwise_cons.mp hrest
    have inLeft : ∀ {q}, q ∈ left.toList → q ∈ left.toList ++ p :: right.toList := List.mem_append_left _
    have inRight : ∀ {q}, q ∈ right.toList → q ∈ left.toList ++ p :: right.toList := fun hq =>
      List.mem_append_right _ (List.mem_cons_of_mem _ hq)
    have inNode : p ∈ left.toList ++ p :: right.toList := List.mem_append_right _ List.mem_cons_self
    rw [addLeaf]
    split
    · next hcmp =>
      have hnew := hlt p inNode hcmp
      refine List.pairwise_append.mpr ⟨ihLeft hleft (fun q hq => hlt q (inLeft hq)) (fun q hq => hgt q (inLeft hq))
        (fun q hq q' hq' => hafter q (inLeft hq) q' (inLeft hq'))
        (fun q hq q' hq' => hbefore q (inLeft hq) q' (inLeft hq')), hrest, fun q hq q' hq' => ?_⟩
      rcases mem_addLeaf.mp hq with rfl | hq
      · rcases List.mem_cons.mp hq' with rfl | hq'
        · exact hnew
        · exact hafter p inNode q' (inRight hq') hnew (hp q' hq')
      · exact hacross q hq q' hq'
    · next hcmp =>
      have hnew := hgt p inNode hcmp
      refine List.pairwise_append.mpr ⟨hleft, List.pairwise_cons.mpr ⟨fun q hq => ?_, ihRight hright
        (fun q hq => hlt q (inRight hq)) (fun q hq => hgt q (inRight hq))
        (fun q hq q' hq' => hafter q (inRight hq) q' (inRight hq'))
        (fun q hq q' hq' => hbefore q (inRight hq) q' (inRight hq'))⟩, fun q hq q' hq' => ?_⟩
      · rcases mem_addLeaf.mp hq with rfl | hq
        · exact hnew
        · exact hp q hq
      · rcases List.mem_cons.mp hq' with rfl | hq'
        · exact hacross q hq q' List.mem_cons_self
        · rcases mem_addLeaf.mp hq' with rfl | hq'
          · exact hbefore q (inLeft hq) p inNode (hacross q hq p List.mem_cons_self) hnew
          · exact hacross q hq q' (List.mem_cons_of_mem _ hq')

end BinTree

end Pclsync.Lib.BinaryTree
