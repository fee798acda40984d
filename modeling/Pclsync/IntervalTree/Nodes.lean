import Pclsync.PTree.Nodes

/-! The tree of intervals, from `pintervaltree.c` and `pintervaltree.h`.

A cell holds the links of its node and the interval. Its first field is the node, so
that a pointer to one is a pointer to the other. Nothing is computed with the ends of
an interval, they are only compared. A function that allocates is given the pointer
that `psync_new` answers, none allocates twice. -/
namespace Pclsync.IntervalTree
open Lib.BinaryTree Lib.HeapProgram

/-- `psync_interval_tree_t`. -/
structure Interval (P : Type) where
  tree : PTree.Node P
  from_ : ℕ
  to_ : ℕ
deriving DecidableEq, Repr

abbrev Prog (P α : Type) := Program P (Interval P) α

variable {P : Type}

/-- A function of the tree of nodes. -/
def onTree {α : Type} (x : PTree.Prog P α) : Prog P α := onPart Interval.tree (fun c n => { c with tree := n }) x

/-- `psync_interval_tree_get_first`. -/
def getFirst (fuel : ℕ) (tree : Option P) : Prog P (Option P) := onTree (PTree.getFirst fuel tree)

/-- `psync_interval_tree_get_last`. -/
def getLast (fuel : ℕ) (tree : Option P) : Prog P (Option P) := onTree (PTree.getLast fuel tree)

variable [DecidableEq P]

/-- `psync_interval_tree_get_next`. -/
def getNext (fuel : ℕ) (tree : P) : Prog P (Option P) := onTree (PTree.getNext fuel tree)

/-- `psync_interval_tree_get_prev`. -/
def getPrev (fuel : ℕ) (tree : P) : Prog P (Option P) := onTree (PTree.getPrev fuel tree)

/-- `psync_interval_tree_for_each`. -/
def forEach (fuel : ℕ) (tree : Option P) : Prog P (List P) := onTree (PTree.forEach fuel tree)

/-- `psync_interval_tree_del`. -/
def del (fuel : ℕ) (tree : Option P) (node : P) : Prog P (Option P) := do
  let tree ← deref tree
  onTree (PTree.getDel fuel tree node)

/-- `psync_interval_tree_first_interval_containing_or_after`. -/
def firstIntervalContainingOrAfter (fuel point : ℕ) : ℕ → Option P → Prog P (Option P)
  | _, none => return none
  | 0, some _ => failure
  | rounds + 1, some tree => do
    let c ← load tree
    if point ≥ c.to_ then
      match c.tree.right with
      | some right => firstIntervalContainingOrAfter fuel point rounds (some right)
      | none => getNext fuel tree
    else if point ≥ c.from_ ∨ c.tree.left = none then return some tree
    else firstIntervalContainingOrAfter fuel point rounds c.tree.left

/-- `psync_interval_new`: the node is not read before it is linked. -/
def new (p : P) (from_ to_ : ℕ) : Prog P P := do
  alloc p ⟨⟨none, none, none, 0⟩, from_, to_⟩
  return p

/-- `psync_interval_tree_new`. -/
def treeNew (fuel : ℕ) (p : P) (from_ to_ : ℕ) : Prog P (Option P) := do
  let tree ← new p from_ to_
  return some (← onTree (PTree.getAddAfter fuel none none tree))

/-- `psync_interval_tree_consume_intervals`. -/
def consumeIntervals (fuel : ℕ) : ℕ → Option P → P → Prog P (Option P)
  | 0, _, _ => failure
  | rounds + 1, tree, e => do
    match ← getNext fuel e with
    | none => return tree
    | some next =>
      if (← load next).from_ > (← load e).to_ then return tree
      else
        let tree ← del fuel tree next
        let to_ := (← load next).to_
        if to_ ≥ (← load e).to_ then
          store e fun c => { c with to_ := to_ }
          free next
          return tree
        else
          free next
          consumeIntervals fuel rounds tree e

/-- The descent of `psync_interval_tree_get_add`. -/
def getAddFrom (fuel : ℕ) (p : P) (from_ to_ : ℕ) (tree : P) : ℕ → P → Prog P (Option P)
  | 0, _ => failure
  | rounds + 1, e => do
    assert (from_ ≤ to_)
    let c ← load e
    if c.from_ ≤ from_ ∧ c.to_ ≥ from_ then
      if c.to_ ≥ to_ then return some tree
      else
        store e fun c => { c with to_ := to_ }
        consumeIntervals fuel fuel (some tree) e
    else if c.from_ > from_ then
      match c.tree.left with
      | some left => getAddFrom fuel p from_ to_ tree rounds left
      | none =>
        if c.from_ ≤ to_ ∧ c.to_ ≥ to_ then
          store e fun c => { c with from_ := from_ }
          return some tree
        else
          let e2 ← new p from_ to_
          let tree ← onTree (PTree.getAddBefore fuel (some tree) (some e) e2)
          consumeIntervals fuel fuel (some tree) e2
    else
      assert (c.to_ < from_)
      match c.tree.right with
      | some right => getAddFrom fuel p from_ to_ tree rounds right
      | none =>
        let e2 ← new p from_ to_
        let tree ← onTree (PTree.getAddAfter fuel (some tree) (some e) e2)
        consumeIntervals fuel fuel (some tree) e2

/-- `psync_interval_tree_get_add`, and `psync_interval_tree_add` stores its result. -/
def getAdd (fuel : ℕ) (p : P) (tree : Option P) (from_ to_ : ℕ) : Prog P (Option P) := do
  assert (to_ > from_)
  match tree with
  | none => treeNew fuel p from_ to_
  | some tree => getAddFrom fuel p from_ to_ tree fuel tree

/-- The loop of `psync_interval_tree_remove`. -/
def removeFrom (fuel : ℕ) (p : P) (from_ to_ : ℕ) : ℕ → Option P → Option P → Prog P (Option P)
  | _, tree, none => return tree
  | 0, _, some _ => failure
  | rounds + 1, tree, some tr => do
    let c ← load tr
    if c.from_ < from_ ∧ c.to_ > to_ then
      let e ← new p to_ c.to_
      let tree ← onTree (PTree.getAddAfter fuel tree (some tr) e)
      store tr fun c => { c with to_ := from_ }
      return some tree
    else
      let ntr ← getNext fuel tr
      if from_ ≤ c.from_ ∧ c.from_ < to_ then
        store tr fun c => { c with from_ := to_ }
        let tree ← if (← load tr).from_ ≥ (← load tr).to_ then del fuel tree tr else pure tree
        removeFrom fuel p from_ to_ rounds tree ntr
      else if c.from_ < from_ then
        store tr fun c => { c with to_ := from_ }
        removeFrom fuel p from_ to_ rounds tree ntr
      else return tree

/-- `psync_interval_tree_remove`. -/
def remove (fuel : ℕ) (p : P) (tree : Option P) (from_ to_ : ℕ) : Prog P (Option P) := do
  let tr ← firstIntervalContainingOrAfter fuel from_ fuel tree
  removeFrom fuel p from_ to_ fuel tree tr

/-- The loop of `psync_interval_tree_get_cut_end`. -/
def getCutEndFrom (fuel e : ℕ) : ℕ → Option P → Option P → Prog P (Option P)
  | _, tree, none => return tree
  | 0, _, some _ => failure
  | rounds + 1, tree, some last => do
    let c ← load last
    if c.to_ > e then
      if c.from_ < e then
        store last fun c => { c with to_ := e }
        return tree
      else
        let prev ← getPrev fuel last
        let tree ← del fuel tree last
        free last
        getCutEndFrom fuel e rounds tree prev
    else return tree

/-- `psync_interval_tree_get_cut_end`, and `psync_interval_tree_cut_end` stores its result. -/
def getCutEnd (fuel : ℕ) (tree : Option P) (e : ℕ) : Prog P (Option P) := do
  let last ← getLast fuel tree
  getCutEndFrom fuel e fuel tree last

end Pclsync.IntervalTree
