import Mathlib.Data.Int.Notation
import Mathlib.Data.Nat.Notation
import Pclsync.Lib.BinaryTree
import Pclsync.Lib.HeapProgram

/-! The tree of linked nodes, from `ptree.c` and `ptree.h`.

A tree is the pointer to its root, the nodes live in a heap. A function stops
without a result where the code would dereference `NULL` or fail an assertion; a
loop takes a bound on its rounds. What the source spells out once for each side is
one definition over a `Side`, and the source's functions are its two cases. -/
namespace Pclsync.PTree
open Lib.BinaryTree Lib.HeapProgram

/-- `psync_tree`. -/
structure Node (P : Type) where
  left : Option P
  right : Option P
  parent : Option P
  height : ℤ
deriving DecidableEq, Repr

variable {P : Type}

def Node.child (n : Node P) : Side → Option P
  | .left => n.left
  | .right => n.right

def Node.setChild (n : Node P) (d : Side) (p : Option P) : Node P :=
  match d with
  | .left => { n with left := p }
  | .right => { n with right := p }

abbrev Prog (P α : Type) := Program P (Node P) α

/-- `psync_tree_height`. -/
def height : Option P → Prog P ℤ
  | none => pure 0
  | some p => do return (← load p).height

/-! ### Walking -/

/-- `while (tree->left) tree=tree->left;` and its mirror image. -/
def goEnd (d : Side) : ℕ → P → Prog P P
  | 0, _ => failure
  | fuel + 1, p => do
    match (← load p).child d with
    | some q => goEnd d fuel q
    | none => return p

def getEnd (d : Side) (fuel : ℕ) : Option P → Prog P (Option P)
  | none => return none
  | some p => do return some (← goEnd d fuel p)

/-- `psync_tree_get_first`. -/
def getFirst (fuel : ℕ) : Option P → Prog P (Option P) := getEnd .left fuel

/-- `psync_tree_get_last`. -/
def getLast (fuel : ℕ) : Option P → Prog P (Option P) := getEnd .right fuel

variable [DecidableEq P]

/-- `while (tree->parent && tree==tree->parent->right) tree=tree->parent;` then
`return tree->parent`, and its mirror image. -/
def goUpFrom (d : Side) : ℕ → P → Prog P (Option P)
  | 0, _ => failure
  | fuel + 1, p => do
    match (← load p).parent with
    | none => return none
    | some q => if (← load q).child d = some p then goUpFrom d fuel q else return some q

/-- The neighbour of a node on side `d` in order. -/
def getNeighbour (d : Side) (fuel : ℕ) (p : P) : Prog P (Option P) := do
  match (← load p).child d with
  | some q => return some (← goEnd d.other fuel q)
  | none => goUpFrom d fuel p

/-- `psync_tree_get_next`. -/
def getNext (fuel : ℕ) (p : P) : Prog P (Option P) := getNeighbour .right fuel p

/-- `psync_tree_get_prev`. -/
def getPrev (fuel : ℕ) (p : P) : Prog P (Option P) := getNeighbour .left fuel p

/-- `psync_tree_for_each` from a node on, in at most `rounds` rounds. -/
def forEachFrom (fuel : ℕ) : ℕ → Option P → Prog P (List P)
  | _, none => return []
  | 0, some _ => failure
  | rounds + 1, some a => do
    let next ← getNext fuel a
    let rest ← forEachFrom fuel rounds next
    return a :: rest

/-- The nodes that `psync_tree_for_each` goes through. -/
def forEach (fuel : ℕ) (tree : Option P) : Prog P (List P) := do
  let first ← getFirst fuel tree
  forEachFrom fuel fuel first

/-! ### Rotations -/

/-- `psync_tree_recalc_height`. -/
def recalcHeight (e : P) : Prog P Unit := do
  let n ← load e
  let lheight ← height n.left
  let rheight ← height n.right
  store e fun n => { n with height := max lheight rheight + 1 }

/-- The child of `e` on the other side than `d` takes its place, `e` becomes its child
on side `d`. -/
def rotate (d : Side) (e : P) : Prog P P := do
  let e2 ← deref ((← load e).child d.other)
  let parent := (← load e).parent
  store e2 fun n => { n with parent := parent }
  let inner := (← load e2).child d
  store e fun n => n.setChild d.other inner
  match (← load e).child d.other with
  | some q =>
    store q fun n => { n with parent := some e }
    recalcHeight e
  | none =>
    let outer ← height ((← load e).child d)
    store e fun n => { n with height := outer + 1 }
  store e fun n => { n with parent := some e2 }
  store e2 fun n => n.setChild d (some e)
  recalcHeight e2
  return e2

/-- `psync_tree_rotate_left`. -/
def rotateLeft (e : P) : Prog P P := rotate .left e

/-- `psync_tree_rotate_right`. -/
def rotateRight (e : P) : Prog P P := rotate .right e

/-- `psync_tree_init_node`. -/
def initNode (node : P) : Prog P P := do
  store node fun _ => ⟨none, none, none, 1⟩
  return node

/-! ### Rebalancing -/

/-- `if (p->left==e) p->left=x; else { assert(p->right==e); p->right=x; }` -/
def relink (p e : P) (x : Prog P (Option P)) : Prog P Unit := do
  if (← load p).left = some e then
    let new ← x
    store p fun n => { n with left := new }
  else
    assert ((← load p).right = some e)
    let new ← x
    store p fun n => { n with right := new }

/-- Rotates `e` and hangs the result where `e` was: the root of the tree after it, and
the parent of `e` unless `e` was the root. -/
def rotateAt (d : Side) (tree e : P) : Prog P (P × Option P) := do
  if e = tree then return (← rotate d e, none)
  else
    let e2 ← deref (← load e).parent
    relink e2 e (some <$> rotate d e)
    return (tree, some e2)

/-- What both walks up do where the subtree on side `d` is two levels higher. -/
def fixHeavy (d : Side) (tree e : P) : Prog P (P × Option P) := do
  let x ← deref ((← load e).child d)
  let inner ← height ((← load x).child d.other)
  let outer ← height ((← load x).child d)
  if inner > outer then
    let top ← rotate d x
    store e fun n => n.setChild d (some top)
  rotateAt d.other tree e

/-- `psync_tree_go_up_rebalance_add`. -/
def goUpRebalanceAdd (tree : P) : ℕ → P → Prog P P
  | 0, _ => failure
  | fuel + 1, e => do
    let n ← load e
    let lheight ← height n.left
    let rheight ← height n.right
    let dheight := lheight - rheight
    if dheight = 0 then return tree
    else if dheight = 1 ∨ dheight = -1 then
      store e fun n => { n with height := rheight + (dheight + 1) / 2 + 1 }
      match (← load e).parent with
      | some up => goUpRebalanceAdd tree fuel up
      | none =>
        assert (tree = e)
        return tree
    else if dheight = 2 then return (← fixHeavy .left tree e).1
    else
      assert (dheight = -2)
      return (← fixHeavy .right tree e).1

/-- `psync_tree_go_up_rebalance_del`. -/
def goUpRebalanceDel : ℕ → P → P → Prog P P
  | 0, _, _ => failure
  | fuel + 1, tree, e => do
    let n ← load e
    let lheight ← height n.left
    let rheight ← height n.right
    let dheight := lheight - rheight
    if dheight = 0 then
      store e fun n => { n with height := rheight + 1 }
      match (← load e).parent with
      | some up => goUpRebalanceDel fuel tree up
      | none =>
        assert (tree = e)
        return tree
    else if dheight = 1 ∨ dheight = -1 then return tree
    else if dheight = 2 then
      match ← fixHeavy .left tree e with
      | (tree, some up) => goUpRebalanceDel fuel tree up
      | (tree, none) => return tree
    else
      assert (dheight = -2)
      match ← fixHeavy .right tree e with
      | (tree, some up) => goUpRebalanceDel fuel tree up
      | (tree, none) => return tree

/-! ### Insertion -/

/-- Links the new node next to `node` on side `d`. -/
def addBeside (d : Side) (fuel : ℕ) (tree node newnode : P) : Prog P P := do
  let _ ← initNode newnode
  let node ← match (← load node).child d with
    | some q => do
      let node ← goEnd d.other fuel q
      store node fun n => n.setChild d.other (some newnode)
      pure node
    | none => do
      store node fun n => n.setChild d (some newnode)
      pure node
  store newnode fun n => { n with parent := some node }
  goUpRebalanceAdd tree fuel node

/-- `psync_tree_get_add_after` for `.right` and `psync_tree_get_add_before` for `.left`;
where `node` is `NULL` each calls the other one. -/
def getAdd (d : Side) (fuel : ℕ) (tree node : Option P) (newnode : P) : Prog P P := do
  match tree, node with
  | none, _ => initNode newnode
  | some tree, none =>
    let last ← getEnd d.other fuel (some tree)
    addBeside d.other fuel tree (← deref last) newnode
  | some tree, some node => addBeside d fuel tree node newnode

def getAddAfter (fuel : ℕ) (tree node : Option P) (newnode : P) : Prog P P := getAdd .right fuel tree node newnode

def getAddBefore (fuel : ℕ) (tree node : Option P) (newnode : P) : Prog P P := getAdd .left fuel tree node newnode

/-- `psync_tree_get_added_at`. -/
def getAddedAt (fuel : ℕ) (tree : P) (parent : Option P) (newnode : P) : Prog P P := do
  let _ ← initNode newnode
  store newnode fun n => { n with parent := parent }
  match parent with
  | some parent => goUpRebalanceAdd tree fuel parent
  | none => return tree

/-! ### Deletion -/

/-- `if (p) p->parent=parent;` -/
def setParent (p parent : Option P) : Prog P Unit :=
  match p with
  | some q => store q fun n => { n with parent := parent }
  | none => pure ()

/-- `psync_tree_replace_me_with`. -/
def replaceMeWith (fuel : ℕ) (tree node : P) (repl : Option P) : Prog P (Option P) := do
  let parent := (← load node).parent
  let tree ← match parent with
    | none => do
      assert (tree = node)
      pure repl
    | some p => do
      relink p node (pure repl)
      pure (some tree)
  setParent repl parent
  match tree, parent with
  | some tree, some p => return some (← goUpRebalanceDel fuel tree p)
  | some tree, none => return some (← goUpRebalanceDel fuel tree tree)
  | none, _ => return none

/-- `while (el->right){ addr=&el->right; el=el->right; }` and its mirror image, where
`addr` is a field of a node. -/
def goEndAt (d : Side) : ℕ → P × Side → P → Prog P ((P × Side) × P)
  | 0, _, _ => failure
  | fuel + 1, addr, el => do
    match (← load el).child d with
    | some q => goEndAt d fuel (el, d) q
    | none => return (addr, el)

/-- Takes the neighbour of `node` out of its subtree on side `d`: the neighbour, and its parent. -/
def unlinkNeighbour (d : Side) (fuel : ℕ) (node : P) : Prog P (P × P) := do
  let el ← deref ((← load node).child d)
  let (addr, el) ← goEndAt d.other fuel (node, d) el
  let parent ← deref (← load el).parent
  let rest := (← load el).child d
  store addr.1 fun n => n.setChild addr.2 rest
  setParent rest (some parent)
  return (el, parent)

/-- `el` takes over the links and the height of `node`: the root of the tree after it. -/
def takePlace (tree node el : P) : Prog P P := do
  let n ← load node
  store el fun _ => n
  setParent n.left (some el)
  setParent n.right (some el)
  match n.parent with
  | some p =>
    relink p node (pure (some el))
    return tree
  | none =>
    assert (node = tree)
    return el

/-- `psync_tree_get_del`. -/
def getDel (fuel : ℕ) (tree node : P) : Prog P (Option P) := do
  let n ← load node
  match n.left, n.right with
  | none, none => replaceMeWith fuel tree node none
  | none, some r => replaceMeWith fuel tree node (some r)
  | some l, none => replaceMeWith fuel tree node (some l)
  | some l, some r =>
    let d := if (← load l).height > (← load r).height then Side.left else Side.right
    let (el, parent) ← unlinkNeighbour d fuel node
    let parent := if parent = node then el else parent
    let tree ← takePlace tree node el
    return some (← goUpRebalanceDel fuel tree parent)

end Pclsync.PTree
