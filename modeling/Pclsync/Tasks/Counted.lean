import Pclsync.Lib.Referenced
import Pclsync.Lib.SearchTree
import Pclsync.Tasks.Records
import Mathlib.Tactic.Ring

/-! The records of the overlay with their counts, from `pfstasks.c`.

The trees of a record are given by their nodes in order. What shape a tree has only matters to a
search, which goes down the tree and then along the neighbours of the node that it found. -/
namespace Pclsync.Tasks.Counted
open Lib.BinaryTree

/-! ### Searches -/

/-- `psync_filename_cmp`. -/
def filenameCmp (name other : Name) : Ordering := if name = other then .eq else if name ≤ other then .lt else .gt

/-- The walk along the neighbours of a node, to a task id. -/
def walkNeighbours (name : Name) (taskid : ℕ) (nodes : List Record) : Option Record :=
  (nodes.takeWhile fun r => r.name = name).find? fun r => r.taskid = taskid

/-- `psync_fstask_search_tree`, on a tree. -/
def searchNodes (tree : BinTree Record) (name : Name) (taskid : ℕ) : Option Record :=
  match tree.locate fun r => filenameCmp name r.name with
  | none => none
  | some (before, r, after) =>
    if taskid = 0 ∨ r.taskid = taskid then some r
    else (walkNeighbours name taskid before.reverse).or (walkNeighbours name taskid after)

/-- The nodes are in the order of their names. -/
def Sorted (tree : RecordTree) : Prop := tree.Pairwise fun r r' => r.name ≤ r'.name

section
variable {tree : RecordTree} {nodes : BinTree Record} {name : Name} {taskid : ℕ} {r : Record}

theorem filenameCmp_eq {other : Name} (h : filenameCmp name other = .eq) : other = name := by
  unfold filenameCmp at h
  split_ifs at h with hname
  exact hname.symm

theorem mem_takeWhile_of_sorted {α : Type} {order : α → α → Prop} {q : α → Bool} {l : List α} {x : α} (hsorted : l.Pairwise order) (hx : x ∈ l)
    (hq : q x = true) (hbetween : ∀ y ∈ l, order y x → q y = true) : x ∈ l.takeWhile q := by
  induction l with
  | nil => cases hx
  | cons y l ih =>
    obtain ⟨hfirst, hrest⟩ := List.pairwise_cons.mp hsorted
    have hy : q y = true := by
      rcases List.mem_cons.mp hx with rfl | hmem
      · exact hq
      · exact hbetween y (.head _) (hfirst x hmem)
    rw [List.takeWhile_cons_of_pos hy]
    rcases List.mem_cons.mp hx with rfl | hmem
    · exact .head _
    · exact .tail _ (ih hrest hmem fun z hz => hbetween z (.tail _ hz))

theorem walkNeighbours_some {l : List Record} (h : walkNeighbours name taskid l = some r) : r ∈ l ∧ r.name = name ∧ r.taskid = taskid :=
  have hmem := List.mem_of_find?_eq_some h
  ⟨List.takeWhile_subset _ hmem, by simpa using List.all_eq_true.mp List.all_takeWhile r hmem, by simpa using List.find?_some h⟩

theorem walkNeighbours_isSome {l : List Record} (h : r ∈ l.takeWhile fun x => x.name = name) (htaskid : r.taskid = taskid) :
    (walkNeighbours name taskid l).isSome :=
  List.find?_isSome.mpr ⟨r, h, decide_eq_true htaskid⟩

/-- What a search finds is what was searched for. -/
theorem searchNodes_some (h : searchNodes nodes name taskid = some r) :
    r ∈ nodes.toList ∧ r.name = name ∧ (taskid = 0 ∨ r.taskid = taskid) := by
  unfold searchNodes at h
  split at h
  · cases h
  next before x after hfound =>
    have hlist := BinTree.toList_locate hfound
    have hsearch : nodes.search (fun r => filenameCmp name r.name) = some x := by
      rw [BinTree.search_eq_locate, hfound]
      rfl
    have hname : x.name = name := filenameCmp_eq (BinTree.search_mem hsearch).2
    rw [← hlist]
    split_ifs at h with hx
    · cases h
      exact ⟨List.mem_append_right _ (.head _), hname, hx⟩
    · rcases Option.or_eq_some_iff.mp h with hbefore | ⟨_, hafter⟩
      · obtain ⟨hmem, hwalk⟩ := walkNeighbours_some hbefore
        exact ⟨List.mem_append_left _ (List.mem_reverse.mp hmem), hwalk.1, .inr hwalk.2⟩
      · obtain ⟨hmem, hwalk⟩ := walkNeighbours_some hafter
        exact ⟨List.mem_append_right _ (.tail _ hmem), hwalk.1, .inr hwalk.2⟩

/-- What is there is found, whatever the shape of the tree. -/
theorem searchNodes_isSome (hsorted : Sorted nodes.toList) (hr : r ∈ nodes.toList) (hname : r.name = name)
    (htaskid : taskid = 0 ∨ r.taskid = taskid) : (searchNodes nodes name taskid).isSome := by
  have hfound : nodes.search (fun x => filenameCmp name x.name) ≠ none := by
    refine BinTree.search_ne_none hsorted hr (fun x _ hx hlt => ?_) (fun x _ hx hgt => ?_) (if_pos hname.symm)
    · unfold filenameCmp at hlt
      split_ifs at hlt with heq hle
      exact heq (List.le_antisymm hle (hname ▸ hx))
    · unfold filenameCmp at hgt
      split_ifs at hgt with heq hle
      exact hle (hname ▸ hx)
  rw [BinTree.search_eq_locate] at hfound
  unfold searchNodes
  cases hlocate : nodes.locate fun x => filenameCmp name x.name with
  | none => exact absurd (by rw [hlocate]; rfl) hfound
  | some found =>
    obtain ⟨before, x, after⟩ := found
    have hlist := BinTree.toList_locate hlocate
    have hsearch : nodes.search (fun r => filenameCmp name r.name) = some x := by
      rw [BinTree.search_eq_locate, hlocate]
      rfl
    have hxname : x.name = name := filenameCmp_eq (BinTree.search_mem hsearch).2
    rw [← hlist] at hsorted hr
    obtain ⟨hbefore, hafter, hacross⟩ := List.pairwise_append.mp hsorted
    dsimp only
    split_ifs with hx
    · rfl
    · have htask : r.taskid = taskid := htaskid.resolve_left fun hzero => hx (.inl hzero)
      rw [Option.isSome_or, Bool.or_eq_true]
      rcases List.mem_append.mp hr with hmem | hmem
      · refine .inl (walkNeighbours_isSome (mem_takeWhile_of_sorted (List.pairwise_reverse.mpr hbefore) (List.mem_reverse.mpr hmem)
          (decide_eq_true hname) fun y hy hle => decide_eq_true ?_) htask)
        exact List.le_antisymm (hxname ▸ hacross y (List.mem_reverse.mp hy) x (.head _)) (hname ▸ hle)
      · rcases List.mem_cons.mp hmem with rfl | hmem
        · exact absurd (.inr htask) hx
        · obtain ⟨hfirst, hrest⟩ := List.pairwise_cons.mp hafter
          refine .inr (walkNeighbours_isSome (mem_takeWhile_of_sorted hrest hmem (decide_eq_true hname) fun y hy hle => decide_eq_true ?_) htask)
          exact List.le_antisymm (hname ▸ hle) (hxname ▸ hfirst y hy)

/-! ### Insertions and deletions -/

theorem sorted_insertIntoTree (h : Sorted tree) : Sorted (insertIntoTree tree r) := by
  have hsplit := List.takeWhile_append_dropWhile (p := fun x : Record => decide (x.name ≤ r.name)) (l := tree)
  have hparts : Sorted (tree.takeWhile (fun x => x.name ≤ r.name) ++ tree.dropWhile fun x => x.name ≤ r.name) := hsplit.symm ▸ h
  obtain ⟨hbefore, hafter, hacross⟩ := List.pairwise_append.mp hparts
  have hle : ∀ x ∈ tree.takeWhile (fun x => x.name ≤ r.name), x.name ≤ r.name := fun x hx => by
    simpa using List.all_eq_true.mp List.all_takeWhile x hx
  -- The first node behind the new one is not before it, and the others are behind that one.
  have hge : ∀ x ∈ tree.dropWhile (fun x => x.name ≤ r.name), r.name ≤ x.name := fun x hx => by
    cases hrest : tree.dropWhile fun x => x.name ≤ r.name with
    | nil =>
      rw [hrest] at hx
      cases hx
    | cons y rest =>
      have hy : ¬y.name ≤ r.name := by
        have hhead := List.head_dropWhile_not (fun x : Record => decide (x.name ≤ r.name)) (l := tree) (by rw [hrest]; exact List.cons_ne_nil _ _)
        simpa [hrest] using hhead
      have hry : r.name ≤ y.name := (List.le_total _ _).resolve_left hy
      rw [hrest] at hx hafter
      rcases List.mem_cons.mp hx with rfl | hmem
      · exact hry
      · exact List.le_trans hry ((List.pairwise_cons.mp hafter).1 x hmem)
  refine List.pairwise_append.mpr ⟨hbefore, List.pairwise_cons.mpr ⟨hge, hafter⟩, fun x hx y hy => ?_⟩
  rcases List.mem_cons.mp hy with rfl | hy
  · exact hle x hx
  · exact hacross x hx y hy

theorem sorted_deleteFromTree (h : Sorted tree) : Sorted (deleteFromTree tree name taskid) := by
  unfold deleteFromTree
  cases searchTree tree name taskid with
  | none => exact h
  | some r => exact h.sublist List.erase_sublist

theorem length_insertIntoTree : (insertIntoTree tree r).length = tree.length + 1 := insertIntoTree_perm.length_eq

theorem length_deleteFromTree (h : (searchTree tree name taskid).isSome) : ((deleteFromTree tree name taskid).length : ℤ) = tree.length - 1 := by
  obtain ⟨r, hr⟩ := Option.isSome_iff_exists.mp h
  have hmem : r ∈ tree := List.mem_of_find?_eq_some hr
  have hpos := List.length_pos_of_mem hmem
  rw [deleteFromTree, hr, List.length_erase_of_mem hmem]
  omega

end

/-! ### Records -/

/-- The four trees of a record. -/
inductive Kind where
  | mkdirs
  | rmdirs
  | creats
  | unlinks
deriving DecidableEq, Repr

def Kind.tree : Kind → Folder → RecordTree
  | mkdirs => Folder.mkdirs
  | rmdirs => Folder.rmdirs
  | creats => Folder.creats
  | unlinks => Folder.unlinks

def Kind.set : Kind → RecordTree → Folder → Folder
  | mkdirs, tree, folder => { folder with mkdirs := tree }
  | rmdirs, tree, folder => { folder with rmdirs := tree }
  | creats, tree, folder => { folder with creats := tree }
  | unlinks, tree, folder => { folder with unlinks := tree }

/-- `psync_fstask_folder_t`. Its `refcnt` is that of its cell. -/
structure FolderTasks where
  folderid : ℤ
  tasks : Folder := {}
  taskscnt : ℤ := 0
deriving DecidableEq, Repr

namespace FolderTasks
variable (d : FolderTasks) (k : Kind)

/-- `psync_fstask_find_mkdir` and its siblings. -/
def find (name : Name) (taskid : ℕ) : Option Record := searchTree (k.tree d.tasks) name taskid

/-- `psync_fstask_insert_into_tree`. -/
def insert (r : Record) : FolderTasks := { d with tasks := k.set (insertIntoTree (k.tree d.tasks) r) d.tasks }

/-- `psync_tree_del` of the node that a search finds. -/
def delete (name : Name) (taskid : ℕ) : FolderTasks := { d with tasks := k.set (deleteFromTree (k.tree d.tasks) name taskid) d.tasks }

/-- `taskscnt` goes up or down. -/
def count (n : ℤ) : FolderTasks := { d with taskscnt := d.taskscnt + n }

/-- The node that a search finds is deleted, if there is one, and counts no more. -/
def drop (name : Name) (taskid : ℕ) : FolderTasks := if (d.find k name taskid).isSome then (d.delete k name taskid).count (-1) else d

/-- What `psync_fstask_walk_tree` finds by its id gets another one. -/
def setId (id newid : ℤ) : FolderTasks :=
  match walkTree (k.tree d.tasks) id with
  | none => d
  | some r => { d with tasks := k.set ((k.tree d.tasks).map fun x => if x = r then { x with id := newid } else x) d.tasks }

/-- The trees are freed. -/
def clear : FolderTasks := { d with tasks := {}, taskscnt := 0 }

/-- How many nodes there are. -/
def nodes : ℤ := d.tasks.mkdirs.length + d.tasks.rmdirs.length + d.tasks.creats.length + d.tasks.unlinks.length

end FolderTasks

/-- `n` nodes are not counted yet. The nodes are in the order of their names; where the code keeps the names of the files and folders
that are made apart, `strict`, there are no two of one name. -/
structure Owes (strict : Prop) (n : ℤ) (d : FolderTasks) : Prop where
  taskscnt : d.taskscnt + n = d.nodes
  sorted : ∀ k : Kind, Sorted (k.tree d.tasks)
  unique : strict → ∀ k, k = .mkdirs ∨ k = .creats → ((Kind.tree k d.tasks).map Record.name).Nodup

variable {strict : Prop} {n m : ℤ} {d : FolderTasks} {k l : Kind} {folder : Folder} {tree : RecordTree} {name : Name} {taskid : ℕ} {r : Record}

@[simp] theorem Kind.tree_set : k.tree (k.set tree folder) = tree := by
  cases k <;> rfl

theorem Kind.tree_set_ne (h : l ≠ k) : l.tree (k.set tree folder) = l.tree folder := by
  cases k <;> cases l <;> first | rfl | exact absurd rfl h

/-- Another tree changes the number of nodes. -/
theorem nodes_set : FolderTasks.nodes { d with tasks := k.set tree d.tasks } = d.nodes - (k.tree d.tasks).length + tree.length := by
  cases k <;> simp only [FolderTasks.nodes, Kind.set, Kind.tree] <;> ring

/-- What another tree owes. -/
theorem Owes.set (h : Owes strict n d) (hcount : n + tree.length = m + (k.tree d.tasks).length) (hsorted : Sorted tree)
    (hunique : strict → k = .mkdirs ∨ k = .creats → (tree.map Record.name).Nodup) :
    Owes strict m { d with tasks := k.set tree d.tasks } := by
  refine ⟨?_, fun l => ?_, fun hs l hl => ?_⟩
  · rw [nodes_set]
    have htasks := h.taskscnt
    dsimp only
    omega
  · by_cases hlk : l = k
    · rw [hlk, Kind.tree_set]
      exact hsorted
    · rw [Kind.tree_set_ne hlk]
      exact h.sorted l
  · by_cases hlk : l = k
    · subst hlk
      rw [Kind.tree_set]
      exact hunique hs hl
    · rw [Kind.tree_set_ne hlk]
      exact h.unique hs l hl

theorem Owes.insert (h : Owes strict n d) (hr : strict → k = .mkdirs ∨ k = .creats → ¬Has (k.tree d.tasks) r.name) :
    Owes strict (n + 1) (d.insert k r) :=
  h.set (by rw [length_insertIntoTree]; push_cast; ring) (sorted_insertIntoTree (h.sorted k))
    fun hs hk => nodup_insertIntoTree (h.unique hs k hk) (hr hs hk)

theorem Owes.delete (h : Owes strict n d) (hfound : (d.find k name taskid).isSome) : Owes strict (n - 1) (d.delete k name taskid) :=
  h.set (by rw [length_deleteFromTree hfound]; ring) (sorted_deleteFromTree (h.sorted k)) fun hs hk => nodup_deleteFromTree (h.unique hs k hk)

theorem Owes.count (h : Owes strict n d) : Owes strict (n - m) (d.count m) :=
  ⟨by rw [FolderTasks.count, add_assoc, add_sub_cancel]; exact h.taskscnt, h.sorted, h.unique⟩

theorem Owes.drop (h : Owes strict n d) : Owes strict n (d.drop k name taskid) := by
  unfold FolderTasks.drop
  split_ifs with hfound
  · have hcount := (h.delete hfound).count (m := -1)
    rwa [sub_neg_eq_add, sub_add_cancel] at hcount
  · exact h

theorem Owes.counted (h : Owes strict n d) : Owes strict 0 (d.count n) := by
  have hcount := h.count (m := n)
  rwa [sub_self] at hcount

/-- Names that are hidden may be hidden again. -/
theorem Owes.hide (h : Owes strict n d) (hk : k = .rmdirs ∨ k = .unlinks) : Owes strict (n + 1) (d.insert k r) :=
  h.insert fun _ hmade => by rcases hk with rfl | rfl <;> rcases hmade with hmade | hmade <;> cases hmade

theorem tree_insert_ne (h : l ≠ k) : l.tree (d.insert k r).tasks = l.tree d.tasks := Kind.tree_set_ne h

theorem tree_drop : k.tree (d.drop k name taskid).tasks = deleteFromTree (k.tree d.tasks) name taskid := by
  unfold FolderTasks.drop
  split_ifs with hfound
  · exact Kind.tree_set
  · have hnone : searchTree (k.tree d.tasks) name taskid = none := Option.not_isSome_iff_eq_none.mp hfound
    rw [deleteFromTree, hnone]

theorem tree_drop_ne (h : l ≠ k) : l.tree (d.drop k name taskid).tasks = l.tree d.tasks := by
  unfold FolderTasks.drop
  split_ifs
  · exact Kind.tree_set_ne h
  · rfl

/-- What was dropped is not there. -/
theorem Owes.not_has_drop (h : Owes strict n d) (hs : strict) (hk : k = .mkdirs ∨ k = .creats) : ¬Has (k.tree (d.drop k name 0).tasks) name := by
  rw [tree_drop]
  exact has_deleteFromTree (h.unique hs k hk)

/-- Something hidden and something made. -/
theorem Owes.make {r' : Record} (h : Owes strict 0 d) (hk : k = .rmdirs ∨ k = .unlinks) (hkl : l ≠ k)
    (hr : strict → ¬Has (l.tree d.tasks) r'.name) : Owes strict 0 (((d.insert k r).insert l r').count 2) := by
  have hmade := (h.hide hk (r := r)).insert (k := l) (r := r') fun hs _ => by
    rw [tree_insert_ne hkl]
    exact hr hs
  exact hmade.counted

theorem Owes.setId {id newid : ℤ} (h : Owes strict n d) : Owes strict n (d.setId k id newid) := by
  unfold FolderTasks.setId
  cases walkTree (k.tree d.tasks) id with
  | none => exact h
  | some r =>
    have hname : ∀ x : Record, (if x = r then { x with id := newid } else x).name = x.name := fun x => by split_ifs <;> rfl
    refine h.set (by rw [List.length_map]) ?_ fun hs hk => ?_
    · refine List.pairwise_map.mpr ((h.sorted k).imp fun {x y} hle => ?_)
      rw [hname, hname]
      exact hle
    · rw [List.map_map]
      have hnames : Record.name ∘ (fun x : Record => if x = r then { x with id := newid } else x) = Record.name := funext hname
      rw [hnames]
      exact h.unique hs k hk

theorem owes_new {folderid : ℤ} : Owes strict 0 ⟨folderid, {}, 0⟩ :=
  ⟨rfl, fun k => by cases k <;> exact .nil, fun _ k _ => by cases k <;> exact List.nodup_nil⟩

theorem Owes.clear : Owes strict 0 d.clear := owes_new

/-- The record of another folder. -/
theorem Owes.folderid {folderid : ℤ} (h : Owes strict n d) : Owes strict n { d with folderid := folderid } := ⟨h.taskscnt, h.sorted, h.unique⟩

end Pclsync.Tasks.Counted
