import Mathlib.Data.List.Perm.Basic
import Mathlib.Data.UInt

/-! The records of the task overlay, from `pfstasks.c`: for each folder, what waits to be
made in it and what is to be hidden of it. -/
namespace Pclsync.Tasks

/-- A name, as `psync_filename_cmp` compares it. -/
abbrev Name := List UInt8

/-- `psync_fstask_mkdir_t`, `psync_fstask_rmdir_t`, `psync_fstask_creat_t` and
`psync_fstask_unlink_t`. The id is that of the folder or of the file; only a mkdir has
flags. -/
structure Record where
  name : Name
  taskid : ℕ
  id : ℤ
  flags : ℕ := 0
deriving DecidableEq, Repr

/-- A tree of records, in the order of their names. -/
abbrev RecordTree := List Record

/-- `psync_fstask_search_tree`. A task id of zero is any. -/
def searchTree (tree : RecordTree) (name : Name) (taskid : ℕ) : Option Record :=
  tree.find? fun r => r.name = name ∧ (taskid = 0 ∨ r.taskid = taskid)

/-- `psync_fstask_walk_tree`, which is only called with ids of folders and of files. -/
def walkTree (tree : RecordTree) (id : ℤ) : Option Record := tree.find? fun r => r.id = id

/-- `psync_fstask_insert_into_tree`. A record goes after those of its name. -/
def insertIntoTree (tree : RecordTree) (r : Record) : RecordTree :=
  tree.takeWhile (fun x => x.name ≤ r.name) ++ r :: tree.dropWhile fun x => x.name ≤ r.name

/-- The record that a search finds is deleted. -/
def deleteFromTree (tree : RecordTree) (name : Name) (taskid : ℕ) : RecordTree :=
  match searchTree tree name taskid with
  | some r => tree.erase r
  | none => tree

/-- `psync_fstask_folder_t`. -/
structure Folder where
  mkdirs : RecordTree := []
  rmdirs : RecordTree := []
  creats : RecordTree := []
  unlinks : RecordTree := []
deriving DecidableEq, Repr

/-- `folders`. A folder that is not there has no records. -/
structure Overlay where
  folders : List (ℤ × Folder) := []
deriving DecidableEq, Repr

/-- `psync_fstask_get_folder_tasks_locked`. -/
def Overlay.get (o : Overlay) (folderid : ℤ) : Folder :=
  ((o.folders.find? fun e => e.1 = folderid).map Prod.snd).getD {}

def updateFolders (folderid : ℤ) (edit : Folder → Folder) : List (ℤ × Folder) → List (ℤ × Folder)
  | [] => [(folderid, edit {})]
  | (key, folder) :: rest =>
    if key = folderid then (key, edit folder) :: rest else (key, folder) :: updateFolders folderid edit rest

/-- An edit of what `psync_fstask_get_or_create_folder_tasks_locked` returns. -/
def Overlay.update (o : Overlay) (folderid : ℤ) (edit : Folder → Folder) : Overlay :=
  ⟨updateFolders folderid edit o.folders⟩

/-! ### The edits of a folder -/

def Folder.insertMkdir (r : Record) (folder : Folder) : Folder :=
  { folder with mkdirs := insertIntoTree folder.mkdirs r }

def Folder.insertRmdir (r : Record) (folder : Folder) : Folder :=
  { folder with rmdirs := insertIntoTree folder.rmdirs r }

def Folder.insertCreat (r : Record) (folder : Folder) : Folder :=
  { folder with creats := insertIntoTree folder.creats r }

def Folder.insertUnlink (r : Record) (folder : Folder) : Folder :=
  { folder with unlinks := insertIntoTree folder.unlinks r }

def Folder.deleteMkdir (name : Name) (taskid : ℕ) (folder : Folder) : Folder :=
  { folder with mkdirs := deleteFromTree folder.mkdirs name taskid }

def Folder.deleteRmdir (name : Name) (taskid : ℕ) (folder : Folder) : Folder :=
  { folder with rmdirs := deleteFromTree folder.rmdirs name taskid }

def Folder.deleteCreat (name : Name) (taskid : ℕ) (folder : Folder) : Folder :=
  { folder with creats := deleteFromTree folder.creats name taskid }

def Folder.deleteUnlink (name : Name) (taskid : ℕ) (folder : Folder) : Folder :=
  { folder with unlinks := deleteFromTree folder.unlinks name taskid }

/-! ### What searches find -/

variable {tree : RecordTree} {name other : Name} {r : Record}

/-- There is a record of the name. -/
def Has (tree : RecordTree) (name : Name) : Prop := (searchTree tree name 0).isSome

instance : Decidable (Has tree name) := inferInstanceAs (Decidable (_ = true))

theorem has_iff : Has tree name ↔ ∃ r ∈ tree, r.name = name := by
  simp [Has, searchTree]

@[simp] theorem not_has_nil : ¬Has [] name := Bool.false_ne_true

theorem searchTree_eq_none : searchTree tree name 0 = none ↔ ¬Has tree name := by
  rw [Has, Option.not_isSome_iff_eq_none]

theorem searchTree_some (h : searchTree tree name 0 = some r) : r ∈ tree ∧ r.name = name := by
  have hname := List.find?_some h
  simp only [true_or, and_true, decide_eq_true_eq] at hname
  exact ⟨List.mem_of_find?_eq_some h, hname⟩

/-- Where no two records have one name, each is the one that its name finds. -/
theorem searchTree_of_mem (hnodup : (tree.map Record.name).Nodup) (h : r ∈ tree) : searchTree tree r.name 0 = some r := by
  obtain ⟨x, hx⟩ := Option.isSome_iff_exists.mp (has_iff.mpr ⟨r, h, rfl⟩)
  obtain ⟨hmem, hname⟩ := searchTree_some hx
  rw [hx, List.inj_on_of_nodup_map hnodup hmem h hname]

theorem insertIntoTree_perm : (insertIntoTree tree r).Perm (r :: tree) := by
  have h := List.takeWhile_append_dropWhile (p := fun x : Record => decide (x.name ≤ r.name)) (l := tree)
  rw [insertIntoTree]
  exact List.perm_middle.trans (.cons r (.of_eq h))

theorem mem_insertIntoTree {x : Record} : x ∈ insertIntoTree tree r ↔ x = r ∨ x ∈ tree := by
  rw [insertIntoTree_perm.mem_iff, List.mem_cons]

@[simp] theorem has_insertIntoTree : Has (insertIntoTree tree r) name ↔ r.name = name ∨ Has tree name := by
  simp only [has_iff, mem_insertIntoTree, or_and_right, exists_or, exists_eq_left]

/-- A record of a new name is found. -/
theorem searchTree_insertIntoTree (h : ¬Has tree r.name) : searchTree (insertIntoTree tree r) r.name 0 = some r := by
  have hnone : ∀ x ∈ tree, ¬x.name = r.name := by
    simpa [has_iff] using h
  have htake : (tree.takeWhile fun x => x.name ≤ r.name).find?
      (fun x => x.name = r.name ∧ (0 = 0 ∨ x.taskid = 0)) = none := by
    rw [List.find?_eq_none]
    intro x hx
    simpa using hnone x ((List.takeWhile_subset _) hx)
  rw [searchTree, insertIntoTree, List.find?_append, htake, List.find?_cons_of_pos (by simp)]
  rfl

theorem searchTree_insertIntoTree_ne (h : r.name ≠ name) :
    searchTree (insertIntoTree tree r) name 0 = searchTree tree name 0 := by
  have hsplit := List.takeWhile_append_dropWhile (p := fun x : Record => decide (x.name ≤ r.name)) (l := tree)
  conv_rhs => rw [← hsplit]
  rw [searchTree, searchTree, insertIntoTree, List.find?_append, List.find?_append, List.find?_cons_of_neg (by simpa using h)]

theorem find?_erase {p : Record → Bool} (h : p r = false) : (tree.erase r).find? p = tree.find? p := by
  induction tree with
  | nil => rfl
  | cons x rest ih =>
    by_cases hx : x = r
    · rw [hx, List.erase_cons_head, List.find?_cons_of_neg (by simp [h])]
    · rw [List.erase_cons_tail (by simpa using hx), List.find?_cons, List.find?_cons, ih]

theorem searchTree_deleteFromTree_ne (h : name ≠ other) :
    searchTree (deleteFromTree tree name 0) other 0 = searchTree tree other 0 := by
  rw [deleteFromTree]
  cases hfound : searchTree tree name 0 with
  | none => rfl
  | some r => exact find?_erase (by simpa [(searchTree_some hfound).2] using h)

/-- Where no two records have one name, the record of the name is gone. -/
theorem has_deleteFromTree (hnodup : (tree.map Record.name).Nodup) : ¬Has (deleteFromTree tree name 0) name := by
  rw [deleteFromTree]
  cases hfound : searchTree tree name 0 with
  | none => exact searchTree_eq_none.mp hfound
  | some r =>
    obtain ⟨hmem, hname⟩ := searchTree_some hfound
    rw [has_iff]
    intro ⟨x, hx, hxname⟩
    have hperm := (List.perm_cons_erase hmem).map Record.name
    rw [List.map_cons] at hperm
    exact (List.nodup_cons.mp (hperm.nodup_iff.mp hnodup)).1 (List.mem_map.mpr ⟨x, hx, hxname.trans hname.symm⟩)

theorem nodup_deleteFromTree {taskid : ℕ} (hnodup : (tree.map Record.name).Nodup) :
    ((deleteFromTree tree name taskid).map Record.name).Nodup := by
  rw [deleteFromTree]
  cases searchTree tree name taskid with
  | none => exact hnodup
  | some r => exact hnodup.sublist (List.erase_sublist.map _)

theorem nodup_insertIntoTree (hnodup : (tree.map Record.name).Nodup) (h : ¬Has tree r.name) :
    ((insertIntoTree tree r).map Record.name).Nodup := by
  rw [(insertIntoTree_perm.map Record.name).nodup_iff, List.map_cons, List.nodup_cons]
  refine ⟨fun hmem => h ?_, hnodup⟩
  obtain ⟨x, hx, hname⟩ := List.mem_map.mp hmem
  exact has_iff.mpr ⟨x, hx, hname⟩

theorem mem_of_mem_deleteFromTree {taskid : ℕ} {x : Record} (h : x ∈ deleteFromTree tree name taskid) : x ∈ tree := by
  rw [deleteFromTree] at h
  cases hfound : searchTree tree name taskid with
  | none => rwa [hfound] at h
  | some r => exact List.mem_of_mem_erase (by rwa [hfound] at h)

theorem deleteFromTree_of_not_has {taskid : ℕ} (h : ¬Has tree name) : deleteFromTree tree name taskid = tree := by
  have hnone : searchTree tree name taskid = none := by
    rw [searchTree, List.find?_eq_none]
    intro x hx hfound
    exact h (has_iff.mpr ⟨x, hx, (of_decide_eq_true hfound).1⟩)
  rw [deleteFromTree, hnone]

@[simp] theorem Overlay.get_update (o : Overlay) (folderid key : ℤ) (edit : Folder → Folder) :
    (o.update folderid edit).get key = if key = folderid then edit (o.get key) else o.get key := by
  obtain ⟨folders⟩ := o
  rw [Overlay.update, Overlay.get, Overlay.get]
  induction folders with
  | nil =>
    by_cases hkey : folderid = key
    · simp [updateFolders, hkey]
    · simp [updateFolders, hkey, Ne.symm hkey]
  | cons e rest ih =>
    obtain ⟨k, folder⟩ := e
    by_cases hk : k = folderid
    · by_cases hkey : k = key
      · simp [updateFolders, ← hk, ← hkey]
      · simp [updateFolders, ← hk, hkey, Ne.symm hkey]
    · by_cases hkey : k = key
      · simp [updateFolders, hkey, show key ≠ folderid from hkey ▸ hk]
      · simpa [updateFolders, hk, hkey] using ih

theorem Overlay.update_update (o : Overlay) (folderid : ℤ) (edit edit' : Folder → Folder) :
    (o.update folderid edit).update folderid edit' = o.update folderid fun folder => edit' (edit folder) := by
  obtain ⟨folders⟩ := o
  simp only [Overlay.update, Overlay.mk.injEq]
  induction folders with
  | nil => simp [updateFolders]
  | cons e rest ih =>
    obtain ⟨key, folder⟩ := e
    by_cases hkey : key = folderid
    · simp [updateFolders, hkey]
    · simpa [updateFolders, hkey] using ih

theorem Folder.deleteMkdir_of_not_has {folder : Folder} {taskid : ℕ} (h : ¬Has folder.mkdirs name) :
    folder.deleteMkdir name taskid = folder := by
  rw [deleteMkdir, deleteFromTree_of_not_has h]

theorem Folder.deleteCreat_of_not_has {folder : Folder} {taskid : ℕ} (h : ¬Has folder.creats name) :
    folder.deleteCreat name taskid = folder := by
  rw [deleteCreat, deleteFromTree_of_not_has h]

end Pclsync.Tasks
