import Pclsync.Tasks.Visible
import Pclsync.Lib.Transition

/-! The overlay as a file system: what the folders show changes as the same operations
change a tree. -/
namespace Pclsync.Tasks
open Lib.Transition

/-! ### The reference tree -/

/-- What the names of each folder stand for. -/
abbrev Tree := ℤ → Name → Option Entry

def Tree.set (tree : Tree) (folderid : ℤ) (name : Name) (e : Option Entry) : Tree :=
  fun f n => if f = folderid ∧ n = name then e else tree f n

def Tree.clear (tree : Tree) (folderid : ℤ) : Tree := fun f n => if f = folderid then none else tree f n

def Tree.Empty (tree : Tree) (folderid : ℤ) : Prop := ∀ name, tree folderid name = none

/-- A folder is `top` or lies somewhere in it. -/
inductive Tree.Below (tree : Tree) (top : ℤ) : ℤ → Prop where
  | top : Below tree top top
  | under {parent child : ℤ} {name : Name} :
    Below tree top parent → tree parent name = some (.folder child) → Below tree top child

open Classical in
/-- `mkdir`: a new folder is empty. -/
noncomputable def Tree.mkdir (tree : Tree) (folderid : ℤ) (name : Name) (new : ℤ) : Tree :=
  if (tree folderid name).isSome then tree else (tree.clear new).set folderid name (some (.folder new))

open Classical in
noncomputable def Tree.rmdir (tree : Tree) (folderid : ℤ) (name : Name) : Tree :=
  match tree folderid name with
  | some (.folder id) => if tree.Empty id then tree.set folderid name none else tree
  | _ => tree

/-- A new file, also in the place of another one. -/
def Tree.creat (tree : Tree) (folderid : ℤ) (name : Name) (new : ℤ) : Tree :=
  match tree folderid name with
  | some (.folder _) => tree
  | _ => tree.set folderid name (some (.file new))

def Tree.unlink (tree : Tree) (folderid : ℤ) (name : Name) : Tree :=
  match tree folderid name with
  | some (.file _) => tree.set folderid name none
  | _ => tree

open Classical in
noncomputable def Tree.rename (tree : Tree) (folderid : ℤ) (name : Name) (to_folderid : ℤ) (new_name : Name) : Tree :=
  let moved (e : Entry) : Tree := (tree.set folderid name none).set to_folderid new_name (some e)
  match tree folderid name, tree to_folderid new_name with
  | none, _ => tree
  | some (.folder _), some (.file _) => tree
  | some (.folder id), some (.folder target) =>
    if tree.Below id to_folderid ∨ ¬tree.Empty target then tree else moved (.folder id)
  | some (.folder id), none => if tree.Below id to_folderid then tree else moved (.folder id)
  | some (.file _), some (.folder _) => tree
  | some (.file id), _ => moved (.file id)

/-- Neither the database nor keys nor permissions refuse a call. -/
def Call.Permitted (tree : Tree) : Call → Prop
  | .mkdir _ _ folderflags _ key commits => (folderflags &&& flagEncrypted ≠ 0 → key.isOk) ∧ commits
  | .rmdir _ _ commits => commits
  | .addCreat _ _ _ commits => commits
  | .addModifiedFile _ _ _ _ _ commits => commits
  | .unlink _ _ _ _ commits => commits
  | .rename old new _ commits =>
    old.flags &&& flagEncrypted = new.flags &&& flagEncrypted ∧
      canMove (match tree old.folderid old.name with | some (.folder id) => id | _ => old.folderid) old.permissions
        new.folderid new.permissions (old.shareid = new.shareid) ∧ commits

/-- The operation that a call is. `new` is the id of what it makes. -/
noncomputable def Call.operation (tree : Tree) (new : ℤ) : Call → Tree
  | .mkdir folderid name .. => tree.mkdir folderid name new
  | .rmdir folderid name _ => tree.rmdir folderid name
  | .addCreat folderid name .. => tree.creat folderid name new
  | .addModifiedFile folderid name .. => tree.creat folderid name new
  | .unlink folderid name .. => tree.unlink folderid name
  | .rename old new .. => tree.rename old.folderid old.name new.folderid new.name

open Classical in
/-- What a call is to do. -/
noncomputable def Call.reference (tree : Tree) (new : ℤ) (call : Call) : Tree :=
  if call.Permitted tree then call.operation tree new else tree

/-- The tree of the remote rows. -/
def Database.tree (db : Database) : Tree := fun folderid name =>
  ((db.folderNamed folderid name).map fun row => .folder row.id) <|>
    (db.fileNamed folderid name).map fun row => .file row.id

/-! ### Runs -/

/-- The overlay with the tree that it is to show. -/
structure Traced where
  state : State
  tree : Tree

structure Fresh (s : Traced) : Prop where
  db : s.state.db.WellFormed
  overlay : s.state.overlay = {}
  tree : s.tree = s.state.db.tree

/-- Callers name remote folders and ones of earlier tasks; a path through an invisible
folder does not resolve. -/
def Call.Named (s : State) : Call → Prop
  | .mkdir folderid .. => -folderid < s.db.nextTaskid
  | .addCreat folderid .. => -folderid < s.db.nextTaskid
  | .addModifiedFile folderid .. => -folderid < s.db.nextTaskid
  | .rename _ new _ _ => -new.folderid < s.db.nextTaskid ∧ new.flags &&& flagInvisible = 0
  | _ => True

def step (s : Traced) (call : Call) (s' : Traced) : Prop :=
  call.Named s.state ∧ s'.state = (call.run s.state).1 ∧ s'.tree = call.reference s.tree (-s.state.db.nextTaskid)

/-- A call that is refused has deleted no record by then. -/
def Call.Clean (s : State) : Call → Prop
  | .rmdir folderid name _ => ¬Has (s.overlay.get folderid).mkdirs name
  | .addModifiedFile folderid name .. => ¬Has (s.overlay.get folderid).creats name
  | .unlink folderid name .. => ¬Has (s.overlay.get folderid).creats name
  | _ => True

/-- A call that is not refused makes no file where a folder or a new file is and no folder
where a file is, removes no new folder that is not empty and moves no folder into itself or
over a new folder of another name. -/
def Call.Apt (s : State) : Call → Prop
  | .mkdir folderid name .. => s.isFile folderid name = false
  | .rmdir folderid name _ =>
    ∀ mkdir, searchTree (s.overlay.get folderid).mkdirs name 0 = some mkdir → s.isFolderNonempty mkdir.id = false
  | .addCreat folderid name .. => ¬Has (s.overlay.get folderid).creats name ∧ s.isFolder folderid name = false
  | .addModifiedFile folderid name .. => s.isFolder folderid name = false
  | .unlink .. => True
  | .rename old new _ _ => ∀ id, s.lookup old.folderid old.name = some (.folder id) →
    s.isFile new.folderid new.name = false → s.isNonemptyFolder new.folderid new.name = false →
      s.ReplacesMkdir old new ∧ ¬Tree.Below s.lookup id new.folderid

def Call.Sound (s : State) (call : Call) : Prop :=
  (call.Permitted s.lookup → call.Apt s) ∧ (¬call.Permitted s.lookup → call.Clean s)

/-! ### Edits of one name of one folder -/

variable {s : State} {db db' : Database} {folderid : ℤ} {name : Name} {e : Option Entry}

theorem Database.Extends.lookupIn (h : db.Extends db') (folderid : ℤ) (folder : Folder) (name : Name) :
    lookupIn db' folderid folder name = lookupIn db folderid folder name := by
  simp only [Tasks.lookupIn, folderNamed, fileNamed, h.folder, h.file]

theorem Database.Extends.wellFormed (h : db.Extends db') (hdb : db.WellFormed) : db'.WellFormed := by
  constructor
  · rw [h.folder, h.file]
    exact hdb.names
  · rw [h.folder, h.file]
    exact hdb.named
  · rw [h.folder, h.file]
    exact hdb.ids
  · rw [h.folder, h.file]
    exact hdb.parents

theorem Database.Extends.valid {folder : Folder} (h : db.Extends db') (hfolder : folder.Valid db folderid) :
    folder.Valid db' folderid := by
  refine { hfolder with hidden := fun name hname => ?_ }
  have hhidden := hfolder.hidden name hname
  constructor
  · rw [folderNamed, h.folder]
    exact hhidden.folders
  · rw [fileNamed, h.file]
    exact hhidden.files

/-- An edit of one folder changes what one name of it stands for. -/
theorem State.Valid.update (h : s.Valid) (hdb : s.db.Extends db') (hfolderid : -folderid < s.db.nextTaskid)
    {edit : Folder → Folder}
    (hedit : (s.overlay.get folderid).Becomes s.db folderid name e (edit (s.overlay.get folderid))) :
    State.Valid ⟨db', s.overlay.update folderid edit⟩ ∧
      State.lookup ⟨db', s.overlay.update folderid edit⟩ = Tree.set s.lookup folderid name e := by
  have hnext : (s.db.nextTaskid : ℤ) ≤ db'.nextTaskid := by exact_mod_cast hdb.nextTaskid
  refine ⟨⟨hdb.wellFormed h.db, fun f => ?_, fun f (hf : f ≤ -(db'.nextTaskid : ℤ)) => ?_⟩, ?_⟩
  · by_cases hf : f = folderid
    · rw [hf, Overlay.get_update, if_pos rfl]
      exact hdb.valid hedit.valid
    · rw [Overlay.get_update, if_neg hf]
      exact hdb.valid (h.folders f)
  · have hne : f ≠ folderid := by
      rintro rfl
      omega
    rw [Overlay.get_update, if_neg hne]
    exact h.fresh f (by omega)
  · funext f n
    rw [State.lookup, hdb.lookupIn, Overlay.get_update, Tree.set]
    by_cases hf : f = folderid
    · rw [hf, if_pos rfl]
      by_cases hn : n = name
      · rw [hn, if_pos ⟨rfl, rfl⟩, hedit.shows]
      · rw [if_neg fun hboth => hn hboth.2, hedit.others n hn]
        rfl
    · rw [if_neg hf, if_neg fun hboth => hf hboth.1]
      rfl

/-- A folder of a task that is still to come is empty. -/
theorem State.Valid.lookup_fresh (h : s.Valid) (hfolderid : folderid ≤ -(s.db.nextTaskid : ℤ)) :
    s.lookup folderid name = none := by
  obtain ⟨hmkdirs, hcreats⟩ := h.fresh folderid hfolderid
  have hneg : folderid < 0 := by
    have : 0 < s.db.nextTaskid := Nat.succ_pos _
    omega
  refine lookupIn_eq_none.mpr ⟨⟨?_, fun hrow => ?_⟩, ⟨?_, fun hrow => ?_⟩⟩
  · rw [hmkdirs]
    exact not_has_nil
  · rw [h.db.folderNamed_neg hneg] at hrow
    cases hrow
  · rw [hcreats]
    exact not_has_nil
  · rw [h.db.fileNamed_neg hneg] at hrow
    cases hrow

theorem State.Valid.not_fresh (h : s.Valid) (hsome : s.lookup folderid name ≠ none) : -folderid < s.db.nextTaskid := by
  by_contra hfresh
  exact hsome (h.lookup_fresh (by omega))

theorem State.Valid.clear_fresh (h : s.Valid) : Tree.clear s.lookup (-s.db.nextTaskid) = s.lookup := by
  funext f n
  rw [Tree.clear]
  split_ifs with hf
  · rw [hf, h.lookup_fresh le_rfl]
  · rfl

theorem State.Valid.isFile_iff (h : s.Valid) : s.isFile folderid name ↔ ∃ id, s.lookup folderid name = some (.file id) := by
  rw [State.lookup, (h.folders folderid).lookupIn_file h.db, ← isFile_eq_false, Bool.not_eq_false]

theorem State.Valid.isFolder_iff (h : s.Valid) :
    s.isFolder folderid name ↔ ∃ id, s.lookup folderid name = some (.folder id) := by
  rw [State.lookup, (h.folders folderid).lookupIn_folder h.db, ← isFolder_eq_false, Bool.not_eq_false]

theorem State.Valid.isFolderNonempty_iff (h : s.Valid) : s.isFolderNonempty folderid = false ↔ Tree.Empty s.lookup folderid := by
  simp only [State.isFolderNonempty, decide_eq_false_iff_not]
  constructor
  · intro hempty name
    obtain ⟨hcreats, hrest⟩ := not_or.mp hempty
    obtain ⟨hmkdirs, hrows⟩ := not_or.mp hrest
    rw [not_not] at hcreats hmkdirs
    refine lookupIn_eq_none.mpr ⟨⟨?_, fun hrow => ?_⟩, ⟨?_, fun hrow => ?_⟩⟩
    · rw [hmkdirs]
      exact not_has_nil
    · obtain ⟨row, hrow⟩ := Option.isSome_iff_exists.mp hrow
      obtain ⟨hmem, hparent, hname⟩ := Database.folderNamed_some hrow
      have hpos := h.db.parents row (List.mem_append_left _ hmem)
      by_contra hhas
      exact hrows ⟨hparent ▸ hpos, .inr ⟨row, hmem, hparent, hname ▸ hhas⟩⟩
    · rw [hcreats]
      exact not_has_nil
    · obtain ⟨row, hrow⟩ := Option.isSome_iff_exists.mp hrow
      obtain ⟨hmem, hparent, hname⟩ := Database.fileNamed_some hrow
      have hpos := h.db.parents row (List.mem_append_right _ hmem)
      by_contra hhas
      exact hrows ⟨hparent ▸ hpos, .inl ⟨row, hmem, hparent, hname ▸ hhas⟩⟩
  · intro hempty hnonempty
    have hnone : ∀ name, NoFolder s.db folderid (s.overlay.get folderid) name ∧
        NoFile s.db folderid (s.overlay.get folderid) name := fun name => lookupIn_eq_none.mp (hempty name)
    rcases hnonempty with hcreats | hmkdirs | ⟨-, ⟨row, hmem, hparent, hhas⟩ | ⟨row, hmem, hparent, hhas⟩⟩
    · obtain ⟨r, hr⟩ := List.exists_mem_of_ne_nil _ hcreats
      exact (hnone r.name).2.creats (has_iff.mpr ⟨r, hr, rfl⟩)
    · obtain ⟨r, hr⟩ := List.exists_mem_of_ne_nil _ hmkdirs
      exact (hnone r.name).1.mkdirs (has_iff.mpr ⟨r, hr, rfl⟩)
    · refine hhas ((hnone row.name).2.hidden ?_)
      rw [← hparent, h.db.fileNamed hmem]
      rfl
    · refine hhas ((hnone row.name).1.hidden ?_)
      rw [← hparent, h.db.folderNamed hmem]
      rfl

/-! ### What each call does -/

/-- A state shows a tree. -/
structure State.Shows (s : State) (tree : Tree) : Prop where
  valid : s.Valid
  lookup : s.lookup = tree

theorem State.Valid.update_shows (h : s.Valid) (hdb : s.db.Extends db') (hfolderid : -folderid < s.db.nextTaskid)
    {edit : Folder → Folder}
    (hedit : (s.overlay.get folderid).Becomes s.db folderid name e (edit (s.overlay.get folderid))) :
    State.Shows ⟨db', s.overlay.update folderid edit⟩ (Tree.set s.lookup folderid name e) :=
  ⟨(h.update hdb hfolderid hedit).1, (h.update hdb hfolderid hedit).2⟩

theorem Call.reference_refused {tree : Tree} {new : ℤ} {call : Call} (h : ¬call.Permitted tree) :
    call.reference tree new = tree := if_neg h

theorem Call.reference_permitted {tree : Tree} {new : ℤ} {call : Call} (h : call.Permitted tree) :
    call.reference tree new = call.operation tree new := if_pos h

theorem State.Valid.shows (h : s.Valid) {tree : Tree} (htree : tree = s.lookup) : s.Shows tree := ⟨h, htree.symm⟩

/-- A mkdir of a name that stands for a folder, or that is refused, changes nothing. -/
theorem State.mkdir_unchanged {folderflags : ℕ} {ctime : ℤ} {key : Except ℤ (List UInt8)} {commits : Bool}
    (h : ¬NoFolder s.db folderid (s.overlay.get folderid) name ∨
      ¬Call.Permitted s.lookup (.mkdir folderid name folderflags ctime key commits)) (hdb : s.db.WellFormed) :
    (s.mkdir folderid name folderflags ctime key commits).1 = s := by
  by_cases hfirst : 0 ≤ folderid ∧ (s.db.folderNamed folderid name).isSome ∧ ¬Has (s.overlay.get folderid).rmdirs name
  · rw [State.mkdir, if_pos hfirst]
  cases hfound : searchTree (s.overlay.get folderid).mkdirs name 0 with
  | some task => simp only [State.mkdir, if_neg hfirst, hfound]
  | none =>
    have hfolder : NoFolder s.db folderid (s.overlay.get folderid) name := by
      refine ⟨searchTree_eq_none.mp hfound, fun hrow => ?_⟩
      by_contra hhas
      refine hfirst ⟨?_, hrow, hhas⟩
      by_contra hneg
      rw [hdb.folderNamed_neg (not_le.mp hneg)] at hrow
      cases hrow
    have hrefused := h.resolve_left (not_not.mpr hfolder)
    cases hkey : (if folderflags &&& flagEncrypted ≠ 0 then key.map some else .ok none) with
    | error error => simp only [State.mkdir, if_neg hfirst, hfound, hkey]
    | ok value =>
      have hcommits : commits = false := by
        by_contra hcommits
        refine hrefused ⟨fun henc => ?_, by simpa using hcommits⟩
        rw [if_pos henc] at hkey
        cases key with
        | ok _ => rfl
        | error _ => cases hkey
      simp only [State.mkdir, if_neg hfirst, hfound, hkey, hcommits, Bool.false_eq_true, not_false_eq_true, if_true]

theorem State.Valid.mkdir (h : s.Valid) {folderflags : ℕ} {ctime : ℤ} {key : Except ℤ (List UInt8)} {commits : Bool}
    (hnamed : -folderid < s.db.nextTaskid)
    (hsound : Call.Sound s (.mkdir folderid name folderflags ctime key commits)) :
    (s.mkdir folderid name folderflags ctime key commits).1.Shows
      (Call.reference s.lookup (-s.db.nextTaskid) (.mkdir folderid name folderflags ctime key commits)) := by
  by_cases hperm : Call.Permitted s.lookup (.mkdir folderid name folderflags ctime key commits)
  · have hfile : NoFile s.db folderid (s.overlay.get folderid) name := isFile_eq_false.mp (hsound.1 hperm)
    rw [Call.reference_permitted hperm, Call.operation]
    by_cases hfolder : NoFolder s.db folderid (s.overlay.get folderid) name
    · have hnone : s.lookup folderid name = none := lookupIn_eq_none.mpr ⟨hfolder, hfile⟩
      have hfirst : ¬(0 ≤ folderid ∧ (s.db.folderNamed folderid name).isSome ∧ ¬Has (s.overlay.get folderid).rmdirs name) :=
        fun ⟨_, hrow, hhas⟩ => hhas (hfolder.hidden hrow)
      obtain ⟨value, hkey⟩ : ∃ value, (if folderflags &&& flagEncrypted ≠ 0 then key.map some else .ok none) = .ok value := by
        split_ifs with henc
        · cases key with
          | ok value => exact ⟨some value, rfl⟩
          | error _ => cases hperm.1 henc
        · exact ⟨none, rfl⟩
      simp only [State.mkdir, if_neg hfirst, searchTree_eq_none.mpr hfolder.mkdirs, hkey, hperm.2, not_true_eq_false, if_false]
      rw [Tree.mkdir, hnone, Option.isSome_none, if_neg Bool.false_ne_true, h.clear_fresh]
      have hpos : 0 < s.db.nextTaskid := Nat.succ_pos _
      have hflags : (folderflags &&& flagEncrypted) &&& flagInvisible = 0 := by
        rw [Nat.and_assoc]
        exact Nat.and_zero _
      exact h.update_shows (((s.db.extends_insertTask _).trans (Database.extends_dependOnId ..)).trans
        (Database.extends_dependOnName ..)) hnamed
        ((h.folders folderid).makeFolder ⟨name, s.db.nextTaskid, -s.db.nextTaskid, folderflags &&& flagEncrypted⟩ hnone
          ⟨by simp only; omega, hflags⟩)
    · rw [State.mkdir_unchanged (.inl hfolder) h.db]
      obtain ⟨id, hid⟩ := ((h.folders folderid).lookupIn_folder h.db).mpr hfolder
      exact h.shows (if_pos (by rw [State.lookup, hid]; rfl))
  · rw [State.mkdir_unchanged (.inr hperm) h.db]
    exact h.shows (Call.reference_refused hperm)

/-- A folder that is empty still is when a mkdir is deleted. -/
theorem State.isFolderNonempty_deleteMkdir {cfolderid : ℤ} (h : s.isFolderNonempty cfolderid = false) :
    ({ s with overlay := s.overlay.update folderid (·.deleteMkdir name 0) } : State).isFolderNonempty cfolderid = false := by
  simp only [State.isFolderNonempty, decide_eq_false_iff_not, Overlay.get_update] at h ⊢
  refine fun hnonempty => h (hnonempty.imp ?_ (Or.imp ?_ ?_))
  · split_ifs <;> exact id
  · split_ifs
    · rintro hmkdirs hnil
      have hdeleted : ((s.overlay.get cfolderid).deleteMkdir name 0).mkdirs = [] :=
        List.eq_nil_iff_forall_not_mem.mpr fun x hx => List.not_mem_nil (hnil ▸ mem_of_mem_deleteFromTree hx)
      exact hmkdirs hdeleted
    · exact id
  · split_ifs <;> exact id

theorem Tree.rmdir_of_not_folder {tree : Tree} (h : ¬∃ id, tree folderid name = some (.folder id)) :
    tree.rmdir folderid name = tree := by
  rw [Tree.rmdir]
  split
  · exact absurd ⟨_, ‹_›⟩ h
  · rfl

/-- A row that no record hides is a folder. -/
theorem State.Valid.lookup_row (h : s.Valid) {row : Row} (hrow : s.db.folderNamed folderid name = some row)
    (hmkdir : ¬Has (s.overlay.get folderid).mkdirs name) (hrmdir : ¬Has (s.overlay.get folderid).rmdirs name) :
    s.lookup folderid name = some (.folder row.id) := by
  have hcreat : ¬Has (s.overlay.get folderid).creats name := fun hcreat =>
    hrmdir (((h.folders folderid).hidden name (.inr hcreat)).folders (hrow ▸ rfl))
  rw [State.lookup, lookupIn_rows hmkdir hcreat, if_neg hrmdir, hrow]
  rfl

/-- What is stored of a folder that is removed. -/
theorem Database.extends_rmdir (db : Database) (task : Task) (taskid depend : ℕ) (tasks : List Task) :
    db.Extends ((((db.insertTask task).dependOnTask taskid depend).dependOnAll taskid tasks).dependOnName taskid folderid
      name) :=
  (((db.extends_insertTask _).trans (extends_dependOnTask ..)).trans (extends_dependOnAll ..)).trans (extends_dependOnName ..)

/-- A folder that shows is taken away. -/
theorem State.Valid.rmdir_shows (h : s.Valid) {id : ℤ} (hfound : s.lookup folderid name = some (.folder id))
    (hdb : s.db.Extends db') {r : Record} (hr : r.name = name) {edit : Folder → Folder}
    (hedit : edit (s.overlay.get folderid) = ((s.overlay.get folderid).deleteMkdir name 0).insertRmdir r) :
    State.Shows ⟨db', s.overlay.update folderid edit⟩ (Tree.set s.lookup folderid name none) := by
  have hfile := (h.folders folderid).noFile h.db (((h.folders folderid).lookupIn_folder h.db).mp ⟨_, hfound⟩)
  subst hr
  have hremoves := (h.folders folderid).removeFolder r hfile
  rw [← hedit] at hremoves
  exact h.update_shows hdb (h.not_fresh (by rw [hfound]; exact Option.some_ne_none _)) hremoves

theorem State.Valid.rmdir (h : s.Valid) {new : ℤ} {commits : Bool} (hsound : Call.Sound s (.rmdir folderid name commits)) :
    (s.rmdir folderid name commits).1.Shows (Call.reference s.lookup new (.rmdir folderid name commits)) := by
  have hunchanged : (¬∃ id, s.lookup folderid name = some (.folder id)) →
      s.Shows (Call.reference s.lookup new (.rmdir folderid name commits)) := by
    intro hno
    by_cases hperm : Call.Permitted s.lookup (.rmdir folderid name commits)
    · exact h.shows ((Call.reference_permitted hperm).trans (Tree.rmdir_of_not_folder hno))
    · exact h.shows (Call.reference_refused hperm)
  have hremoved : ∀ {id : ℤ}, commits = true → s.lookup folderid name = some (.folder id) →
      s.isFolderNonempty id = false →
      Call.reference s.lookup new (.rmdir folderid name commits) = Tree.set s.lookup folderid name none := by
    intro id hcommits hfound hempty
    rw [Call.reference_permitted (show Call.Permitted s.lookup (.rmdir folderid name commits) from hcommits), Call.operation,
      Tree.rmdir, hfound]
    exact if_pos (h.isFolderNonempty_iff.mp hempty)
  cases hmkdir : searchTree (s.overlay.get folderid).mkdirs name 0 with
  | some mkdir =>
    have hfound : s.lookup folderid name = some (.folder mkdir.id) := lookupIn_mkdir hmkdir
    have hhas : Has (s.overlay.get folderid).mkdirs name := Option.isSome_iff_exists.mpr ⟨mkdir, hmkdir⟩
    have hcommits : commits = true := by
      by_contra hcommits
      exact hsound.2 hcommits hhas
    have hempty := hsound.1 hcommits mkdir hmkdir
    have hstill : ({ s with overlay := s.overlay.update folderid (·.deleteMkdir name 0) } : State).isFolderNonempty mkdir.id
        = false := State.isFolderNonempty_deleteMkdir hempty
    rw [hremoved hcommits hfound hempty]
    simp only [State.rmdir, hmkdir, State.rmdirFound, hstill, Bool.false_eq_true, if_false, hcommits, not_true_eq_false,
      Overlay.update_update]
    exact h.rmdir_shows hfound (Database.extends_rmdir ..) rfl rfl
  | none =>
    have hnot := searchTree_eq_none.mp hmkdir
    cases hrow : s.db.folderNamed folderid name with
    | none =>
      simp only [State.rmdir, hmkdir, hrow]
      refine hunchanged fun hfolder => ?_
      rcases lookupIn_folder_iff.mp hfolder with hhas | ⟨-, -, hsome⟩
      · exact hnot hhas
      · rw [hrow] at hsome
        cases hsome
    | some row =>
      by_cases hrmdir : Has (s.overlay.get folderid).rmdirs name
      · simp only [State.rmdir, hmkdir, hrow, hrmdir, if_true]
        refine hunchanged fun hfolder => ?_
        rcases lookupIn_folder_iff.mp hfolder with hhas | ⟨-, hrmdir', -⟩
        · exact hnot hhas
        · exact hrmdir' hrmdir
      · have hfound := h.lookup_row hrow hnot hrmdir
        simp only [State.rmdir, hmkdir, hrow, hrmdir, if_false, State.rmdirFound]
        cases hnonempty : s.isFolderNonempty row.id with
        | true =>
          rw [if_pos rfl]
          refine h.shows ?_
          by_cases hperm : Call.Permitted s.lookup (.rmdir folderid name commits)
          · rw [Call.reference_permitted hperm, Call.operation, Tree.rmdir, hfound]
            refine if_neg fun hempty => ?_
            rw [h.isFolderNonempty_iff.mpr hempty] at hnonempty
            cases hnonempty
          · exact Call.reference_refused hperm
        | false =>
          rw [if_neg Bool.false_ne_true]
          cases commits with
          | false => exact h.shows (Call.reference_refused (show ¬(false : Bool) = true from Bool.false_ne_true))
          | true =>
            rw [hremoved rfl hfound hnonempty, if_neg (by simp)]
            exact h.rmdir_shows hfound (Database.extends_rmdir ..) rfl (by rw [Folder.deleteMkdir_of_not_has hnot])

/-! ### Files -/

theorem Tree.creat_of_not_folder {tree : Tree} {new : ℤ} (h : ¬∃ id, tree folderid name = some (.folder id)) :
    tree.creat folderid name new = tree.set folderid name (some (.file new)) := by
  rw [Tree.creat]
  split
  · exact absurd ⟨_, ‹_›⟩ h
  · rfl

theorem Tree.unlink_of_not_file {tree : Tree} (h : ¬∃ id, tree folderid name = some (.file id)) :
    tree.unlink folderid name = tree := by
  rw [Tree.unlink]
  split
  · exact absurd ⟨_, ‹_›⟩ h
  · rfl

/-- Where no folder shows, a file is made. -/
theorem State.Valid.creat_shows (h : s.Valid) (hnamed : -folderid < s.db.nextTaskid)
    (hfolder : NoFolder s.db folderid (s.overlay.get folderid) name) (hdb : s.db.Extends db') (un cr : Record)
    (hun : un.name = name) (hcr : cr.name = name) (hid : cr.id ≠ 0) {edit : Folder → Folder}
    (hedit : edit (s.overlay.get folderid) =
      (((s.overlay.get folderid).deleteCreat name 0).insertUnlink un).insertCreat cr) :
    State.Shows ⟨db', s.overlay.update folderid edit⟩ (Tree.set s.lookup folderid name (some (.file cr.id))) := by
  subst hcr
  have hremoves := (h.folders folderid).removeFile un (hun.symm ▸ hfolder)
  rw [hun] at hremoves
  have hmakes := hremoves.trans (hremoves.valid.makeFile cr hremoves.shows hid)
  rw [← hedit] at hmakes
  exact h.update_shows hdb hnamed hmakes

theorem State.Valid.addCreat (h : s.Valid) {encsymkey : Option (List UInt8)} {commits : Bool}
    (hnamed : -folderid < s.db.nextTaskid) (hsound : Call.Sound s (.addCreat folderid name encsymkey commits)) :
    (s.addCreat folderid name encsymkey commits).1.Shows
      (Call.reference s.lookup (-s.db.nextTaskid) (.addCreat folderid name encsymkey commits)) := by
  cases commits with
  | false => exact h.shows (Call.reference_refused (show ¬(false : Bool) = true from Bool.false_ne_true))
  | true =>
    have hperm : Call.Permitted s.lookup (.addCreat folderid name encsymkey true) := rfl
    obtain ⟨hcreat, hfolder⟩ := hsound.1 hperm
    rw [isFolder_eq_false] at hfolder
    have hnot : ¬∃ id, s.lookup folderid name = some (.folder id) := fun hsome =>
      ((h.folders folderid).lookupIn_folder h.db).mp hsome hfolder
    have hpos : 0 < s.db.nextTaskid := Nat.succ_pos _
    rw [Call.reference_permitted hperm, Call.operation, Tree.creat_of_not_folder hnot]
    have hid : -(s.db.nextTaskid : ℤ) ≠ 0 := by omega
    exact h.creat_shows hnamed hfolder (((s.db.extends_insertTask _).trans (Database.extends_dependOnId ..)).trans
      (Database.extends_dependOnName ..)) ⟨name, s.db.nextTaskid, -s.db.nextTaskid, 0⟩
      ⟨name, s.db.nextTaskid, -s.db.nextTaskid, 0⟩ rfl rfl hid (by rw [Folder.deleteCreat_of_not_has hcreat])

/-- An edit that changes nothing. -/
theorem State.Valid.update_same (h : s.Valid) {edit : Folder → Folder}
    (hedit : edit (s.overlay.get folderid) = s.overlay.get folderid) :
    State.Shows { s with overlay := s.overlay.update folderid edit } s.lookup := by
  have hget : ∀ f, (s.overlay.update folderid edit).get f = s.overlay.get f := by
    intro f
    rw [Overlay.get_update]
    split_ifs with hf
    · rw [hf, hedit]
    · rfl
  refine ⟨⟨h.db, fun f => ?_, fun f hf => ?_⟩, ?_⟩
  · rw [hget]
    exact h.folders f
  · rw [hget]
    exact h.fresh f hf
  · funext f n
    rw [State.lookup, hget]
    rfl

theorem State.Valid.addModifiedFile (h : s.Valid) {fileid hash : ℤ} {encsymkey : Option (List UInt8)} {commits : Bool}
    (hnamed : -folderid < s.db.nextTaskid)
    (hsound : Call.Sound s (.addModifiedFile folderid name fileid hash encsymkey commits)) :
    (s.addModifiedFile folderid name fileid hash encsymkey commits).1.Shows
      (Call.reference s.lookup (-s.db.nextTaskid) (.addModifiedFile folderid name fileid hash encsymkey commits)) := by
  cases commits with
  | false =>
    have hrefused : ¬Call.Permitted s.lookup (.addModifiedFile folderid name fileid hash encsymkey false) :=
      Bool.false_ne_true
    rw [Call.reference_refused hrefused]
    exact h.update_same (Folder.deleteCreat_of_not_has (hsound.2 hrefused))
  | true =>
    have hperm : Call.Permitted s.lookup (.addModifiedFile folderid name fileid hash encsymkey true) := rfl
    have hfolder := isFolder_eq_false.mp (hsound.1 hperm)
    have hnot : ¬∃ id, s.lookup folderid name = some (.folder id) := fun hsome =>
      ((h.folders folderid).lookupIn_folder h.db).mp hsome hfolder
    have hpos : 0 < s.db.nextTaskid := Nat.succ_pos _
    rw [Call.reference_permitted hperm, Call.operation, Tree.creat_of_not_folder hnot]
    simp only [State.addModifiedFile, not_true_eq_false, if_false, Overlay.update_update]
    have hid : -(s.db.nextTaskid : ℤ) ≠ 0 := by omega
    exact h.creat_shows hnamed hfolder ((((s.db.extends_insertTask _).trans (Database.extends_dependOnId ..)).trans
      (Database.extends_dependOnName ..)).trans (Database.extends_dependOnRecord ..)) ⟨name, s.db.nextTaskid, fileid, 0⟩
      ⟨name, s.db.nextTaskid, -s.db.nextTaskid, 0⟩ rfl rfl hid rfl

/-- What is stored of a file that is removed. -/
theorem Database.extends_unlink (db : Database) (fileid id : ℤ) (batched : Bool) (task : Task) (taskid depend : ℕ) :
    db.Extends ((if -fileid ≠ depend then
      Database.dependOnId ((((if fileid < 0 then db.stopAndDeleteFile fileid batched else db).insertTask task).dependOnTask
        taskid depend).dependOnId taskid id) taskid fileid
      else (((if fileid < 0 then db.stopAndDeleteFile fileid batched else db).insertTask task).dependOnTask
        taskid depend).dependOnId taskid id).dependOnName taskid folderid name) := by
  have hstop : db.Extends (if fileid < 0 then db.stopAndDeleteFile fileid batched else db) := by
    split_ifs
    · exact db.extends_stopAndDeleteFile ..
    · exact .refl db
  generalize (if fileid < 0 then db.stopAndDeleteFile fileid batched else db) = db' at hstop ⊢
  have hdepends := ((hstop.trans (extends_insertTask _ task)).trans (extends_dependOnTask _ taskid depend)).trans
    (extends_dependOnId _ taskid id)
  refine .trans ?_ (extends_dependOnName ..)
  split_ifs
  · exact hdepends.trans (extends_dependOnId ..)
  · exact hdepends

/-- A file that shows is taken away. -/
theorem State.Valid.unlink_shows (h : s.Valid) {id : ℤ} (hfound : s.lookup folderid name = some (.file id))
    (hdb : s.db.Extends db') {r : Record} (hr : r.name = name) {edit : Folder → Folder}
    (hedit : edit (s.overlay.get folderid) = ((s.overlay.get folderid).deleteCreat name 0).insertUnlink r) :
    State.Shows ⟨db', s.overlay.update folderid edit⟩ (Tree.set s.lookup folderid name none) := by
  have hfolder : NoFolder s.db folderid (s.overlay.get folderid) name := by
    by_contra hfolder
    exact ((h.folders folderid).lookupIn_file h.db).mp ⟨_, hfound⟩ ((h.folders folderid).noFile h.db hfolder)
  subst hr
  have hremoves := (h.folders folderid).removeFile r hfolder
  rw [← hedit] at hremoves
  exact h.update_shows hdb (h.not_fresh (by rw [hfound]; exact Option.some_ne_none _)) hremoves

/-- A new file of a valid folder shows. -/
theorem State.Valid.lookup_creat (h : s.Valid) {cr : Record}
    (hcr : searchTree (s.overlay.get folderid).creats name 0 = some cr) :
    s.lookup folderid name = some (.file cr.id) ∧ cr.id ≠ 0 := by
  have hhas : Has (s.overlay.get folderid).creats name := Option.isSome_iff_exists.mpr ⟨cr, hcr⟩
  exact ⟨lookupIn_creat (fun hmkdir => (h.folders folderid).apart name hmkdir hhas) hcr,
    (h.folders folderid).creats cr (searchTree_some hcr).1⟩

/-- A row of a file that no record hides is a file. -/
theorem State.Valid.lookup_fileRow (h : s.Valid) {row : Row} (hrow : s.db.fileNamed folderid name = some row)
    (hcreat : ¬Has (s.overlay.get folderid).creats name) (hunlink : ¬Has (s.overlay.get folderid).unlinks name) :
    s.lookup folderid name = some (.file row.id) := by
  have hfolder : NoFolder s.db folderid (s.overlay.get folderid) name := by
    by_contra hfolder
    exact hunlink (((h.folders folderid).noFile h.db hfolder).hidden (hrow ▸ rfl))
  have hhidden : (if Has (s.overlay.get folderid).rmdirs name then none else s.db.folderNamed folderid name) = none := by
    split_ifs with hrmdir
    · rfl
    · exact Option.not_isSome_iff_eq_none.mp fun hsome => hrmdir (hfolder.hidden hsome)
  rw [State.lookup, lookupIn_rows hfolder.mkdirs hcreat, hhidden, if_neg hunlink, hrow]
  rfl

theorem State.Valid.unlink (h : s.Valid) {new : ℤ} {rec : Option (ℤ × Name)} {batched commits : Bool}
    (hsound : Call.Sound s (.unlink folderid name rec batched commits)) :
    (s.unlink folderid name rec batched commits).1.Shows
      (Call.reference s.lookup new (.unlink folderid name rec batched commits)) := by
  have hunchanged : (commits = true → ¬∃ id, s.lookup folderid name = some (.file id)) →
      s.Shows (Call.reference s.lookup new (.unlink folderid name rec batched commits)) := by
    intro hno
    by_cases hperm : Call.Permitted s.lookup (.unlink folderid name rec batched commits)
    · exact h.shows ((Call.reference_permitted hperm).trans (Tree.unlink_of_not_file (hno hperm)))
    · exact h.shows (Call.reference_refused hperm)
  have hremoved : ∀ {id : ℤ}, commits = true → s.lookup folderid name = some (.file id) →
      Call.reference s.lookup new (.unlink folderid name rec batched commits) = Tree.set s.lookup folderid name none := by
    intro id hcommits hfound
    rw [Call.reference_permitted (show Call.Permitted s.lookup (.unlink folderid name rec batched commits) from hcommits),
      Call.operation, Tree.unlink, hfound]
  cases hcr : searchTree (s.overlay.get folderid).creats name 0 with
  | some cr =>
    obtain ⟨hfound, hid⟩ := h.lookup_creat hcr
    have hcommits : commits = true := by
      by_contra hcommits
      exact hsound.2 hcommits (Option.isSome_iff_exists.mpr ⟨cr, hcr⟩)
    rw [hremoved hcommits hfound]
    simp only [State.unlink, hcr, hid, if_false, State.unlinkFound, hcommits, not_true_eq_false, Overlay.update_update]
    exact h.unlink_shows hfound (Database.extends_unlink ..) rfl rfl
  | none =>
    have hnot := searchTree_eq_none.mp hcr
    cases hrow : s.db.fileNamed folderid name with
    | none =>
      simp only [State.unlink, hcr, hrow]
      refine hunchanged fun _ hfile => ((h.folders folderid).lookupIn_file h.db).mp hfile ⟨hnot, fun hsome => ?_⟩
      rw [hrow] at hsome
      cases hsome
    | some row =>
      by_cases hunlink : Has (s.overlay.get folderid).unlinks name
      · simp only [State.unlink, hcr, hrow, hunlink, if_true]
        exact hunchanged fun _ hfile => ((h.folders folderid).lookupIn_file h.db).mp hfile ⟨hnot, fun _ => hunlink⟩
      · have hfound := h.lookup_fileRow hrow hnot hunlink
        simp only [State.unlink, hcr, hrow, hunlink, if_false, State.unlinkFound]
        cases commits with
        | false => exact hunchanged fun hcommits => absurd hcommits Bool.false_ne_true
        | true =>
          rw [hremoved rfl hfound, if_neg (by simp)]
          exact h.unlink_shows hfound (Database.extends_unlink ..) rfl (by rw [Folder.deleteCreat_of_not_has hnot])

/-! ### Renames -/

variable {old new : FsPath} {batched commits : Bool} {id : ℤ}

theorem State.Valid.isNonemptyFolder_iff (h : s.Valid) : s.isNonemptyFolder folderid name = true ↔
    ∃ id, s.lookup folderid name = some (.folder id) ∧ ¬Tree.Empty s.lookup id := by
  have hnonempty : ∀ id, s.isFolderNonempty id = true ↔ ¬Tree.Empty s.lookup id := fun id => by
    rw [← h.isFolderNonempty_iff, Bool.not_eq_false]
  rw [State.isNonemptyFolder]
  cases hmkdir : searchTree (s.overlay.get folderid).mkdirs name 0 with
  | some mkdir => simp [show s.lookup folderid name = some (.folder mkdir.id) from lookupIn_mkdir hmkdir, hnonempty]
  | none =>
    have hnot := searchTree_eq_none.mp hmkdir
    by_cases hrmdir : Has (s.overlay.get folderid).rmdirs name
    · simp only [hrmdir, if_true, Bool.false_eq_true, false_iff]
      intro ⟨id, hid, _⟩
      rcases lookupIn_folder_iff.mp ⟨id, hid⟩ with hhas | ⟨-, hrmdir', -⟩
      · exact hnot hhas
      · exact hrmdir' hrmdir
    · cases hrow : s.db.folderNamed folderid name with
      | none =>
        simp only [hrmdir, if_false, Bool.false_eq_true, false_iff]
        intro ⟨id, hid, _⟩
        rcases lookupIn_folder_iff.mp ⟨id, hid⟩ with hhas | ⟨-, -, hsome⟩
        · exact hnot hhas
        · rw [hrow] at hsome
          cases hsome
      | some row => simp [hrmdir, h.lookup_row hrow hnot hrmdir, hnonempty]

theorem State.Valid.folder_ne_zero (h : s.Valid) (hfound : s.lookup folderid name = some (.folder id)) : id ≠ 0 := by
  by_cases hmkdir : Has (s.overlay.get folderid).mkdirs name
  · obtain ⟨r, hr⟩ := Option.isSome_iff_exists.mp hmkdir
    obtain rfl : r.id = id := by simpa [show s.lookup folderid name = some (.folder r.id) from lookupIn_mkdir hr] using hfound
    exact ((h.folders folderid).mkdirs r (searchTree_some hr).1).1
  · obtain ⟨-, hrmdir, hsome⟩ := (lookupIn_folder_iff.mp ⟨id, hfound⟩).resolve_left hmkdir
    obtain ⟨row, hrow⟩ := Option.isSome_iff_exists.mp hsome
    obtain rfl : row.id = id := by simpa [h.lookup_row hrow hmkdir hrmdir] using hfound
    exact (h.db.ids row (List.mem_append_left _ (Database.folderNamed_some hrow).1)).ne'

theorem State.Valid.file_ne_zero (h : s.Valid) (hfound : s.lookup folderid name = some (.file id)) : id ≠ 0 := by
  by_cases hcreat : Has (s.overlay.get folderid).creats name
  · obtain ⟨cr, hcr⟩ := Option.isSome_iff_exists.mp hcreat
    obtain ⟨hlookup, hid⟩ := h.lookup_creat hcr
    obtain rfl : cr.id = id := by simpa [hlookup] using hfound
    exact hid
  · have hshown : ¬NoFile s.db folderid (s.overlay.get folderid) name :=
      ((h.folders folderid).lookupIn_file h.db).mp ⟨id, hfound⟩
    have hrow : (s.db.fileNamed folderid name).isSome ∧ ¬Has (s.overlay.get folderid).unlinks name := by
      by_contra hhidden
      exact hshown ⟨hcreat, fun hsome => by_contra fun hhas => hhidden ⟨hsome, hhas⟩⟩
    obtain ⟨row, hsome⟩ := Option.isSome_iff_exists.mp hrow.1
    obtain rfl : row.id = id := by simpa [h.lookup_fileRow hsome hcreat hrow.2] using hfound
    exact (h.db.ids row (List.mem_append_right _ (Database.fileNamed_some hsome).1)).ne'

/-- What `psync_fs_rename` finds is what the name stands for. -/
theorem State.Valid.rename_eq (h : s.Valid) : s.rename old new batched commits =
    if old.flags &&& flagEncrypted ≠ new.flags &&& flagEncrypted then (s, -moveAcrossCrypto)
    else match s.lookup old.folderid old.name with
      | some (.folder id) => s.renameFoundFolder id old new commits
      | some (.file id) => s.renameFoundFile id old new batched commits
      | none => (s, -enoent) := by
  simp only [State.rename]
  by_cases hflags : old.flags &&& flagEncrypted ≠ new.flags &&& flagEncrypted
  · rw [if_pos hflags, if_pos hflags]
  rw [if_neg hflags, if_neg hflags]
  cases hmkdir : searchTree (s.overlay.get old.folderid).mkdirs old.name 0 with
  | some mkdir => simp [show s.lookup old.folderid old.name = some (.folder mkdir.id) from lookupIn_mkdir hmkdir]
  | none =>
    have hnotmkdir := searchTree_eq_none.mp hmkdir
    cases hcr : searchTree (s.overlay.get old.folderid).creats old.name 0 with
    | some cr =>
      obtain ⟨hlookup, hid⟩ := h.lookup_creat hcr
      simp only [hlookup, hid, if_false, State.renameFoundFile]
      split_ifs <;> rfl
    | none =>
      have hnotcreat := searchTree_eq_none.mp hcr
      rw [State.lookup, lookupIn_rows hnotmkdir hnotcreat]
      cases hfolder : (if Has (s.overlay.get old.folderid).rmdirs old.name then none
          else s.db.folderNamed old.folderid old.name) with
      | some row => rfl
      | none =>
        cases (if Has (s.overlay.get old.folderid).unlinks old.name then none
            else s.db.fileNamed old.folderid old.name) with
        | some row => rfl
        | none => rfl

/-- What is stored of a folder that a rename replaces. -/
theorem State.extends_deleteFolderIfEx (s : State) (folderid : ℤ) (name : Name) :
    s.db.Extends (s.deleteFolderIfEx folderid name).1 := by
  rw [State.deleteFolderIfEx]
  cases s.folderIfEx folderid name with
  | none => exact .refl _
  | some found =>
    exact ((s.db.extends_insertTask _).trans (Database.extends_dependOnTask ..)).trans (Database.extends_dependOnId ..)

/-- What is stored of a folder that is renamed. -/
theorem State.extends_renameFolder (s : State) (folderid parentfolderid : ℤ) (name : Name) (to_folderid : ℤ)
    (new_name : Name) (ftask ttask : Task) (ftaskid ttaskid : ℕ) (found : Option Record) :
    s.db.Extends ((((((((((s.deleteFolderIfEx to_folderid new_name).1.insertTask ftask).insertTask ttask).moveCreation
      ttaskid folderid to_folderid).dependOnTask ttaskid (s.deleteFolderIfEx to_folderid new_name).2).dependOnId ttaskid
      parentfolderid).dependOnTarget ttaskid parentfolderid to_folderid).dependOnName2 ttaskid ftaskid parentfolderid
      name).dependOnName ttaskid folderid new_name).dependOnRecord ttaskid found) := by
  have hinserts := ((s.extends_deleteFolderIfEx to_folderid new_name).trans (Database.extends_insertTask _ ftask)).trans
    (Database.extends_insertTask _ ttask)
  have hmoves := (hinserts.trans (Database.extends_moveCreation _ ttaskid folderid to_folderid)).trans
    (Database.extends_dependOnTask _ ttaskid (s.deleteFolderIfEx to_folderid new_name).2)
  have hparents := (hmoves.trans (Database.extends_dependOnId _ ttaskid parentfolderid)).trans
    (Database.extends_dependOnTarget _ ttaskid parentfolderid to_folderid)
  exact ((hparents.trans (Database.extends_dependOnAll ..)).trans (Database.extends_dependOnName ..)).trans
    (Database.extends_dependOnRecord ..)

/-- What is stored of a file that is renamed. -/
theorem Database.extends_renameFile (db : Database) (fileid parentfolderid : ℤ) (name : Name) (to_folderid : ℤ)
    (new_name : Name) (ftask ttask : Task) (ftaskid ttaskid : ℕ) (found replaced : Option Record) (batched : Bool) :
    db.Extends (((((((((db.insertTask ftask).insertTask ttask).moveCreation ttaskid fileid to_folderid).dependOnId ttaskid
      parentfolderid).dependOnTarget ttaskid parentfolderid to_folderid).dependOnName2 ttaskid ftaskid parentfolderid
      name).dependOnName ttaskid to_folderid new_name).dependOnRecord ttaskid found).stopReplaced replaced batched) := by
  have hinserts := ((db.extends_insertTask ftask).trans (extends_insertTask _ ttask)).trans
    (extends_moveCreation _ ttaskid fileid to_folderid)
  have hparents := (hinserts.trans (extends_dependOnId _ ttaskid parentfolderid)).trans
    (extends_dependOnTarget _ ttaskid parentfolderid to_folderid)
  exact (((hparents.trans (extends_dependOnAll ..)).trans (extends_dependOnName ..)).trans
    (extends_dependOnRecord ..)).trans (extends_stopReplaced ..)

/-- Where the mkdir of the old name is deleted, the one of the new name is. -/
theorem State.Valid.deleteMkdir_eq (h : s.Valid) (hreplaces : s.ReplacesMkdir old new) {r : Record} :
    ((s.overlay.update old.folderid fun folder => (folder.deleteMkdir old.name 0).insertRmdir r).get
        new.folderid).deleteMkdir old.name 0 =
      ((s.overlay.update old.folderid fun folder => (folder.deleteMkdir old.name 0).insertRmdir r).get
        new.folderid).deleteMkdir new.name 0 := by
  rcases hreplaces with hname | ⟨hnew, hold⟩
  · rw [hname]
  have hnodup := (h.folders old.folderid).mkdirs_nodup
  rw [Overlay.get_update]
  by_cases hsame : new.folderid = old.folderid
  · have hboth : ∀ name, name = old.name ∨ name = new.name →
        ¬Has (((s.overlay.get new.folderid).deleteMkdir old.name 0).insertRmdir r).mkdirs name := by
      rintro name (rfl | rfl) hhas
      · exact has_deleteFromTree (hsame ▸ hnodup) hhas
      · exact hnew ((has_deleteFromTree_iff (hsame ▸ hnodup)).mp hhas).1
    rw [if_pos hsame, Folder.deleteMkdir_of_not_has (hboth _ (.inl rfl)), Folder.deleteMkdir_of_not_has (hboth _ (.inr rfl))]
  · rw [if_neg hsame, Folder.deleteMkdir_of_not_has hnew,
      Folder.deleteMkdir_of_not_has (hold.resolve_left (Ne.symm hsame))]

theorem Tree.set_ne_file {tree : Tree} {target : ℤ} {new_name : Name}
    (h : ¬∃ id, tree target new_name = some (.file id)) : ¬∃ id, tree.set folderid name none target new_name = some (.file id) := by
  rw [Tree.set]
  split_ifs
  · rintro ⟨id, hid⟩
    cases hid
  · exact h

theorem Tree.set_ne_folder {tree : Tree} {target : ℤ} {new_name : Name}
    (h : ¬∃ id, tree target new_name = some (.folder id)) :
    ¬∃ id, tree.set folderid name none target new_name = some (.folder id) := by
  rw [Tree.set]
  split_ifs
  · rintro ⟨id, hid⟩
    cases hid
  · exact h

/-- A folder goes from one name to another. -/
theorem State.Valid.renameFolder_shows (h : s.Valid) (hfound : s.lookup old.folderid old.name = some (.folder id))
    (hnamed : -new.folderid < s.db.nextTaskid ∧ new.flags &&& flagInvisible = 0)
    (hfile : s.isFile new.folderid new.name = false) (hreplaces : s.ReplacesMkdir old new) :
    (s.renameFolder id old.folderid old.name new.folderid new.name new.flags true).1.Shows
      (Tree.set (Tree.set s.lookup old.folderid old.name none) new.folderid new.name (some (.folder id))) := by
  simp only [State.renameFolder, not_true_eq_false, if_false]
  generalize hdb : Database.dependOnRecord _ _ _ = db
  have hext : s.db.Extends db := hdb ▸ s.extends_renameFolder ..
  clear hdb
  generalize Database.nextTaskid (Database.insertTask _ _) = ttaskid
  generalize Database.nextTaskid _ = ftaskid
  -- the old name is taken away first
  let s1 : State := ⟨s.db, s.overlay.update old.folderid fun folder =>
    (folder.deleteMkdir old.name 0).insertRmdir ⟨old.name, ftaskid, id, 0⟩⟩
  have h1 : s1.Shows (Tree.set s.lookup old.folderid old.name none) :=
    h.rmdir_shows hfound (.refl _) (r := ⟨old.name, ftaskid, id, 0⟩) rfl rfl
  have hfile1 : NoFile s1.db new.folderid (s1.overlay.get new.folderid) new.name := by
    by_contra hshown
    obtain ⟨fileid, hfileid⟩ := ((h1.valid.folders new.folderid).lookupIn_file h1.valid.db).mpr hshown
    refine Tree.set_ne_file (fun hsome => ?_) ⟨fileid, (congrFun (congrFun h1.lookup _) _).symm.trans hfileid⟩
    rw [h.isFile_iff.mpr hsome] at hfile
    cases hfile
  have hremoves := (h1.valid.folders new.folderid).removeFolder ⟨new.name, ttaskid, id, 0⟩ hfile1
  have hmakes := hremoves.trans (hremoves.valid.makeFolder ⟨new.name, ttaskid, id, new.flags⟩ hremoves.shows
    ⟨h.folder_ne_zero hfound, hnamed.2⟩)
  rw [← h.deleteMkdir_eq hreplaces] at hmakes
  rw [← h1.lookup]
  exact h1.valid.update_shows hext hnamed.1 hmakes

/-- A file goes from one name to another. -/
theorem State.Valid.renameFile_shows (h : s.Valid) (hfound : s.lookup old.folderid old.name = some (.file id))
    (hnamed : -new.folderid < s.db.nextTaskid) (hfolder : s.isFolder new.folderid new.name = false) :
    (s.renameFile id old.folderid old.name new.folderid new.name batched true).1.Shows
      (Tree.set (Tree.set s.lookup old.folderid old.name none) new.folderid new.name (some (.file id))) := by
  simp only [State.renameFile, not_true_eq_false, if_false]
  generalize hdb : Database.stopReplaced _ _ _ = db
  have hext : s.db.Extends db := hdb ▸ s.db.extends_renameFile ..
  clear hdb
  generalize Database.nextTaskid (Database.insertTask _ _) = ttaskid
  generalize Database.nextTaskid _ = ftaskid
  let s1 : State := ⟨s.db, s.overlay.update old.folderid fun folder =>
    (folder.deleteCreat old.name 0).insertUnlink ⟨old.name, ftaskid, id, 0⟩⟩
  have h1 : s1.Shows (Tree.set s.lookup old.folderid old.name none) :=
    h.unlink_shows hfound (.refl _) (r := ⟨old.name, ftaskid, id, 0⟩) rfl rfl
  have hfolder1 : NoFolder s1.db new.folderid (s1.overlay.get new.folderid) new.name := by
    by_contra hshown
    obtain ⟨folderid, hfolderid⟩ := ((h1.valid.folders new.folderid).lookupIn_folder h1.valid.db).mpr hshown
    refine Tree.set_ne_folder (fun hsome => ?_) ⟨folderid, (congrFun (congrFun h1.lookup _) _).symm.trans hfolderid⟩
    rw [h.isFolder_iff.mpr hsome] at hfolder
    cases hfolder
  rw [← h1.lookup]
  exact h1.valid.creat_shows hnamed hfolder1 hext ⟨new.name, ttaskid, id, 0⟩ ⟨new.name, ttaskid, id, 0⟩ rfl rfl
    (h.file_ne_zero hfound) rfl

/-- A rename that is to change nothing. -/
theorem Call.reference_rename {tree : Tree} {t : ℤ} (h : Call.Permitted tree (.rename old new batched commits) →
    Tree.rename tree old.folderid old.name new.folderid new.name = tree) :
    Call.reference tree t (.rename old new batched commits) = tree := by
  by_cases hperm : Call.Permitted tree (.rename old new batched commits)
  · exact (Call.reference_permitted hperm).trans (h hperm)
  · exact Call.reference_refused hperm

theorem State.Valid.renameFoundFolder (h : s.Valid) {t : ℤ} (hfound : s.lookup old.folderid old.name = some (.folder id))
    (hflags : old.flags &&& flagEncrypted = new.flags &&& flagEncrypted)
    (hnamed : Call.Named s (.rename old new batched commits)) (hsound : Call.Sound s (.rename old new batched commits)) :
    (s.renameFoundFolder id old new commits).1.Shows (Call.reference s.lookup t (.rename old new batched commits)) := by
  have hpermitted : Call.Permitted s.lookup (.rename old new batched commits) ↔
      canMove id old.permissions new.folderid new.permissions (old.shareid = new.shareid) ∧ commits := by
    rw [Call.Permitted, hfound]
    exact and_iff_right hflags
  rw [State.renameFoundFolder]
  cases hfile : s.isFile new.folderid new.name with
  | true =>
    obtain ⟨fileid, hfileid⟩ := h.isFile_iff.mp hfile
    refine h.shows (Call.reference_rename fun _ => ?_)
    rw [Tree.rename, hfound, hfileid]
  | false =>
    cases hnonempty : s.isNonemptyFolder new.folderid new.name with
    | true =>
      obtain ⟨target, htarget, hfull⟩ := h.isNonemptyFolder_iff.mp hnonempty
      refine h.shows (Call.reference_rename fun _ => ?_)
      rw [Tree.rename, hfound, htarget]
      exact if_pos (.inr hfull)
    | false =>
      rw [if_neg Bool.false_ne_true, if_neg Bool.false_ne_true]
      by_cases hmove : canMove id old.permissions new.folderid new.permissions (old.shareid = new.shareid) = true
      · rw [if_neg (not_not.mpr hmove)]
        cases commits with
        | false =>
          refine h.shows (Call.reference_refused fun hperm => ?_)
          cases (hpermitted.mp hperm).2
        | true =>
          have hperm := hpermitted.mpr ⟨hmove, rfl⟩
          obtain ⟨hreplaces, hbelow⟩ := hsound.1 hperm id hfound hfile hnonempty
          have hreference : Call.reference s.lookup t (.rename old new batched true) =
              Tree.set (Tree.set s.lookup old.folderid old.name none) new.folderid new.name (some (.folder id)) := by
            rw [Call.reference_permitted hperm, Call.operation, Tree.rename, hfound]
            cases htarget : s.lookup new.folderid new.name with
            | none => exact if_neg hbelow
            | some e =>
              cases e with
              | file fileid =>
                rw [h.isFile_iff.mpr ⟨fileid, htarget⟩] at hfile
                cases hfile
              | folder target =>
                refine if_neg (not_or.mpr ⟨hbelow, fun hfull => ?_⟩)
                rw [h.isNonemptyFolder_iff.mpr ⟨target, htarget, hfull⟩] at hnonempty
                cases hnonempty
          rw [hreference]
          exact h.renameFolder_shows hfound hnamed hfile hreplaces
      · rw [if_pos hmove]
        exact h.shows (Call.reference_refused fun hperm => hmove (hpermitted.mp hperm).1)

theorem State.Valid.renameFoundFile (h : s.Valid) {t : ℤ} (hfound : s.lookup old.folderid old.name = some (.file id))
    (hflags : old.flags &&& flagEncrypted = new.flags &&& flagEncrypted)
    (hnamed : Call.Named s (.rename old new batched commits)) :
    (s.renameFoundFile id old new batched commits).1.Shows
      (Call.reference s.lookup t (.rename old new batched commits)) := by
  have hpermitted : Call.Permitted s.lookup (.rename old new batched commits) ↔
      canMove old.folderid old.permissions new.folderid new.permissions (old.shareid = new.shareid) ∧ commits := by
    rw [Call.Permitted, hfound]
    exact and_iff_right hflags
  rw [State.renameFoundFile]
  cases hfolder : s.isFolder new.folderid new.name with
  | true =>
    obtain ⟨target, htarget⟩ := h.isFolder_iff.mp hfolder
    refine h.shows (Call.reference_rename fun _ => ?_)
    rw [Tree.rename, hfound, htarget]
  | false =>
    rw [if_neg Bool.false_ne_true]
    by_cases hmove : canMove old.folderid old.permissions new.folderid new.permissions (old.shareid = new.shareid) = true
    · rw [if_neg (not_not.mpr hmove)]
      cases commits with
      | false =>
        refine h.shows (Call.reference_refused fun hperm => ?_)
        cases (hpermitted.mp hperm).2
      | true =>
        have hreference : Call.reference s.lookup t (.rename old new batched true) =
            Tree.set (Tree.set s.lookup old.folderid old.name none) new.folderid new.name (some (.file id)) := by
          rw [Call.reference_permitted (hpermitted.mpr ⟨hmove, rfl⟩), Call.operation, Tree.rename, hfound]
          cases htarget : s.lookup new.folderid new.name with
          | none => rfl
          | some e =>
            cases e with
            | file fileid => rfl
            | folder target =>
              rw [h.isFolder_iff.mpr ⟨target, htarget⟩] at hfolder
              cases hfolder
        rw [hreference]
        exact h.renameFile_shows hfound hnamed.1 hfolder
    · rw [if_pos hmove]
      exact h.shows (Call.reference_refused fun hperm => hmove (hpermitted.mp hperm).1)

theorem State.Valid.rename (h : s.Valid) {t : ℤ} (hnamed : Call.Named s (.rename old new batched commits))
    (hsound : Call.Sound s (.rename old new batched commits)) :
    (s.rename old new batched commits).1.Shows (Call.reference s.lookup t (.rename old new batched commits)) := by
  rw [h.rename_eq]
  by_cases hflags : old.flags &&& flagEncrypted ≠ new.flags &&& flagEncrypted
  · rw [if_pos hflags]
    exact h.shows (Call.reference_refused fun hperm => hflags hperm.1)
  rw [if_neg hflags]
  cases hfound : s.lookup old.folderid old.name with
  | none =>
    refine h.shows (Call.reference_rename fun _ => ?_)
    rw [Tree.rename, hfound]
  | some e =>
    cases e with
    | folder id => exact h.renameFoundFolder hfound (not_not.mp hflags) hnamed hsound
    | file id => exact h.renameFoundFile hfound (not_not.mp hflags) hnamed

/-! ### Runs of calls -/

/-- A sound call does to what the folders show what its operation does to a tree. -/
theorem State.Valid.run (h : s.Valid) (call : Call) (hnamed : call.Named s) (hsound : call.Sound s) :
    (call.run s).1.Shows (call.reference s.lookup (-s.db.nextTaskid)) := by
  cases call with
  | mkdir => exact h.mkdir hnamed hsound
  | rmdir => exact h.rmdir hsound
  | addCreat => exact h.addCreat hnamed hsound
  | addModifiedFile => exact h.addModifiedFile hnamed hsound
  | unlink => exact h.unlink hsound
  | rename => exact h.rename hnamed hsound

/-! ### What is listed -/

theorem State.Valid.mem_newEntries (h : s.Valid) {e : Entry} : (name, e) ∈ newEntries (s.overlay.get folderid) ↔
    s.lookup folderid name = some e ∧
      (Has (s.overlay.get folderid).mkdirs name ∨ Has (s.overlay.get folderid).creats name) := by
  have hfolder := h.folders folderid
  constructor
  · intro hmem
    rcases List.mem_append.mp hmem with hmkdir | hcreat
    · obtain ⟨r, hr, heq⟩ := List.mem_map.mp hmkdir
      obtain ⟨rfl, rfl⟩ := Prod.mk.inj heq
      have hmem := (List.mem_filter.mp hr).1
      exact ⟨lookupIn_mkdir (searchTree_of_mem hfolder.mkdirs_nodup hmem), .inl (has_iff.mpr ⟨r, hmem, rfl⟩)⟩
    · obtain ⟨r, hr, heq⟩ := List.mem_map.mp hcreat
      obtain ⟨rfl, rfl⟩ := Prod.mk.inj heq
      exact ⟨(h.lookup_creat (searchTree_of_mem hfolder.creats_nodup hr)).1, .inr (has_iff.mpr ⟨r, hr, rfl⟩)⟩
  · intro ⟨hlookup, hhas⟩
    by_cases hmkdir : Has (s.overlay.get folderid).mkdirs name
    · obtain ⟨r, hr⟩ := Option.isSome_iff_exists.mp hmkdir
      obtain ⟨hmem, rfl⟩ := searchTree_some hr
      obtain rfl := Option.some.inj ((lookupIn_mkdir hr).symm.trans hlookup)
      have hflags := (hfolder.mkdirs r hmem).2
      exact List.mem_append_left _ (List.mem_map_of_mem (List.mem_filter.mpr ⟨hmem, by simpa using hflags⟩))
    · obtain ⟨r, hr⟩ := Option.isSome_iff_exists.mp (hhas.resolve_left hmkdir)
      obtain ⟨hmem, rfl⟩ := searchTree_some hr
      obtain rfl := Option.some.inj ((h.lookup_creat hr).1.symm.trans hlookup)
      exact List.mem_append_right _ (List.mem_map_of_mem hmem)

theorem State.Valid.mem_remoteEntries (h : s.Valid) {e : Entry} :
    (name, e) ∈ remoteEntries s.db folderid (s.overlay.get folderid) ↔
      s.lookup folderid name = some e ∧ ¬Has (s.overlay.get folderid).mkdirs name ∧
        ¬Has (s.overlay.get folderid).creats name := by
  have hfolder := h.folders folderid
  constructor
  · intro hmem
    by_cases hpos : 0 ≤ folderid
    swap
    · rw [remoteEntries, if_neg hpos] at hmem
      cases hmem
    rw [remoteEntries, if_pos hpos] at hmem
    rcases List.mem_append.mp hmem with hfolders | hfiles
    · obtain ⟨row, hrow, heq⟩ := List.mem_map.mp hfolders
      obtain ⟨rfl, rfl⟩ := Prod.mk.inj heq
      obtain ⟨hmem, hcond⟩ := List.mem_filter.mp hrow
      obtain ⟨hparent, -, hhidden⟩ := of_decide_eq_true hcond
      obtain ⟨hrmdir, hmkdir⟩ := not_or.mp hhidden
      have hfound := hparent ▸ h.db.folderNamed hmem
      refine ⟨h.lookup_row hfound hmkdir hrmdir, hmkdir, fun hcreat => ?_⟩
      exact hrmdir ((hfolder.hidden _ (.inr hcreat)).folders (hfound ▸ rfl))
    · obtain ⟨row, hrow, heq⟩ := List.mem_map.mp hfiles
      obtain ⟨rfl, rfl⟩ := Prod.mk.inj heq
      obtain ⟨hmem, hcond⟩ := List.mem_filter.mp hrow
      obtain ⟨hparent, -, hunlink⟩ := of_decide_eq_true hcond
      have hfound := hparent ▸ h.db.fileNamed hmem
      have hnew : ¬(Has (s.overlay.get folderid).mkdirs row.name ∨ Has (s.overlay.get folderid).creats row.name) :=
        fun hnew => hunlink ((hfolder.hidden _ hnew).files (hfound ▸ rfl))
      exact ⟨h.lookup_fileRow hfound (fun hcreat => hnew (.inr hcreat)) hunlink, not_or.mp hnew⟩
  · intro ⟨hlookup, hmkdir, hcreat⟩
    have hrows := (lookupIn_rows hmkdir hcreat).symm.trans hlookup
    by_cases hshown : ¬Has (s.overlay.get folderid).rmdirs name ∧ (s.db.folderNamed folderid name).isSome
    · obtain ⟨row, hrow⟩ := Option.isSome_iff_exists.mp hshown.2
      obtain ⟨hmem, hparent, hname⟩ := Database.folderNamed_some hrow
      obtain rfl : .folder row.id = e := by simpa [hshown.1, hrow] using hrows
      have hpos := h.db.parents row (List.mem_append_left _ hmem)
      have hnamed := h.db.named row (List.mem_append_left _ hmem)
      rw [remoteEntries, if_pos (hparent ▸ hpos), List.mem_append]
      refine .inl (List.mem_map.mpr ⟨row, List.mem_filter.mpr ⟨hmem, decide_eq_true ⟨hparent, hnamed, ?_⟩⟩, by rw [hname]⟩)
      rw [hname]
      exact not_or.mpr ⟨hshown.1, hmkdir⟩
    · have hnone : (if Has (s.overlay.get folderid).rmdirs name then none else s.db.folderNamed folderid name) = none := by
        split_ifs with hrmdir
        · rfl
        · exact Option.not_isSome_iff_eq_none.mp fun hsome => hshown ⟨hrmdir, hsome⟩
      rw [hnone] at hrows
      have hunlink : ¬Has (s.overlay.get folderid).unlinks name := fun hunlink => by simp [hunlink] at hrows
      cases hrow : s.db.fileNamed folderid name with
      | none => simp [hrow] at hrows
      | some row =>
        obtain ⟨hmem, hparent, hname⟩ := Database.fileNamed_some hrow
        obtain rfl : .file row.id = e := by simpa [hunlink, hrow] using hrows
        have hpos := h.db.parents row (List.mem_append_right _ hmem)
        have hnamed := h.db.named row (List.mem_append_right _ hmem)
        rw [remoteEntries, if_pos (hparent ▸ hpos), List.mem_append]
        refine .inr (List.mem_map.mpr ⟨row, List.mem_filter.mpr ⟨hmem, decide_eq_true ⟨hparent, hnamed, ?_⟩⟩, by rw [hname]⟩)
        rw [hname]
        exact hunlink

/-- A folder lists what its names stand for. -/
theorem State.Valid.mem_readdir (h : s.Valid) {e : Entry} :
    (name, e) ∈ s.readdir folderid ↔ s.lookup folderid name = some e := by
  rw [State.readdir, List.mem_append, h.mem_remoteEntries, h.mem_newEntries, ← and_or_left]
  refine and_iff_left_of_imp fun _ => ?_
  rw [← not_or]
  exact (em _).symm

theorem newEntries_nodup {folder : Folder} (h : folder.Valid db folderid) : ((newEntries folder).map Prod.fst).Nodup := by
  rw [newEntries, List.map_append, List.map_map, List.map_map]
  refine List.nodup_append.mpr ⟨h.mkdirs_nodup.sublist (List.filter_sublist.map _), h.creats_nodup, ?_⟩
  rintro _ hmkdir name hcreat rfl
  obtain ⟨r, hr, hname⟩ := List.mem_map.mp hmkdir
  obtain ⟨cr, hcr, hname'⟩ := List.mem_map.mp hcreat
  exact h.apart _ (has_iff.mpr ⟨r, (List.mem_filter.mp hr).1, hname⟩) (has_iff.mpr ⟨cr, hcr, hname'⟩)

theorem remoteEntries_nodup {folder : Folder} (hdb : db.WellFormed) :
    ((remoteEntries db folderid folder).map Prod.fst).Nodup := by
  rw [remoteEntries]
  split_ifs
  · rw [List.map_append, List.map_map, List.map_map]
    generalize hfolders : db.folder.filter _ = folders
    generalize hfiles : db.file.filter _ = files
    have hparent : ∀ row ∈ folders ++ files, row.parentfolderid = folderid := by
      intro row hrow
      rcases List.mem_append.mp hrow with hrow | hrow
      · rw [← hfolders] at hrow
        exact (of_decide_eq_true (List.mem_filter.mp hrow).2).1
      · rw [← hfiles] at hrow
        exact (of_decide_eq_true (List.mem_filter.mp hrow).2).1
    have hsub : (folders ++ files).Sublist (db.folder ++ db.file) :=
      (hfolders ▸ List.filter_sublist).append (hfiles ▸ List.filter_sublist)
    have hnames : (folders ++ files).map (fun row => (row.parentfolderid, row.name)) =
        ((folders ++ files).map Row.name).map (Prod.mk folderid) := by
      rw [List.map_map]
      exact List.map_congr_left fun row hrow => by rw [hparent row hrow]; rfl
    have hnodup := hdb.names.sublist (hsub.map _)
    rw [hnames] at hnodup
    exact List.map_append ▸ hnodup.of_map _
  · exact List.nodup_nil

/-- A folder lists no name twice. -/
theorem State.Valid.readdir_nodup (h : s.Valid) : ((s.readdir folderid).map Prod.fst).Nodup := by
  rw [State.readdir, List.map_append]
  refine List.nodup_append.mpr ⟨remoteEntries_nodup h.db, newEntries_nodup (h.folders folderid), ?_⟩
  rintro _ hremote name hnew rfl
  obtain ⟨e, he, hname⟩ := List.mem_map.mp hremote
  obtain ⟨e', he', hname'⟩ := List.mem_map.mp hnew
  have hrow := (h.mem_remoteEntries.mp he).2
  have hrecord := (h.mem_newEntries.mp he').2
  rw [hname] at hrow
  rw [hname'] at hrecord
  exact not_or.mpr hrow hrecord

theorem Database.WellFormed.valid (h : db.WellFormed) : State.Valid ⟨db, {}⟩ :=
  ⟨h, fun _ => ⟨List.nodup_nil, List.nodup_nil, List.forall_mem_nil _, List.forall_mem_nil _,
    fun _ hhas => absurd hhas not_has_nil, fun _ hhas => absurd hhas (not_or.mpr ⟨not_has_nil, not_has_nil⟩)⟩,
    fun _ _ => ⟨rfl, rfl⟩⟩

/-- Without records the folders show the remote rows. -/
theorem lookup_empty : State.lookup ⟨db, {}⟩ = db.tree := rfl

def Traced.Agrees (s : Traced) : Prop := s.state.Shows s.tree

/-- In every run of sound calls, each folder lists the entries that the same operations leave
in a tree, no name twice. -/
theorem overlay_shows_tree {s : Traced} (h : Reachable Fresh (Avoiding step fun s call => ¬call.Sound s.state) s) :
    (∀ folderid, ((s.state.readdir folderid).map Prod.fst).Nodup) ∧
      ∀ folderid name e, (name, e) ∈ s.state.readdir folderid ↔ s.tree folderid name = some e := by
  have hshows : s.Agrees := by
    refine h.invariant (fun s hs => ?_) fun s call s' hs hstep => ?_
    · obtain ⟨⟨db, overlay⟩, tree⟩ := s
      obtain ⟨hdb, hoverlay, htree⟩ := hs
      change overlay = {} at hoverlay
      subst hoverlay
      exact ⟨hdb.valid, lookup_empty.trans htree.symm⟩
    · obtain ⟨⟨hnamed, hstate, htree⟩, hsound⟩ := hstep
      rw [Traced.Agrees, hstate, htree, ← hs.lookup]
      exact hs.valid.run call hnamed (not_not.mp hsound)
  refine ⟨fun folderid => hshows.valid.readdir_nodup, fun folderid name e => ?_⟩
  rw [hshows.valid.mem_readdir, hshows.lookup]

theorem wellFormed_empty : Database.WellFormed {} :=
  ⟨List.nodup_nil, List.forall_mem_nil _, List.forall_mem_nil _, List.forall_mem_nil _⟩

/-- A folder is made in the root. -/
theorem overlay_shows_new_folder :
    let s : State := ((Call.mkdir 0 [97] 0 0 (.ok []) true).run {}).1
    let tree : Tree := (Call.mkdir 0 [97] 0 0 (.ok []) true).reference (Database.tree {}) (-1)
    ∀ folderid name e, (name, e) ∈ s.readdir folderid ↔ tree folderid name = some e := by
  intro s tree
  have hsound : Call.Sound {} (.mkdir 0 [97] 0 0 (.ok []) true) := by
    refine ⟨fun _ => ?_, fun _ => trivial⟩
    show State.isFile {} 0 [97] = false
    decide
  have hr : Reachable Fresh (Avoiding step fun s call => ¬call.Sound s.state) ⟨s, tree⟩ :=
    .next (.start (s := ⟨{}, Database.tree {}⟩) ⟨wellFormed_empty, rfl, rfl⟩)
      ⟨⟨show -(0 : ℤ) < _ by decide, rfl, rfl⟩, not_not.mpr hsound⟩
  exact (overlay_shows_tree hr).2

/-- The state that a call leads to. -/
noncomputable def Traced.after (s : Traced) (call : Call) : Traced :=
  ⟨(call.run s.state).1, call.reference s.tree (-s.state.db.nextTaskid)⟩

/-- A new folder that is renamed to the name of another one is listed beside it. -/
theorem rename_over_new_folder : ¬∀ s : Traced, Reachable Fresh step s →
    (∀ folderid, ((s.state.readdir folderid).map Prod.fst).Nodup) ∧
      ∀ folderid name e, (name, e) ∈ s.state.readdir folderid ↔ s.tree folderid name = some e := by
  intro hall
  let path (name : Name) : FsPath := ⟨0, name, permAll, 0, 0⟩
  have hafter : ∀ (s : Traced) (call : Call), call.Named s.state → Reachable Fresh step s →
      Reachable Fresh step (s.after call) := fun s call hnamed h => h.next ⟨hnamed, rfl, rfl⟩
  have h0 : Reachable Fresh step ⟨{}, Database.tree {}⟩ := .start ⟨wellFormed_empty, rfl, rfl⟩
  have h1 := hafter _ (.mkdir 0 [97] 0 0 (.ok []) true) (show -(0 : ℤ) < _ by decide) h0
  have h2 := hafter _ (.mkdir 0 [98] 0 0 (.ok []) true) (show -(0 : ℤ) < _ by decide) h1
  have h3 := hafter _ (.rename (path [97]) (path [98]) false true) ⟨show -(0 : ℤ) < _ by decide, Nat.zero_and _⟩ h2
  exact absurd ((hall _ h3).1 0) (by decide)

end Pclsync.Tasks
