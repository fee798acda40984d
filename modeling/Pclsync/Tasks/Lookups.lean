import Pclsync.Tasks.Failures

/-! What a name stands for, as each function of `pfs.c`, `pfsxattr.c` and `pfstasks.c` looks it up by
itself, and the paths of `pfsfolder.c`. Names are as they are stored, also in encrypted folders. -/
namespace Pclsync.Tasks

/-- What a function finds. A static file has no id but that of its task. -/
inductive Object where
  | folder (id : ℤ)
  | file (id : ℤ)
  | static (taskid : ℕ)
deriving DecidableEq, Repr

def Object.isFolder : Object → Bool
  | .folder _ => true
  | _ => false

/-- What a creat stands for. -/
def Record.object (cr : Record) : Object := if cr.id = 0 then .static cr.taskid else .file cr.id

/-- What is beside the records and their tables: the data files of the cache, the table `filerevision`
and `psync_fake_fileid`. -/
structure Files where
  datafile : ℤ → Bool
  revision : ℤ → ℤ → Bool
  fakeFileid : ℤ

/-! ### Rows -/

/-- The row of a folder, unless a rmdir hides it. -/
def State.folderRow (s : State) (folderid : ℤ) (name : Name) : Option Row :=
  if Has (s.overlay.get folderid).rmdirs name then none else s.db.folderNamed folderid name

/-- The row of a file, unless an unlink hides it. -/
def State.fileRow (s : State) (folderid : ℤ) (name : Name) : Option Row :=
  if Has (s.overlay.get folderid).unlinks name then none else s.db.fileNamed folderid name

def State.mkdirNamed (s : State) (folderid : ℤ) (name : Name) : Option Record :=
  searchTree (s.overlay.get folderid).mkdirs name 0

def State.creatNamed (s : State) (folderid : ℤ) (name : Name) : Option Record :=
  searchTree (s.overlay.get folderid).creats name 0

/-- `SELECT id FROM file WHERE id=?`. -/
def Database.hasFile (db : Database) (fileid : ℤ) : Bool := db.file.any (·.id = fileid)

/-- `SELECT type, fileid, int2 FROM fstask WHERE id=?`. -/
def Database.taskRow (db : Database) (taskid : ℤ) : Option Task := db.fstask.find? fun task => (task.id : ℤ) = taskid

/-! ### The functions -/

/-- `psync_creat_to_file_stat` succeeds. -/
def State.creatToFileStat (s : State) (files : Files) (cr : Record) : Bool :=
  if 0 < cr.id then s.db.hasFile cr.id
  else if cr.id < 0 then cr.id < files.fakeFileid || files.datafile cr.id
  else true

/-- `psync_fs_getattr`. -/
def State.getattr (s : State) (files : Files) (folderid : ℤ) (name : Name) : Option Object :=
  match s.mkdirNamed folderid name with
  | some mkdir => if mkdir.flags &&& flagInvisible ≠ 0 then none else some (.folder mkdir.id)
  | none =>
    match s.folderRow folderid name with
    | some row => some (.folder row.id)
    | none =>
      match s.fileRow folderid name with
      | some row => some (.file row.id)
      | none =>
        match s.creatNamed folderid name with
        | some cr => if s.creatToFileStat files cr then some cr.object else none
        | none => none

/-- What `psync_fs_open` makes of a creat, with no flags that make or truncate a file. -/
def State.openCreat (s : State) (files : Files) (cr : Record) : Option Object :=
  if 0 < cr.id then if s.db.hasFile cr.id then some (.file cr.id) else none
  else if cr.id < 0 then
    match s.db.taskRow (-cr.id) with
    | some task =>
      if task.type = .creat then some (.file cr.id)
      else if task.type = .modify then if files.revision task.fileid task.int2 then some (.file cr.id) else none
      else none
    | none => none
  else some (.static cr.taskid)

/-- `psync_fs_open`. -/
def State.open (s : State) (files : Files) (folderid : ℤ) (name : Name) : Option Object :=
  match s.creatNamed folderid name with
  | some cr => s.openCreat files cr
  | none => if 0 ≤ folderid then (s.fileRow folderid name).map fun row => .file row.id else none

/-- The source of `psync_fs_rename`. -/
def State.renameSource (s : State) (folderid : ℤ) (name : Name) : Option Object :=
  match s.mkdirNamed folderid name with
  | some mkdir => some (.folder mkdir.id)
  | none =>
    match s.creatNamed folderid name with
    | some cr => some cr.object
    | none =>
      match s.folderRow folderid name with
      | some row => some (.folder row.id)
      | none => (s.fileRow folderid name).map fun row => .file row.id

/-- What `psync_fstask_rmdir` takes away. -/
def State.rmdirTarget (s : State) (folderid : ℤ) (name : Name) : Option Object :=
  match s.mkdirNamed folderid name with
  | some mkdir => some (.folder mkdir.id)
  | none => (s.folderRow folderid name).map fun row => .folder row.id

/-- What `psync_fstask_unlink` takes away. -/
def State.unlinkTarget (s : State) (folderid : ℤ) (name : Name) : Option Object :=
  match s.creatNamed folderid name with
  | some cr => some cr.object
  | none => (s.fileRow folderid name).map fun row => .file row.id

/-- `xattr_get_object_id_locked`, from a name on. A file that a task modifies is the remote one. -/
def State.xattrObject (s : State) (folderid : ℤ) (name : Name) : Option Object :=
  match s.mkdirNamed folderid name with
  | some mkdir => some (.folder mkdir.id)
  | none =>
    match s.creatNamed folderid name with
    | some cr =>
      if 0 < cr.id then some (.file cr.id)
      else if cr.id = 0 then some (.static cr.taskid)
      else (s.db.taskRow (-cr.id)).map fun task => if task.type = .creat then .file cr.id else .file task.fileid
    | none =>
      if folderid < 0 then none
      else
        match s.folderRow folderid name with
        | some row => some (.folder row.id)
        | none => (s.fileRow folderid name).map fun row => .file row.id

/-- `psync_fs_readdir`, for a folder. -/
def State.list (s : State) (files : Files) (folderid : ℤ) : List (Name × Object) :=
  let folder := s.overlay.get folderid
  (if 0 ≤ folderid then
    ((s.db.folder.filter fun row => row.parentfolderid = folderid ∧ row.name ≠ [] ∧
        ¬(Has folder.rmdirs row.name ∨ Has folder.mkdirs row.name)).map fun row => (row.name, .folder row.id)) ++
      (s.db.file.filter fun row => row.parentfolderid = folderid ∧ row.name ≠ [] ∧
        ¬Has folder.unlinks row.name).map fun row => (row.name, .file row.id)
  else []) ++
    ((folder.mkdirs.filter fun r => r.flags &&& flagInvisible = 0).map fun r => (r.name, .folder r.id)) ++
    (folder.creats.filter fun cr => s.creatToFileStat files cr).map fun cr => (cr.name, cr.object)

/-! ### Paths -/

/-- A step of `psync_fsfolder_resolve_path`. -/
def State.resolveStep (s : State) (folderid : ℤ) (name : Name) : Option ℤ :=
  match s.mkdirNamed folderid name with
  | some mkdir => if mkdir.flags &&& flagInvisible ≠ 0 then none else some mkdir.id
  | none => (s.folderRow folderid name).map Row.id

/-- A step of `psync_fsfolderid_by_path`. -/
def State.byPathStep (s : State) (folderid : ℤ) (name : Name) : Option ℤ :=
  match s.mkdirNamed folderid name with
  | some mkdir => some mkdir.id
  | none => (s.folderRow folderid name).map Row.id

/-- `psync_fsfolder_resolve_path`, the folder of a path whose last name is left out. -/
def State.resolvePath (s : State) (parents : List Name) : Option ℤ := parents.foldlM s.resolveStep 0

/-- `psync_fsfolderid_by_path`. -/
def State.folderidByPath (s : State) (path : List Name) : Option ℤ := path.foldlM s.byPathStep 0

/-! ### Agreement -/

/-- The object that extended attributes are stored for. -/
def State.attributed (s : State) : Object → Object
  | .file id =>
    if id < 0 then
      match s.db.taskRow (-id) with
      | some task => if task.type = .creat then .file id else .file task.fileid
      | none => .file id
    else .file id
  | o => o

/-- What is listed under a name. -/
def State.listed (s : State) (files : Files) (folderid : ℤ) (name : Name) : List Object :=
  ((s.list files folderid).filter fun e => e.1 = name).map Prod.snd

/-- All functions find the same for a name, or nothing. -/
structure State.Agrees (s : State) (files : Files) (folderid : ℤ) (name : Name) (found : Option Object) : Prop where
  getattr : s.getattr files folderid name = found
  open_ : s.open files folderid name = found.filter fun o => !o.isFolder
  rename : s.renameSource folderid name = found
  unlink : s.unlinkTarget folderid name = found.filter fun o => !o.isFolder
  rmdir : s.rmdirTarget folderid name = found.filter Object.isFolder
  xattr : s.xattrObject folderid name = found.map s.attributed
  readdir : s.listed files folderid name = found.toList

/-- For a path: that of its folder, as the functions resolve it, and that of `psync_fs_readdir`. -/
def State.PathAgrees (s : State) (files : Files) (parents : List Name) (name : Name) : Prop :=
  match s.resolvePath parents with
  | some folderid => s.folderidByPath parents = some folderid ∧ ∃ found, s.Agrees files folderid name found
  | none => ∀ folderid, s.folderidByPath parents = some folderid → s.listed files folderid name = []

/-! ### What is listed -/

variable {s : State} {files : Files} {folderid : ℤ} {name : Name}

/-- At most one row has a key. -/
theorem filter_key {K : Type} [DecidableEq K] {key : Row → K} {rows : List Row} (h : (rows.map key).Nodup) (k : K) :
    (rows.filter fun row => key row = k) = (rows.find? fun row => key row = k).toList := by
  induction rows with
  | nil => rfl
  | cons row rows ih =>
    rw [List.map_cons, List.nodup_cons] at h
    rw [List.filter_cons, List.find?_cons]
    by_cases hk : key row = k
    · have hnone : (rows.filter fun row => key row = k) = [] := by
        refine List.filter_eq_nil_iff.mpr fun r hr heq => h.1 ?_
        rw [hk, ← of_decide_eq_true heq]
        exact List.mem_map_of_mem hr
      simp only [hk, decide_true, if_true, hnone, Option.toList_some]
    · simp only [hk, decide_false, Bool.false_eq_true, if_false, ih h.2]

/-- The rows of a name that a listing fills in. -/
theorem filter_rows {rows : List Row} {H : Name → Prop} [DecidablePred H]
    (hnodup : (rows.map fun row => (row.parentfolderid, row.name)).Nodup) (hnamed : ∀ row ∈ rows, row.name ≠ []) :
    ((rows.filter fun row => row.parentfolderid = folderid ∧ row.name ≠ [] ∧ ¬H row.name).filter
        fun row => row.name = name) =
      (if H name then none else
        rows.find? fun row => row.parentfolderid = folderid ∧ row.name = name).toList := by
  rw [List.filter_filter]
  split_ifs with hhides
  · refine List.filter_eq_nil_iff.mpr fun row _ h => ?_
    simp only [Bool.and_eq_true, decide_eq_true_eq] at h
    exact h.2.2.2 (h.1 ▸ hhides)
  · have hkey := filter_key hnodup (folderid, name)
    simp only [Prod.mk.injEq] at hkey
    rw [← hkey]
    refine List.filter_congr fun row hrow => ?_
    by_cases hname : row.name = name
    · simp [hname, hhides, hname ▸ hnamed row hrow]
    · simp [hname]

theorem filter_map_fst {A : Type} (l : List A) (key : A → Name) (f : A → Object) :
    (((l.map fun a => (key a, f a)).filter fun e => e.1 = name).map Prod.snd) =
      (l.filter fun a => key a = name).map f := by
  rw [List.filter_map, List.map_map]
  rfl

/-- The mkdirs of a name that a listing fills in. -/
def State.shownMkdirs (s : State) (folderid : ℤ) (name : Name) : List Record :=
  ((s.overlay.get folderid).mkdirs.filter fun r => r.flags &&& flagInvisible = 0).filter fun r => r.name = name

/-- The creats of a name that a listing fills in. -/
def State.shownCreats (s : State) (files : Files) (folderid : ℤ) (name : Name) : List Record :=
  ((s.overlay.get folderid).creats.filter fun cr => s.creatToFileStat files cr).filter fun r => r.name = name

theorem listed_eq (hdb : s.db.WellFormed) :
    s.listed files folderid name =
      (if (s.mkdirNamed folderid name).isSome then [] else (s.folderRow folderid name).toList.map fun row => .folder row.id) ++
        ((s.fileRow folderid name).toList.map fun row => .file row.id) ++
        ((s.shownMkdirs folderid name).map fun r => .folder r.id) ++
        (s.shownCreats files folderid name).map Record.object := by
  have hnodup := List.nodup_append.mp (List.map_append ▸ hdb.names)
  have hfolders : ∀ row ∈ s.db.folder, row.name ≠ [] := fun row hrow => hdb.named row (List.mem_append_left _ hrow)
  have hfiles : ∀ row ∈ s.db.file, row.name ≠ [] := fun row hrow => hdb.named row (List.mem_append_right _ hrow)
  have hfolder : (if Has (s.overlay.get folderid).rmdirs name ∨ Has (s.overlay.get folderid).mkdirs name then none
      else s.db.folderNamed folderid name) = if (s.mkdirNamed folderid name).isSome then none else s.folderRow folderid name := by
    by_cases hmkdir : Has (s.overlay.get folderid).mkdirs name
    · rw [if_pos (.inr hmkdir), if_pos (show (s.mkdirNamed folderid name).isSome from hmkdir)]
    · rw [if_neg (show ¬(s.mkdirNamed folderid name).isSome = true from hmkdir)]
      unfold State.folderRow
      by_cases hrmdir : Has (s.overlay.get folderid).rmdirs name
      · rw [if_pos hrmdir, if_pos (.inl hrmdir)]
      · rw [if_neg hrmdir, if_neg (not_or.mpr ⟨hrmdir, hmkdir⟩)]
  unfold State.listed State.list
  simp only [List.filter_append, List.map_append, filter_map_fst]
  congr 2
  by_cases hpos : 0 ≤ folderid
  · simp only [if_pos hpos, List.filter_append, List.map_append, filter_map_fst]
    rw [filter_rows (H := fun n => Has (s.overlay.get folderid).rmdirs n ∨ Has (s.overlay.get folderid).mkdirs n)
      hnodup.1 hfolders, filter_rows (H := Has (s.overlay.get folderid).unlinks) hnodup.2.1 hfiles]
    congr 1
    have hrow := hfolder
    unfold Database.folderNamed at hrow
    rw [hrow]
    split_ifs <;> rfl
  · have hneg := not_le.mp hpos
    have hno : s.folderRow folderid name = none := by
      unfold State.folderRow
      rw [hdb.folderNamed_neg hneg, ite_self]
    have hnofile : s.fileRow folderid name = none := by
      unfold State.fileRow
      rw [hdb.fileNamed_neg hneg, ite_self]
    rw [if_neg hpos, hno, hnofile]
    split_ifs <;> rfl

/-! ### Records that show -/

theorem shownMkdirs_nil (h : s.mkdirNamed folderid name = none) : s.shownMkdirs folderid name = [] := by
  refine List.filter_eq_nil_iff.mpr fun r hr heq => searchTree_eq_none.mp h ?_
  exact has_iff.mpr ⟨r, List.mem_of_mem_filter hr, of_decide_eq_true heq⟩

theorem shownCreats_nil (h : s.creatNamed folderid name = none) : s.shownCreats files folderid name = [] := by
  refine List.filter_eq_nil_iff.mpr fun r hr heq => searchTree_eq_none.mp h ?_
  exact has_iff.mpr ⟨r, List.mem_of_mem_filter hr, of_decide_eq_true heq⟩

theorem mem_shownMkdirs {r : Record} (h : s.mkdirNamed folderid name = some r) (hflags : r.flags &&& flagInvisible = 0) :
    r ∈ s.shownMkdirs folderid name := by
  obtain ⟨hmem, hname⟩ := searchTree_some h
  exact List.mem_filter.mpr ⟨List.mem_filter.mpr ⟨hmem, decide_eq_true hflags⟩, decide_eq_true hname⟩

theorem mem_shownCreats {cr : Record} (h : s.creatNamed folderid name = some cr)
    (hstat : s.creatToFileStat files cr = true) : cr ∈ s.shownCreats files folderid name := by
  obtain ⟨hmem, hname⟩ := searchTree_some h
  exact List.mem_filter.mpr ⟨List.mem_filter.mpr ⟨hmem, hstat⟩, decide_eq_true hname⟩

/-- The only member of a list. -/
theorem eq_singleton {A : Type} {l : List A} {a : A} (hlen : l.length = 1) (hmem : a ∈ l) : l = [a] := by
  obtain ⟨x, rfl⟩ := List.length_eq_one_iff.mp hlen
  rw [List.mem_singleton.mp hmem]

/-- A file that is to be made has its data, and its task. -/
def State.Backed (s : State) (files : Files) (cr : Record) : Prop :=
  s.creatToFileStat files cr = true ∧ (cr.id < 0 → ∃ task, s.db.taskRow (-cr.id) = some task ∧
    (task.type = .creat ∨ task.type = .modify ∧ files.revision task.fileid task.int2 = true))

/-- One record, or the row, is all that there is of a name. -/
def State.Plain (s : State) (files : Files) (folderid : ℤ) (name : Name) : Prop :=
  match s.mkdirNamed folderid name, s.folderRow folderid name, s.fileRow folderid name with
  | some mkdir, _, fileRow => mkdir.flags &&& flagInvisible = 0 ∧ s.creatNamed folderid name = none ∧ fileRow = none ∧
      (s.shownMkdirs folderid name).length = 1
  | none, none, none => ∀ cr, s.creatNamed folderid name = some cr →
      s.Backed files cr ∧ (s.shownCreats files folderid name).length = 1
  | none, _, _ => s.creatNamed folderid name = none

/-! ### Each kind of name -/

theorem object_isFolder (cr : Record) : cr.object.isFolder = false := by
  unfold Record.object
  split_ifs <;> rfl

theorem unlinkTarget_none :
    s.unlinkTarget folderid name = none ↔ s.creatNamed folderid name = none ∧ s.fileRow folderid name = none := by
  unfold State.unlinkTarget
  cases s.creatNamed folderid name with
  | some cr => exact ⟨nofun, nofun⟩
  | none =>
    rw [Option.map_eq_none_iff]
    exact ⟨fun h => ⟨rfl, h⟩, fun h => h.2⟩

theorem folderRow_some {row : Row} (h : s.folderRow folderid name = some row) :
    s.db.folderNamed folderid name = some row := by
  unfold State.folderRow at h
  split_ifs at h
  exact h

theorem fileRow_some {row : Row} (h : s.fileRow folderid name = some row) : s.db.fileNamed folderid name = some row := by
  unfold State.fileRow at h
  split_ifs at h
  exact h

theorem folderRow_nonneg (hdb : s.db.WellFormed) {row : Row} (h : s.folderRow folderid name = some row) : 0 ≤ folderid := by
  obtain ⟨hmem, hparent, _⟩ := Database.folderNamed_some (folderRow_some h)
  exact hparent ▸ hdb.parents row (List.mem_append_left _ hmem)

theorem fileRow_nonneg (hdb : s.db.WellFormed) {row : Row} (h : s.fileRow folderid name = some row) : 0 ≤ folderid := by
  obtain ⟨hmem, hparent, _⟩ := Database.fileNamed_some (fileRow_some h)
  exact hparent ▸ hdb.parents row (List.mem_append_right _ hmem)

theorem fileRow_id (hdb : s.db.WellFormed) {row : Row} (h : s.fileRow folderid name = some row) :
    0 < row.id ∧ s.db.hasFile row.id = true := by
  obtain ⟨hmem, _, _⟩ := Database.fileNamed_some (fileRow_some h)
  exact ⟨hdb.ids row (List.mem_append_right _ hmem), List.any_eq_true.mpr ⟨row, hmem, decide_eq_true rfl⟩⟩

theorem attributed_remote {id : ℤ} (h : 0 ≤ id) : s.attributed (.file id) = .file id := if_neg (not_lt.mpr h)

theorem agrees_mkdir (hdb : s.db.WellFormed) {mkdir : Record} (h : s.mkdirNamed folderid name = some mkdir) :
    (∃ found, s.Agrees files folderid name found) ↔
      mkdir.flags &&& flagInvisible = 0 ∧ s.creatNamed folderid name = none ∧ s.fileRow folderid name = none ∧
        (s.shownMkdirs folderid name).length = 1 := by
  have hrename : s.renameSource folderid name = some (.folder mkdir.id) := by
    unfold State.renameSource
    rw [h]
  have hgetattr : s.getattr files folderid name =
      if mkdir.flags &&& flagInvisible ≠ 0 then none else some (.folder mkdir.id) := by
    unfold State.getattr
    rw [h]
  constructor
  · intro hagrees
    obtain ⟨found, hagrees⟩ := hagrees
    obtain rfl := hrename.symm.trans hagrees.rename
    have hflags : mkdir.flags &&& flagInvisible = 0 := by
      by_contra hinvisible
      have hnone := hgetattr.symm.trans hagrees.getattr
      rw [if_pos hinvisible] at hnone
      nomatch hnone
    obtain ⟨hcreat, hrow⟩ := unlinkTarget_none.mp hagrees.unlink
    refine ⟨hflags, hcreat, hrow, ?_⟩
    have hlisted := hagrees.readdir
    rw [listed_eq hdb, h, hrow, shownCreats_nil hcreat] at hlisted
    simpa using congrArg List.length hlisted
  · intro hplain
    obtain ⟨hflags, hcreat, hrow, hlen⟩ := hplain
    refine ⟨some (.folder mkdir.id), ⟨?_, ?_, hrename, unlinkTarget_none.mpr ⟨hcreat, hrow⟩, ?_, ?_, ?_⟩⟩
    · rw [hgetattr, if_neg (not_not.mpr hflags)]
    · unfold State.open
      rw [hcreat, hrow]
      exact ite_self _
    · unfold State.rmdirTarget
      rw [h]
      rfl
    · unfold State.xattrObject
      rw [h]
      rfl
    · rw [listed_eq hdb, h, hrow, shownCreats_nil hcreat, eq_singleton hlen (mem_shownMkdirs h hflags)]
      rfl

theorem agrees_folderRow (hdb : s.db.WellFormed) {row : Row} (hno : s.mkdirNamed folderid name = none)
    (h : s.folderRow folderid name = some row) :
    (∃ found, s.Agrees files folderid name found) ↔ s.creatNamed folderid name = none := by
  have hrow : s.fileRow folderid name = none := by
    unfold State.fileRow
    rw [hdb.fileNamed_none (folderRow_some h), ite_self]
  have hgetattr : s.getattr files folderid name = some (.folder row.id) := by
    unfold State.getattr
    rw [hno, h]
  constructor
  · intro hagrees
    obtain ⟨found, hagrees⟩ := hagrees
    obtain rfl := hgetattr.symm.trans hagrees.getattr
    exact (unlinkTarget_none.mp hagrees.unlink).1
  · intro hcreat
    refine ⟨some (.folder row.id), ⟨hgetattr, ?_, ?_, unlinkTarget_none.mpr ⟨hcreat, hrow⟩, ?_, ?_, ?_⟩⟩
    · unfold State.open
      rw [hcreat, hrow]
      exact ite_self _
    · unfold State.renameSource
      rw [hno, hcreat, h]
    · unfold State.rmdirTarget
      rw [hno, h]
      rfl
    · unfold State.xattrObject
      rw [hno, hcreat, h]
      exact if_neg (not_lt.mpr (folderRow_nonneg hdb h))
    · rw [listed_eq hdb, hno, h, hrow, shownCreats_nil hcreat, shownMkdirs_nil hno]
      rfl

theorem agrees_fileRow (hdb : s.db.WellFormed) {row : Row} (hno : s.mkdirNamed folderid name = none)
    (hnorow : s.folderRow folderid name = none) (h : s.fileRow folderid name = some row) :
    (∃ found, s.Agrees files folderid name found) ↔ s.creatNamed folderid name = none := by
  obtain ⟨hpos, hfile⟩ := fileRow_id hdb h
  have hgetattr : s.getattr files folderid name = some (.file row.id) := by
    unfold State.getattr
    rw [hno, hnorow, h]
  constructor
  · intro hagrees
    obtain ⟨found, hagrees⟩ := hagrees
    obtain rfl := hgetattr.symm.trans hagrees.getattr
    cases hcreat : s.creatNamed folderid name with
    | none => rfl
    | some cr =>
      -- The creat is of the file of the row, and both are listed.
      have htarget := hagrees.unlink
      unfold State.unlinkTarget at htarget
      rw [hcreat] at htarget
      have hobject : cr.object = .file row.id := Option.some.inj htarget
      have hid : cr.id = row.id := by
        unfold Record.object at hobject
        split_ifs at hobject
        exact Object.file.inj hobject
      have hstat : s.creatToFileStat files cr = true := by
        unfold State.creatToFileStat
        rw [hid, if_pos hpos, hfile]
      have hlisted := congrArg List.length hagrees.readdir
      rw [listed_eq hdb, hno, hnorow, h] at hlisted
      have hshown := List.length_pos_of_mem (mem_shownCreats hcreat hstat)
      simp only [List.length_append, List.length_map, Option.toList_some, List.length_singleton] at hlisted
      omega
  · intro hcreat
    refine ⟨some (.file row.id), ⟨hgetattr, ?_, ?_, ?_, ?_, ?_, ?_⟩⟩
    · unfold State.open
      rw [hcreat, h]
      exact if_pos (fileRow_nonneg hdb h)
    · unfold State.renameSource
      rw [hno, hcreat, hnorow, h]
      rfl
    · unfold State.unlinkTarget
      rw [hcreat, h]
      rfl
    · unfold State.rmdirTarget
      rw [hno, hnorow]
      rfl
    · unfold State.xattrObject
      rw [hno, hcreat, hnorow, h, if_neg (not_lt.mpr (fileRow_nonneg hdb h)), Option.map_some, Option.map_some,
        attributed_remote hpos.le]
    · rw [listed_eq hdb, hno, hnorow, h, shownCreats_nil hcreat, shownMkdirs_nil hno]
      rfl

theorem openCreat_iff {cr : Record} (hstat : s.creatToFileStat files cr = true) :
    s.openCreat files cr = some cr.object ↔ (cr.id < 0 → ∃ task, s.db.taskRow (-cr.id) = some task ∧
      (task.type = .creat ∨ task.type = .modify ∧ files.revision task.fileid task.int2 = true)) := by
  unfold State.openCreat Record.object
  by_cases hpos : 0 < cr.id
  · unfold State.creatToFileStat at hstat
    rw [if_pos hpos] at hstat
    rw [if_pos hpos, if_pos hstat, if_neg hpos.ne']
    exact ⟨fun _ hneg => absurd hneg (not_lt.mpr hpos.le), fun _ => rfl⟩
  by_cases hneg : cr.id < 0
  · rw [if_neg hpos, if_pos hneg, if_neg hneg.ne]
    cases htask : s.db.taskRow (-cr.id) with
    | none =>
      refine ⟨nofun, fun h => ?_⟩
      obtain ⟨task, hsome, _⟩ := h hneg
      nomatch hsome
    | some task =>
      by_cases hcreat : task.type = .creat
      · exact ⟨fun _ _ => ⟨task, rfl, .inl hcreat⟩, fun _ => if_pos hcreat⟩
      by_cases hmodify : task.type = .modify ∧ files.revision task.fileid task.int2 = true
      · refine ⟨fun _ _ => ⟨task, rfl, .inr hmodify⟩, fun _ => ?_⟩
        simp only [if_neg hcreat, if_pos hmodify.1, if_pos hmodify.2]
      · constructor
        · intro h
          simp only [if_neg hcreat] at h
          split_ifs at h with htype hrevision
          exact absurd ⟨htype, hrevision⟩ hmodify
        · intro h
          obtain ⟨task', hsome, hbacked⟩ := h hneg
          obtain rfl := Option.some.inj hsome
          exact (hbacked.elim hcreat hmodify).elim
  · rw [if_neg hpos, if_neg hneg, if_pos (by omega)]
    exact ⟨fun _ h => absurd h hneg, fun _ => rfl⟩

theorem agrees_creat (hdb : s.db.WellFormed) (hno : s.mkdirNamed folderid name = none)
    (hnofolder : s.folderRow folderid name = none) (hnofile : s.fileRow folderid name = none) {cr : Record}
    (h : s.creatNamed folderid name = some cr) :
    (∃ found, s.Agrees files folderid name found) ↔
      s.Backed files cr ∧ (s.shownCreats files folderid name).length = 1 := by
  have hgetattr : s.getattr files folderid name = if s.creatToFileStat files cr then some cr.object else none := by
    unfold State.getattr
    rw [hno, hnofolder, hnofile, h]
  have hrename : s.renameSource folderid name = some cr.object := by
    unfold State.renameSource
    rw [hno, h]
  have hfile : (some cr.object).filter (fun o => !o.isFolder) = some cr.object := by
    rw [Option.filter_some_pos]
    rw [object_isFolder]
    rfl
  have hopen : s.open files folderid name = s.openCreat files cr := by
    unfold State.open
    rw [h]
  have hlisted : s.listed files folderid name = (s.shownCreats files folderid name).map Record.object := by
    rw [listed_eq hdb, hno, hnofolder, hnofile, shownMkdirs_nil hno]
    rfl
  constructor
  · intro hagrees
    obtain ⟨found, hagrees⟩ := hagrees
    obtain rfl := hrename.symm.trans hagrees.rename
    have hstat : s.creatToFileStat files cr = true := by
      by_contra hstat
      have hnone := hgetattr.symm.trans hagrees.getattr
      rw [if_neg hstat] at hnone
      nomatch hnone
    have hlen := congrArg List.length (hlisted.symm.trans hagrees.readdir)
    rw [List.length_map] at hlen
    exact ⟨⟨hstat, (openCreat_iff hstat).mp (hopen.symm.trans (hagrees.open_.trans hfile))⟩, hlen⟩
  · intro hplain
    obtain ⟨⟨hstat, hbacked⟩, hlen⟩ := hplain
    refine ⟨some cr.object, ⟨?_, ?_, hrename, ?_, ?_, ?_, ?_⟩⟩
    · rw [hgetattr, if_pos hstat]
    · rw [hopen, hfile]
      exact (openCreat_iff hstat).mpr hbacked
    · unfold State.unlinkTarget
      rw [h, hfile]
    · unfold State.rmdirTarget
      rw [hno, hnofolder, Option.filter_some, object_isFolder]
      rfl
    · unfold State.xattrObject
      rw [hno, h]
      show (if 0 < cr.id then some (Object.file cr.id) else if cr.id = 0 then some (Object.static cr.taskid) else
        (s.db.taskRow (-cr.id)).map fun task =>
          if task.type = .creat then Object.file cr.id else Object.file task.fileid) = _
      unfold Record.object
      by_cases hpos : 0 < cr.id
      · rw [if_pos hpos, if_neg hpos.ne', Option.map_some, attributed_remote hpos.le]
      by_cases hzero : cr.id = 0
      · rw [if_neg hpos, if_pos hzero, if_pos hzero]
        rfl
      · have hneg : cr.id < 0 := by omega
        obtain ⟨task, htask, _⟩ := hbacked hneg
        rw [if_neg hpos, if_neg hzero, if_neg hzero, Option.map_some, htask, Option.map_some]
        unfold State.attributed
        simp only [if_pos hneg, htask]
    · rw [hlisted, eq_singleton hlen (mem_shownCreats h hstat)]
      rfl

theorem agrees_nothing (hdb : s.db.WellFormed) (hno : s.mkdirNamed folderid name = none)
    (hnofolder : s.folderRow folderid name = none) (hnofile : s.fileRow folderid name = none)
    (h : s.creatNamed folderid name = none) : s.Agrees files folderid name none where
  getattr := by
    unfold State.getattr
    rw [hno, hnofolder, hnofile, h]
  open_ := by
    unfold State.open
    rw [h, hnofile]
    exact ite_self _
  rename := by
    unfold State.renameSource
    rw [hno, h, hnofolder, hnofile]
    rfl
  unlink := unlinkTarget_none.mpr ⟨h, hnofile⟩
  rmdir := by
    unfold State.rmdirTarget
    rw [hno, hnofolder]
    rfl
  xattr := by
    unfold State.xattrObject
    rw [hno, h, hnofolder, hnofile]
    exact ite_self _
  readdir := by
    rw [listed_eq hdb, hno, hnofolder, hnofile, shownMkdirs_nil hno, shownCreats_nil h]
    rfl

theorem agrees_iff (hdb : s.db.WellFormed) :
    (∃ found, s.Agrees files folderid name found) ↔ s.Plain files folderid name := by
  unfold State.Plain
  cases hmkdir : s.mkdirNamed folderid name with
  | some mkdir => exact agrees_mkdir hdb hmkdir
  | none =>
    cases hfolder : s.folderRow folderid name with
    | some row => exact agrees_folderRow hdb hmkdir hfolder
    | none =>
      cases hfile : s.fileRow folderid name with
      | some row => exact agrees_fileRow hdb hmkdir hfolder hfile
      | none =>
        cases hcreat : s.creatNamed folderid name with
        | some cr =>
          rw [agrees_creat hdb hmkdir hfolder hfile hcreat]
          exact ⟨fun h found hsome => Option.some.inj hsome ▸ h, fun h => h cr rfl⟩
        | none => exact ⟨fun _ _ => nofun, fun _ => ⟨none, agrees_nothing hdb hmkdir hfolder hfile hcreat⟩⟩

/-! ### Paths -/

/-- A path that resolves is the one of the listing. -/
theorem folderidByPath_of_resolvePath {parents : List Name} (h : s.resolvePath parents = some folderid) :
    s.folderidByPath parents = some folderid := by
  unfold State.resolvePath State.folderidByPath at *
  generalize (0 : ℤ) = top at h ⊢
  induction parents generalizing top with
  | nil => exact h
  | cons component parents ih =>
    rw [List.foldlM_cons] at h ⊢
    obtain ⟨next, hstep, hrest⟩ := Option.bind_eq_some_iff.mp h
    have hsame : s.byPathStep top component = some next := by
      unfold State.resolveStep at hstep
      unfold State.byPathStep
      cases hmkdir : s.mkdirNamed top component with
      | none =>
        rw [hmkdir] at hstep
        exact hstep
      | some mkdir =>
        simp only [hmkdir] at hstep ⊢
        split_ifs at hstep
        exact hstep
    rw [hsame]
    exact ih next hrest

/-- Nothing of a name is listed. -/
def State.Bare (s : State) (files : Files) (folderid : ℤ) (name : Name) : Prop :=
  s.shownMkdirs folderid name = [] ∧ s.shownCreats files folderid name = [] ∧ s.fileRow folderid name = none ∧
    ((s.mkdirNamed folderid name).isSome ∨ s.folderRow folderid name = none)

theorem listed_nil_iff (hdb : s.db.WellFormed) :
    s.listed files folderid name = [] ↔ s.Bare files folderid name := by
  rw [listed_eq hdb]
  unfold State.Bare
  simp only [List.append_eq_nil_iff, List.map_eq_nil_iff, Option.toList_eq_nil_iff]
  cases hmkdir : s.mkdirNamed folderid name with
  | none =>
    simp only [Option.isSome_none, Bool.false_eq_true, if_false, List.map_eq_nil_iff, Option.toList_eq_nil_iff, false_or]
    tauto
  | some mkdir =>
    simp only [Option.isSome_some, if_true, true_or]
    tauto

/-- In every state all look-ups of a path agree exactly where its name is plain, or, behind an
invisible folder, where nothing of the name is listed. -/
theorem pathAgrees_iff (s : State) (files : Files) (parents : List Name) (name : Name) (hdb : s.db.WellFormed) :
    s.PathAgrees files parents name ↔
      match s.resolvePath parents with
      | some folderid => s.Plain files folderid name
      | none => ∀ folderid, s.folderidByPath parents = some folderid → s.Bare files folderid name := by
  unfold State.PathAgrees
  cases hpath : s.resolvePath parents with
  | some folderid =>
    refine Iff.trans ?_ (agrees_iff hdb)
    exact and_iff_right (folderidByPath_of_resolvePath hpath)
  | none => exact forall_congr' fun folderid => imp_congr_right fun _ => listed_nil_iff hdb

/-- No file of the cache and no row of `filerevision`. -/
def noFiles : Files := ⟨fun _ => false, fun _ _ => false, -9223372036854775808⟩

/-- A folder that is made in the root. -/
theorem new_folder_agrees : State.PathAgrees (FstaskCall.run {} (.mkdir 0 [97] 0 0 (.ok []) true)).1 noFiles [] [97] := by
  refine (pathAgrees_iff _ noFiles [] [97] ⟨?_, ?_, ?_, ?_⟩).mpr ?_
  · exact List.nodup_nil
  · exact List.forall_mem_nil _
  · exact List.forall_mem_nil _
  · exact List.forall_mem_nil _
  · show _ ∧ _ ∧ _ ∧ _
    decide

/-- When a new folder is renamed to the name of another one, the name is listed twice. -/
theorem renamed_folder_listed_twice : ¬∀ (calls : List FstaskCall) (files : Files) (parents : List Name) (name : Name),
    State.PathAgrees (calls.foldl (fun s call => (call.run s).1) {}) files parents name := by
  intro h
  let calls : List FstaskCall := [.mkdir 0 [97] 0 0 (.ok []) true, .mkdir 0 [98] 0 0 (.ok []) true,
    .renameFolder (-1) 0 [97] 0 [98] 0 true]
  obtain ⟨_, found, hagrees⟩ : _ ∧ ∃ found, State.Agrees _ noFiles 0 [98] found := h calls noFiles [] [98]
  have htwice : (State.listed (calls.foldl (fun s call => (call.run s).1) {}) noFiles 0 [98]).length = 2 := by decide
  have hlisted := congrArg List.length hagrees.readdir
  cases found with
  | none => exact absurd (htwice.symm.trans hlisted) (by decide)
  | some o => exact absurd (htwice.symm.trans hlisted) (by simp)

end Pclsync.Tasks
