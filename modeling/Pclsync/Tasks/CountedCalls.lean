import Pclsync.Tasks.Calls
import Pclsync.Tasks.Counted

/-! The calls on the counted records of the overlay, from `pfstasks.c`, and those of `pfs.c` that edit records themselves.

What a call reads from the database is given to it, as is how a transaction ends: with the ids of the tasks that it stored, or not
committed. -/
namespace Pclsync.Tasks.Counted
open Lib.Referenced

/-- `psync_openfile_t`. `opened` is that it is in the tree of open files. -/
structure OpenFile where
  fileid : ℤ
  currentfolder : ℕ
  currentname : Name
  refcnt : ℤ := 1
  opened : Bool := true
deriving DecidableEq, Repr

/-- The open files, and the next ids of files that have none. `refresh` is `psync_fs_need_per_folder_refresh_const`. -/
structure Files where
  openfiles : List OpenFile := []
  localTaskid : ℕ := 18446744073709551615
  fakeFileid : ℤ := -9223372036854775808
  refresh : Bool := false
deriving DecidableEq, Repr

abbrev Call (α : Type) := Program FolderTasks Files α

/-- `!folder->taskscnt`. -/
def idle (folder : FolderTasks) : Bool := folder.taskscnt = 0

/-- `psync_fstask_get_or_create_folder_tasks_locked`. -/
def getOrCreateFolderTasks (folderid : ℤ) : Call ℕ := acquireOr (fun folder => folder.folderid = folderid) ⟨folderid, {}, 0⟩

/-- `psync_fstask_get_folder_tasks_locked`. -/
def getFolderTasks (folderid : ℤ) : Call (Option ℕ) := acquire fun folder => folder.folderid = folderid

/-- `psync_fstask_get_ref_locked`. -/
def getRef (folder : ℕ) : Call Unit := retain folder

/-- `psync_fstask_release_folder_tasks_locked`. -/
def releaseFolderTasks (folder : ℕ) : Call Unit := release idle folder

/-- A pointer that is used without a check. -/
def deref (folder : Option ℕ) : Call ℕ := fun s => folder.map (·, s)

/-- `if (folder) psync_fstask_release_folder_tasks_locked(folder);` -/
def releaseIfAny : Option ℕ → Call Unit
  | none => pure ()
  | some folder => releaseFolderTasks folder

/-- What a pointer leads to, if it is not `NULL`. -/
def loadIfAny : Option ℕ → Call (Option FolderTasks)
  | none => pure none
  | some folder => some <$> load folder

/-- An edit of a folder that is made if it is not there. -/
def withNewFolder (folderid : ℤ) (f : FolderTasks → FolderTasks) : Call Unit := do
  let folder ← getOrCreateFolderTasks folderid
  edit folder f
  releaseFolderTasks folder

/-- An edit of a folder that is there, and what it was before. -/
def withFolder (folderid : ℤ) (f : FolderTasks → FolderTasks) : Call (Option FolderTasks) := do
  let folder ← getFolderTasks folderid
  match folder with
  | none => pure none
  | some folder => do
    let before ← load folder
    edit folder f
    releaseFolderTasks folder
    pure (some before)

/-- A look at a folder, as in `get_file_at_old_location`, `psync_fstask_delete_folder_if_ex`, `psync_fs_is_file`, `psync_fs_is_folder` and
`psync_fs_is_folder_nonempty`. -/
def look (folderid : ℤ) : Call (Option FolderTasks) := do
  let folder ← getFolderTasks folderid
  let found ← loadIfAny folder
  releaseIfAny folder
  pure found

/-! ### Folders -/

/-- `psync_fstask_mkdir`. -/
def mkdir (db : Database) (folderid : ℤ) (name : Name) (folderflags : ℕ) (key : Except ℤ Unit) (commit : Option ℕ) : Call ℤ := do
  let folder ← getOrCreateFolderTasks folderid
  let tasks ← load folder
  if 0 ≤ folderid ∧ (db.folderNamed folderid name).isSome ∧ (tasks.find .rmdirs name 0).isNone then do
    releaseFolderTasks folder
    pure (-eexist)
  else match tasks.find .mkdirs name 0 with
    | some task => do
      releaseFolderTasks folder
      pure (if task.flags &&& flagInvisible ≠ 0 then -eacces else -eexist)
    | none =>
      match if folderflags &&& flagEncrypted ≠ 0 then key else .ok () with
      | .error error => do
        releaseFolderTasks folder
        pure (-error)
      | .ok _ =>
        match commit with
        | none => do
          releaseFolderTasks folder
          pure (-eio)
        | some taskid => do
          edit folder fun tasks => (tasks.insert .mkdirs ⟨name, taskid, -taskid, folderflags &&& flagEncrypted⟩).count 1
          releaseFolderTasks folder
          pure 0

/-- The rows of a folder are all hidden, and nothing is being made in it. -/
def looksEmpty (db : Database) (cfolderid : ℤ) (cfolder : Option FolderTasks) : Bool :=
  cfolder.all (fun tasks => tasks.tasks.creats = [] ∧ tasks.tasks.mkdirs = []) ∧
  (0 ≤ cfolderid →
    (∀ row ∈ db.file, row.parentfolderid = cfolderid → (cfolder.bind fun tasks => tasks.find .unlinks row.name 0).isSome) ∧
    ∀ row ∈ db.folder, row.parentfolderid = cfolderid → (cfolder.bind fun tasks => tasks.find .rmdirs row.name 0).isSome)

/-- `psync_fstask_can_rmdir`, once the folder is found. -/
def canRmdirFound (db : Database) (folder : Option ℕ) (cfolderid : ℤ) : Call ℤ := do
  let cfolder ← getFolderTasks cfolderid
  let ctasks ← loadIfAny cfolder
  releaseIfAny cfolder
  releaseIfAny folder
  pure (if looksEmpty db cfolderid ctasks then 0 else -enotempty)

/-- `psync_fstask_can_rmdir`. -/
def canRmdir (db : Database) (folderid : ℤ) (name : Name) : Call ℤ := do
  let folder ← getFolderTasks folderid
  let tasks ← loadIfAny folder
  match tasks.bind fun tasks => tasks.find .mkdirs name 0 with
  | some mk => canRmdirFound db folder mk.id
  | none =>
    match (db.folderNamed folderid name).filter fun _ => (tasks.bind fun tasks => tasks.find .rmdirs name 0).isNone with
    | none => do
      -- there is no check that the folder was found
      releaseFolderTasks (← deref folder)
      pure (-enoent)
    | some row => canRmdirFound db folder row.id

/-- `psync_fstask_rmdir`, once the folder is found and its mkdir deleted. -/
def rmdirFound (db : Database) (folder : ℕ) (name : Name) (cfolderid : ℤ) (commit : Option ℕ) : Call ℤ := do
  let cfolder ← getFolderTasks cfolderid
  let ctasks ← loadIfAny cfolder
  releaseIfAny cfolder
  if looksEmpty db cfolderid ctasks then
    match commit with
    | none => do
      releaseFolderTasks folder
      pure (-eio)
    | some taskid => do
      edit folder fun tasks => (tasks.insert .rmdirs ⟨name, taskid, cfolderid, 0⟩).count 1
      releaseFolderTasks folder
      pure 0
  else do
    releaseFolderTasks folder
    pure (-enotempty)

/-- `psync_fstask_rmdir`. -/
def rmdir (db : Database) (folderid : ℤ) (name : Name) (commit : Option ℕ) : Call ℤ := do
  let folder ← getOrCreateFolderTasks folderid
  let tasks ← load folder
  match tasks.find .mkdirs name 0 with
  | some mk => do
    edit folder fun tasks => tasks.drop .mkdirs name 0
    rmdirFound db folder name mk.id commit
  | none =>
    match (db.folderNamed folderid name).filter fun _ => (tasks.find .rmdirs name 0).isNone with
    | none => do
      releaseFolderTasks folder
      pure (-enoent)
    | some row => rmdirFound db folder name row.id commit

/-- `psync_fstask_rename_folder`. The task ids are those of where it comes from and where it goes to. -/
def renameFolder (folderid parentfolderid : ℤ) (name : Name) (to_folderid : ℤ) (new_name : Name) (targetflags : ℕ) (commit : Option (ℕ × ℕ)) :
    Call ℤ := do
  let _ ← look to_folderid
  let folder ← getOrCreateFolderTasks parentfolderid
  match commit with
  | none => do
    releaseFolderTasks folder
    pure (-eio)
  | some (ftaskid, ttaskid) => do
    edit folder fun tasks => ((tasks.drop .mkdirs name 0).insert .rmdirs ⟨name, ftaskid, folderid, 0⟩).count 1
    releaseFolderTasks folder
    -- the pending mkdir that is looked for there has the old name
    withNewFolder to_folderid fun tasks => (((tasks.drop .mkdirs name 0).insert .rmdirs ⟨new_name, ttaskid, folderid, 0⟩).insert .mkdirs
      ⟨new_name, ttaskid, folderid, targetflags⟩).count 2
    pure 0

/-- `psync_fstask_folder_created`. `sfolderid` is that of the row of the task. -/
def folderCreated (parentfolderid : ℤ) (taskid : ℕ) (folderid : ℤ) (name : Name) (sfolderid : Option ℤ) : Call Unit := do
  let tasks ← withFolder parentfolderid fun tasks => tasks.drop .mkdirs name taskid
  match tasks.bind fun tasks => tasks.find .mkdirs name taskid, sfolderid with
  | none, some sfolderid => do
    let _ ← withFolder sfolderid fun tasks => tasks.setId .mkdirs (-taskid) folderid
  | _, _ => pure ()
  let _ ← withFolder (-taskid) fun tasks => { tasks with folderid := folderid }

/-- `psync_fstask_folder_deleted`. -/
def folderDeleted (parentfolderid : ℤ) (taskid : ℕ) (name : Name) : Call Unit := do
  let _ ← withFolder parentfolderid fun tasks => tasks.drop .rmdirs name taskid

/-- `psync_fstask_folder_renamed`. `from_row` is the row of the task that it comes from: its id, folder and name. -/
def folderRenamed (parentfolderid : ℤ) (taskid : ℕ) (name : Name) (from_row : Option (ℕ × ℤ × Name)) : Call Unit := do
  let _ ← withFolder parentfolderid fun tasks => (tasks.drop .mkdirs name taskid).drop .rmdirs name taskid
  match from_row with
  | none => pure ()
  | some (id, folderid, text1) => do
    let _ ← withFolder folderid fun tasks => tasks.drop .rmdirs text1 id

/-! ### Open files -/

def setOpenfiles (openfiles : List OpenFile) : Call Unit := modify fun s => { s with env := { s.env with openfiles := openfiles } }

/-- The open file at a place of the list changes. -/
def setFile (i : ℕ) (fl : OpenFile) : Call Unit := do
  let s ← get
  setOpenfiles (s.env.openfiles.set i fl)

/-- `psync_fs_rename_openfile_locked`. -/
def renameOpenfileLocked (fileid folderid : ℤ) (name : Name) : Call Unit := do
  let s ← get
  match s.env.openfiles.findIdx? fun fl => fl.opened ∧ fl.fileid = fileid with
  | none => pure ()
  | some i =>
    match s.env.openfiles[i]? with
    | none => pure ()
    | some fl => do
      let current ← load fl.currentfolder
      if current.folderid ≠ folderid then do
        releaseFolderTasks fl.currentfolder
        let folder ← getOrCreateFolderTasks folderid
        setFile i { fl with currentfolder := folder, currentname := name }
      else setFile i { fl with currentname := name }

/-- `psync_fs_create_file`, which takes over a reference to the folder. -/
def createFile (fileid : ℤ) (folder : ℕ) (name : Name) : Call Unit := do
  let s ← get
  match s.env.openfiles.findIdx? fun fl => fl.opened ∧ fl.fileid = fileid with
  | some i =>
    match s.env.openfiles[i]? with
    | none => pure ()
    | some fl => do
      setFile i { fl with refcnt := fl.refcnt + 1 }
      releaseFolderTasks folder
  | none => setOpenfiles (s.env.openfiles ++ [⟨fileid, folder, name, 1, true⟩])

/-- The file of a folder is opened, and the folder released. -/
def openIn (fileid : ℤ) (folder : ℕ) (name : Name) : Call Unit := do
  getRef folder
  createFile fileid folder name
  releaseFolderTasks folder

/-- `psync_fs_free_openfile`. -/
def freeOpenfile (i : ℕ) : Call Unit := do
  let s ← get
  match s.env.openfiles[i]? with
  | none => pure ()
  | some fl =>
    if fl.opened then pure ()
    else do
      if s.env.refresh ∧ fl.fileid < s.env.fakeFileid then edit fl.currentfolder fun tasks => tasks.drop .creats fl.currentname 0
      setOpenfiles (s.env.openfiles.eraseIdx i)
      releaseFolderTasks fl.currentfolder

/-- `psync_fs_dec_of_refcnt`, up to where the file is freed. -/
def decOfRefcnt (i : ℕ) : Call Unit := do
  let s ← get
  match s.env.openfiles[i]? with
  | none => pure ()
  | some fl => setFile i { fl with refcnt := fl.refcnt - 1, opened := fl.opened ∧ fl.refcnt - 1 ≠ 0 }

/-- `psync_fs_inc_of_refcnt_locked`. -/
def incOfRefcnt (i : ℕ) : Call Unit := do
  let s ← get
  match s.env.openfiles[i]? with
  | none => pure ()
  | some fl => setFile i { fl with refcnt := fl.refcnt + 1 }

/-! ### Files -/

/-- The edit of `psync_fstask_add_creat`. -/
def addCreat (name : Name) (taskid : ℕ) (tasks : FolderTasks) : FolderTasks :=
  ((tasks.insert .unlinks ⟨name, taskid, -taskid, 0⟩).insert .creats ⟨name, taskid, -taskid, 0⟩).count 2

/-- The edit of `psync_fstask_add_modified_file`. -/
def addModifiedFile (name : Name) (fileid : ℤ) (commit : Option ℕ) (tasks : FolderTasks) : FolderTasks :=
  let tasks := tasks.drop .creats name 0
  match commit with
  | none => tasks
  | some taskid => ((tasks.insert .unlinks ⟨name, taskid, fileid, 0⟩).insert .creats ⟨name, taskid, -taskid, 0⟩).count 2

/-- `psync_fstask_add_local_creat_static`. -/
def addLocalCreatStatic (db : Database) (folderid : ℤ) (name : Name) : Call ℤ := do
  let folder ← getOrCreateFolderTasks folderid
  let tasks ← load folder
  if (tasks.find .creats name 0).isSome ∨
      0 ≤ folderid ∧ (tasks.find .unlinks name 0).isNone ∧ (db.fileNamed folderid name).isSome then do
    releaseFolderTasks folder
    pure (-1)
  else do
    let s ← get
    let taskid := s.env.localTaskid
    edit folder fun tasks => ((tasks.insert .unlinks ⟨name, taskid, 0, 0⟩).insert .creats ⟨name, taskid, 0, 0⟩).count 2
    modify fun s => { s with env := { s.env with localTaskid := s.env.localTaskid - 1 } }
    releaseFolderTasks folder
    pure 0

/-- `psync_fstask_can_unlink`. -/
def canUnlink (db : Database) (folderid : ℤ) (name : Name) : Call ℤ := do
  let folder ← getFolderTasks folderid
  let tasks ← loadIfAny folder
  if (tasks.bind fun tasks => tasks.find .creats name 0).isSome then do
    releaseIfAny folder
    pure 0
  else if (db.fileNamed folderid name).isNone ∨ (tasks.bind fun tasks => tasks.find .unlinks name 0).isSome then do
    releaseIfAny folder
    pure (-enoent)
  else do
    releaseIfAny folder
    pure 0

/-- `psync_fstask_unlink`, once the file is found and its creat deleted. `history` is the folder of the record that
`get_file_at_old_location` finds in the cache. -/
def unlinkFound (folder : ℕ) (name : Name) (fileid : ℤ) (history : Option ℤ) (commit : Option ℕ) : Call ℤ := do
  match history with
  | none => pure ()
  | some folderid => do
    let _ ← look folderid
  match commit with
  | none => do
    releaseFolderTasks folder
    pure (-eio)
  | some taskid => do
    edit folder fun tasks => (tasks.insert .unlinks ⟨name, taskid, fileid, 0⟩).count 1
    releaseFolderTasks folder
    pure 0

/-- `psync_fstask_unlink`. -/
def unlink (db : Database) (folderid : ℤ) (name : Name) (history : Option ℤ) (commit : Option ℕ) : Call ℤ := do
  let folder ← getOrCreateFolderTasks folderid
  let tasks ← load folder
  match tasks.find .creats name 0 with
  | none =>
    match (db.fileNamed folderid name).filter fun _ => (tasks.find .unlinks name 0).isNone with
    | none => do
      releaseFolderTasks folder
      pure (-enoent)
    | some row => unlinkFound folder name row.id history commit
  | some cr =>
    if cr.id = 0 then do
      edit folder fun tasks => (tasks.drop .unlinks cr.name cr.taskid).drop .creats name 0
      releaseFolderTasks folder
      pure 0
    else do
      edit folder fun tasks => tasks.drop .creats name 0
      unlinkFound folder name cr.id history commit

/-- `psync_fstask_rename_file`. -/
def renameFile (fileid parentfolderid : ℤ) (name : Name) (to_folderid : ℤ) (new_name : Name) (commit : Option (ℕ × ℕ)) : Call ℤ := do
  let folder ← getOrCreateFolderTasks parentfolderid
  match commit with
  | none => do
    releaseFolderTasks folder
    pure (-eio)
  | some (ftaskid, ttaskid) => do
    edit folder fun tasks => tasks.drop .creats name 0
    renameOpenfileLocked fileid to_folderid new_name
    edit folder fun tasks => (tasks.insert .unlinks ⟨name, ftaskid, fileid, 0⟩).count 1
    releaseFolderTasks folder
    withNewFolder to_folderid fun tasks => (((tasks.drop .creats new_name 0).insert .unlinks ⟨new_name, ttaskid, fileid, 0⟩).insert .creats
      ⟨new_name, ttaskid, fileid, 0⟩).count 2
    pure 0

/-- `psync_fstask_look_for_creat_in_db`. -/
def lookForCreatInDb (taskid : ℕ) (fileid : ℤ) (sfolderid : Option ℤ) : Call Unit :=
  match sfolderid with
  | none => pure ()
  | some sfolderid => do
    let _ ← withFolder sfolderid fun tasks => tasks.setId .creats (-taskid) fileid

/-- `psync_fstask_file_created` and `psync_fstask_file_modified`. -/
def fileCreated (parentfolderid : ℤ) (taskid : ℕ) (name : Name) (fileid : ℤ) (sfolderid : Option ℤ) : Call Unit := do
  let tasks ← withFolder parentfolderid fun tasks => (tasks.drop .creats name taskid).drop .unlinks name taskid
  match tasks.bind fun tasks => tasks.find .creats name taskid with
  | none => lookForCreatInDb taskid fileid sfolderid
  | some _ => pure ()

/-- `psync_fstask_file_deleted`. -/
def fileDeleted (parentfolderid : ℤ) (taskid : ℕ) (name : Name) : Call Unit := do
  let _ ← withFolder parentfolderid fun tasks => tasks.drop .unlinks name taskid

/-- `psync_fstask_file_renamed`. -/
def fileRenamed (folderid : ℤ) (taskid : ℕ) (name : Name) (from_row : Option (ℕ × ℤ × Name)) : Call Unit := do
  let _ ← withFolder folderid fun tasks => (tasks.drop .unlinks name taskid).drop .creats name taskid
  match from_row with
  | none => pure ()
  | some (id, folderid, text1) => do
    let _ ← withFolder folderid fun tasks => tasks.drop .unlinks text1 id

/-! ### Start and end -/

/-- The edit of a `psync_init_task_*` function, but for `psync_fs_rename_openfile_locked`. -/
def initEdit (task : Task) (tasks : FolderTasks) : FolderTasks :=
  let record (id : ℤ) (flags : ℕ) : Record := ⟨task.text1, task.id, id, flags⟩
  match task.type with
  | .mkdir => (tasks.insert .mkdirs (record (-task.id) (if task.text2.isNone then 0 else flagEncrypted))).count 1
  | .rmdir => ((tasks.drop .mkdirs task.text1 0).insert .rmdirs (record task.sfolderid 0)).count 1
  | .creat => ((tasks.insert .unlinks (record (-task.id) 0)).insert .creats (record (-task.id) 0)).count 2
  | .unlink => ((tasks.drop .creats task.text1 0).insert .unlinks (record task.fileid 0)).count 1
  | .unSetRev => ((tasks.drop .creats task.text1 0).insert .unlinks (record task.int1 0)).count 1
  | .renfileFrom => ((tasks.drop .creats task.text1 0).insert .unlinks (record task.fileid 0)).count 1
  | .renfileTo => (((tasks.drop .creats task.text1 0).insert .unlinks (record task.fileid 0)).insert .creats (record task.fileid 0)).count 2
  | .renfolderFrom => ((tasks.drop .mkdirs task.text1 0).insert .rmdirs (record task.sfolderid 0)).count 1
  | .renfolderTo => ((tasks.insert .rmdirs (record task.sfolderid 0)).insert .mkdirs (record task.sfolderid task.int2.toNat)).count 2
  | .modify => (((tasks.drop .creats task.text1 0).insert .unlinks (record task.fileid 0)).insert .creats (record (-task.id) 0)).count 2

/-- A row of the tasks at the start, from `psync_fstask_init`. -/
def initTask (task : Task) : Call Unit := do
  withNewFolder task.folderid (initEdit task)
  match task.type with
  | .renfileTo => renameOpenfileLocked task.fileid task.folderid task.text1
  | _ => pure ()

/-- `psync_fstask_clean`. -/
def clean : Call Unit := sweep FolderTasks.clear

/-- `psync_fstask_add_banned_folder`. -/
def addBannedFolder (folderid : ℤ) (name : Name) : Call Unit :=
  withNewFolder folderid fun tasks => ((tasks.insert .mkdirs ⟨name, 0, 0, flagInvisible⟩).insert .rmdirs ⟨name, 0, 0, 0⟩).count 2

/-! ### Edits by `pfs.c` -/

/-- `psync_fs_del_creat`, up to where the file is freed. -/
def delCreat (folderid : ℤ) (name : Name) (i : ℕ) : Call Unit := do
  withNewFolder folderid fun tasks => tasks.drop .creats name 0
  decOfRefcnt i

/-- What `psync_fs_open` reads: whether the file is to be truncated or made if it is not there, the row of a file that was moved, the type
of the task of a file that is being made, whether its keys and its size are there, and the row of the file. -/
structure Opening where
  folderid : ℤ
  name : Name
  trunc : Bool
  creat : Bool
  moved : Bool
  task : Option TaskType
  ready : Bool
  row : Option ℤ
  commit : Option ℕ
deriving DecidableEq, Repr

/-- The id that `psync_fs_open` gives to a file that only the client has. -/
def staticFileid (taskid : ℕ) : ℤ := taskid - 9223372036854775808

/-- The end of `psync_fs_open`: the file is made anew, or it is the one of a row. -/
def openRow (o : Opening) (folder : ℕ) (row : Option ℤ) : Call Unit :=
  if o.trunc ∨ o.creat ∧ row.isNone then
    match o.commit, o.ready with
    | some taskid, true => do
      edit folder (addCreat o.name taskid)
      openIn (-taskid) folder o.name
    | _, _ => releaseFolderTasks folder
  else match row, o.ready with
    | some fileid, true => openIn fileid folder o.name
    | _, _ => releaseFolderTasks folder

/-- `psync_fs_open`, up to where the files are opened. -/
def fsOpen (o : Opening) : Call Unit := do
  let folder ← getOrCreateFolderTasks o.folderid
  let tasks ← load folder
  match tasks.find .creats o.name 0 with
  | some cr =>
    if 0 < cr.id then
      if o.moved then openRow o folder (some cr.id) else releaseFolderTasks folder
    else if cr.id < 0 then
      if (o.task = some .creat ∨ o.task = some .modify) ∧ o.ready then openIn cr.id folder o.name else releaseFolderTasks folder
    else openIn (staticFileid cr.taskid) folder o.name
  | none =>
    openRow o folder (if 0 ≤ o.folderid ∧ (tasks.find .unlinks o.name 0).isNone then o.row else none)

/-- `psync_fs_creat`, up to where the files are opened. -/
def fsCreat (o : Opening) : Call Unit := do
  let folder ← getOrCreateFolderTasks o.folderid
  let tasks ← load folder
  -- `psync_fs_file_exists_in_folder`
  if (tasks.find .creats o.name 0).isSome ∨ 0 ≤ o.folderid ∧ (tasks.find .unlinks o.name 0).isNone ∧ o.row.isSome then do
    releaseFolderTasks folder
    fsOpen o
  else
    match o.commit, o.ready with
    | some taskid, true => do
      edit folder (addCreat o.name taskid)
      openIn (-taskid) folder o.name
    | _, _ => releaseFolderTasks folder

/-- `psync_fs_creat_fake_locked`. -/
def creatFakeLocked (folderid : ℤ) (name : Name) (taskid : ℕ) : Call Unit := do
  let s ← get
  let fileid := s.env.fakeFileid
  modify fun s => { s with env := { s.env with fakeFileid := s.env.fakeFileid + 1 } }
  let folder ← getOrCreateFolderTasks folderid
  -- `psync_fstask_inject_creat`
  edit folder fun tasks => (tasks.insert .creats ⟨name, taskid, fileid, 0⟩).count 1
  openIn fileid folder name

/-- `psync_fs_update_openfile`, and `psync_fs_update_openfile_fileid_locked`. -/
def updateFileid (i : ℕ) (fileid : ℤ) : Call Unit := do
  let s ← get
  match s.env.openfiles[i]? with
  | none => pure ()
  | some fl => setFile i { fl with fileid := fileid }

/-- `psync_fs_reopen_file_for_writing`. `convert` is that all pages of the file are in the cache. -/
def reopenFileForWriting (i : ℕ) (convert : Bool) (commit : Option ℕ) : Call Unit := do
  let s ← get
  match s.env.openfiles[i]? with
  | none => pure ()
  | some fl =>
    if convert then
      match commit with
      | none => pure ()
      | some taskid => do
        edit fl.currentfolder (addCreat fl.currentname taskid)
        updateFileid i (-taskid)
    else do
      edit fl.currentfolder (addModifiedFile fl.currentname fl.fileid commit)
      match commit with
      | none => pure ()
      | some taskid => updateFileid i (-taskid)

/-- `psync_fs_reopen_static_file_for_writing`. -/
def reopenStaticFileForWriting (i : ℕ) (commit : Option ℕ) : Call Unit := do
  let s ← get
  match s.env.openfiles[i]?, commit with
  | some fl, some taskid => do
    let old := (fl.fileid + 9223372036854775808).toNat
    edit fl.currentfolder fun tasks => ((addCreat fl.currentname taskid tasks).drop .creats fl.currentname old).drop .unlinks fl.currentname old
    updateFileid i (-taskid)
  | _, _ => pure ()

/-- The edit of the target in `psync_fs_rename_static_file`. -/
def injectStatic (new_name : Name) (taskid : ℕ) (tasks : FolderTasks) : FolderTasks :=
  let tasks := match tasks.find .creats new_name 0 with
    | some cr => (tasks.drop .unlinks new_name cr.taskid).drop .creats new_name 0
    | none => tasks
  ((tasks.insert .unlinks ⟨new_name, taskid, 0, 0⟩).count 1 |>.insert .creats ⟨new_name, taskid, 0, 0⟩).count 1

/-- `psync_fs_rename`, for a file that only the client has, with `psync_fs_rename_static_file`. -/
def renameStaticFile (folderid : ℤ) (name : Name) (to_folderid : ℤ) (new_name : Name) : Call Unit := do
  let srcfolder ← getFolderTasks folderid
  match srcfolder with
  | none => pure ()
  | some srcfolder => do
    let tasks ← load srcfolder
    match tasks.find .creats name 0 with
    | none => releaseFolderTasks srcfolder
    | some srccr =>
      if srccr.id ≠ 0 then releaseFolderTasks srcfolder
      else do
        let dstfolder ← getOrCreateFolderTasks to_folderid
        -- where the file takes the place of itself, its record is freed before it is read
        let _ ← deref (if dstfolder = srcfolder ∧ new_name = name then none else some dstfolder)
        edit dstfolder (injectStatic new_name srccr.taskid)
        releaseFolderTasks dstfolder
        edit srcfolder fun tasks => (tasks.drop .unlinks name srccr.taskid).drop .creats name 0
        releaseFolderTasks srcfolder

end Pclsync.Tasks.Counted
