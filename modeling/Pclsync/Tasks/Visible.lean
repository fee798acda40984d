import Pclsync.Tasks.Calls

/-! What a folder shows: remote rows that no record hides, and the records of what is to be
made. -/
namespace Pclsync.Tasks

inductive Entry where
  | file (id : ℤ)
  | folder (id : ℤ)
deriving DecidableEq, Repr

/-- The rows that `psync_fs_readdir` fills in. -/
def remoteEntries (db : Database) (folderid : ℤ) (folder : Folder) : List (Name × Entry) :=
  if 0 ≤ folderid then
    ((db.folder.filter fun row => row.parentfolderid = folderid ∧ row.name ≠ [] ∧
        ¬(Has folder.rmdirs row.name ∨ Has folder.mkdirs row.name)).map fun row => (row.name, .folder row.id)) ++
      (db.file.filter fun row => row.parentfolderid = folderid ∧ row.name ≠ [] ∧
        ¬Has folder.unlinks row.name).map fun row => (row.name, .file row.id)
  else []

/-- The records that it fills in. -/
def newEntries (folder : Folder) : List (Name × Entry) :=
  ((folder.mkdirs.filter fun r => r.flags &&& flagInvisible = 0).map fun r => (r.name, .folder r.id)) ++
    folder.creats.map fun r => (r.name, .file r.id)

/-- The entries that `psync_fs_readdir` fills in. -/
def State.readdir (s : State) (folderid : ℤ) : List (Name × Entry) :=
  remoteEntries s.db folderid (s.overlay.get folderid) ++ newEntries (s.overlay.get folderid)

/-- What a name stands for in a folder with these records. -/
def lookupIn (db : Database) (folderid : ℤ) (folder : Folder) (name : Name) : Option Entry :=
  ((searchTree folder.mkdirs name 0).map fun r => .folder r.id) <|>
    ((searchTree folder.creats name 0).map fun r => .file r.id) <|>
    ((if Has folder.rmdirs name then none else db.folderNamed folderid name).map fun row => .folder row.id) <|>
    ((if Has folder.unlinks name then none else db.fileNamed folderid name).map fun row => .file row.id)

def State.lookup (s : State) (folderid : ℤ) (name : Name) : Option Entry :=
  lookupIn s.db folderid (s.overlay.get folderid) name

/-- A tree of remote rows: in a folder no two have one name. -/
structure Database.WellFormed (db : Database) : Prop where
  names : ((db.folder ++ db.file).map fun row => (row.parentfolderid, row.name)).Nodup
  named : ∀ row ∈ db.folder ++ db.file, row.name ≠ []
  ids : ∀ row ∈ db.folder ++ db.file, 0 < row.id
  parents : ∀ row ∈ db.folder ++ db.file, 0 ≤ row.parentfolderid

/-- No file of the name shows. -/
structure NoFile (db : Database) (folderid : ℤ) (folder : Folder) (name : Name) : Prop where
  creats : ¬Has folder.creats name
  hidden : (db.fileNamed folderid name).isSome → Has folder.unlinks name

/-- No folder of the name shows. -/
structure NoFolder (db : Database) (folderid : ℤ) (folder : Folder) (name : Name) : Prop where
  mkdirs : ¬Has folder.mkdirs name
  hidden : (db.folderNamed folderid name).isSome → Has folder.rmdirs name

/-- The remote rows of a name do not show. -/
structure Hidden (db : Database) (folderid : ℤ) (folder : Folder) (name : Name) : Prop where
  folders : (db.folderNamed folderid name).isSome → Has folder.rmdirs name
  files : (db.fileNamed folderid name).isSome → Has folder.unlinks name

/-- The records of a folder show no name twice. -/
structure Folder.Valid (db : Database) (folderid : ℤ) (folder : Folder) : Prop where
  mkdirs_nodup : (folder.mkdirs.map Record.name).Nodup
  creats_nodup : (folder.creats.map Record.name).Nodup
  mkdirs : ∀ r ∈ folder.mkdirs, r.id ≠ 0 ∧ r.flags &&& flagInvisible = 0
  creats : ∀ r ∈ folder.creats, r.id ≠ 0
  apart : ∀ name, Has folder.mkdirs name → ¬Has folder.creats name
  hidden : ∀ name, Has folder.mkdirs name ∨ Has folder.creats name → Hidden db folderid folder name

structure State.Valid (s : State) : Prop where
  db : s.db.WellFormed
  folders : ∀ folderid, (s.overlay.get folderid).Valid s.db folderid
  /-- No folder of a task that is still to come has records. -/
  fresh : ∀ folderid, folderid ≤ -(s.db.nextTaskid : ℤ) →
    (s.overlay.get folderid).mkdirs = [] ∧ (s.overlay.get folderid).creats = []

/-- In the folder that a folder goes to, the mkdir of its old name is the one to be
replaced. -/
def State.ReplacesMkdir (s : State) (old new : FsPath) : Prop :=
  old.name = new.name ∨ ¬Has (s.overlay.get new.folderid).mkdirs new.name ∧
    (old.folderid = new.folderid ∨ ¬Has (s.overlay.get new.folderid).mkdirs old.name)

variable {s : State} {db : Database} {folder folder' : Folder} {folderid : ℤ} {name : Name} {row : Row}

/-! ### Rows -/

theorem Database.folderNamed_some (h : db.folderNamed folderid name = some row) :
    row ∈ db.folder ∧ row.parentfolderid = folderid ∧ row.name = name :=
  ⟨List.mem_of_find?_eq_some h, by simpa using List.find?_some h⟩

theorem Database.fileNamed_some (h : db.fileNamed folderid name = some row) :
    row ∈ db.file ∧ row.parentfolderid = folderid ∧ row.name = name :=
  ⟨List.mem_of_find?_eq_some h, by simpa using List.find?_some h⟩

/-- The search for a row finds it. -/
theorem Database.WellFormed.folderNamed (h : db.WellFormed) (hrow : row ∈ db.folder) :
    db.folderNamed row.parentfolderid row.name = some row := by
  have hnodup := (List.nodup_append.mp (List.map_append ▸ h.names)).1
  cases hfound : db.folderNamed row.parentfolderid row.name with
  | none => simpa using List.find?_eq_none.mp hfound row hrow
  | some found =>
    obtain ⟨hmem, hparent, hname⟩ := Database.folderNamed_some hfound
    exact congrArg some (List.inj_on_of_nodup_map hnodup hmem hrow (by rw [hparent, hname]))

theorem Database.WellFormed.fileNamed (h : db.WellFormed) (hrow : row ∈ db.file) :
    db.fileNamed row.parentfolderid row.name = some row := by
  have hnodup := (List.nodup_append.mp (List.map_append ▸ h.names)).2.1
  cases hfound : db.fileNamed row.parentfolderid row.name with
  | none => simpa using List.find?_eq_none.mp hfound row hrow
  | some found =>
    obtain ⟨hmem, hparent, hname⟩ := Database.fileNamed_some hfound
    exact congrArg some (List.inj_on_of_nodup_map hnodup hmem hrow (by rw [hparent, hname]))

theorem Database.WellFormed.fileNamed_none (h : db.WellFormed) (hrow : db.folderNamed folderid name = some row) :
    db.fileNamed folderid name = none := by
  obtain ⟨hmem, hparent, hname⟩ := Database.folderNamed_some hrow
  cases hfound : db.fileNamed folderid name with
  | none => rfl
  | some found =>
    obtain ⟨hmem', hparent', hname'⟩ := Database.fileNamed_some hfound
    have hdisjoint := (List.nodup_append.mp (List.map_append ▸ h.names)).2.2
    refine absurd ?_ (hdisjoint _ (List.mem_map_of_mem hmem) _ (List.mem_map_of_mem hmem'))
    rw [hparent, hname, hparent', hname']

theorem Database.WellFormed.folderNamed_neg (h : db.WellFormed) (hneg : folderid < 0) :
    db.folderNamed folderid name = none := by
  cases hfound : db.folderNamed folderid name with
  | none => rfl
  | some found =>
    obtain ⟨hmem, hparent, -⟩ := Database.folderNamed_some hfound
    have := h.parents found (List.mem_append_left _ hmem)
    omega

theorem Database.WellFormed.fileNamed_neg (h : db.WellFormed) (hneg : folderid < 0) :
    db.fileNamed folderid name = none := by
  cases hfound : db.fileNamed folderid name with
  | none => rfl
  | some found =>
    obtain ⟨hmem, hparent, -⟩ := Database.fileNamed_some hfound
    have := h.parents found (List.mem_append_right _ hmem)
    omega

/-! ### What a name stands for -/

theorem lookupIn_mkdir {r : Record} (h : searchTree folder.mkdirs name 0 = some r) :
    lookupIn db folderid folder name = some (.folder r.id) := by
  rw [lookupIn, h]
  rfl

theorem lookupIn_creat {r : Record} (hmkdir : ¬Has folder.mkdirs name) (h : searchTree folder.creats name 0 = some r) :
    lookupIn db folderid folder name = some (.file r.id) := by
  rw [lookupIn, searchTree_eq_none.mpr hmkdir, h]
  rfl

/-- Where no record is to be made, the rows show. -/
theorem lookupIn_rows (hmkdir : ¬Has folder.mkdirs name) (hcreat : ¬Has folder.creats name) :
    lookupIn db folderid folder name =
      (((if Has folder.rmdirs name then none else db.folderNamed folderid name).map fun row => .folder row.id) <|>
        (if Has folder.unlinks name then none else db.fileNamed folderid name).map fun row => .file row.id) := by
  rw [lookupIn, searchTree_eq_none.mpr hmkdir, searchTree_eq_none.mpr hcreat]
  rfl

/-- A name stands for nothing exactly where neither a folder nor a file of it shows. -/
theorem lookupIn_eq_none : lookupIn db folderid folder name = none ↔
    NoFolder db folderid folder name ∧ NoFile db folderid folder name := by
  constructor
  · intro h
    have hmkdir : ¬Has folder.mkdirs name := by
      intro hhas
      obtain ⟨r, hr⟩ := Option.isSome_iff_exists.mp hhas
      exact nomatch (lookupIn_mkdir hr).symm.trans h
    have hcreat : ¬Has folder.creats name := by
      intro hhas
      obtain ⟨r, hr⟩ := Option.isSome_iff_exists.mp hhas
      exact nomatch (lookupIn_creat hmkdir hr).symm.trans h
    rw [lookupIn_rows hmkdir hcreat, Option.orElse_eq_none] at h
    refine ⟨⟨hmkdir, fun hrow => ?_⟩, ⟨hcreat, fun hrow => ?_⟩⟩
    · by_contra hhas
      obtain ⟨row, hrow⟩ := Option.isSome_iff_exists.mp hrow
      simp [hhas, hrow] at h
    · by_contra hhas
      obtain ⟨row, hrow⟩ := Option.isSome_iff_exists.mp hrow
      simp [hhas, hrow] at h
  · intro ⟨hfolder, hfile⟩
    have hfolderrow : (if Has folder.rmdirs name then none else db.folderNamed folderid name) = none := by
      split_ifs with h
      · rfl
      · exact Option.not_isSome_iff_eq_none.mp fun hrow => h (hfolder.hidden hrow)
    have hfilerow : (if Has folder.unlinks name then none else db.fileNamed folderid name) = none := by
      split_ifs with h
      · rfl
      · exact Option.not_isSome_iff_eq_none.mp fun hrow => h (hfile.hidden hrow)
    rw [lookupIn_rows hfolder.mkdirs hfile.creats, hfolderrow, hfilerow]
    rfl

/-! ### Files and folders of a name -/

theorem isFile_eq_false : s.isFile folderid name = false ↔ NoFile s.db folderid (s.overlay.get folderid) name := by
  simp only [State.isFile]
  split_ifs with hcreat hunlink
  · exact iff_of_false id fun h => h.creats hcreat
  · exact iff_of_true rfl ⟨hcreat, fun _ => hunlink⟩
  · rw [Option.isSome_eq_false_iff, Option.isNone_iff_eq_none]
    refine ⟨fun hrow => ⟨hcreat, fun hsome => ?_⟩, fun h => Option.not_isSome_iff_eq_none.mp fun hsome => hunlink (h.hidden hsome)⟩
    rw [hrow] at hsome
    cases hsome

theorem isFolder_eq_false : s.isFolder folderid name = false ↔ NoFolder s.db folderid (s.overlay.get folderid) name := by
  simp only [State.isFolder]
  split_ifs with hmkdir hrmdir
  · exact iff_of_false id fun h => h.mkdirs hmkdir
  · exact iff_of_true rfl ⟨hmkdir, fun _ => hrmdir⟩
  · rw [Option.isSome_eq_false_iff, Option.isNone_iff_eq_none]
    refine ⟨fun hrow => ⟨hmkdir, fun hsome => ?_⟩, fun h => Option.not_isSome_iff_eq_none.mp fun hsome => hrmdir (h.hidden hsome)⟩
    rw [hrow] at hsome
    cases hsome

/-- Where a folder shows, no file of its name does. -/
theorem Folder.Valid.noFile (h : folder.Valid db folderid) (hdb : db.WellFormed)
    (hfolder : ¬NoFolder db folderid folder name) : NoFile db folderid folder name := by
  by_cases hmkdir : Has folder.mkdirs name
  · exact ⟨h.apart name hmkdir, (h.hidden name (.inl hmkdir)).files⟩
  · have hrow : (db.folderNamed folderid name).isSome ∧ ¬Has folder.rmdirs name := by
      by_contra hhidden
      exact hfolder ⟨hmkdir, fun hsome => by_contra fun hhas => hhidden ⟨hsome, hhas⟩⟩
    obtain ⟨row, hsome⟩ := Option.isSome_iff_exists.mp hrow.1
    refine ⟨fun hcreat => hrow.2 ((h.hidden name (.inr hcreat)).folders hrow.1), fun hfile => ?_⟩
    rw [hdb.fileNamed_none hsome] at hfile
    cases hfile

/-- A name stands for a folder exactly where one shows. -/
theorem lookupIn_folder_iff : (∃ id, lookupIn db folderid folder name = some (.folder id)) ↔
    Has folder.mkdirs name ∨
      ¬Has folder.creats name ∧ ¬Has folder.rmdirs name ∧ (db.folderNamed folderid name).isSome := by
  by_cases hmkdir : Has folder.mkdirs name
  · obtain ⟨r, hr⟩ := Option.isSome_iff_exists.mp hmkdir
    exact iff_of_true ⟨r.id, lookupIn_mkdir hr⟩ (.inl hmkdir)
  by_cases hcreat : Has folder.creats name
  · obtain ⟨r, hr⟩ := Option.isSome_iff_exists.mp hcreat
    simp [lookupIn_creat hmkdir hr, hmkdir, hcreat]
  rw [lookupIn_rows hmkdir hcreat]
  by_cases hrmdir : Has folder.rmdirs name
  · simp [hmkdir, hrmdir]
  · cases hrow : db.folderNamed folderid name with
    | none => simp [hmkdir, hrmdir]
    | some row => simp [hcreat, hrmdir]

theorem Folder.Valid.lookupIn_folder (h : folder.Valid db folderid) (hdb : db.WellFormed) :
    (∃ id, lookupIn db folderid folder name = some (.folder id)) ↔ ¬NoFolder db folderid folder name := by
  rw [lookupIn_folder_iff]
  constructor
  · rintro (hmkdir | ⟨-, hrmdir, hrow⟩) hno
    · exact hno.mkdirs hmkdir
    · exact hrmdir (hno.hidden hrow)
  · intro hfolder
    by_cases hmkdir : Has folder.mkdirs name
    · exact .inl hmkdir
    · have hrow : (db.folderNamed folderid name).isSome ∧ ¬Has folder.rmdirs name := by
        by_contra hhidden
        exact hfolder ⟨hmkdir, fun hsome => by_contra fun hhas => hhidden ⟨hsome, hhas⟩⟩
      exact .inr ⟨(h.noFile hdb hfolder).creats, hrow.2, hrow.1⟩

theorem Folder.Valid.lookupIn_file (h : folder.Valid db folderid) (hdb : db.WellFormed) :
    (∃ id, lookupIn db folderid folder name = some (.file id)) ↔ ¬NoFile db folderid folder name := by
  constructor
  · intro ⟨id, hid⟩ hfile
    by_cases hfolder : NoFolder db folderid folder name
    · exact nomatch hid.symm.trans (lookupIn_eq_none.mpr ⟨hfolder, hfile⟩)
    · obtain ⟨id', hid'⟩ := (h.lookupIn_folder hdb).mpr hfolder
      exact nomatch hid.symm.trans hid'
  · intro hfile
    cases hlookup : lookupIn db folderid folder name with
    | none => exact absurd (lookupIn_eq_none.mp hlookup).2 hfile
    | some e =>
      cases e with
      | file id => exact ⟨id, rfl⟩
      | folder id => exact absurd (h.noFile hdb ((h.lookupIn_folder hdb).mp ⟨id, hlookup⟩)) hfile

/-! ### Edits of one name -/

/-- An edit that keeps a folder valid and changes what one name stands for. -/
structure Folder.Becomes (db : Database) (folderid : ℤ) (name : Name) (e : Option Entry) (folder folder' : Folder) :
    Prop where
  valid : folder'.Valid db folderid
  shows : lookupIn db folderid folder' name = e
  others : ∀ other, other ≠ name → lookupIn db folderid folder' other = lookupIn db folderid folder other

variable {e e' : Option Entry} {folder'' : Folder}

theorem Folder.Becomes.trans (h : folder.Becomes db folderid name e folder')
    (h' : folder'.Becomes db folderid name e' folder'') : folder.Becomes db folderid name e' folder'' :=
  ⟨h'.valid, h'.shows, fun other hother => (h'.others other hother).trans (h.others other hother)⟩

/-- An edit of the records of a name leaves the other names. -/
theorem lookupIn_congr (hmkdirs : searchTree folder'.mkdirs name 0 = searchTree folder.mkdirs name 0)
    (hcreats : searchTree folder'.creats name 0 = searchTree folder.creats name 0)
    (hrmdirs : Has folder'.rmdirs name ↔ Has folder.rmdirs name)
    (hunlinks : Has folder'.unlinks name ↔ Has folder.unlinks name) :
    lookupIn db folderid folder' name = lookupIn db folderid folder name := by
  simp only [lookupIn, hmkdirs, hcreats, hrmdirs, hunlinks]

theorem has_deleteFromTree_iff {tree : RecordTree} {other : Name} (hnodup : (tree.map Record.name).Nodup) :
    Has (deleteFromTree tree name 0) other ↔ Has tree other ∧ other ≠ name := by
  by_cases hother : other = name
  · rw [hother]
    simp [has_deleteFromTree hnodup]
  · simp only [Has, searchTree_deleteFromTree_ne (Ne.symm hother), hother, ne_eq, not_false_eq_true, and_true]

/-- A folder is taken away. -/
theorem Folder.Valid.removeFolder (h : folder.Valid db folderid) (r : Record)
    (hfile : NoFile db folderid folder r.name) :
    folder.Becomes db folderid r.name none ((folder.deleteMkdir r.name 0).insertRmdir r) := by
  have hmkdirs : ∀ other, Has (deleteFromTree folder.mkdirs r.name 0) other ↔ Has folder.mkdirs other ∧ other ≠ r.name :=
    fun other => has_deleteFromTree_iff h.mkdirs_nodup
  refine ⟨⟨nodup_deleteFromTree h.mkdirs_nodup, h.creats_nodup, fun x hx => h.mkdirs x (mem_of_mem_deleteFromTree hx),
    h.creats, fun other hother => h.apart other ((hmkdirs other).mp hother).1, fun other hother => ?_⟩, ?_, ?_⟩
  · have hhidden := h.hidden other (hother.imp_left fun hmkdir => ((hmkdirs other).mp hmkdir).1)
    exact ⟨fun hrow => has_insertIntoTree.mpr (.inr (hhidden.folders hrow)), hhidden.files⟩
  · exact lookupIn_eq_none.mpr
      ⟨⟨fun hmkdir => ((hmkdirs _).mp hmkdir).2 rfl, fun _ => has_insertIntoTree.mpr (.inl rfl)⟩, hfile.creats, hfile.hidden⟩
  · intro other hother
    refine lookupIn_congr (searchTree_deleteFromTree_ne (Ne.symm hother)) rfl ?_ Iff.rfl
    exact has_insertIntoTree.trans (or_iff_right (Ne.symm hother))

/-- A file is taken away. -/
theorem Folder.Valid.removeFile (h : folder.Valid db folderid) (r : Record)
    (hfolder : NoFolder db folderid folder r.name) :
    folder.Becomes db folderid r.name none ((folder.deleteCreat r.name 0).insertUnlink r) := by
  have hcreats : ∀ other, Has (deleteFromTree folder.creats r.name 0) other ↔ Has folder.creats other ∧ other ≠ r.name :=
    fun other => has_deleteFromTree_iff h.creats_nodup
  refine ⟨⟨h.mkdirs_nodup, nodup_deleteFromTree h.creats_nodup, h.mkdirs, fun x hx => h.creats x (mem_of_mem_deleteFromTree hx),
    fun other hother hcreat => h.apart other hother ((hcreats other).mp hcreat).1, fun other hother => ?_⟩, ?_, ?_⟩
  · have hhidden := h.hidden other (hother.imp_right fun hcreat => ((hcreats other).mp hcreat).1)
    exact ⟨hhidden.folders, fun hrow => has_insertIntoTree.mpr (.inr (hhidden.files hrow))⟩
  · exact lookupIn_eq_none.mpr
      ⟨⟨hfolder.mkdirs, hfolder.hidden⟩, fun hcreat => ((hcreats _).mp hcreat).2 rfl, fun _ => has_insertIntoTree.mpr (.inl rfl)⟩
  · intro other hother
    refine lookupIn_congr rfl (searchTree_deleteFromTree_ne (Ne.symm hother)) Iff.rfl ?_
    exact has_insertIntoTree.trans (or_iff_right (Ne.symm hother))

/-- A folder is made where nothing shows. -/
theorem Folder.Valid.makeFolder (h : folder.Valid db folderid) (r : Record)
    (hnone : lookupIn db folderid folder r.name = none) (hr : r.id ≠ 0 ∧ r.flags &&& flagInvisible = 0) :
    folder.Becomes db folderid r.name (some (.folder r.id)) (folder.insertMkdir r) := by
  obtain ⟨⟨hmkdir, hrmdir⟩, hcreat, hunlink⟩ := lookupIn_eq_none.mp hnone
  refine ⟨⟨nodup_insertIntoTree h.mkdirs_nodup hmkdir, h.creats_nodup, fun x hx => ?_, h.creats, fun other hother => ?_,
    fun other hother => ?_⟩, ?_, ?_⟩
  · rcases mem_insertIntoTree.mp hx with rfl | hx
    · exact hr
    · exact h.mkdirs x hx
  · rcases has_insertIntoTree.mp hother with rfl | hother
    · exact hcreat
    · exact h.apart other hother
  · rcases or_assoc.mp (hother.imp_left has_insertIntoTree.mp) with rfl | hother
    · exact ⟨hrmdir, hunlink⟩
    · exact ⟨(h.hidden other hother).folders, (h.hidden other hother).files⟩
  · exact lookupIn_mkdir (searchTree_insertIntoTree hmkdir)
  · exact fun other hother => lookupIn_congr (searchTree_insertIntoTree_ne (Ne.symm hother)) rfl Iff.rfl Iff.rfl

/-- A file is made where nothing shows. -/
theorem Folder.Valid.makeFile (h : folder.Valid db folderid) (r : Record)
    (hnone : lookupIn db folderid folder r.name = none) (hr : r.id ≠ 0) :
    folder.Becomes db folderid r.name (some (.file r.id)) (folder.insertCreat r) := by
  obtain ⟨⟨hmkdir, hrmdir⟩, hcreat, hunlink⟩ := lookupIn_eq_none.mp hnone
  refine ⟨⟨h.mkdirs_nodup, nodup_insertIntoTree h.creats_nodup hcreat, h.mkdirs, fun x hx => ?_, fun other hother hhas => ?_,
    fun other hother => ?_⟩, ?_, ?_⟩
  · rcases mem_insertIntoTree.mp hx with rfl | hx
    · exact hr
    · exact h.creats x hx
  · rcases has_insertIntoTree.mp hhas with rfl | hhas
    · exact hmkdir hother
    · exact h.apart other hother hhas
  · rcases or_left_comm.mp (hother.imp_right has_insertIntoTree.mp) with rfl | hother
    · exact ⟨hrmdir, hunlink⟩
    · exact ⟨(h.hidden other hother).folders, (h.hidden other hother).files⟩
  · exact lookupIn_creat hmkdir (searchTree_insertIntoTree hcreat)
  · exact fun other hother => lookupIn_congr rfl (searchTree_insertIntoTree_ne (Ne.symm hother)) Iff.rfl Iff.rfl

end Pclsync.Tasks
