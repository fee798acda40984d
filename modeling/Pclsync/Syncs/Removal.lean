import Mathlib.Data.Finset.Basic
import Pclsync.Syncs.Rows

/-! `psync_delete_sync` and `psync_change_synctype` of `psynclib.c`, with the list of `psyncer.c` of
folders to download. The list is a search tree without counts, here the set of its ids. -/
namespace Pclsync.Syncs.Removal

/-- The database always has its keys. -/
structure Db where
  tables : Tables
  valid : tables.Valid

def Db.delete (db : Db) (d : Doomed) : Db := ⟨db.tables.delete d, db.valid.delete⟩

/-- `saved` is what the database goes back to while a transaction is open, `lock` how often
`psync_db_lock` is taken, and `downloadlist` is `synced_down_folders`. -/
structure State where
  db : Db
  saved : Option Db
  lock : ℕ
  downloadlist : Finset ℕ

/-! ## The download list -/

/-- `psync_add_folder_to_downloadlist`. -/
def State.addFolderToDownloadlist (st : State) (folderid : ℕ) : State :=
  { st with downloadlist := insert folderid st.downloadlist }

/-- `psync_del_folder_from_downloadlist`. -/
def State.delFolderFromDownloadlist (st : State) (folderid : ℕ) : State :=
  { st with downloadlist := st.downloadlist.erase folderid }

/-- `psync_is_folder_in_downloadlist`. -/
def State.isFolderInDownloadlist (st : State) (folderid : ℕ) : Bool := folderid ∈ st.downloadlist

/-! ## Transactions -/

/-- `psync_sql_start_transaction`. -/
def State.startTransaction (st : State) : State :=
  match st.saved with
  | none => { st with saved := some st.db, lock := st.lock + 1 }
  | some _ => st

/-- `psync_sql_rollback_transaction`. -/
def State.rollback (st : State) : State :=
  { st with db := st.saved.getD st.db, saved := none, lock := st.lock - 1 }

/-- `psync_sql_commit_transaction`: one that fails leaves the transaction open. -/
def State.commit (st : State) (fails : Bool) : State :=
  { st with saved := if fails then st.saved else none, lock := st.lock - 1 }

/-! ## The answers -/

/-- `psync_error`. -/
inductive Perror where
  | invalidSynctype
  | invalidSyncid
  | localFolderNotFound
  | localFolderAccDenied
  | databaseError
  | remoteFolderNotFound
  | remoteFolderAccDenied
deriving DecidableEq, Repr

/-- 0, or -1 with what `psync_error` is set to. -/
inductive Answer where
  | success
  | failure (error : Option Perror)
deriving DecidableEq, Repr

/-- `commitFailed` is that a commit was tried, and failed. -/
structure Outcome where
  state : State
  answer : Answer
  commitFailed : Bool

/-- What the calls of the system and of SQLite give. `modeOk` is `psync_stat_mode_ok` and
`queryFails` that the query for the permissions can not be prepared. -/
structure Env where
  isFolder : Path → Bool
  modeOk : Path → ℕ → Bool
  queryFails : Bool
  commitFails : Bool

def downloadOnly : ℕ := 1
def uploadOnly : ℕ := 2
def synctypeMin : ℕ := 1
def synctypeMax : ℕ := 3
def permRead : ℕ := 1
def permWrite : ℕ := 14
def permAll : ℕ := 15

/-! ## `psync_change_synctype` -/

/-- The permissions of the remote folder. -/
def remotePermissions (env : Env) (t : Tables) (folderid : ℕ) : Except Perror ℕ :=
  if folderid = 0 then .ok permAll
  else if env.queryFails then .error .databaseError
  else
    match t.folder.find? (·.id = folderid) with
    | none => .error .remoteFolderNotFound
    | some row => .ok row.permissions

/-- What is looked at before a row of `syncfolder` gets another type. -/
def checks (env : Env) (t : Tables) (row : SyncFolder) (synctype : ℕ) : Except Perror Unit :=
  if env.isFolder row.localpath = false then .error .localFolderNotFound
  else if env.modeOk row.localpath (if synctype &&& downloadOnly ≠ 0 then 7 else 5) = false then
    .error .localFolderAccDenied
  else
    match remotePermissions env t (row.folderid.getD 0) with
    | .error e => .error e
    | .ok perms =>
      if (synctype &&& downloadOnly ≠ 0 ∧ perms &&& permRead ≠ permRead) ∨
          (synctype &&& uploadOnly ≠ 0 ∧ perms &&& permWrite ≠ permWrite) then
        .error .remoteFolderAccDenied
      else .ok ()

/-- The `UPDATE` of the row of `syncfolder`. -/
def Tables.setSynctype (t : Tables) (syncid synctype : ℕ) : Tables :=
  { t with
    syncfolder := t.syncfolder.map fun row => if row.id = syncid then { row with synctype, flags := 0 } else row }

theorem hasSync_setSynctype {t : Tables} {syncid synctype s : ℕ} :
    (t.setSynctype syncid synctype).HasSync s ↔ t.HasSync s := by
  constructor
  · intro h
    obtain ⟨row, hrow, hid⟩ := h
    obtain ⟨old, hold, rfl⟩ := List.mem_map.mp hrow
    refine ⟨old, hold, ?_⟩
    split at hid <;> exact hid
  · intro h
    obtain ⟨row, hrow, hid⟩ := h
    refine ⟨_, List.mem_map.mpr ⟨row, hrow, rfl⟩, ?_⟩
    split <;> exact hid

def Db.setSynctype (db : Db) (syncid synctype : ℕ) : Db where
  tables := db.tables.setSynctype syncid synctype
  valid :=
    { ids := db.valid.ids
      root := db.valid.root
      folderParent := db.valid.folderParent
      folderSync := fun row hrow s hs => hasSync_setSynctype.mpr (db.valid.folderSync row hrow s hs)
      fileParent := db.valid.fileParent
      fileSync := fun row hrow s hs => hasSync_setSynctype.mpr (db.valid.fileSync row hrow s hs)
      syncedSync := fun row hrow => hasSync_setSynctype.mpr (db.valid.syncedSync row hrow) }

/-- The rows of the sync go, and their folders from the list as well, whoever else names them. -/
def State.retype (st : State) (syncid synctype : ℕ) : State :=
  let db := st.db.setSynctype syncid synctype
  let folders := (db.tables.syncedfolder.filter fun row => row.syncid = syncid).map (·.folderid)
  let st := folders.foldl State.delFolderFromDownloadlist st
  let db := db.delete { syncedfolder := fun row => row.syncid = syncid }
  let db := db.delete { localfile := fun row => row.syncid = some syncid }
  let db := db.delete { localfolder := fun row => row.syncid = some syncid }
  { st with db }

/-- `psync_change_synctype`. -/
def State.changeSynctype (env : Env) (syncid synctype : ℕ) (st : State) : Outcome :=
  if synctype < synctypeMin ∨ synctypeMax < synctype then ⟨st, .failure (some .invalidSynctype), false⟩
  else
    let st := st.startTransaction
    match st.db.tables.syncfolder.find? (·.id = syncid) with
    | none => ⟨st.rollback, .failure (some .invalidSyncid), false⟩
    | some row =>
      if row.synctype = synctype then ⟨st.rollback, .success, false⟩
      else
        match checks env st.db.tables row synctype with
        -- The only return without a rollback.
        | .error .databaseError => ⟨st, .failure (some .databaseError), false⟩
        | .error e => ⟨st.rollback, .failure (some e), false⟩
        -- What the commit returns is not looked at.
        | .ok () => ⟨(st.retype syncid synctype).commit env.commitFails, .success, env.commitFails⟩

/-! ## `psync_delete_sync` -/

/-- The ids that `psync_delete_local_recursive` goes down to. -/
def Tables.children (t : Tables) (syncid localfolderid : ℕ) : List ℕ :=
  (t.localfolder.filter fun row =>
    row.localparentfolderid = some localfolderid ∧ row.syncid = some syncid).map (·.id)

/-- The three `DELETE`s for a folder. -/
def Db.deleteLocal (db : Db) (syncid localfolderid : ℕ) : Db :=
  let db := db.delete
    { localfile := fun row => row.localparentfolderid = some localfolderid ∧ row.syncid = some syncid }
  let db := db.delete { syncedfolder := fun row => row.localfolderid = localfolderid ∧ row.syncid = syncid }
  db.delete { localfolder := fun row => row.id = localfolderid ∧ row.syncid = some syncid }

/-- `psync_delete_local_recursive`, `fuel` folders deep at most. -/
def deleteLocalRecursive (syncid : ℕ) : ℕ → ℕ → Db → Option Db
  | 0, _, _ => none
  | fuel + 1, localfolderid, db =>
    ((db.tables.children syncid localfolderid).foldlM
      (fun db id => deleteLocalRecursive syncid fuel id db) db).map (·.deleteLocal syncid localfolderid)

/-- `psync_delete_sync`. A folder can not be deeper than there are folders. -/
def State.deleteSync (env : Env) (syncid : ℕ) (st : State) : Option Outcome :=
  let st := st.startTransaction
  (deleteLocalRecursive syncid (st.db.tables.localfolder.length + 1) 0 st.db).map fun db =>
    let db := db.delete { syncfolder := fun row => row.id = syncid }
    let st := ({ st with db } : State).commit env.commitFails
    ⟨st, if env.commitFails then .failure none else .success, env.commitFails⟩

/-! ## The way down -/

/-- The folders from one up to the root. -/
inductive Descent (t : Tables) : List ℕ → Prop where
  | root : Descent t [0]
  | down {p : ℕ} {path : List ℕ} {row : LocalFolder} (h : Descent t (p :: path)) (hrow : row ∈ t.localfolder)
      (hparent : row.localparentfolderid = some p) : Descent t (row.id :: p :: path)

variable {t : Tables} {path : List ℕ} {s : ℕ}

/-- A folder with a parent that is on the way has its parent right above it. -/
theorem Descent.next (hv : t.Valid) (h : Descent t path) {row : LocalFolder} {k : ℕ} (hrow : row ∈ t.localfolder)
    (hk : row.localparentfolderid = some k) (hmem : row.id ∈ path) : ∃ a b, path = a ++ row.id :: k :: b := by
  induction h with
  | root =>
    have hroot := (hv.root row hrow (List.mem_singleton.mp hmem)).1
    rw [hk] at hroot
    nomatch hroot
  | @down p path row' _ hrow' hparent ih =>
    by_cases heq : row.id = row'.id
    · have hsame : row = row' := List.inj_on_of_nodup_map hv.ids hrow hrow' heq
      subst hsame
      have hpk : p = k := Option.some.inj (hparent.symm.trans hk)
      exact ⟨[], path, by rw [hpk]; rfl⟩
    · obtain ⟨a, b, hpath⟩ := ih ((List.mem_cons.mp hmem).resolve_left heq)
      exact ⟨row'.id :: a, b, by rw [hpath]; rfl⟩

/-- No folder is on the way twice. -/
theorem Descent.nodup (hv : t.Valid) (h : Descent t path) : path.Nodup := by
  induction h with
  | root => exact List.nodup_singleton 0
  | @down p path row hdesc hrow hparent ih =>
    refine List.nodup_cons.mpr ⟨fun hmem => ?_, ih⟩
    obtain ⟨a, b, hpath⟩ := hdesc.next hv hrow hparent hmem
    -- The parent is at the head of the way, and behind the folder.
    cases a with
    | nil =>
      obtain ⟨hp, hrest⟩ := List.cons.inj hpath
      rw [hrest] at ih
      exact (List.nodup_cons.mp ih).1 List.mem_cons_self
    | cons a as =>
      obtain ⟨hp, hrest⟩ := List.cons.inj hpath
      rw [hrest] at ih
      exact (List.nodup_cons.mp ih).1 (List.mem_append_right _ (List.mem_cons_of_mem _ List.mem_cons_self))

theorem Descent.subset (h : Descent t path) : path ⊆ 0 :: t.localfolder.map (·.id) := by
  induction h with
  | root => exact List.cons_subset_cons _ (List.nil_subset _)
  | down _ hrow _ ih => exact List.cons_subset.mpr ⟨List.mem_cons_of_mem _ (List.mem_map_of_mem hrow), ih⟩

theorem Descent.length_le (hv : t.Valid) (h : Descent t path) : path.length ≤ t.localfolder.length + 1 := by
  have hlen := (h.nodup hv).subperm h.subset |>.length_le
  rwa [List.length_cons, List.length_map] at hlen

/-! ## What the functions do to the rows -/

theorem deleteLocal_removes (db : Db) (localfolderid : ℕ) :
    Removes s db.tables (db.deleteLocal s localfolderid).tables := by
  have hfiles : Doomed.Of s
      { localfile := fun row => row.localparentfolderid = some localfolderid ∧ row.syncid = some s } :=
    ⟨fun _ _ => rfl, fun _ _ => rfl, fun _ hne => decide_eq_false fun h => hne h.2, fun _ _ => rfl⟩
  have hsynced : Doomed.Of s
      { syncedfolder := fun row => row.localfolderid = localfolderid ∧ row.syncid = s } :=
    ⟨fun _ _ => rfl, fun _ _ => rfl, fun _ _ => rfl, fun _ hne => decide_eq_false fun h => hne h.2⟩
  have hfolder : Doomed.Of s
      { localfolder := fun row => row.id = localfolderid ∧ row.syncid = some s } :=
    ⟨fun _ _ => rfl, fun _ hne => decide_eq_false fun h => hne h.2, fun _ _ => rfl, fun _ _ => rfl⟩
  exact ((removes_delete hfiles).trans (removes_delete hsynced) (db.delete _).valid).trans
    (removes_delete hfolder) ((db.delete _).delete _).valid

/-- A loop whose every round succeeds, and keeps something. -/
theorem foldlM_some {A B : Type} {f : B → A → Option B} {P : B → Prop} {l : List A}
    (h : ∀ a ∈ l, ∀ b, P b → ∃ b', f b a = some b' ∧ P b') {b : B} (hb : P b) :
    ∃ b', l.foldlM f b = some b' ∧ P b' := by
  induction l generalizing b with
  | nil => exact ⟨b, rfl, hb⟩
  | cons a l ih =>
    obtain ⟨b₁, hf, hP⟩ := h a List.mem_cons_self b hb
    obtain ⟨b', hl, hP'⟩ := ih (fun a ha => h a (List.mem_cons_of_mem _ ha)) hP
    exact ⟨b', by rw [List.foldlM_cons, hf]; exact hl, hP'⟩

/-- The recursion returns, and takes only rows of the sync. -/
theorem deleteLocalRecursive_removes (hv : t.Valid) {fuel localfolderid : ℕ} {db : Db}
    (hdesc : Descent t (localfolderid :: path)) (hsub : db.tables.localfolder ⊆ t.localfolder)
    (hfuel : t.localfolder.length + 1 ≤ fuel + path.length) :
    ∃ db', deleteLocalRecursive s fuel localfolderid db = some db' ∧ Removes s db.tables db'.tables := by
  induction fuel generalizing localfolderid path db with
  | zero =>
    have hlen := hdesc.length_le hv
    rw [List.length_cons] at hlen
    omega
  | succ fuel ih =>
    obtain ⟨db₁, hloop, hremoved⟩ : ∃ db₁, (db.tables.children s localfolderid).foldlM
        (fun db id => deleteLocalRecursive s fuel id db) db = some db₁ ∧ Removes s db.tables db₁.tables := by
      refine foldlM_some (fun id hid db₁ hdb₁ => ?_) .refl
      obtain ⟨row, hrow, rfl⟩ := List.mem_map.mp hid
      obtain ⟨hin, hp⟩ := List.mem_filter.mp hrow
      obtain ⟨db₂, hrec, hdb₂⟩ := ih (.down hdesc (hsub hin) (of_decide_eq_true hp).1)
        (List.Subset.trans hdb₁.localfolder hsub) (by rw [List.length_cons]; omega)
      exact ⟨db₂, hrec, hdb₁.trans hdb₂ db₁.valid⟩
    refine ⟨db₁.deleteLocal s localfolderid, ?_, hremoved.trans (deleteLocal_removes db₁ _) db₁.valid⟩
    rw [deleteLocalRecursive, hloop]
    rfl

end Pclsync.Syncs.Removal
