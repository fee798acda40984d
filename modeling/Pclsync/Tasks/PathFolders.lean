import Pclsync.Lib.Narrowing
import Pclsync.Tasks.Calls
import Mathlib.Data.Nat.Bitwise

/-! Paths, from `pfsfolder.c`: which folder a path is in, with its flags, its share and what is
permitted in it.

Each folder on the way is a pending one, a row below a record of the overlay, or a row of a
folder that the overlay has no record of. -/
namespace Pclsync.Tasks.Paths
open Lib.Narrowing

/-- A row of `folder`. -/
structure FolderRow where
  parentfolderid : ℤ
  name : Name
  id : ℤ
  permissions : ℕ
  flags : ℕ
  userid : ℕ
deriving DecidableEq, Repr

/-- A row of `sharedfolder`. -/
structure SharedRow where
  id : ℕ
  userid : ℕ
  folderid : ℤ
deriving DecidableEq, Repr

/-- The tables, the user, and the keys. -/
structure Env where
  folder : List FolderRow
  sharedfolder : List SharedRow
  /-- `psync_my_userid`. -/
  userid : ℕ
  /-- `psync_cloud_crypto_encode_filename` with the encoder of a folder, or why there is none. -/
  encode : ℤ → Name → Except ℤ Name
  /-- `psync_fake_prefix`. -/
  fakePrefix : Name

/-- `psync_fstask_get_folder_tasks_rdlocked`. -/
abbrev Folders := ℤ → Option Folder

/-- `psync_fspath_t`. -/
structure Fspath where
  folderid : ℤ
  name : Name
  permissions : ℕ
  flags : ℕ
  shareid : ℕ
deriving DecidableEq, Repr

/-- The variables of the walk. -/
structure Walk where
  cfolderid : ℤ
  permissions : ℕ
  flags : ℕ
  shareid : ℕ
deriving DecidableEq, Repr

section
variable (env : Env) (o : Folders)

/-- `check_userid`. -/
def checkUserid (userid : ℕ) (folderid : ℤ) (shareid : ℕ) : ℕ :=
  if userid = env.userid ∨ shareid ≠ 0 then shareid
  else ((env.sharedfolder.find? fun row => row.userid = userid ∧ row.folderid = folderid).map SharedRow.id).getD shareid

/-- The name that a folder has in the tables, from `get_encname_for_folder`. An error is `cryptoerr`. -/
def encname (cfolderid : ℤ) (flags : ℕ) (name : Name) : Except ℤ Name :=
  if flags &&& flagEncrypted ≠ 0 then env.encode cfolderid name else .ok name

/-- The name that `ret_folder_data` gives back. -/
def retName (folderid : ℤ) (flags : ℕ) (name : Name) : Except ℤ Name :=
  if flags &&& flagEncrypted ≠ 0 ∧ ¬env.fakePrefix <+: name then env.encode folderid name else .ok name

/-- `ret_folder_data`. -/
def retFolderData (w : Walk) (name : Name) : Except ℤ Fspath := do
  let name ← retName env w.cfolderid w.flags name
  .ok ⟨w.cfolderid, name, w.permissions, w.flags, w.shareid⟩

/-- `SELECT ... FROM folder WHERE parentfolderid=? AND name=?`. -/
def folderNamed (cfolderid : ℤ) (name : Name) : Option FolderRow :=
  env.folder.find? fun row => row.parentfolderid = cfolderid ∧ row.name = name

/-- A round of the loop of `psync_fsfolder_resolve_path`. -/
def resolveStep (w : Walk) (name : Name) : Except ℤ Walk := do
  let ename ← encname env w.cfolderid w.flags name
  let row := folderNamed env w.cfolderid ename
  match o w.cfolderid with
  | some folder =>
    match searchTree folder.mkdirs ename 0 with
    | some mk => if mk.flags &&& flagInvisible ≠ 0 then .error 0 else .ok { w with cfolderid := mk.id, flags := mk.flags }
    | none =>
      match row with
      | some row =>
        if (searchTree folder.rmdirs ename 0).isNone then
          .ok ⟨row.id, w.permissions &&& row.permissions, row.flags, checkUserid env row.userid row.id w.shareid⟩
        else .error 0
      | none => .error 0
  | none =>
    match row with
    | some row => .ok ⟨row.id, row.permissions, row.flags, checkUserid env row.userid row.id w.shareid⟩
    | none => .error 0

/-- A round of the loop of `psync_fsfolderid_by_path`. -/
def byPathStep (cfolderid : ℤ) (flags : ℕ) (name : Name) : Except ℤ (ℤ × ℕ) := do
  let ename ← encname env cfolderid flags name
  let row := folderNamed env cfolderid ename
  match o cfolderid with
  | some folder =>
    match searchTree folder.mkdirs ename 0 with
    | some mk => .ok (mk.id, mk.flags)
    | none =>
      match row with
      | some row => if (searchTree folder.rmdirs ename 0).isNone then .ok (row.id, row.flags) else .error 0
      | none => .error 0
  | none =>
    match row with
    | some row => .ok (row.id, row.flags)
    | none => .error 0

end

/-- `/`. -/
def slash : UInt8 := 47

/-- The next name of a path and what is behind it, or `none` if there are only slashes. -/
def nextName (path : Name) : Option (Name × Name) :=
  match path.dropWhile (· = slash) with
  | [] => none
  | c :: cs => some (c :: cs.takeWhile (· ≠ slash), cs.dropWhile (· ≠ slash))

theorem nextName_lt {path name rest : Name} (h : nextName path = some (name, rest)) : rest.length < path.length := by
  unfold nextName at h
  have hdrop := (List.dropWhile_sublist (fun x => decide (x = slash)) (l := path)).length_le
  split at h
  · cases h
  next c cs heq =>
    cases h
    have hrest := (List.dropWhile_sublist (fun x => decide (x ≠ slash)) (l := cs)).length_le
    rw [heq, List.length_cons] at hdrop
    omega

section
variable (env : Env) (o : Folders)

/-- The loop of `psync_fsfolder_resolve_path`. -/
def resolveFrom (path : Name) (w : Walk) : Except ℤ Fspath :=
  match _h : nextName path with
  | none => .error 0
  | some (name, []) => retFolderData env w name
  | some (name, c :: rest) => do
    let w ← resolveStep env o w name
    resolveFrom (c :: rest) w
termination_by path.length
decreasing_by exact nextName_lt _h

/-- `psync_fsfolder_resolve_path`. An error is `NULL`, with `cryptoerr`. -/
def resolvePath (path : Name) : Except ℤ Fspath :=
  if path.head? = some slash then resolveFrom env o path ⟨0, permAll, 0, 0⟩ else .error 0

/-- The loop of `psync_fsfolderid_by_path`. -/
def byPathFrom (path : Name) (cfolderid : ℤ) (flags : ℕ) : Except ℤ (ℤ × ℕ) :=
  match _h : nextName path with
  | none => .ok (cfolderid, flags)
  | some (name, rest) => do
    let (cfolderid, flags) ← byPathStep env o cfolderid flags name
    byPathFrom rest cfolderid flags
termination_by path.length
decreasing_by exact nextName_lt _h

/-- `psync_fsfolderid_by_path`, with `*pflags`. An error is `PSYNC_INVALID_FSFOLDERID`. -/
def folderidByPath (path : Name) : Except ℤ (ℤ × ℕ) :=
  if path.head? = some slash then byPathFrom env o path 0 0 else .error 0

end

/-! ### The folders on the way -/

/-- A folder that is visible: a pending one, or a row. -/
inductive Found where
  | pending (id : ℤ) (flags : ℕ)
  | stored (row : FolderRow)
deriving DecidableEq, Repr

def Found.id : Found → ℤ
  | pending id _ => id
  | stored row => row.id

def Found.flags : Found → ℕ
  | pending _ flags => flags
  | stored row => row.flags

/-- What a folder permits. A pending one permits what the folder that it is in does. -/
def Found.permissions : Found → Option ℕ
  | pending _ _ => none
  | stored row => some row.permissions

/-- A folder on the way, and whether the overlay has a record of the one that it is in. -/
structure Stage where
  found : Found
  recorded : Bool
deriving DecidableEq, Repr

section
variable (env : Env) (o : Folders)

/-- The folder that is visible in a folder under a name. -/
def visible (cfolderid : ℤ) (ename : Name) : Option Stage :=
  match o cfolderid with
  | some folder =>
    match searchTree folder.mkdirs ename 0 with
    | some mk => if mk.flags &&& flagInvisible ≠ 0 then none else some ⟨.pending mk.id mk.flags, true⟩
    | none => if (searchTree folder.rmdirs ename 0).isNone then (folderNamed env cfolderid ename).map fun row => ⟨.stored row, true⟩ else none
  | none => (folderNamed env cfolderid ename).map fun row => ⟨.stored row, false⟩

/-- The visible folders that a path passes through, and the name behind them. -/
def stagesFrom (path : Name) (cfolderid : ℤ) (flags : ℕ) : Except ℤ (List Stage × Name) :=
  match _h : nextName path with
  | none => .error 0
  | some (name, []) => .ok ([], name)
  | some (name, c :: rest) => do
    let ename ← encname env cfolderid flags name
    match visible env o cfolderid ename with
    | none => .error 0
    | some stage =>
      let (stages, last) ← stagesFrom (c :: rest) stage.found.id stage.found.flags
      .ok (stage :: stages, last)
termination_by path.length
decreasing_by exact nextName_lt _h

def stages (path : Name) : Except ℤ (List Stage × Name) := if path.head? = some slash then stagesFrom env o path 0 0 else .error 0

/-- The visible folders along the path. -/
def folders (path : Name) : Except ℤ (List Found × Name) := (stages env o path).map fun (stages, last) => (stages.map Stage.found, last)

end

/-- What all the folders permit. -/
def intersection (found : List Found) : ℕ := narrow (· &&& ·) id permAll (found.filterMap Found.permissions)

/-- The path up to its last slash. -/
def directory : Name → Name
  | [] => []
  | c :: path => if slash ∈ c :: path then c :: directory path else []

end Pclsync.Tasks.Paths
