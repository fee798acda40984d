import Pclsync.Tasks.CountedRuns

/-! Whether a folder or a file can be deleted, from `pfstasks.c`: what `psync_fstask_can_rmdir` and `psync_fstask_can_unlink` foretell,
and what `psync_fstask_rmdir` and `psync_fstask_unlink` then do. -/
namespace Pclsync.Tasks.Counted
open Lib.Referenced Lib.Transition

/-- What the record of a folder holds, if there is one. -/
def tasksOf (s : State) (folderid : ℤ) : Option FolderTasks :=
  (s.find fun folder => folder.folderid = folderid).bind fun a => (s.cell a).map Cell.data

/-- What `psync_fstask_rmdir` returns about a folder that it found. -/
def rmdirCode (db : Database) (cfolderid : ℤ) (tasks : Option FolderTasks) : ℤ := if looksEmpty db cfolderid tasks then 0 else -enotempty

variable {P : FolderTasks → Prop} {held temp : List ℕ} {s t : State} {db : Database} {folderid cfolderid : ℤ} {name : Name} {a : ℕ} {d : FolderTasks}
  {folder : Option ℕ}

/-- One more reference to a record. -/
def retained (s : State) (a : ℕ) : State := s.update a fun c => { c with refcnt := c.refcnt + 1 }

theorem tasksOf_retained : tasksOf (retained s a) folderid = tasksOf s folderid := by
  rw [tasksOf, tasksOf, retained, Store.find_update (g := fun c => { c with refcnt := c.refcnt + 1 }) fun _ => rfl]
  refine Option.bind_congr fun b _ => ?_
  rw [Store.cell_update, Option.map_map]
  refine Option.map_congr fun c _ => ?_
  dsimp only [Function.comp]
  split_ifs <;> rfl

/-- A look at a folder finds its record, and leaves everything as it was. -/
theorem get_run (h : Valid idle P held s) (folderid : ℤ) : ∃ folder t, getFolderTasks folderid s = some (folder, t) ∧
    loadIfAny folder t = some (tasksOf s folderid, t) ∧ releaseIfAny folder t = some ((), s) ∧ Valid idle P (folder.toList ++ held) t ∧
    (∀ id, tasksOf t id = tasksOf s id) ∧ (folder = none ↔ tasksOf s folderid = none) := by
  unfold tasksOf
  cases hfind : s.find fun folder => folder.folderid = folderid with
  | none =>
    refine ⟨none, s, ?_, rfl, rfl, h, fun _ => rfl, ⟨fun _ => rfl, fun _ => rfl⟩⟩
    rw [getFolderTasks, acquire, hfind]
  | some a =>
    obtain ⟨c, hc, _⟩ := Store.find_some hfind
    have hcell := Store.cell_eq h.nodup hc
    refine ⟨some a, retained s a, ?_, ?_, h.release_update hc, h.update_refcnt hc, fun id => tasksOf_retained,
      ⟨fun hnone => (nomatch hnone), fun hnone => ?_⟩⟩
    · rw [getFolderTasks, acquire, hfind]
      rfl
    · have hload : load a (retained s a) = some (c.data, retained s a) := by
        rw [load, retained, Store.cell_update, hcell, Option.map_some, Option.map_some, if_pos rfl]
      rw [loadIfAny, ← bind_pure_comp, Does.run hload, Option.bind_some, hcell]
      rfl
    · rw [Option.bind_some, hcell] at hnone
      cases hnone

/-! ### What is foretold -/

theorem canRmdirFound_run (h : Valid idle P held t) (hrelease : releaseIfAny folder t = some ((), s)) :
    canRmdirFound db folder cfolderid t = some (rmdirCode db cfolderid (tasksOf t cfolderid), s) := by
  obtain ⟨cfolder, t₁, hget, hload, hback, _⟩ := get_run h cfolderid
  rw [canRmdirFound, Does.run hget, Does.run hload, Does.run hback, Does.run hrelease]
  rfl

/-- What `psync_fstask_can_rmdir` does. -/
theorem canRmdir_run (h : Valid idle P held s) : canRmdir db folderid name s =
    match (tasksOf s folderid).bind fun tasks => tasks.find .mkdirs name 0 with
    | some mk => some (rmdirCode db mk.id (tasksOf s mk.id), s)
    | none =>
      match (db.folderNamed folderid name).filter fun _ => ((tasksOf s folderid).bind fun tasks => tasks.find .rmdirs name 0).isNone with
      | none => (tasksOf s folderid).map fun _ => (-enoent, s)
      | some row => some (rmdirCode db row.id (tasksOf s row.id), s) := by
  obtain ⟨folder, t, hget, hload, hback, hvalid, hsame, hnone⟩ := get_run h folderid
  rw [canRmdir, Does.run hget, Does.run hload]
  cases (tasksOf s folderid).bind fun tasks => tasks.find .mkdirs name 0 with
  | some mk =>
    dsimp only
    rw [canRmdirFound_run hvalid hback, hsame]
  | none =>
    dsimp only
    cases (db.folderNamed folderid name).filter fun _ => ((tasksOf s folderid).bind fun tasks => tasks.find .rmdirs name 0).isNone with
    | some row =>
      dsimp only
      rw [canRmdirFound_run hvalid hback, hsame]
    | none =>
      cases folder with
      | none =>
        rw [hnone.mp rfl]
        rfl
      | some a =>
        have hderef : deref (some a) t = some (a, t) := rfl
        have hrelease : releaseFolderTasks a t = some ((), s) := hback
        obtain ⟨d, hd⟩ := Option.ne_none_iff_exists'.mp fun hno => Option.some_ne_none a (hnone.mpr hno)
        dsimp only
        rw [Does.run hderef, Does.run hrelease, hd]
        rfl

/-- What `psync_fstask_can_unlink` does. -/
theorem canUnlink_run (h : Valid idle P held s) : canUnlink db folderid name s =
    if ((tasksOf s folderid).bind fun tasks => tasks.find .creats name 0).isSome then some (0, s)
    else if (db.fileNamed folderid name).isNone ∨ ((tasksOf s folderid).bind fun tasks => tasks.find .unlinks name 0).isSome then
      some (-enoent, s)
    else some (0, s) := by
  obtain ⟨folder, t, hget, hload, hback, _⟩ := get_run h folderid
  rw [canUnlink, Does.run hget, Does.run hload]
  split_ifs
  · rw [Does.run hback]
    rfl
  · rw [Does.run hback]
    rfl
  · rw [Does.run hback]
    rfl

/-! ### What is then done -/

/-- The record that is found is the first one of the folder. -/
theorem tasksOf_eq (hnodup : (s.cells.map Prod.fst).Nodup) :
    tasksOf s folderid = (s.cells.find? fun e => e.2.data.folderid = folderid).map fun e => e.2.data := by
  rw [tasksOf, Store.find]
  cases hfind : s.cells.find? fun e => e.2.data.folderid = folderid with
  | none => rfl
  | some e =>
    have hcell := Store.cell_eq hnodup (List.mem_of_find?_eq_some hfind)
    rw [Option.map_some, Option.bind_some, hcell]
    rfl

/-- The record of a folder is found or made. -/
theorem getOrCreate_run (h : Valid idle P held s) (hnew : P ⟨folderid, {}, 0⟩) : ∃ a t, getOrCreateFolderTasks folderid s = some (a, t) ∧
    Valid idle P (a :: held) t ∧ t.env = s.env ∧ load a t = some ((tasksOf s folderid).getD ⟨folderid, {}, 0⟩, t) ∧
    (t.find fun folder => folder.folderid = folderid) = some a ∧
    ∀ id, tasksOf t id = if id = folderid then some ((tasksOf s folderid).getD ⟨folderid, {}, 0⟩) else tasksOf s id := by
  obtain ⟨a, t, hget, hvalid, henv, _, _⟩ := Valid.does_acquireOr h hnew (p := fun folder => folder.folderid = folderid) (decide_eq_true rfl)
  have hrun : getOrCreateFolderTasks folderid s = some (a, t) := hget
  refine ⟨a, t, hrun, hvalid, henv, ?_⟩
  unfold getOrCreateFolderTasks acquireOr at hrun
  cases hfind : s.find fun folder => folder.folderid = folderid with
  | some b =>
    rw [hfind] at hrun
    cases hrun
    obtain ⟨c, hc, hid⟩ := Store.find_some hfind
    have hcell := Store.cell_eq h.nodup hc
    have htasks : tasksOf s folderid = some c.data := by
      rw [tasksOf, hfind, Option.bind_some, hcell]
      rfl
    refine ⟨?_, ?_, fun id => ?_⟩
    · rw [htasks, load, Store.cell_update, hcell, Option.map_some, Option.map_some, if_pos rfl]
      rfl
    · exact (Store.find_update (g := fun c => { c with refcnt := c.refcnt + 1 }) fun _ => rfl).trans hfind
    · have hsame : tasksOf (retained s a) id = tasksOf s id := tasksOf_retained
      split_ifs with hfolder
      · rw [hfolder] at hsame ⊢
        exact hsame.trans (by rw [htasks]; rfl)
      · exact hsame
  | none =>
    rw [hfind] at hrun
    cases hrun
    have htasks : tasksOf s folderid = none := by
      rw [tasksOf, hfind]
      rfl
    have hno : s.cells.find? (fun e => e.2.data.folderid = folderid) = none := Option.map_eq_none_iff.mp hfind
    have hcell : (s.fresh, (⟨⟨folderid, {}, 0⟩, 1⟩ : Cell FolderTasks)) ∈ s.cells ++ [(s.fresh, ⟨⟨folderid, {}, 0⟩, 1⟩)] :=
      List.mem_append_right _ (.head _)
    have hlast : ∀ id, [(s.fresh, (⟨⟨folderid, {}, 0⟩, 1⟩ : Cell FolderTasks))].find? (fun e => e.2.data.folderid = id) =
        if id = folderid then some (s.fresh, ⟨⟨folderid, {}, 0⟩, 1⟩) else none := fun id => by
      by_cases hid : id = folderid
      · simp [hid]
      · simp [hid, Ne.symm hid]
    refine ⟨?_, ?_, fun id => ?_⟩
    · rw [htasks, load, Store.cell_eq hvalid.nodup hcell]
      rfl
    · rw [Store.find, List.find?_append, hno, Option.none_or, hlast, if_pos rfl]
      rfl
    · rw [tasksOf_eq hvalid.nodup, List.find?_append, hlast]
      split_ifs with hfolder
      · rw [hfolder, hno, Option.none_or, htasks]
        rfl
      · rw [tasksOf_eq h.nodup, Option.or_none]

/-- The record of a folder is edited. -/
theorem tasksOf_edit {f : FolderTasks → FolderTasks} (h : Valid idle P held s) (hfind : (s.find fun folder => folder.folderid = folderid) = some a)
    (hf : ∀ d, (f d).folderid = d.folderid) : ∃ t, edit a f s = some ((), t) ∧
      ∀ id, tasksOf t id = if id = folderid then (tasksOf s id).map f else tasksOf s id := by
  obtain ⟨c, hc, hfolder⟩ := Store.find_some hfind
  have hcell := Store.cell_eq h.nodup hc
  refine ⟨s.update a fun c => { c with data := f c.data }, by rw [edit, hcell]; rfl, fun id => ?_⟩
  have hnodup : ((s.update a fun c => { c with data := f c.data }).cells.map Prod.fst).Nodup := by
    rw [Store.keys_update]
    exact h.nodup
  have hsame : ((fun e : ℕ × Cell FolderTasks => decide (e.2.data.folderid = id)) ∘
      fun e => if e.1 = a then (e.1, (⟨f e.2.data, e.2.refcnt⟩ : Cell FolderTasks)) else e) = fun e => decide (e.2.data.folderid = id) :=
    funext fun e => by
      dsimp only [Function.comp]
      split_ifs
      · rw [hf]
      · rfl
  rw [tasksOf_eq hnodup, tasksOf_eq h.nodup, Store.update, List.find?_map, hsame]
  cases hfound : s.cells.find? fun e => e.2.data.folderid = id with
  | none => split_ifs <;> rfl
  | some e =>
    have hmatch := List.find?_some hfound
    have hid : e.2.data.folderid = id := of_decide_eq_true hmatch
    rw [Option.map_some, Option.map_some, Option.map_some]
    by_cases hea : e.1 = a
    · -- the record at the address is that of the folder
      have heq : e = (a, c) := List.inj_on_of_nodup_map h.nodup (List.mem_of_find?_eq_some hfound) hc hea
      have hthis : id = folderid := by
        rw [← hid, heq]
        exact of_decide_eq_true hfolder
      rw [if_pos hea, if_pos hthis]
      rfl
    · have hother : id ≠ folderid := fun hthis => hea <| by
        rw [hthis] at hfound
        rw [Store.find, hfound] at hfind
        exact Option.some.inj hfind
      rw [if_neg hea, if_neg hother]

theorem drop_folderid {k : Kind} {taskid : ℕ} : (d.drop k name taskid).folderid = d.folderid := by
  unfold FolderTasks.drop
  split_ifs <;> rfl

theorem looksEmpty_new : looksEmpty db cfolderid (some ⟨folderid, {}, 0⟩) = looksEmpty db cfolderid none := by
  unfold looksEmpty
  have hunlinks : ∀ name, (some (⟨folderid, {}, 0⟩ : FolderTasks)).bind (fun tasks => tasks.find .unlinks name 0) = none := fun _ => rfl
  have hrmdirs : ∀ name, (some (⟨folderid, {}, 0⟩ : FolderTasks)).bind (fun tasks => tasks.find .rmdirs name 0) = none := fun _ => rfl
  simp only [hunlinks, hrmdirs]
  rfl

theorem rmdirFound_code {taskid : ℕ} (h : Holds (Owes False 0) [a] s) :
    Does (rmdirFound db a name cfolderid (some taskid)) s fun code _ => code = rmdirCode db cfolderid (tasksOf s cfolderid) := by
  obtain ⟨cfolder, t, hget, hload, hback, _⟩ := get_run h cfolderid
  unfold Does rmdirCode
  rw [rmdirFound, Does.run hget, Does.run hload, Does.run hback]
  split_ifs
  · exact (h.does_edit (.head _) fun d _ hd => owes_hide hd (.inl rfl)).bind fun _ s₁ ⟨h₁, _⟩ => h₁.release.bind fun _ _ _ => does_pure.mpr rfl
  · exact h.release.bind fun _ _ _ => does_pure.mpr rfl

/-- What `psync_fstask_rmdir` returns, when its transaction is committed. -/
theorem rmdir_code {taskid : ℕ} (h : Good False s) : Does (rmdir db folderid name (some taskid)) s fun code _ => code =
    match (tasksOf s folderid).bind fun tasks => tasks.find .mkdirs name 0 with
    | some mk => rmdirCode db mk.id (if mk.id = folderid then (tasksOf s mk.id).map fun tasks => tasks.drop .mkdirs name 0 else tasksOf s mk.id)
    | none =>
      match (db.folderNamed folderid name).filter fun _ => ((tasksOf s folderid).bind fun tasks => tasks.find .rmdirs name 0).isNone with
      | none => -enoent
      | some row => rmdirCode db row.id (tasksOf s row.id) := by
  have hnew : Owes False 0 ⟨folderid, {}, 0⟩ := owes_new
  obtain ⟨a, t, hget, hvalid, henv, hload, hfind, htasks⟩ := getOrCreate_run h hnew
  have hfound : ∀ k : Kind, ((tasksOf s folderid).getD ⟨folderid, {}, 0⟩).find k name 0 =
      (tasksOf s folderid).bind fun tasks => tasks.find k name 0 := fun k => by
    cases tasksOf s folderid with
    | none => cases k <;> rfl
    | some d => rfl
  have ht : Holds (Owes False 0) [a] t := by
    rw [Holds, henv]
    exact hvalid
  unfold Does
  rw [rmdir, Does.run hget, Does.run hload, hfound, hfound]
  cases hmk : (tasksOf s folderid).bind fun tasks => tasks.find .mkdirs name 0 with
  | some mk =>
    obtain ⟨t', hedit, hedited⟩ := tasksOf_edit hvalid hfind fun d => drop_folderid (k := .mkdirs) (d := d)
    obtain ⟨_, t'', hedit', ht', _⟩ := ht.does_edit (.head _) fun d _ hd => Owes.drop hd
    cases hedit.symm.trans hedit'
    obtain ⟨code, s', hcode, rfl⟩ := rmdirFound_code ht'
    dsimp only
    rw [Does.run hedit]
    refine ⟨_, s', hcode, ?_⟩
    rw [hedited, htasks]
    split_ifs with hself
    · obtain ⟨d, hd, _⟩ := Option.bind_eq_some_iff.mp hmk
      rw [hself, hd]
      rfl
    · rfl
  | none =>
    dsimp only
    cases (db.folderNamed folderid name).filter fun _ => ((tasksOf s folderid).bind fun tasks => tasks.find .rmdirs name 0).isNone with
    | none => exact ht.release.bind fun _ _ _ => does_pure.mpr rfl
    | some row =>
      obtain ⟨code, s', hcode, rfl⟩ := rmdirFound_code ht
      refine ⟨_, s', hcode, ?_⟩
      show rmdirCode db row.id (tasksOf t row.id) = rmdirCode db row.id (tasksOf s row.id)
      rw [htasks]
      split_ifs with hself
      · rw [hself]
        unfold rmdirCode
        cases tasksOf s folderid with
        | some d => rfl
        | none => rw [Option.getD_none, looksEmpty_new]
      · rfl

theorem Holds.unlinked_code {fileid : ℤ} {taskid : ℕ} (h : Holds (Owes False 0) [a] s) : Does (match some taskid with
    | none => do
      releaseFolderTasks a
      pure (-eio)
    | some taskid => do
      edit a fun tasks => (tasks.insert .unlinks ⟨name, taskid, fileid, 0⟩).count 1
      releaseFolderTasks a
      pure 0) s fun code _ => code = 0 :=
  (h.does_edit (.head _) fun d _ hd => owes_hide hd (.inr rfl)).bind fun _ s₁ hs₁ => hs₁.1.release.bind fun _ _ _ => does_pure.mpr rfl

theorem unlinkFound_code {fileid : ℤ} {history : Option ℤ} {taskid : ℕ} (h : Holds (Owes False 0) [a] s) :
    Does (unlinkFound a name fileid history (some taskid)) s fun code _ => code = 0 := by
  unfold unlinkFound
  cases history with
  | none => exact h.unlinked_code
  | some folderid => exact h.look.bind fun _ s₁ hs₁ => hs₁.1.unlinked_code

/-- What `psync_fstask_unlink` returns, when its transaction is committed. -/
theorem unlink_code {history : Option ℤ} {taskid : ℕ} (h : Good False s) : Does (unlink db folderid name history (some taskid)) s fun code _ =>
    code = if ((tasksOf s folderid).bind fun tasks => tasks.find .creats name 0).isSome then 0
      else if (db.fileNamed folderid name).isNone ∨ ((tasksOf s folderid).bind fun tasks => tasks.find .unlinks name 0).isSome then -enoent
      else 0 := by
  have hnew : Owes False 0 ⟨folderid, {}, 0⟩ := owes_new
  obtain ⟨a, t, hget, hvalid, henv, hload, hfind, htasks⟩ := getOrCreate_run h hnew
  have hfound : ∀ k : Kind, ((tasksOf s folderid).getD ⟨folderid, {}, 0⟩).find k name 0 =
      (tasksOf s folderid).bind fun tasks => tasks.find k name 0 := fun k => by
    cases tasksOf s folderid with
    | none => cases k <;> rfl
    | some d => rfl
  have ht : Holds (Owes False 0) [a] t := by
    rw [Holds, henv]
    exact hvalid
  unfold Does
  rw [unlink, Does.run hget, Does.run hload, hfound, hfound]
  cases (tasksOf s folderid).bind fun tasks => tasks.find .creats name 0 with
  | some cr =>
    dsimp only
    split
    · exact (ht.does_edit (.head _) fun d _ hd => Owes.drop (Owes.drop hd)).bind fun _ _ hs₁ => hs₁.1.release.bind fun _ _ _ => does_pure.mpr rfl
    · exact (ht.does_edit (.head _) fun d _ hd => Owes.drop hd).bind fun _ _ hs₁ => unlinkFound_code hs₁.1
  | none =>
    cases db.fileNamed folderid name with
    | none => exact ht.release.bind fun _ _ _ => does_pure.mpr rfl
    | some row =>
      cases (tasksOf s folderid).bind fun tasks => tasks.find .unlinks name 0 with
      | some un => exact ht.release.bind fun _ _ _ => does_pure.mpr rfl
      | none => exact unlinkFound_code ht

/-! ### Both -/

/-- What is foretold is what happens, no pointer that leads nowhere is used, and to foretell it changes nothing. -/
structure Predicts (s : State) (db : Database) (folderid : ℤ) (name : Name) (history : Option ℤ) (taskid : ℕ) : Prop where
  rmdir : ∃ code s', canRmdir db folderid name s = some (code, s) ∧ rmdir db folderid name (some taskid) s = some (code, s')
  unlink : ∃ code s', canUnlink db folderid name s = some (code, s) ∧ unlink db folderid name history (some taskid) s = some (code, s')

/-- The folder that is to be deleted is being made in itself, and is empty but for that. -/
def InItself (s : State) (db : Database) (folderid : ℤ) (name : Name) : Prop :=
  ∃ d mk, tasksOf s folderid = some d ∧ d.find .mkdirs name 0 = some mk ∧ mk.id = folderid ∧ looksEmpty db folderid (some (d.drop .mkdirs name 0))

/-- A record is there, or a row. -/
def Seen (s : State) (db : Database) (folderid : ℤ) (name : Name) : Prop := (tasksOf s folderid).isSome ∨ (db.folderNamed folderid name).isSome

/-- A folder in which another one is being made does not look empty. -/
theorem looksEmpty_of_find {mk : Record} (h : d.find .mkdirs name 0 = some mk) : looksEmpty db cfolderid (some d) = false := by
  have hne : d.tasks.mkdirs ≠ [] := fun hempty => by
    have hmem : mk ∈ d.tasks.mkdirs := List.mem_of_find?_eq_some h
    rw [hempty] at hmem
    cases hmem
  unfold looksEmpty
  exact decide_eq_false fun hempty => hne (of_decide_eq_true hempty.1).2

theorem predicts_of_good {history : Option ℤ} {taskid : ℕ} (h : Good False s) :
    Predicts s db folderid name history taskid ↔ Seen s db folderid name ∧ ¬InItself s db folderid name := by
  obtain ⟨dcode, s₁, hrmdir, hdcode⟩ := @rmdir_code _ db folderid name taskid h
  obtain ⟨ucode, s₂, hunlink, hucode⟩ := @unlink_code _ db folderid name history taskid h
  have hcan := @canRmdir_run _ _ _ db folderid name h
  have hunlinks : ∃ code s', canUnlink db folderid name s = some (code, s) ∧ unlink db folderid name history (some taskid) s = some (code, s') := by
    refine ⟨ucode, s₂, ?_, hunlink⟩
    rw [canUnlink_run h, hucode]
    split_ifs <;> rfl
  have hpredicts : Predicts s db folderid name history taskid ↔ canRmdir db folderid name s = some (dcode, s) := by
    refine ⟨fun hp => ?_, fun hp => ⟨⟨dcode, s₁, hp, hrmdir⟩, hunlinks⟩⟩
    obtain ⟨code, s', hpre, hdone⟩ := hp.rmdir
    cases hrmdir.symm.trans hdone
    exact hpre
  rw [hpredicts, hcan]
  cases hmk : (tasksOf s folderid).bind fun tasks => tasks.find .mkdirs name 0 with
  | some mk =>
    rw [hmk] at hdcode
    obtain ⟨d, hd, hfind⟩ := Option.bind_eq_some_iff.mp hmk
    have hseen : Seen s db folderid name := .inl (by rw [hd]; rfl)
    have hin : InItself s db folderid name ↔ mk.id = folderid ∧ looksEmpty db folderid (some (d.drop .mkdirs name 0)) := by
      refine ⟨fun ⟨d', mk', hd', hfind', hid, hempty⟩ => ?_, fun ⟨hid, hempty⟩ => ⟨d, mk, hd, hfind, hid, hempty⟩⟩
      cases hd.symm.trans hd'
      cases hfind.symm.trans hfind'
      exact ⟨hid, hempty⟩
    have hcodes : (some (rmdirCode db mk.id (tasksOf s mk.id), s) : Option (ℤ × State)) = some (dcode, s) ↔
        rmdirCode db mk.id (tasksOf s mk.id) = dcode :=
      ⟨fun heq => congrArg Prod.fst (Option.some.inj heq), fun heq => by rw [heq]⟩
    dsimp only at hdcode ⊢
    rw [hcodes, hdcode, hin]
    split_ifs with hself
    · rw [hself, hd, rmdirCode, looksEmpty_of_find hfind, Option.map_some, rmdirCode]
      cases looksEmpty db folderid (some (d.drop .mkdirs name 0)) with
      | true => exact ⟨fun heq => absurd heq (by decide), fun hnot => absurd ⟨rfl, rfl⟩ hnot.2⟩
      | false => exact ⟨fun _ => ⟨hseen, fun hnot => Bool.false_ne_true hnot.2⟩, fun _ => rfl⟩
    · exact ⟨fun _ => ⟨hseen, fun hnot => hself hnot.1⟩, fun _ => rfl⟩
  | none =>
    rw [hmk] at hdcode
    have hin : ¬InItself s db folderid name := fun ⟨d, mk, hd, hfind, _⟩ => by
      rw [hd, Option.bind_some, hfind] at hmk
      cases hmk
    dsimp only at hdcode ⊢
    cases hrow : (db.folderNamed folderid name).filter fun _ => ((tasksOf s folderid).bind fun tasks => tasks.find .rmdirs name 0).isNone with
    | some row =>
      rw [hrow] at hdcode
      have hseen : Seen s db folderid name := .inr (by rw [(Option.filter_eq_some_iff.mp hrow).1]; rfl)
      dsimp only at hdcode ⊢
      rw [hdcode]
      exact ⟨fun _ => ⟨hseen, hin⟩, fun _ => rfl⟩
    | none =>
      rw [hrow] at hdcode
      dsimp only at hdcode ⊢
      cases htasks : tasksOf s folderid with
      | some d =>
        rw [hdcode]
        exact ⟨fun _ => ⟨.inl (by rw [htasks]; rfl), hin⟩, fun _ => rfl⟩
      | none =>
        refine ⟨fun heq => (nomatch heq), fun ⟨hseen, _⟩ => ?_⟩
        rw [htasks] at hrow
        cases hnamed : db.folderNamed folderid name with
        | some row =>
          rw [hnamed] at hrow
          cases hrow
        | none => exact hseen.elim (fun h => by rw [htasks] at h; cases h) fun h => by rw [hnamed] at h; cases h

theorem canRmdir_keeps {code : ℤ} (h : Valid idle P held s) (hrun : canRmdir db folderid name s = some (code, t)) : t = s := by
  rw [canRmdir_run h] at hrun
  split at hrun
  · cases hrun
    rfl
  · split at hrun
    · obtain ⟨_, _, heq⟩ := Option.map_eq_some_iff.mp hrun
      cases heq
      rfl
    · cases hrun
      rfl

/-- Every call that ends keeps what all runs keep. -/
theorem good_run {e : Event} (h : Good False s) (hrun : run s e = some t) : Good False t := by
  by_cases hfaults : Faults s e
  · cases e with
    | canRmdir db folderid name =>
      obtain ⟨⟨_, t'⟩, hcall, rfl⟩ := Option.map_eq_some_iff.mp hrun
      obtain ⟨⟨code, t''⟩, hcan, hrest⟩ := Option.bind_eq_some_iff.mp hcall
      obtain rfl := canRmdir_keeps h hcan
      cases hrest
      exact h
    | renameStaticFile folderid name to_folderid new_name => exact keeps_renameStaticFile h hrun
    | _ => exact hfaults.elim
  · obtain ⟨⟨b, t'⟩, hcall, rfl⟩ := Option.map_eq_some_iff.mp hrun
    obtain ⟨_, t'', hcall', ht⟩ := good_call h hfaults fun hstrict => hstrict.elim
    cases hcall.symm.trans hcall'
    exact ht

/-- In every state of every run, deletions are foretold where there is a record or a row, and the folder is not being made in itself. -/
theorem predicts_iff (h : Reachable Start (fun s e s' => run s e = some s') s) (db : Database) (folderid : ℤ) (name : Name)
    (history : Option ℤ) (taskid : ℕ) :
    Predicts s db folderid name history taskid ↔ Seen s db folderid name ∧ ¬InItself s db folderid name :=
  predicts_of_good (h.invariant (fun _ => good_start) fun _ _ _ hs hrun => good_run hs hrun)

/-- The folder `a` made, which is then looked for. -/
theorem predicts_oneFolder : Predicts oneFolder {} 0 [97] none 2 ↔ Seen oneFolder {} 0 [97] ∧ ¬InItself oneFolder {} 0 [97] :=
  predicts_iff (.next (.start (s := ⟨[], 0, [], ⟨[], 9, -9, false⟩⟩) ⟨rfl, rfl, rfl⟩)
    (a := .mkdir {} 0 [97] 0 (.ok ()) (some 1)) (by decide)) {} 0 [97] none 2

/-- Nothing is in memory, and the folder is not in the database. -/
theorem canRmdir_unseen : ∃ s, Reachable Start (fun s e s' => run s e = some s') s ∧ ¬Predicts s {} 5 [120] none 1 := by
  refine ⟨⟨[], 0, [], ⟨[], 9, -9, false⟩⟩, .start ⟨rfl, rfl, rfl⟩, fun h => ?_⟩
  obtain ⟨code, s', hcan, _⟩ := h.rmdir
  have hnone : canRmdir {} 5 [120] ⟨[], 0, [], ⟨[], 9, -9, false⟩⟩ = none := by decide
  rw [hnone] at hcan
  cases hcan

end Pclsync.Tasks.Counted
