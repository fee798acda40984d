import Pclsync.Tasks.Visible

/-! Calls of `pfstasks.c` that report failure, and what they leave of the overlay. -/
namespace Pclsync.Tasks

/-! ### Calls -/

/-- A call of `pfstasks.c`, and how what it uses goes. -/
inductive FstaskCall where
  | mkdir (folderid : ℤ) (name : Name) (folderflags : ℕ) (ctime : ℤ) (key : Except ℤ (List UInt8)) (commits : Bool)
  | rmdir (folderid : ℤ) (name : Name) (commits : Bool)
  | unlink (folderid : ℤ) (name : Name) (rec : Option (ℤ × Name)) (batched commits : Bool)
  | renameFile (fileid parentfolderid : ℤ) (name : Name) (to_folderid : ℤ) (new_name : Name) (batched commits : Bool)
  | renameFolder (folderid parentfolderid : ℤ) (name : Name) (to_folderid : ℤ) (new_name : Name) (targetflags : ℕ)
    (commits : Bool)
  | addCreat (folderid : ℤ) (name : Name) (encsymkey : Option (List UInt8)) (commits : Bool)
  | addModifiedFile (folderid : ℤ) (name : Name) (fileid hash : ℤ) (encsymkey : Option (List UInt8)) (commits : Bool)

/-- What a call leaves, and whether it reports failure. -/
def FstaskCall.run (s : State) : FstaskCall → State × Bool
  | .mkdir folderid name folderflags ctime key commits =>
    ((s.mkdir folderid name folderflags ctime key commits).1, (s.mkdir folderid name folderflags ctime key commits).2 ≠ 0)
  | .rmdir folderid name commits => ((s.rmdir folderid name commits).1, (s.rmdir folderid name commits).2 ≠ 0)
  | .unlink folderid name rec batched commits =>
    ((s.unlink folderid name rec batched commits).1, (s.unlink folderid name rec batched commits).2 ≠ 0)
  | .renameFile fileid parentfolderid name to_folderid new_name batched commits =>
    ((s.renameFile fileid parentfolderid name to_folderid new_name batched commits).1,
      (s.renameFile fileid parentfolderid name to_folderid new_name batched commits).2 ≠ 0)
  | .renameFolder folderid parentfolderid name to_folderid new_name targetflags commits =>
    ((s.renameFolder folderid parentfolderid name to_folderid new_name targetflags commits).1,
      (s.renameFolder folderid parentfolderid name to_folderid new_name targetflags commits).2 ≠ 0)
  | .addCreat folderid name encsymkey commits =>
    ((s.addCreat folderid name encsymkey commits).1, (s.addCreat folderid name encsymkey commits).2.isNone)
  | .addModifiedFile folderid name fileid hash encsymkey commits =>
    ((s.addModifiedFile folderid name fileid hash encsymkey commits).1,
      (s.addModifiedFile folderid name fileid hash encsymkey commits).2.isNone)

/-- The same names with the same ids show in every folder, and the same tasks are stored. -/
structure State.Unchanged (s s' : State) : Prop where
  fstask : s'.db.fstask = s.db.fstask
  fstaskdepend : s'.db.fstaskdepend = s.db.fstaskdepend
  readdir : ∀ folderid, (s'.readdir folderid).Perm (s.readdir folderid)

/-- Where a call reports failure, nothing has changed. -/
def FstaskCall.FailsUnchanged (s : State) (call : FstaskCall) : Prop :=
  (call.run s).2 = true → s.Unchanged (call.run s).1

theorem State.Unchanged.refl (s : State) : s.Unchanged s := ⟨rfl, rfl, fun _ => .refl _⟩

/-! ### Calls that delete no record before they fail -/

variable {s : State} {folderid : ℤ} {name : Name} {commits : Bool}

theorem State.mkdir_failed {folderflags : ℕ} {ctime : ℤ} {key : Except ℤ (List UInt8)}
    (h : (s.mkdir folderid name folderflags ctime key commits).2 ≠ 0) :
    (s.mkdir folderid name folderflags ctime key commits).1 = s := by
  unfold State.mkdir at h ⊢
  by_cases hrow : 0 ≤ folderid ∧ (s.db.folderNamed folderid name).isSome ∧ ¬Has (s.overlay.get folderid).rmdirs name
  · simp only [if_pos hrow]
  simp only [if_neg hrow] at h ⊢
  cases hfound : searchTree (s.overlay.get folderid).mkdirs name 0 with
  | some task => rfl
  | none =>
    simp only [hfound] at h ⊢
    cases hkey : (if folderflags &&& flagEncrypted ≠ 0 then key.map some else .ok none) with
    | error error => rfl
    | ok value =>
      simp only [hkey] at h ⊢
      cases commits with
      | false => rfl
      | true => exact absurd rfl h

theorem State.renameFile_failed {fileid to_folderid : ℤ} {new_name : Name} {batched : Bool}
    (h : (s.renameFile fileid folderid name to_folderid new_name batched commits).2 ≠ 0) :
    (s.renameFile fileid folderid name to_folderid new_name batched commits).1 = s := by
  cases commits with
  | false => rfl
  | true => exact absurd rfl h

theorem State.renameFolder_failed {parentfolderid to_folderid : ℤ} {new_name : Name} {targetflags : ℕ}
    (h : (s.renameFolder folderid parentfolderid name to_folderid new_name targetflags commits).2 ≠ 0) :
    (s.renameFolder folderid parentfolderid name to_folderid new_name targetflags commits).1 = s := by
  cases commits with
  | false => rfl
  | true => exact absurd rfl h

theorem State.addCreat_failed {encsymkey : Option (List UInt8)}
    (h : (s.addCreat folderid name encsymkey commits).2.isNone = true) :
    (s.addCreat folderid name encsymkey commits).1 = s := by
  cases commits with
  | false => rfl
  | true => nomatch h

/-! ### What a deleted record showed -/

/-- The state once the mkdir of a name is deleted. -/
def State.withoutMkdir (s : State) (folderid : ℤ) (name : Name) : State :=
  { s with overlay := s.overlay.update folderid (·.deleteMkdir name 0) }

/-- The state once the creat of a name is deleted. -/
def State.withoutCreat (s : State) (folderid : ℤ) (name : Name) : State :=
  { s with overlay := s.overlay.update folderid (·.deleteCreat name 0) }

/-- What a mkdir shows. -/
def Record.shownFolder (r : Record) : List (Name × Entry) :=
  if r.flags &&& flagInvisible = 0 then [(r.name, .folder r.id)] else []

/-- The rows that only the mkdir of the name hides. -/
def State.uncovered (s : State) (folderid : ℤ) (name : Name) : List (Name × Entry) :=
  let folder := s.overlay.get folderid
  if 0 ≤ folderid then
    (s.db.folder.filter fun row => row.parentfolderid = folderid ∧ row.name ≠ [] ∧ row.name = name ∧
      ¬(Has folder.rmdirs name ∨ Has (deleteFromTree folder.mkdirs name 0) name)).map fun row => (row.name, .folder row.id)
  else []

theorem readdir_withoutMkdir_ne {other : ℤ} (h : other ≠ folderid) :
    (s.withoutMkdir folderid name).readdir other = s.readdir other := by
  unfold State.readdir State.withoutMkdir
  rw [Overlay.get_update, if_neg h]

/-- Without a creat the folder shows one file less. -/
theorem length_readdir_withoutCreat {cr : Record} (h : searchTree (s.overlay.get folderid).creats name 0 = some cr) :
    (s.readdir folderid).length = ((s.withoutCreat folderid name).readdir folderid).length + 1 := by
  have hlen : (s.overlay.get folderid).creats.length = (deleteFromTree (s.overlay.get folderid).creats name 0).length + 1 := by
    have hmem := (searchTree_some h).1
    rw [deleteFromTree, h, List.length_erase_of_mem hmem, Nat.sub_add_cancel (List.length_pos_of_mem hmem)]
  have hremote : remoteEntries s.db folderid ((s.overlay.get folderid).deleteCreat name 0) =
      remoteEntries s.db folderid (s.overlay.get folderid) := rfl
  unfold State.readdir State.withoutCreat
  rw [Overlay.get_update, if_pos rfl, hremote]
  simp only [newEntries, Folder.deleteCreat, List.length_append, List.length_map, hlen]
  omega

/-- A record less. -/
theorem newEntries_deleteMkdir {folder : Folder} {mkdir : Record} (h : searchTree folder.mkdirs name 0 = some mkdir) :
    (newEntries folder).Perm (mkdir.shownFolder ++ newEntries (folder.deleteMkdir name 0)) := by
  have hmkdirs : deleteFromTree folder.mkdirs name 0 = folder.mkdirs.erase mkdir := by
    rw [deleteFromTree, h]
  have hperm := ((List.perm_cons_erase (searchTree_some h).1).filter fun r => r.flags &&& flagInvisible = 0).map
    fun r : Record => (r.name, Entry.folder r.id)
  unfold newEntries Folder.deleteMkdir Record.shownFolder
  rw [hmkdirs, ← List.append_assoc]
  refine (hperm.trans (.of_eq ?_)).append_right _
  rw [List.filter_cons]
  by_cases hflags : mkdir.flags &&& flagInvisible = 0
  · rw [if_pos (decide_eq_true hflags), if_pos hflags]
    rfl
  · rw [if_neg (by simpa using hflags), if_neg hflags]
    rfl

/-- The rows of other names stay as they are, and those of the name may come back. -/
theorem remoteEntries_deleteMkdir (hhas : Has (s.overlay.get folderid).mkdirs name) :
    (remoteEntries s.db folderid ((s.overlay.get folderid).deleteMkdir name 0)).Perm
      (s.uncovered folderid name ++ remoteEntries s.db folderid (s.overlay.get folderid)) := by
  unfold remoteEntries State.uncovered
  by_cases hpos : 0 ≤ folderid
  · simp only [if_pos hpos]
    rw [← List.append_assoc, ← List.map_append]
    refine List.Perm.append_right _ (List.Perm.map _ ?_)
    refine (List.filter_append_perm (fun row => decide (row.name = name)) _).symm.trans ?_
    rw [List.filter_filter, List.filter_filter]
    refine (List.Perm.of_eq (List.filter_congr fun row _ => ?_)).append (.of_eq (List.filter_congr fun row _ => ?_))
    · by_cases hname : row.name = name
      · simp [hname, Folder.deleteMkdir]
      · simp [hname]
    · by_cases hname : row.name = name
      · simp [hname, hhas]
      · have hsame : Has (deleteFromTree (s.overlay.get folderid).mkdirs name 0) row.name ↔
            Has (s.overlay.get folderid).mkdirs row.name := by
          unfold Has
          rw [searchTree_deleteFromTree_ne (Ne.symm hname)]
        simp [hname, Folder.deleteMkdir, hsame]
  · simp only [if_neg hpos]
    exact .refl _

/-- Without a mkdir the folder shows the same exactly where the rows that only it hid are what it
showed. -/
theorem readdir_withoutMkdir {mkdir : Record} (h : searchTree (s.overlay.get folderid).mkdirs name 0 = some mkdir) :
    ((s.withoutMkdir folderid name).readdir folderid).Perm (s.readdir folderid) ↔
      s.uncovered folderid name = mkdir.shownFolder := by
  have hhas : Has (s.overlay.get folderid).mkdirs name := Option.isSome_iff_exists.mpr ⟨mkdir, h⟩
  have hnew := newEntries_deleteMkdir h
  have hremote := remoteEntries_deleteMkdir hhas
  have hafter : (s.withoutMkdir folderid name).readdir folderid =
      remoteEntries s.db folderid ((s.overlay.get folderid).deleteMkdir name 0) ++
        newEntries ((s.overlay.get folderid).deleteMkdir name 0) := by
    unfold State.readdir State.withoutMkdir
    rw [Overlay.get_update, if_pos rfl]
  rw [hafter, State.readdir]
  constructor
  · intro hperm
    have hsame : (s.uncovered folderid name).Perm mkdir.shownFolder := by
      refine List.perm_iff_count.mpr fun e => ?_
      have hcount := hperm.count_eq e
      have hcountNew := hnew.count_eq e
      have hcountRemote := hremote.count_eq e
      simp only [List.count_append] at hcount hcountNew hcountRemote
      omega
    unfold Record.shownFolder at hsame ⊢
    split_ifs at hsame ⊢
    · exact List.perm_singleton.mp hsame
    · exact List.perm_nil.mp hsame
  · intro hsame
    refine List.perm_iff_count.mpr fun e => ?_
    have hcountNew := hnew.count_eq e
    have hcountRemote := hremote.count_eq e
    simp only [List.count_append, hsame] at hcountNew hcountRemote ⊢
    omega

/-! ### Calls that delete a record first -/

theorem rmdirFound_failed {depend : ℕ} {cfolderid : ℤ} :
    (s.rmdirFound folderid name depend cfolderid commits).2 ≠ 0 ↔
      s.isFolderNonempty cfolderid = true ∨ commits = false := by
  unfold State.rmdirFound
  cases s.isFolderNonempty cfolderid with
  | true => exact ⟨fun _ => .inl rfl, fun _ => show -enotempty ≠ 0 by decide⟩
  | false =>
    cases commits with
    | false => exact ⟨fun _ => .inr rfl, fun _ => show -eio ≠ 0 by decide⟩
    | true => exact ⟨fun h => absurd rfl h, fun h => h.elim nofun nofun⟩

theorem rmdirFound_unchanged {depend : ℕ} {cfolderid : ℤ}
    (h : s.isFolderNonempty cfolderid = true ∨ commits = false) :
    (s.rmdirFound folderid name depend cfolderid commits).1 = s := by
  unfold State.rmdirFound
  cases hempty : s.isFolderNonempty cfolderid with
  | true => rfl
  | false =>
    have hcommits : commits = false := h.resolve_left (by rw [hempty]; exact Bool.false_ne_true)
    rw [hcommits]
    rfl

theorem unlinkFound_failed {depend : ℕ} {fileid : ℤ} {rec : Option (ℤ × Name)} {batched : Bool} :
    (s.unlinkFound folderid name depend fileid rec batched commits).2 ≠ 0 ↔ commits = false := by
  cases commits with
  | false => exact ⟨fun _ => rfl, fun _ => show -eio ≠ 0 by decide⟩
  | true => exact ⟨fun h => absurd rfl h, nofun⟩

theorem unlinkFound_unchanged {depend : ℕ} {fileid : ℤ} {rec : Option (ℤ × Name)} {batched : Bool}
    (h : commits = false) : (s.unlinkFound folderid name depend fileid rec batched commits).1 = s := by
  rw [h]
  rfl

/-- No record is deleted by a call that fails, or it is a mkdir that shows what a row behind it shows
as well. -/
def FstaskCall.Quiet (s : State) : FstaskCall → Prop
  | .rmdir folderid name commits => ∀ mkdir, searchTree (s.overlay.get folderid).mkdirs name 0 = some mkdir →
      ((s.withoutMkdir folderid name).isFolderNonempty mkdir.id = false ∧ commits = true) ∨
        s.uncovered folderid name = mkdir.shownFolder
  | .unlink folderid name _ _ commits => ∀ cr, searchTree (s.overlay.get folderid).creats name 0 = some cr →
      cr.id = 0 ∨ commits = true
  | .addModifiedFile folderid name _ _ _ commits => ¬Has (s.overlay.get folderid).creats name ∨ commits = true
  | _ => True

theorem unchanged_withoutMkdir {mkdir : Record} (h : searchTree (s.overlay.get folderid).mkdirs name 0 = some mkdir) :
    s.Unchanged (s.withoutMkdir folderid name) ↔ s.uncovered folderid name = mkdir.shownFolder := by
  refine ⟨fun hsame => (readdir_withoutMkdir h).mp (hsame.readdir folderid), fun hsame => ⟨rfl, rfl, fun other => ?_⟩⟩
  by_cases hother : other = folderid
  · rw [hother]
    exact (readdir_withoutMkdir h).mpr hsame
  · rw [readdir_withoutMkdir_ne hother]

/-- A creat that is gone is missed. -/
theorem not_unchanged_withoutCreat {cr : Record} (h : searchTree (s.overlay.get folderid).creats name 0 = some cr) :
    ¬s.Unchanged (s.withoutCreat folderid name) := by
  intro hsame
  have hlen := (hsame.readdir folderid).length_eq
  rw [length_readdir_withoutCreat h] at hlen
  omega

theorem rmdir_of_mkdir {mkdir : Record} (h : searchTree (s.overlay.get folderid).mkdirs name 0 = some mkdir) :
    s.rmdir folderid name commits =
      (s.withoutMkdir folderid name).rmdirFound folderid name mkdir.taskid mkdir.id commits := by
  simp only [State.rmdir, h]
  rfl

theorem rmdir_failed (hno : searchTree (s.overlay.get folderid).mkdirs name 0 = none)
    (h : (s.rmdir folderid name commits).2 ≠ 0) : (s.rmdir folderid name commits).1 = s := by
  simp only [State.rmdir, hno] at h ⊢
  cases hrow : s.db.folderNamed folderid name with
  | none => rfl
  | some row =>
    simp only [hrow] at h ⊢
    by_cases hhas : Has (s.overlay.get folderid).rmdirs name
    · simp only [if_pos hhas]
    · simp only [if_neg hhas] at h ⊢
      exact rmdirFound_unchanged (rmdirFound_failed.mp h)

theorem unlink_of_creat {cr : Record} {rec : Option (ℤ × Name)} {batched : Bool}
    (h : searchTree (s.overlay.get folderid).creats name 0 = some cr) (hid : cr.id ≠ 0) :
    s.unlink folderid name rec batched commits =
      (s.withoutCreat folderid name).unlinkFound folderid name cr.taskid cr.id rec batched commits := by
  simp only [State.unlink, h, if_neg hid]
  rfl

theorem unlink_static {cr : Record} {rec : Option (ℤ × Name)} {batched : Bool}
    (h : searchTree (s.overlay.get folderid).creats name 0 = some cr) (hid : cr.id = 0) :
    (s.unlink folderid name rec batched commits).2 = 0 := by
  simp only [State.unlink, h, if_pos hid]

theorem unlink_failed {rec : Option (ℤ × Name)} {batched : Bool}
    (hno : searchTree (s.overlay.get folderid).creats name 0 = none)
    (h : (s.unlink folderid name rec batched commits).2 ≠ 0) : (s.unlink folderid name rec batched commits).1 = s := by
  simp only [State.unlink, hno] at h ⊢
  cases hrow : s.db.fileNamed folderid name with
  | none => rfl
  | some row =>
    simp only [hrow] at h ⊢
    by_cases hhas : Has (s.overlay.get folderid).unlinks name
    · simp only [if_pos hhas]
    · simp only [if_neg hhas] at h ⊢
      exact unlinkFound_unchanged (unlinkFound_failed.mp h)

theorem failsUnchanged_rmdir : (FstaskCall.rmdir folderid name commits).FailsUnchanged s ↔
    (FstaskCall.rmdir folderid name commits).Quiet s := by
  unfold FstaskCall.FailsUnchanged FstaskCall.Quiet
  simp only [FstaskCall.run, decide_eq_true_eq]
  cases hfound : searchTree (s.overlay.get folderid).mkdirs name 0 with
  | none =>
    refine ⟨fun _ _ => nofun, fun _ hfailed => ?_⟩
    rw [rmdir_failed hfound hfailed]
    exact .refl s
  | some mkdir =>
    rw [rmdir_of_mkdir hfound, rmdirFound_failed]
    constructor
    · intro h found hsome
      obtain rfl := Option.some.inj hsome
      by_cases hfails : (s.withoutMkdir folderid name).isFolderNonempty mkdir.id = true ∨ commits = false
      · have hsame := h hfails
        rw [rmdirFound_unchanged hfails] at hsame
        exact .inr ((unchanged_withoutMkdir hfound).mp hsame)
      · obtain ⟨hempty, hcommits⟩ := not_or.mp hfails
        exact .inl ⟨Bool.eq_false_of_not_eq_true hempty, Bool.eq_true_of_not_eq_false hcommits⟩
    · intro h hfails
      rw [rmdirFound_unchanged hfails]
      rcases h mkdir rfl with ⟨hempty, hcommits⟩ | hsame
      · rw [hempty, hcommits] at hfails
        exact hfails.elim nofun nofun
      · exact (unchanged_withoutMkdir hfound).mpr hsame

theorem failsUnchanged_unlink {rec : Option (ℤ × Name)} {batched : Bool} :
    (FstaskCall.unlink folderid name rec batched commits).FailsUnchanged s ↔
      (FstaskCall.unlink folderid name rec batched commits).Quiet s := by
  unfold FstaskCall.FailsUnchanged FstaskCall.Quiet
  simp only [FstaskCall.run, decide_eq_true_eq]
  cases hfound : searchTree (s.overlay.get folderid).creats name 0 with
  | none =>
    refine ⟨fun _ _ => nofun, fun _ hfailed => ?_⟩
    rw [unlink_failed hfound hfailed]
    exact .refl s
  | some cr =>
    by_cases hstatic : cr.id = 0
    · exact ⟨fun _ found hsome => .inl (Option.some.inj hsome ▸ hstatic), fun _ h => absurd (unlink_static hfound hstatic) h⟩
    · rw [unlink_of_creat hfound hstatic, unlinkFound_failed]
      constructor
      · intro h found _
        refine .inr (Bool.eq_true_of_not_eq_false fun hcommits => ?_)
        have hsame := h hcommits
        rw [unlinkFound_unchanged hcommits] at hsame
        exact not_unchanged_withoutCreat hfound hsame
      · intro h hcommits
        rcases h cr rfl with hid | hcommits'
        · exact absurd hid hstatic
        · rw [hcommits'] at hcommits
          nomatch hcommits

theorem failsUnchanged_addModifiedFile {fileid hash : ℤ} {encsymkey : Option (List UInt8)} :
    (FstaskCall.addModifiedFile folderid name fileid hash encsymkey commits).FailsUnchanged s ↔
      (FstaskCall.addModifiedFile folderid name fileid hash encsymkey commits).Quiet s := by
  cases commits with
  | true => exact ⟨fun _ => .inr rfl, fun _ => nofun⟩
  | false =>
    change (true = true → s.Unchanged (s.withoutCreat folderid name)) ↔ _
    constructor
    · intro h
      refine .inl fun hhas => ?_
      obtain ⟨cr, hfound⟩ := Option.isSome_iff_exists.mp hhas
      exact not_unchanged_withoutCreat hfound (h rfl)
    · intro h _
      have hhas := h.resolve_right nofun
      refine ⟨rfl, rfl, fun other => ?_⟩
      unfold State.readdir State.withoutCreat
      rw [Overlay.get_update]
      split_ifs with hother
      · rw [hother, Folder.deleteCreat_of_not_has hhas]
      · exact .refl _

/-- Of the calls that fail, exactly those change something that have deleted a record first: a rmdir
of a new folder that is not empty, and a rmdir of a new folder, an unlink of a new file or a change of
one whose transaction does not commit. -/
theorem failsUnchanged_iff (s : State) (call : FstaskCall) : call.FailsUnchanged s ↔ call.Quiet s := by
  have hsame : ∀ s', s' = s → s.Unchanged s' := fun s' h => h ▸ .refl s
  cases call with
  | mkdir folderid name folderflags ctime key commits =>
    exact ⟨fun _ => trivial, fun _ h => hsame _ (State.mkdir_failed (of_decide_eq_true h))⟩
  | rmdir folderid name commits => exact failsUnchanged_rmdir
  | unlink folderid name rec batched commits => exact failsUnchanged_unlink
  | renameFile fileid parentfolderid name to_folderid new_name batched commits =>
    exact ⟨fun _ => trivial, fun _ h => hsame _ (State.renameFile_failed (of_decide_eq_true h))⟩
  | renameFolder folderid parentfolderid name to_folderid new_name targetflags commits =>
    exact ⟨fun _ => trivial, fun _ h => hsame _ (State.renameFolder_failed (of_decide_eq_true h))⟩
  | addCreat folderid name encsymkey commits =>
    exact ⟨fun _ => trivial, fun _ h => hsame _ (State.addCreat_failed h)⟩
  | addModifiedFile folderid name fileid hash encsymkey commits => exact failsUnchanged_addModifiedFile

/-- A new folder that is not empty is refused, and no longer listed. -/
theorem rmdir_hides_nonempty : ¬∀ (calls : List FstaskCall) (call : FstaskCall),
    call.FailsUnchanged (calls.foldl (fun s call => (call.run s).1) {}) := by
  intro h
  have hfails := h [.mkdir 0 [97] 0 0 (.ok []) true, .mkdir (-1) [98] 0 0 (.ok []) true] (.rmdir 0 [97] true)
  have hlisted := ((hfails (by decide)).readdir 0).length_eq
  exact absurd hlisted (by decide)

end Pclsync.Tasks
