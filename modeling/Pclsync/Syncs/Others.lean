import Pclsync.Syncs.Removal

/-! What is left of a sync that is removed or gets another type, and what the others keep. -/
namespace Pclsync.Syncs.Removal

variable {t t' : Tables} {s : ℕ}

/-! ## The rows -/

theorem setSynctype_removes (synctype : ℕ) : Removes s t (t.setSynctype s synctype) where
  folder := rfl
  localfolder := List.Subset.refl _
  localfile := List.Subset.refl _
  syncedfolder := List.Subset.refl _
  others := by
    intro _ _
    refine ⟨?_, rfl, rfl, rfl⟩
    show ((t.syncfolder.map _).filter _) = _
    induction t.syncfolder with
    | nil => rfl
    | cons row rows ih =>
      rw [List.map_cons, List.filter_cons, List.filter_cons, ih]
      by_cases hid : row.id = s
      · rw [if_pos hid, if_neg (by simp [hid]), if_neg (by simp [hid])]
      · rw [if_neg hid]

/-- The rows of the sync are gone where nothing of it can refer to it. -/
theorem gone_of_not_hasSync (hv : t.Valid) (hno : ¬ t.HasSync s) : Gone s t where
  localfolder := fun row hrow hs => hno (hv.folderSync row hrow s hs)
  localfile := fun row hrow hs => hno (hv.fileSync row hrow s hs)
  syncedfolder := fun row hrow hs => hno (hs ▸ hv.syncedSync row hrow)

/-- A call of `psync_delete_sync` returns. -/
theorem deleteSync_returns (env : Env) {st : State} (hsaved : st.saved = none) :
    ∃ db : Db, st.deleteSync env s = some
        ⟨({ st.startTransaction with db } : State).commit env.commitFails,
          if env.commitFails then .failure none else .success, env.commitFails⟩ ∧
      Removes s st.db.tables db.tables ∧ Gone s db.tables := by
  have hdb : st.startTransaction.db = st.db := by
    unfold State.startTransaction
    rw [hsaved]
  obtain ⟨db, hrec, hremoves⟩ : ∃ db,
      deleteLocalRecursive s (st.db.tables.localfolder.length + 1) 0 st.db = some db ∧
        Removes s st.db.tables db.tables :=
    deleteLocalRecursive_removes st.db.valid .root (List.Subset.refl _) (Nat.le_refl _)
  have hof : Doomed.Of s { syncfolder := fun row => row.id = s } :=
    ⟨fun _ hne => decide_eq_false hne, fun _ _ => rfl, fun _ _ => rfl, fun _ _ => rfl⟩
  refine ⟨db.delete { syncfolder := fun row => row.id = s }, ?_, hremoves.trans (removes_delete hof) db.valid, ?_⟩
  · unfold State.deleteSync
    simp only [hdb, hrec, Option.map_some]
  · refine gone_of_not_hasSync (db.delete _).valid fun hhas => ?_
    obtain ⟨row, hrow, hid⟩ := hhas
    have hkept := (mem_syncfolder_delete.mp hrow).2
    rw [decide_eq_false_iff_not] at hkept
    exact hkept hid

theorem foldl_del (folders : List ℕ) (st : State) :
    (folders.foldl State.delFolderFromDownloadlist st).db = st.db ∧
      (folders.foldl State.delFolderFromDownloadlist st).saved = st.saved ∧
      ∀ x, x ∈ (folders.foldl State.delFolderFromDownloadlist st).downloadlist ↔
        x ∈ st.downloadlist ∧ x ∉ folders := by
  induction folders generalizing st with
  | nil => exact ⟨rfl, rfl, fun x => ⟨fun h => ⟨h, List.not_mem_nil⟩, fun h => h.1⟩⟩
  | cons f folders ih =>
    obtain ⟨hdb, hsaved, hlist⟩ := ih (st.delFolderFromDownloadlist f)
    refine ⟨hdb, hsaved, fun x => (hlist x).trans ?_⟩
    show x ∈ st.downloadlist.erase f ∧ x ∉ folders ↔ _
    rw [Finset.mem_erase, List.mem_cons, not_or]
    tauto

theorem retype_removes (st : State) (synctype : ℕ) :
    Removes s st.db.tables (st.retype s synctype).db.tables ∧ Gone s (st.retype s synctype).db.tables := by
  have hsynced : Doomed.Of s { syncedfolder := fun row => row.syncid = s } :=
    ⟨fun _ _ => rfl, fun _ _ => rfl, fun _ _ => rfl, fun _ hne => decide_eq_false hne⟩
  have hfile : Doomed.Of s { localfile := fun row => row.syncid = some s } :=
    ⟨fun _ _ => rfl, fun _ _ => rfl, fun _ hne => decide_eq_false hne, fun _ _ => rfl⟩
  have hfolder : Doomed.Of s { localfolder := fun row => row.syncid = some s } :=
    ⟨fun _ _ => rfl, fun _ hne => decide_eq_false hne, fun _ _ => rfl, fun _ _ => rfl⟩
  let db₀ := st.db.setSynctype s synctype
  let db₁ := db₀.delete { syncedfolder := fun row => row.syncid = s }
  let db₂ := db₁.delete { localfile := fun row => row.syncid = some s }
  have h₁ : Removes s db₀.tables db₁.tables := removes_delete hsynced
  have h₂ : Removes s db₁.tables db₂.tables := removes_delete hfile
  have h₃ : Removes s db₂.tables (st.retype s synctype).db.tables := removes_delete hfolder
  refine ⟨(((setSynctype_removes synctype).trans h₁ db₀.valid).trans h₂ db₁.valid).trans h₃ db₂.valid, ?_, ?_, ?_⟩
  · intro row hrow
    exact of_decide_eq_false (mem_localfolder_delete hrow).2.1
  · intro row hrow
    exact of_decide_eq_false (mem_localfile_delete.mp (h₃.localfile hrow)).2.1
  · intro row hrow
    exact of_decide_eq_false (mem_syncedfolder_delete.mp (h₂.syncedfolder (h₃.syncedfolder hrow))).2.1

/-! ## The download list -/

/-- A row of a sync that downloads. -/
def SyncedFolder.IsDownload (row : SyncedFolder) : Prop := row.synctype &&& downloadOnly ≠ 0

instance (row : SyncedFolder) : Decidable row.IsDownload := inferInstanceAs (Decidable (_ ≠ _))

/-- The list has the folders of the rows of syncs that download, as `psync_syncer_init` builds it. -/
def Listed (t : Tables) (list : Finset ℕ) : Prop :=
  ∀ x, x ∈ list ↔ ∃ row ∈ t.syncedfolder, row.IsDownload ∧ row.folderid = x

/-- Another sync that downloads names a folder. -/
def NamedByOther (s : ℕ) (t : Tables) (folderid : ℕ) : Prop :=
  ∃ row ∈ t.syncedfolder, row.syncid ≠ s ∧ row.IsDownload ∧ row.folderid = folderid

theorem named_of_gone (hgone : Gone s t') (hsame : SameOthers s t t') {x : ℕ} :
    (∃ row ∈ t'.syncedfolder, row.IsDownload ∧ row.folderid = x) ↔ NamedByOther s t x := by
  have hmem : ∀ row : SyncedFolder, row ∈ t'.syncedfolder ↔ row ∈ t.syncedfolder ∧ row.syncid ≠ s := by
    intro row
    have hfilter : row ∈ (t'.syncedfolder.filter fun row => row.syncid ≠ s) ↔
        row ∈ t.syncedfolder.filter fun row => row.syncid ≠ s := by rw [hsame.syncedfolder]
    rw [List.mem_filter, List.mem_filter, decide_eq_true_iff] at hfilter
    exact ⟨fun h => hfilter.mp ⟨h, hgone.syncedfolder row h⟩, fun h => (hfilter.mpr h).1⟩
  constructor
  · intro h
    obtain ⟨row, hrow, hdown, hid⟩ := h
    exact ⟨row, ((hmem row).mp hrow).1, ((hmem row).mp hrow).2, hdown, hid⟩
  · intro h
    obtain ⟨row, hrow, hne, hdown, hid⟩ := h
    exact ⟨row, (hmem row).mpr ⟨hrow, hne⟩, hdown, hid⟩

/-- The list as it was is right where another sync names every folder of the sync. -/
theorem listed_kept_iff {list : Finset ℕ} (hl : Listed t list) (hgone : Gone s t') (hsame : SameOthers s t t') :
    Listed t' list ↔ ∀ row ∈ t.syncedfolder, row.syncid = s → row.IsDownload → NamedByOther s t row.folderid := by
  constructor
  · intro h row hrow hs hdown
    exact (named_of_gone hgone hsame).mp ((h _).mp ((hl _).mpr ⟨row, hrow, hdown, rfl⟩))
  · intro h x
    rw [named_of_gone hgone hsame, hl x]
    constructor
    · intro hx
      obtain ⟨row, hrow, hdown, rfl⟩ := hx
      by_cases hs : row.syncid = s
      · exact h row hrow hs hdown
      · exact ⟨row, hrow, hs, hdown, rfl⟩
    · intro hx
      obtain ⟨row, hrow, _, hdown, hid⟩ := hx
      exact ⟨row, hrow, hdown, hid⟩

/-- The list without the folders of the sync is right where no other sync names one of them. -/
theorem listed_erased_iff {list list' : Finset ℕ} (hl : Listed t list) (hgone : Gone s t') (hsame : SameOthers s t t')
    (hlist : ∀ x, x ∈ list' ↔ x ∈ list ∧ ∀ row ∈ t.syncedfolder, row.syncid = s → row.folderid ≠ x) :
    Listed t' list' ↔ ∀ row ∈ t.syncedfolder, row.syncid = s → ¬ NamedByOther s t row.folderid := by
  constructor
  · intro h row hrow hs hnamed
    exact ((hlist _).mp ((h _).mpr ((named_of_gone hgone hsame).mpr hnamed))).2 row hrow hs rfl
  · intro h x
    rw [named_of_gone hgone hsame, hlist x, hl x]
    constructor
    · intro hx
      obtain ⟨⟨row, hrow, hdown, hid⟩, hno⟩ := hx
      exact ⟨row, hrow, fun hs => hno row hrow hs hid, hdown, hid⟩
    · intro hx
      obtain ⟨row, hrow, hne, hdown, hid⟩ := hx
      refine ⟨⟨row, hrow, hdown, hid⟩, fun row' hrow' hs hid' => h row' hrow' hs ?_⟩
      exact ⟨row, hrow, hne, hdown, hid.trans hid'.symm⟩

/-! ## The calls -/

/-- The state between calls: no transaction is open, and the list is right. -/
structure Settled (st : State) : Prop where
  saved : st.saved = none
  listed : Listed st.db.tables st.downloadlist

/-- Success takes the rows of the sync, and nothing of another one, and the list follows. A failure
changes nothing. -/
structure Correct (s : ℕ) (st : State) (o : Outcome) : Prop where
  removed : o.answer = .success → o.commitFailed = false →
    Gone s o.state.db.tables ∧ SameOthers s st.db.tables o.state.db.tables ∧
      Listed o.state.db.tables o.state.downloadlist
  unchanged : o.answer ≠ .success ∨ o.commitFailed = true → o.state = st

/-- When `psync_delete_sync` is right. -/
def Deletes (env : Env) (s : ℕ) (t : Tables) : Prop :=
  env.commitFails = false ∧ NoCrossing s t ∧
    ∀ row ∈ t.syncedfolder, row.syncid = s → row.IsDownload → NamedByOther s t row.folderid

/-- When `psync_change_synctype` is right. -/
def Retypes (env : Env) (s synctype : ℕ) (t : Tables) : Prop :=
  (synctype < synctypeMin ∨ synctypeMax < synctype) ∨
    match t.syncfolder.find? (·.id = s) with
    | none => True
    | some row =>
      if row.synctype = synctype then Gone s t
      else
        match checks env t row synctype with
        | .error e => e ≠ .databaseError
        | .ok () =>
          env.commitFails = false ∧ NoCrossing s t ∧
            ∀ row ∈ t.syncedfolder, row.syncid = s → ¬ NamedByOther s t row.folderid

section
variable {env : Env} {st : State}

theorem startTransaction_of_none (hsaved : st.saved = none) :
    st.startTransaction = { st with saved := some st.db, lock := st.lock + 1 } := by
  unfold State.startTransaction
  rw [hsaved]

theorem rollback_startTransaction (hsaved : st.saved = none) : st.startTransaction.rollback = st := by
  rw [startTransaction_of_none hsaved]
  cases st
  cases hsaved
  rfl

/-- A transaction that is left open is seen. -/
theorem ne_of_saved {st' : State} (hsaved : st.saved = none) {db : Db} (h : st'.saved = some db) : st' ≠ st := by
  intro heq
  rw [heq, hsaved] at h
  nomatch h

/-- A call that reaches its commit. -/
theorem correct_commit_iff {st' : State} {answer : Answer} (hst : Settled st) (hopen : st'.saved = some st.db)
    (hanswer : env.commitFails = false → answer = .success) (hremoves : Removes s st.db.tables st'.db.tables)
    (hgone : Gone s st'.db.tables) :
    Correct s st ⟨st'.commit env.commitFails, answer, env.commitFails⟩ ↔
      env.commitFails = false ∧ NoCrossing s st.db.tables ∧ Listed st'.db.tables st'.downloadlist := by
  cases hfails : env.commitFails with
  | true =>
    refine ⟨fun h => ?_, fun h => nomatch h.1⟩
    exact absurd (h.unchanged (.inr rfl)) (ne_of_saved hst.saved hopen)
  | false =>
    have hsuccess := hanswer hfails
    constructor
    · intro h
      obtain ⟨_, hsame, hlisted⟩ := h.removed hsuccess rfl
      exact ⟨rfl, (sameOthers_iff st.db.valid st'.db.valid hremoves hgone).mp hsame, hlisted⟩
    · intro h
      refine ⟨fun _ _ => ⟨hgone, hremoves.others st.db.valid h.2.1, h.2.2⟩, fun hbad => ?_⟩
      exact hbad.elim (absurd hsuccess) nofun

theorem deleteSync_correct_iff (hst : Settled st) :
    (∃ o, st.deleteSync env s = some o ∧ Correct s st o) ↔ Deletes env s st.db.tables := by
  obtain ⟨db, hret, hremoves, hgone⟩ := deleteSync_returns (s := s) env hst.saved
  have hstart := startTransaction_of_none hst.saved
  have hopen : ({ st.startTransaction with db } : State).saved = some st.db := by rw [hstart]
  have hlist : ({ st.startTransaction with db } : State).downloadlist = st.downloadlist := by rw [hstart]
  have hanswer : env.commitFails = false → (if env.commitFails then .failure none else .success) = Answer.success := by
    intro hfails
    rw [hfails]
    rfl
  have hiff := correct_commit_iff hst hopen hanswer hremoves hgone
  rw [hret, hlist] at *
  constructor
  · intro h
    obtain ⟨o, ho, hcorrect⟩ := h
    obtain rfl := Option.some.inj ho
    obtain ⟨hfails, hno, hlisted⟩ := hiff.mp hcorrect
    exact ⟨hfails, hno, (listed_kept_iff hst.listed hgone (hremoves.others st.db.valid hno)).mp hlisted⟩
  · intro h
    obtain ⟨hfails, hno, hnamed⟩ := h
    refine ⟨_, rfl, hiff.mpr ⟨hfails, hno, ?_⟩⟩
    exact (listed_kept_iff hst.listed hgone (hremoves.others st.db.valid hno)).mpr hnamed

theorem correct_of_failure {error : Option Perror} : Correct s st ⟨st, .failure error, false⟩ :=
  ⟨nofun, fun _ => rfl⟩

theorem changeSynctype_correct_iff {synctype : ℕ} (hst : Settled st) :
    Correct s st (st.changeSynctype env s synctype) ↔ Retypes env s synctype st.db.tables := by
  have hstart := startTransaction_of_none hst.saved
  have hdb : st.startTransaction.db = st.db := by rw [hstart]
  have hback := rollback_startTransaction hst.saved
  unfold State.changeSynctype Retypes
  by_cases htype : synctype < synctypeMin ∨ synctypeMax < synctype
  · rw [if_pos htype]
    exact ⟨fun _ => .inl htype, fun _ => correct_of_failure⟩
  rw [if_neg htype, or_iff_right htype]
  simp only [hdb, hback]
  cases hfind : st.db.tables.syncfolder.find? (·.id = s) with
  | none => exact ⟨fun _ => trivial, fun _ => correct_of_failure⟩
  | some row =>
    by_cases hsame : row.synctype = synctype
    · simp only [if_pos hsame]
      exact ⟨fun h => (h.removed rfl rfl).1, fun h => ⟨fun _ _ => ⟨h, .refl, hst.listed⟩, fun _ => rfl⟩⟩
    simp only [if_neg hsame]
    cases hchecks : checks env st.db.tables row synctype with
    | error e =>
      by_cases he : e = .databaseError
      · subst he
        refine ⟨fun h => ?_, fun h => absurd rfl h⟩
        refine absurd (h.unchanged (.inl (by simp))) (ne_of_saved hst.saved (?_ : _ = some st.db))
        show st.startTransaction.saved = _
        rw [hstart]
      · refine ⟨fun _ => he, fun _ => ?_⟩
        cases e with
        | databaseError => exact absurd rfl he
        | _ => exact correct_of_failure
    | ok _ =>
      obtain ⟨hremoves, hgone⟩ := retype_removes (s := s) st.startTransaction synctype
      obtain ⟨_, hsaved, hlist⟩ := foldl_del ((st.startTransaction.db.setSynctype s synctype).tables.syncedfolder.filter
        (fun row => row.syncid = s) |>.map (·.folderid)) st.startTransaction
      rw [hdb] at hremoves
      have hopen : (st.startTransaction.retype s synctype).saved = some st.db := by
        refine hsaved.trans ?_
        rw [hstart]
      have herased : ∀ x, x ∈ (st.startTransaction.retype s synctype).downloadlist ↔
          x ∈ st.downloadlist ∧ ∀ row ∈ st.db.tables.syncedfolder, row.syncid = s → row.folderid ≠ x := by
        intro x
        refine (hlist x).trans ?_
        rw [hstart]
        refine and_congr_right fun _ => ?_
        rw [List.mem_map, not_exists]
        constructor
        · intro h row hrow hs hid
          exact h row ⟨List.mem_filter.mpr ⟨hrow, decide_eq_true hs⟩, hid⟩
        · intro h row hrow
          obtain ⟨hin, hs⟩ := List.mem_filter.mp hrow.1
          exact h row hin (of_decide_eq_true hs) hrow.2
      refine (correct_commit_iff hst hopen (fun _ => rfl) hremoves hgone).trans ?_
      refine and_congr_right fun _ => and_congr_right fun hno => ?_
      exact listed_erased_iff hst.listed hgone (hremoves.others st.db.valid hno) herased

end

/-- Both calls are right exactly where the commit succeeds, no row of another sync is below a folder
of this one, and the list happens to need what they do: nothing for `psync_delete_sync`, and for
`psync_change_synctype`, where its checks pass, that every folder of the sync goes. -/
theorem correct_iff (env : Env) (s synctype : ℕ) (st : State) (hst : Settled st) :
    ((∃ o, st.deleteSync env s = some o ∧ Correct s st o) ↔ Deletes env s st.db.tables) ∧
      (Correct s st (st.changeSynctype env s synctype) ↔ Retypes env s synctype st.db.tables) :=
  ⟨deleteSync_correct_iff hst, changeSynctype_correct_iff hst⟩

/-- Two syncs download the remote folder 10. -/
def twoDownloads : Db where
  tables :=
    { folder := [⟨10, permAll⟩]
      syncfolder := [⟨1, some 10, ['a'], 1, 1⟩, ⟨2, some 10, ['b'], 1, 1⟩]
      localfolder := [⟨0, none, none⟩]
      localfile := []
      syncedfolder := [⟨1, 10, 0, 1⟩, ⟨2, 10, 0, 1⟩] }
  valid :=
    { ids := by decide
      root := by decide
      folderParent := by simp
      folderSync := by simp
      fileParent := nofun
      fileSync := nofun
      syncedSync := by decide }

def shared : State := ⟨twoDownloads, none, 0, {10}⟩

def everythingWorks : Env := ⟨fun _ => true, fun _ _ => true, false, false⟩

theorem shared_settled : Settled shared := by
  refine ⟨rfl, fun x => ?_⟩
  show x ∈ ({10} : Finset ℕ) ↔ _
  rw [Finset.mem_singleton]
  constructor
  · intro hx
    exact ⟨⟨1, 10, 0, 1⟩, List.mem_cons_self, by decide, hx.symm⟩
  · intro hx
    obtain ⟨row, hrow, _, rfl⟩ := hx
    rcases List.mem_cons.mp hrow with rfl | hrow
    · rfl
    · rw [List.mem_singleton.mp hrow]

/-- One of them can be removed. -/
theorem shared_removed : ∃ o, shared.deleteSync everythingWorks 1 = some o ∧ Correct 1 shared o := by
  refine (correct_iff everythingWorks 1 2 shared shared_settled).1.mpr ⟨rfl, ?_, ?_⟩
  · intro folder hf hs
    obtain rfl := List.mem_singleton.mp hf
    nomatch hs
  · intro row hrow _ _
    refine ⟨⟨2, 10, 0, 1⟩, List.mem_cons_of_mem _ List.mem_cons_self, by decide, by decide, ?_⟩
    rcases List.mem_cons.mp hrow with rfl | hrow
    · rfl
    · rw [List.mem_singleton.mp hrow]

/-- When one of them is to upload only, the folder is no longer in the list for the other. -/
theorem shared_unlisted :
    ¬ ∀ (env : Env) (s synctype : ℕ) (st : State), Settled st →
      (∃ o, st.deleteSync env s = some o ∧ Correct s st o) ∧ Correct s st (st.changeSynctype env s synctype) := by
  intro h
  obtain ⟨_, _, hlisted⟩ := (h everythingWorks 1 2 shared shared_settled).2.removed rfl rfl
  have hnamed : 10 ∈ (shared.changeSynctype everythingWorks 1 2).state.downloadlist :=
    (hlisted 10).mpr ⟨⟨2, 10, 0, 1⟩, by decide, by decide, rfl⟩
  exact absurd hnamed (by decide)

end Pclsync.Syncs.Removal
