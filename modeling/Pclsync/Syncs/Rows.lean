import Mathlib.Data.List.Nodup
import Pclsync.Lib.Cascade
import Pclsync.Syncs.Overlap

/-! The tables of `pdatabase.h` that belong to syncs, with their foreign keys: rows that refer to a
deleted row are deleted with it. -/
namespace Pclsync.Syncs.Removal
open Lib.Cascade

/-! ## The rows -/

/-- A row of `folder`. -/
structure Folder where
  id : ℕ
  permissions : ℕ
deriving DecidableEq, Repr

/-- A row of `syncfolder`. -/
structure SyncFolder where
  id : ℕ
  folderid : Option ℕ
  localpath : Path
  synctype : ℕ
  flags : ℕ
deriving DecidableEq, Repr

/-- A row of `localfolder`. -/
structure LocalFolder where
  id : ℕ
  localparentfolderid : Option ℕ
  syncid : Option ℕ
deriving DecidableEq, Repr

/-- A row of `localfile`. -/
structure LocalFile where
  id : ℕ
  localparentfolderid : Option ℕ
  syncid : Option ℕ
deriving DecidableEq, Repr

/-- A row of `syncedfolder`. -/
structure SyncedFolder where
  syncid : ℕ
  folderid : ℕ
  localfolderid : ℕ
  synctype : ℕ
deriving DecidableEq, Repr

structure Tables where
  folder : List Folder
  syncfolder : List SyncFolder
  localfolder : List LocalFolder
  localfile : List LocalFile
  syncedfolder : List SyncedFolder
deriving DecidableEq, Repr

namespace Tables

/-- A sync that a row refers to is there. -/
def HasSync (t : Tables) (syncid : ℕ) : Prop := ∃ row ∈ t.syncfolder, row.id = syncid

/-- A local folder that a row refers to is there. -/
def HasFolder (t : Tables) (localfolderid : ℕ) : Prop := ∃ row ∈ t.localfolder, row.id = localfolderid

/-- The keys. `psync_sql_connect` has put in the folder 0, and no row of it is ever changed. -/
structure Valid (t : Tables) : Prop where
  ids : (t.localfolder.map (·.id)).Nodup
  root : ∀ row ∈ t.localfolder, row.id = 0 → row.localparentfolderid = none ∧ row.syncid = none
  folderParent : ∀ row ∈ t.localfolder, ∀ p, row.localparentfolderid = some p → t.HasFolder p
  folderSync : ∀ row ∈ t.localfolder, ∀ s, row.syncid = some s → t.HasSync s
  fileParent : ∀ row ∈ t.localfile, ∀ p, row.localparentfolderid = some p → t.HasFolder p
  fileSync : ∀ row ∈ t.localfile, ∀ s, row.syncid = some s → t.HasSync s
  syncedSync : ∀ row ∈ t.syncedfolder, t.HasSync row.syncid

instance (t : Tables) (s : ℕ) : Decidable (t.HasSync s) := inferInstanceAs (Decidable (∃ row ∈ t.syncfolder, row.id = s))

instance (t : Tables) (l : ℕ) : Decidable (t.HasFolder l) := inferInstanceAs (Decidable (∃ row ∈ t.localfolder, row.id = l))

/-- What the foreign keys take along after a deletion. -/
def cascade (t : Tables) : Tables :=
  let hasSync (syncid : Option ℕ) : Bool := syncid.all fun s => decide (t.HasSync s)
  let localfolder := t.localfolder.filter fun row => hasSync row.syncid
  let localfolder := sweep LocalFolder.id LocalFolder.localparentfolderid localfolder.length localfolder
  { t with
    localfolder
    localfile := t.localfile.filter fun row =>
      hasSync row.syncid && row.localparentfolderid.all fun p => localfolder.any (·.id = p)
    syncedfolder := t.syncedfolder.filter fun row => decide (t.HasSync row.syncid) }

end Tables

/-- The rows that a `DELETE` takes. -/
structure Doomed where
  syncfolder : SyncFolder → Bool := fun _ => false
  localfolder : LocalFolder → Bool := fun _ => false
  localfile : LocalFile → Bool := fun _ => false
  syncedfolder : SyncedFolder → Bool := fun _ => false

def Tables.delete (t : Tables) (d : Doomed) : Tables :=
  Tables.cascade
    { t with
      syncfolder := t.syncfolder.filter fun row => !d.syncfolder row
      localfolder := t.localfolder.filter fun row => !d.localfolder row
      localfile := t.localfile.filter fun row => !d.localfile row
      syncedfolder := t.syncedfolder.filter fun row => !d.syncedfolder row }

/-! ## What is left -/

variable {t t' : Tables} {d : Doomed} {s : ℕ}

@[simp] theorem folder_delete : (t.delete d).folder = t.folder := rfl

theorem mem_syncfolder_delete {row : SyncFolder} :
    row ∈ (t.delete d).syncfolder ↔ row ∈ t.syncfolder ∧ d.syncfolder row = false := by
  show row ∈ t.syncfolder.filter _ ↔ _
  rw [List.mem_filter, Bool.not_eq_true']

theorem all_hasSync {syncid : Option ℕ} :
    (syncid.all fun s => decide (t.HasSync s)) = true ↔ ∀ s, syncid = some s → t.HasSync s := by
  cases syncid with
  | none => exact ⟨fun _ _ => nofun, fun _ => rfl⟩
  | some s =>
    rw [Option.all_some, decide_eq_true_iff]
    exact ⟨fun h _ heq => Option.some.inj heq ▸ h, fun h => h s rfl⟩

theorem mem_localfolder_delete {row : LocalFolder} (h : row ∈ (t.delete d).localfolder) :
    row ∈ t.localfolder ∧ d.localfolder row = false ∧ ∀ s, row.syncid = some s → (t.delete d).HasSync s := by
  have hfilter := List.mem_filter.mp (mem_of_mem_sweep h)
  have hrow := List.mem_filter.mp hfilter.1
  exact ⟨hrow.1, (Bool.not_eq_true' _).mp hrow.2, all_hasSync.mp hfilter.2⟩

theorem mem_localfile_delete {row : LocalFile} :
    row ∈ (t.delete d).localfile ↔ row ∈ t.localfile ∧ d.localfile row = false ∧
      (∀ s, row.syncid = some s → (t.delete d).HasSync s) ∧
      ∀ p, row.localparentfolderid = some p → (t.delete d).HasFolder p := by
  show row ∈ (t.localfile.filter _).filter _ ↔ _
  rw [List.mem_filter, List.mem_filter, Bool.not_eq_true', Bool.and_eq_true, and_assoc]
  refine and_congr_right fun _ => and_congr_right fun _ => and_congr all_hasSync ?_
  show attached LocalFolder.id (fun _ => row.localparentfolderid) _
    (⟨0, none, none⟩ : LocalFolder) = true ↔ _
  exact attached_iff

theorem mem_syncedfolder_delete {row : SyncedFolder} :
    row ∈ (t.delete d).syncedfolder ↔
      row ∈ t.syncedfolder ∧ d.syncedfolder row = false ∧ (t.delete d).HasSync row.syncid := by
  show row ∈ (t.syncedfolder.filter _).filter _ ↔ _
  rw [List.mem_filter, List.mem_filter, Bool.not_eq_true', and_assoc]
  exact and_congr_right fun _ => and_congr_right fun _ => decide_eq_true_iff

theorem localfolder_delete_sublist : (t.delete d).localfolder.Sublist t.localfolder :=
  (sweep_sublist _).trans (List.filter_sublist.trans List.filter_sublist)

/-- A deletion keeps the keys. -/
theorem Tables.Valid.delete (hv : t.Valid) : (t.delete d).Valid where
  ids := hv.ids.sublist (localfolder_delete_sublist.map _)
  root := fun row hrow => hv.root row (mem_localfolder_delete hrow).1
  folderParent := fun row hrow p hp => closed_sweep (Nat.le_refl _) row hrow p hp
  folderSync := fun _ hrow => (mem_localfolder_delete hrow).2.2
  fileParent := fun _ hrow => (mem_localfile_delete.mp hrow).2.2.2
  fileSync := fun _ hrow => (mem_localfile_delete.mp hrow).2.2.1
  syncedSync := fun _ hrow => (mem_syncedfolder_delete.mp hrow).2.2

/-! ## The rows of other syncs -/

/-- Nothing of another sync is in a folder of a sync. -/
def NoCrossing (s : ℕ) (t : Tables) : Prop :=
  ∀ folder ∈ t.localfolder, folder.syncid = some s →
    (∀ row ∈ t.localfolder, row.localparentfolderid = some folder.id → row.syncid = some s) ∧
    ∀ row ∈ t.localfile, row.localparentfolderid = some folder.id → row.syncid = some s

/-- The rows that are not of a sync are as they were. -/
structure SameOthers (s : ℕ) (t t' : Tables) : Prop where
  syncfolder : (t'.syncfolder.filter fun row => row.id ≠ s) = t.syncfolder.filter fun row => row.id ≠ s
  localfolder :
    (t'.localfolder.filter fun row => row.syncid ≠ some s) = t.localfolder.filter fun row => row.syncid ≠ some s
  localfile :
    (t'.localfile.filter fun row => row.syncid ≠ some s) = t.localfile.filter fun row => row.syncid ≠ some s
  syncedfolder :
    (t'.syncedfolder.filter fun row => row.syncid ≠ s) = t.syncedfolder.filter fun row => row.syncid ≠ s

theorem SameOthers.refl : SameOthers s t t := ⟨rfl, rfl, rfl, rfl⟩

theorem SameOthers.trans {t'' : Tables} (h : SameOthers s t t') (h' : SameOthers s t' t'') : SameOthers s t t'' :=
  ⟨h'.syncfolder.trans h.syncfolder, h'.localfolder.trans h.localfolder, h'.localfile.trans h.localfile,
    h'.syncedfolder.trans h.syncedfolder⟩

/-- Only rows of a sync are deleted. -/
structure Doomed.Of (s : ℕ) (d : Doomed) : Prop where
  syncfolder : ∀ row, row.id ≠ s → d.syncfolder row = false
  localfolder : ∀ row, row.syncid ≠ some s → d.localfolder row = false
  localfile : ∀ row, row.syncid ≠ some s → d.localfile row = false
  syncedfolder : ∀ row, row.syncid ≠ s → d.syncedfolder row = false

/-- What a filter leaves does not matter for rows that it keeps all. -/
theorem filter_of_kept {R : Type} {p q : R → Bool} {rows : List R} (h : ∀ r ∈ rows, q r = true → p r = true) :
    (rows.filter p).filter q = rows.filter q := by
  rw [List.filter_filter]
  refine List.filter_congr fun r hr => ?_
  cases hq : q r with
  | false => rfl
  | true => rw [h r hr hq, Bool.true_and]

theorem Doomed.Of.hasSync (hd : d.Of s) {syncid : ℕ} (hne : syncid ≠ s) (h : t.HasSync syncid) :
    (t.delete d).HasSync syncid := by
  obtain ⟨row, hrow, hid⟩ := h
  exact ⟨row, mem_syncfolder_delete.mpr ⟨hrow, hd.syncfolder row (hid ▸ hne)⟩, hid⟩

/-- The folder that a row of another sync is in is of another sync as well. -/
theorem parent_of_other {parent syncid : Option ℕ}
    (hcross : ∀ folder ∈ t.localfolder, folder.syncid = some s → parent = some folder.id → syncid = some s)
    (hne : syncid ≠ some s) {p : ℕ} (hp : parent = some p) (hhas : t.HasFolder p) :
    ∃ q ∈ t.localfolder, q.syncid ≠ some s ∧ q.id = p := by
  obtain ⟨q, hq, hid⟩ := hhas
  refine ⟨q, hq, fun hs => hne (hcross q hq hs ?_), hid⟩
  rw [hp, hid]

/-- A deletion of rows of a sync leaves the others. -/
theorem sameOthers_delete (hv : t.Valid) (hno : NoCrossing s t) (hd : d.Of s) : SameOthers s t (t.delete d) := by
  have hsync : ∀ {syncid : Option ℕ}, syncid ≠ some s → (∀ n, syncid = some n → t.HasSync n) →
      ∀ n, syncid = some n → (t.delete d).HasSync n := by
    intro syncid hne hhas n hn
    exact hd.hasSync (fun heq => hne (heq ▸ hn)) (hhas n hn)
  have hfolders : ((t.delete d).localfolder.filter fun row => row.syncid ≠ some s) =
      t.localfolder.filter fun row => row.syncid ≠ some s := by
    have hstays : ∀ row ∈ t.localfolder, row.syncid ≠ some s →
        row ∈ (t.localfolder.filter fun row => !d.localfolder row).filter
          fun row => row.syncid.all fun n => decide ((t.delete d).HasSync n) := by
      intro row hrow hne
      refine List.mem_filter.mpr ⟨List.mem_filter.mpr ⟨hrow, ?_⟩, all_hasSync.mpr (hsync hne (hv.folderSync row hrow))⟩
      rw [hd.localfolder row hne]
      rfl
    refine (filter_sweep ?_).trans ?_
    · intro row hrow hp k hk
      have hne : row.syncid ≠ some s := of_decide_eq_true hp
      have hin : row ∈ t.localfolder := List.mem_of_mem_filter (List.mem_of_mem_filter hrow)
      obtain ⟨q, hq, hqne, hqid⟩ := parent_of_other
        (fun folder hf hs => (hno folder hf hs).1 row hin) hne hk (hv.folderParent row hin k hk)
      exact ⟨q, hstays q hq hqne, decide_eq_true hqne, hqid⟩
    · rw [filter_of_kept, filter_of_kept]
      · intro row hrow hp
        rw [hd.localfolder row (of_decide_eq_true hp)]
        rfl
      · intro row hrow hp
        have hin := List.mem_of_mem_filter hrow
        exact all_hasSync.mpr (hsync (of_decide_eq_true hp) (hv.folderSync row hin))
  refine ⟨?_, hfolders, ?_, ?_⟩
  · refine filter_of_kept fun row _ hp => ?_
    rw [hd.syncfolder row (of_decide_eq_true hp)]
    rfl
  · show ((t.localfile.filter _).filter _).filter _ = _
    rw [filter_of_kept, filter_of_kept]
    · intro row _ hp
      rw [hd.localfile row (of_decide_eq_true hp)]
      rfl
    · intro row hrow hp
      have hne : row.syncid ≠ some s := of_decide_eq_true hp
      have hin := List.mem_of_mem_filter hrow
      have hleft : row ∈ (t.delete d).localfile := by
        refine mem_localfile_delete.mpr ⟨hin, hd.localfile row hne, hsync hne (hv.fileSync row hin), fun p hp => ?_⟩
        obtain ⟨q, hq, hqne, hqid⟩ := parent_of_other
          (fun folder hf hs => (hno folder hf hs).2 row hin) hne hp (hv.fileParent row hin p hp)
        have hqin : q ∈ (t.delete d).localfolder.filter fun row => row.syncid ≠ some s := by
          rw [hfolders]
          exact List.mem_filter.mpr ⟨hq, decide_eq_true hqne⟩
        exact ⟨q, List.mem_of_mem_filter hqin, hqid⟩
      exact (List.mem_filter.mp hleft).2
  · show ((t.syncedfolder.filter _).filter _).filter _ = _
    rw [filter_of_kept, filter_of_kept]
    · intro row _ hp
      rw [hd.syncedfolder row (of_decide_eq_true hp)]
      rfl
    · intro row hrow hp
      have hin := List.mem_of_mem_filter hrow
      exact decide_eq_true (hd.hasSync (of_decide_eq_true hp) (hv.syncedSync row hin))

/-! ## What a removal comes to -/

/-- Rows of a sync, and what the keys take along, are gone. -/
structure Removes (s : ℕ) (t t' : Tables) : Prop where
  folder : t'.folder = t.folder
  localfolder : t'.localfolder ⊆ t.localfolder
  localfile : t'.localfile ⊆ t.localfile
  syncedfolder : t'.syncedfolder ⊆ t.syncedfolder
  others : t.Valid → NoCrossing s t → SameOthers s t t'

theorem Removes.refl : Removes s t t :=
  ⟨rfl, List.Subset.refl _, List.Subset.refl _, List.Subset.refl _, fun _ _ => .refl⟩

theorem NoCrossing.of_removes (hno : NoCrossing s t) (h : Removes s t t') : NoCrossing s t' := by
  intro folder hf hs
  obtain ⟨hfolders, hfiles⟩ := hno folder (h.localfolder hf) hs
  exact ⟨fun row hrow => hfolders row (h.localfolder hrow), fun row hrow => hfiles row (h.localfile hrow)⟩

theorem Removes.trans {t'' : Tables} (h : Removes s t t') (h' : Removes s t' t'') (hv : t'.Valid) :
    Removes s t t'' where
  folder := h'.folder.trans h.folder
  localfolder := List.Subset.trans h'.localfolder h.localfolder
  localfile := List.Subset.trans h'.localfile h.localfile
  syncedfolder := List.Subset.trans h'.syncedfolder h.syncedfolder
  others := fun hvalid hno => (h.others hvalid hno).trans (h'.others hv (hno.of_removes h))

theorem removes_delete (hd : d.Of s) : Removes s t (t.delete d) where
  folder := rfl
  localfolder := localfolder_delete_sublist.subset
  localfile := fun _ hrow => (mem_localfile_delete.mp hrow).1
  syncedfolder := fun _ hrow => (mem_syncedfolder_delete.mp hrow).1
  others := fun hv hno => sameOthers_delete hv hno hd

/-- No row of the sync is left. -/
structure Gone (s : ℕ) (t : Tables) : Prop where
  localfolder : ∀ row ∈ t.localfolder, row.syncid ≠ some s
  localfile : ∀ row ∈ t.localfile, row.syncid ≠ some s
  syncedfolder : ∀ row ∈ t.syncedfolder, row.syncid ≠ s

/-- Where every row of the sync goes, the others stay exactly where none is in a folder of it. -/
theorem sameOthers_iff (hv : t.Valid) (hv' : t'.Valid) (h : Removes s t t') (hgone : Gone s t') :
    SameOthers s t t' ↔ NoCrossing s t := by
  refine ⟨fun hsame folder hf hs => ?_, h.others hv⟩
  have habsent : ¬ t'.HasFolder folder.id := by
    intro hhas
    obtain ⟨q, hq, hid⟩ := hhas
    have heq : q = folder := List.inj_on_of_nodup_map hv.ids (h.localfolder hq) hf hid
    exact hgone.localfolder q hq (heq ▸ hs)
  refine ⟨fun row hrow hp => ?_, fun row hrow hp => ?_⟩
  · by_contra hne
    have hin : row ∈ t'.localfolder.filter fun row => row.syncid ≠ some s := by
      rw [hsame.localfolder]
      exact List.mem_filter.mpr ⟨hrow, decide_eq_true hne⟩
    exact habsent (hv'.folderParent row (List.mem_of_mem_filter hin) _ hp)
  · by_contra hne
    have hin : row ∈ t'.localfile.filter fun row => row.syncid ≠ some s := by
      rw [hsame.localfile]
      exact List.mem_filter.mpr ⟨hrow, decide_eq_true hne⟩
    exact habsent (hv'.fileParent row (List.mem_of_mem_filter hin) _ hp)

end Pclsync.Syncs.Removal
