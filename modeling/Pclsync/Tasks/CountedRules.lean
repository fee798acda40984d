import Pclsync.Tasks.CountedCalls
import Mathlib.Data.List.Perm.Basic

/-! What each call on the counted records keeps.

A reference is held by an open file or by the call that is running. -/
namespace Pclsync.Tasks.Counted
open Lib.Referenced

/-- The overlay, and the open files. -/
abbrev State := Store FolderTasks Files

/-- The references that open files hold. -/
def refs (files : Files) : List ℕ := files.openfiles.map OpenFile.currentfolder

/-- The counts are right while a call holds some references, and `P` holds of every record. -/
def Holds (P : FolderTasks → Prop) (temp : List ℕ) (s : State) : Prop := Valid idle P (temp ++ refs s.env) s

/-- A record that is there, or a new one. -/
def Known (s : State) (folderid : ℤ) (d : FolderTasks) : Prop := d.folderid = folderid ∧ ((∃ a, s.Data a d) ∨ d = ⟨folderid, {}, 0⟩)

variable {P Q : FolderTasks → Prop} {temp : List ℕ} {s : State} {a : ℕ} {folderid : ℤ} {f : FolderTasks → FolderTasks} {name : Name} {db : Database}

theorem Holds.mono (h : Holds P temp s) (hP : ∀ d, P d → Q d) : Holds Q temp s := Valid.mono h hP

theorem Holds.getOrCreate (h : Holds P temp s) (hnew : P ⟨folderid, {}, 0⟩) : Does (getOrCreateFolderTasks folderid) s fun a s' =>
    Holds P (a :: temp) s' ∧ s'.env = s.env ∧ (∀ d, s'.Data a d → Known s folderid d) ∧ ∀ b d, s.Data b d → s'.Data b d := by
  refine (Valid.does_acquireOr h hnew (decide_eq_true rfl)).mono fun a s' ⟨hvalid, henv, hdata, hkept⟩ => ⟨?_, henv, fun d hd => ?_, hkept⟩
  · rw [Holds, henv]
    exact hvalid
  · obtain ⟨hold, hid⟩ := hdata a d hd
    exact ⟨of_decide_eq_true (hid rfl), hold.imp_left fun hold => ⟨a, hold⟩⟩

theorem Holds.get (h : Holds P temp s) : Does (getFolderTasks folderid) s fun
    | none, s' => s' = s ∧ ∀ a d, s.Data a d → d.folderid ≠ folderid
    | some a, s' => Holds P (a :: temp) s' ∧ s'.env = s.env ∧ ∀ b d, s'.Data b d → s.Data b d ∧ (b = a → d.folderid = folderid) := by
  refine (Valid.does_acquire h).mono fun a s' hpost => ?_
  cases a with
  | none => exact ⟨hpost.1, fun a d hd => of_decide_eq_false (hpost.2 a d hd)⟩
  | some a =>
    obtain ⟨hvalid, henv, hdata⟩ := hpost
    refine ⟨?_, henv, fun b d hd => ⟨(hdata b d hd).1, fun hba => of_decide_eq_true ((hdata b d hd).2 hba)⟩⟩
    rw [Holds, henv]
    exact hvalid

theorem Holds.does_load (h : Holds P temp s) (ha : a ∈ temp ++ refs s.env) : Does (load a) s fun d s' => s' = s ∧ s.Data a d ∧ P d :=
  Valid.does_load h ha

theorem Holds.does_edit (h : Holds P temp s) (ha : a ∈ temp ++ refs s.env) (hf : ∀ d, s.Data a d → P d → P (f d)) :
    Does (edit a f) s fun _ s' => Holds P temp s' ∧ s'.env = s.env := by
  refine (Valid.does_edit h ha hf).mono fun _ s' ⟨hvalid, henv⟩ => ⟨?_, henv⟩
  rw [Holds, henv]
  exact hvalid

theorem Holds.release (h : Holds P (a :: temp) s) : Does (releaseFolderTasks a) s fun _ s' => Holds P temp s' ∧ s'.env = s.env := by
  refine (Valid.does_release h).mono fun _ s' ⟨hvalid, henv⟩ => ⟨?_, henv⟩
  rw [Holds, henv]
  exact hvalid

/-- The end of a call. -/
theorem Holds.release_pure {α : Type} {x : α} (h : Holds P (a :: temp) s) :
    Does (do releaseFolderTasks a; pure x) s fun _ s' => Holds P temp s' ∧ s'.env = s.env :=
  h.release.bind fun _ _ hpost => does_pure.mpr hpost

theorem Holds.releaseIfAny {folder : Option ℕ} (h : Holds P (folder.toList ++ temp) s) :
    Does (releaseIfAny folder) s fun _ s' => Holds P temp s' ∧ s'.env = s.env := by
  cases folder with
  | none => exact does_pure.mpr ⟨h, rfl⟩
  | some a => exact Holds.release h

theorem Holds.loadIfAny {folder : Option ℕ} (h : Holds P (folder.toList ++ temp) s) :
    Does (loadIfAny folder) s fun tasks s' => s' = s ∧ ∀ d ∈ tasks, P d ∧ ∃ a ∈ folder, s.Data a d := by
  cases folder with
  | none => exact does_pure.mpr ⟨rfl, fun d hd => by cases hd⟩
  | some a =>
    rw [Counted.loadIfAny, ← bind_pure_comp, does_bind]
    refine (Holds.does_load h (.head _)).mono fun d s' ⟨hs, hdata, hP⟩ => does_pure.mpr ⟨hs, fun x hx => ?_⟩
    cases hx
    exact ⟨hP, a, rfl, hdata⟩

/-- What a call that may find no folder holds. -/
theorem Holds.getIfAny (h : Holds P temp s) : Does (getFolderTasks folderid) s fun folder s' =>
    Holds P (folder.toList ++ temp) s' ∧ s'.env = s.env ∧ (folder = none → s' = s ∧ ∀ a d, s.Data a d → d.folderid ≠ folderid) := by
  refine h.get.mono fun folder s' hpost => ?_
  cases folder with
  | none =>
    obtain ⟨rfl, hnone⟩ := hpost
    exact ⟨h, rfl, fun _ => ⟨rfl, hnone⟩⟩
  | some a => exact ⟨hpost.1, hpost.2.1, fun hnone => (nomatch hnone)⟩

theorem Holds.look (h : Holds P temp s) : Does (look folderid) s fun _ s' => Holds P temp s' ∧ s'.env = s.env := by
  refine h.getIfAny.bind fun folder s₁ ⟨h₁, henv₁, _⟩ => h₁.loadIfAny.bind fun tasks s₂ ⟨hs₂, _⟩ => ?_
  subst hs₂
  refine h₁.releaseIfAny.bind fun _ s₃ ⟨h₃, henv₃⟩ => does_pure.mpr ⟨h₃, henv₃.trans henv₁⟩

theorem Holds.withNewFolder (h : Holds P temp s) (hnew : P ⟨folderid, {}, 0⟩) (hf : ∀ d, Known s folderid d → P d → P (f d)) :
    Does (withNewFolder folderid f) s fun _ s' => Holds P temp s' ∧ s'.env = s.env := by
  refine (h.getOrCreate hnew).bind fun a s₁ ⟨h₁, henv₁, hdata, _⟩ => ?_
  refine (h₁.does_edit (.head _) fun d hd => hf d (hdata d hd)).bind fun _ s₂ ⟨h₂, henv₂⟩ => ?_
  exact h₂.release.mono fun _ s₃ ⟨h₃, henv₃⟩ => ⟨h₃, henv₃.trans (henv₂.trans henv₁)⟩

theorem Holds.withFolder (h : Holds P temp s) (hf : ∀ d, P d → P (f d)) :
    Does (withFolder folderid f) s fun _ s' => Holds P temp s' ∧ s'.env = s.env := by
  refine h.getIfAny.bind fun folder s₁ ⟨h₁, henv₁, hnone⟩ => ?_
  cases folder with
  | none =>
    obtain ⟨rfl, _⟩ := hnone rfl
    exact does_pure.mpr ⟨h, rfl⟩
  | some a =>
    refine (h₁.does_load (.head _)).bind fun d s₂ ⟨hs₂, _⟩ => ?_
    subst hs₂
    refine (h₁.does_edit (.head _) fun d _ => hf d).bind fun _ s₃ ⟨h₃, henv₃⟩ => ?_
    exact h₃.release.bind fun _ s₄ ⟨h₄, henv₄⟩ => does_pure.mpr ⟨h₄, henv₄.trans (henv₃.trans henv₁)⟩

/-- An edit of a folder whose result is not used. -/
theorem Holds.withFolder_ (h : Holds P temp s) (hf : ∀ d, P d → P (f d)) :
    Does (do let _ ← Counted.withFolder folderid f) s fun _ s' => Holds P temp s' ∧ s'.env = s.env :=
  (h.withFolder hf).bind fun _ _ hpost => does_pure.mpr hpost

/-! ### Open files -/

theorem Holds.setOpenfiles {held : List ℕ} {openfiles : List OpenFile} (h : Valid idle P held s)
    (hperm : held.Perm (temp ++ openfiles.map OpenFile.currentfolder)) : Does (setOpenfiles openfiles) s fun _ s' => Holds P temp s' :=
  does_modify.mpr ((h.perm hperm).env _)

/-- An open file taken out of the list. -/
theorem refs_perm {files : Files} {i : ℕ} {fl : OpenFile} (hi : files.openfiles[i]? = some fl) :
    (refs files).Perm (fl.currentfolder :: (files.openfiles.eraseIdx i).map OpenFile.currentfolder) := by
  obtain ⟨hlt, hget⟩ := List.getElem?_eq_some_iff.mp hi
  have hperm := (List.getElem_cons_eraseIdx_perm hlt).map OpenFile.currentfolder
  rw [hget] at hperm
  exact hperm.symm

/-- An open file is changed, while its folder stays the same. -/
theorem Holds.setFile {i : ℕ} {fl fl' : OpenFile} (h : Holds P temp s) (hi : s.env.openfiles[i]? = some fl)
    (hfolder : fl'.currentfolder = fl.currentfolder) : Does (setFile i fl') s fun _ s' => Holds P temp s' := by
  refine does_bind.mpr (does_get.mpr (Holds.setOpenfiles h (List.Perm.append_left _ ?_)))
  obtain ⟨hlt, _⟩ := List.getElem?_eq_some_iff.mp hi
  have hset := (List.set_perm_cons_eraseIdx hlt fl').map OpenFile.currentfolder
  rw [List.map_cons, hfolder] at hset
  exact (refs_perm hi).trans hset.symm

theorem Holds.mem_refs {i : ℕ} {fl : OpenFile} (hi : s.env.openfiles[i]? = some fl) : fl.currentfolder ∈ temp ++ refs s.env :=
  List.mem_append_right _ (List.mem_map_of_mem (List.mem_of_getElem? hi))

theorem Holds.renameOpenfileLocked {fileid : ℤ} (h : Holds P temp s) (hnew : P ⟨folderid, {}, 0⟩) :
    Does (renameOpenfileLocked fileid folderid name) s fun _ s' => Holds P temp s' := by
  refine does_bind.mpr (does_get.mpr ?_)
  cases s.env.openfiles.findIdx? fun fl => fl.opened ∧ fl.fileid = fileid with
  | none => exact does_pure.mpr h
  | some i =>
    dsimp only
    cases hi : s.env.openfiles[i]? with
    | none => exact does_pure.mpr h
    | some fl =>
      refine (h.does_load (Holds.mem_refs hi)).bind fun d s₁ ⟨hs₁, _⟩ => ?_
      subst hs₁
      split_ifs
      · -- the other references are held all the time
        have hperm : (temp ++ refs s₁.env).Perm (fl.currentfolder :: (temp ++ (s₁.env.openfiles.eraseIdx i).map OpenFile.currentfolder)) :=
          ((refs_perm hi).append_left temp).trans List.perm_middle
        refine (Valid.does_release (Valid.perm h hperm)).bind fun _ s₂ ⟨h₂, henv₂⟩ => ?_
        refine (Valid.does_acquireOr h₂ hnew (decide_eq_true rfl)).bind fun a s₃ ⟨h₃, henv₃, _⟩ => ?_
        refine does_bind.mpr (does_get.mpr (Holds.setOpenfiles h₃ ?_))
        obtain ⟨hlt, _⟩ := List.getElem?_eq_some_iff.mp hi
        rw [henv₃, henv₂]
        have hset := (List.set_perm_cons_eraseIdx hlt { fl with currentfolder := a, currentname := name }).map OpenFile.currentfolder
        exact List.perm_middle.symm.trans (hset.symm.append_left temp)
      · exact h.setFile hi rfl

/-- The reference to the folder goes to the open file, or back. -/
theorem Holds.createFile {fileid : ℤ} (h : Holds P (a :: temp) s) : Does (createFile fileid a name) s fun _ s' => Holds P temp s' := by
  refine does_bind.mpr (does_get.mpr ?_)
  cases hfind : s.env.openfiles.findIdx? fun fl => fl.opened ∧ fl.fileid = fileid with
  | none =>
    refine Holds.setOpenfiles h ?_
    rw [List.map_append, List.map_singleton, ← List.append_assoc]
    exact (@List.perm_append_comm _ [a] _).trans (List.Perm.refl _)
  | some i =>
    dsimp only
    cases hi : s.env.openfiles[i]? with
    | none =>
      -- the place that was found is one of the list
      have hlt := (List.findIdx?_eq_some_iff_getElem.mp hfind).1
      rw [List.getElem?_eq_getElem hlt] at hi
      cases hi
    | some fl =>
      refine (h.setFile hi ?_).bind fun _ s₁ h₁ => h₁.release.mono fun _ _ hpost => hpost.1
      rfl

theorem Holds.openIn {fileid : ℤ} (h : Holds P (a :: temp) s) : Does (openIn fileid a name) s fun _ s' => Holds P temp s' := by
  refine (Valid.does_retain h (.head _)).bind fun _ s₁ ⟨h₁, henv₁⟩ => ?_
  have h₁' : Holds P (a :: a :: temp) s₁ := by
    rw [Holds, henv₁]
    exact h₁
  exact h₁'.createFile.bind fun _ s₂ h₂ => h₂.release.mono fun _ _ hpost => hpost.1

theorem Holds.decOfRefcnt {i : ℕ} (h : Holds P temp s) : Does (decOfRefcnt i) s fun _ s' => Holds P temp s' := by
  refine does_bind.mpr (does_get.mpr ?_)
  cases hi : s.env.openfiles[i]? with
  | none => exact does_pure.mpr h
  | some fl => exact h.setFile hi rfl

theorem Holds.incOfRefcnt {i : ℕ} (h : Holds P temp s) : Does (incOfRefcnt i) s fun _ s' => Holds P temp s' := by
  refine does_bind.mpr (does_get.mpr ?_)
  cases hi : s.env.openfiles[i]? with
  | none => exact does_pure.mpr h
  | some fl => exact h.setFile hi rfl

theorem Holds.updateFileid {i : ℕ} {fileid : ℤ} (h : Holds P temp s) : Does (updateFileid i fileid) s fun _ s' => Holds P temp s' := by
  refine does_bind.mpr (does_get.mpr ?_)
  cases hi : s.env.openfiles[i]? with
  | none => exact does_pure.mpr h
  | some fl => exact h.setFile hi rfl

theorem Holds.freeOpenfile {i : ℕ} (h : Holds P temp s) (hf : ∀ d name, P d → P (d.drop .creats name 0)) :
    Does (freeOpenfile i) s fun _ s' => Holds P temp s' := by
  refine does_bind.mpr (does_get.mpr ?_)
  cases hi : s.env.openfiles[i]? with
  | none => exact does_pure.mpr h
  | some fl =>
    have hrest : ∀ s₁, Holds P temp s₁ → s₁.env = s.env → Does (do
        Counted.setOpenfiles (s.env.openfiles.eraseIdx i)
        releaseFolderTasks fl.currentfolder) s₁ fun _ s' => Holds P temp s' := fun s₁ h₁ henv₁ => by
      have hperm : (temp ++ refs s₁.env).Perm (fl.currentfolder :: temp ++ (s.env.openfiles.eraseIdx i).map OpenFile.currentfolder) := by
        rw [henv₁]
        exact ((refs_perm hi).append_left temp).trans List.perm_middle
      exact (Holds.setOpenfiles h₁ hperm).bind fun _ s₂ h₂ => h₂.release.mono fun _ _ hpost => hpost.1
    dsimp only
    split_ifs with hopened hfake
    · exact does_pure.mpr h
    · exact (h.does_edit (Holds.mem_refs hi) fun d _ => hf d _).bind fun _ s₁ ⟨h₁, henv₁⟩ => hrest s₁ h₁ henv₁
    · exact hrest s h rfl

end Pclsync.Tasks.Counted
