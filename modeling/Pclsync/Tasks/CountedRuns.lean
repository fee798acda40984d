import Pclsync.Lib.Transition
import Pclsync.Tasks.CountedRules

/-! Runs of the calls on the counted records.

The counts are right in every run. No name is made twice in a run in which no call makes one that is there. -/
namespace Pclsync.Tasks.Counted
open Lib.BinaryTree Lib.Referenced Lib.Transition

/-! ### Edits -/

section
variable {strict : Prop} {d : FolderTasks} {k : Kind} {name : Name} {taskid : ℕ} {r r' : Record}

theorem not_has_of_find (h : d.find k name 0 = none) : ¬Has (k.tree d.tasks) name := searchTree_eq_none.mp h

theorem owes_mkdir (h : Owes strict 0 d) (hr : d.find .mkdirs r.name 0 = none) : Owes strict 0 ((d.insert .mkdirs r).count 1) :=
  (h.insert fun _ _ => not_has_of_find hr).counted

theorem owes_hide (h : Owes strict 0 d) (hk : k = .rmdirs ∨ k = .unlinks) : Owes strict 0 ((d.insert k r).count 1) := (h.hide hk).counted

/-- Something hidden, and something made where it was dropped. -/
theorem owes_replace {l : Kind} (h : Owes strict 0 d) (hk : k = .rmdirs ∨ k = .unlinks) (hl : l = .mkdirs ∨ l = .creats) (hname : r'.name = name) :
    Owes strict 0 ((((d.drop l name 0).insert k r).insert l r').count 2) :=
  h.drop.make hk (by rcases hk with rfl | rfl <;> rcases hl with rfl | rfl <;> decide) fun hs => hname ▸ h.not_has_drop hs hl

theorem owes_addCreat (h : Owes strict 0 d) (hname : strict → ¬Has d.tasks.creats name) : Owes strict 0 (addCreat name taskid d) :=
  h.make (.inr rfl) (by decide) hname

theorem owes_localCreat (h : Owes strict 0 d) (hname : strict → ¬Has d.tasks.creats name) :
    Owes strict 0 (((d.insert .unlinks ⟨name, taskid, 0, 0⟩).insert .creats ⟨name, taskid, 0, 0⟩).count 2) :=
  h.make (.inr rfl) (by decide) hname

/-- A file that is renamed takes the place of another one. -/
theorem owes_renamed {id : ℤ} (h : Owes strict 0 d) :
    Owes strict 0 ((((d.drop .creats name 0).insert .unlinks ⟨name, taskid, id, 0⟩).insert .creats ⟨name, taskid, id, 0⟩).count 2) :=
  owes_replace h (.inr rfl) (.inr rfl) rfl

theorem owes_addModifiedFile {fileid : ℤ} {commit : Option ℕ} (h : Owes strict 0 d) : Owes strict 0 (addModifiedFile name fileid commit d) := by
  cases commit with
  | none => exact h.drop
  | some taskid => exact owes_replace h (.inr rfl) (.inr rfl) rfl

theorem owes_injectStatic (h : Owes strict 0 d) : Owes strict 0 (injectStatic name taskid d) := by
  have hinject : ∀ {d : FolderTasks}, Owes strict 0 d → (strict → ¬Has d.tasks.creats name) →
      Owes strict 0 (((d.insert .unlinks ⟨name, taskid, 0, 0⟩).count 1 |>.insert .creats ⟨name, taskid, 0, 0⟩).count 1) := fun h hname =>
    ((owes_hide h (.inr rfl)).insert (k := .creats) (r := ⟨name, taskid, 0, 0⟩) fun hs _ => hname hs).counted
  unfold injectStatic
  cases hfind : d.find .creats name 0 with
  | none => exact hinject h fun _ => not_has_of_find hfind
  | some cr =>
    have hdrop : Owes strict 0 (d.drop .unlinks name cr.taskid) := h.drop
    exact hinject hdrop.drop fun hs => hdrop.not_has_drop hs (.inr rfl)

/-- The new creat stays, the one of the static file goes. -/
theorem owes_reopenStatic {old : ℕ} (h : Owes strict 0 d) (hold : strict → ∀ r, d.find .creats name 0 = some r → r.taskid = old) :
    Owes strict 0 (((addCreat name taskid d).drop .creats name old).drop .unlinks name old) := by
  have hweak : Owes False 0 (addCreat name taskid d) :=
    owes_addCreat ⟨h.taskscnt, h.sorted, fun hfalse => hfalse.elim⟩ fun hfalse => hfalse.elim
  have hdropped : Owes False 0 ((addCreat name taskid d).drop .creats name old) := hweak.drop
  refine Owes.drop ⟨hdropped.taskscnt, hdropped.sorted, fun hs k hk => ?_⟩
  rcases hk with rfl | rfl
  · rw [tree_drop_ne (by decide)]
    exact h.unique hs _ (.inl rfl)
  · rw [tree_drop]
    have hcreats : Kind.creats.tree (addCreat name taskid d).tasks = insertIntoTree d.tasks.creats ⟨name, taskid, -taskid, 0⟩ := rfl
    have hunique := h.unique hs .creats (.inr rfl)
    rw [hcreats]
    cases hfind : d.find .creats name 0 with
    | none => exact nodup_deleteFromTree (nodup_insertIntoTree hunique (not_has_of_find hfind))
    | some r =>
      obtain ⟨hmem, hname⟩ := searchTree_some hfind
      have htaskid := hold hs r hfind
      -- one of the two is found, and it is the only other one of the name
      cases hfound : searchTree (insertIntoTree d.tasks.creats ⟨name, taskid, -taskid, 0⟩) name old with
      | none =>
        have hno := List.find?_eq_none.mp hfound r (mem_insertIntoTree.mpr (.inr hmem))
        exact absurd (decide_eq_true ⟨hname, .inr htaskid⟩) hno
      | some x =>
        rw [deleteFromTree, hfound]
        have hxmem := List.mem_of_find?_eq_some hfound
        have hxfound := List.find?_some hfound
        have hxname : x.name = name := (of_decide_eq_true hxfound).1
        have hperm := (@insertIntoTree_perm d.tasks.creats ⟨name, taskid, -taskid, 0⟩).erase x
        rw [(hperm.map Record.name).nodup_iff]
        by_cases hx : x = ⟨name, taskid, -taskid, 0⟩
        · rw [hx, List.erase_cons_head]
          exact hunique
        · have hxr : x = r := by
            refine List.inj_on_of_nodup_map hunique ((mem_insertIntoTree.mp hxmem).resolve_left hx) hmem ?_
            rw [hxname, hname]
          have hne : ¬((⟨name, taskid, -taskid, 0⟩ : Record) == x) = true := fun heq => hx (eq_of_beq heq).symm
          rw [List.erase_cons_tail hne, List.map_cons, hxr]
          have hsplit := (List.perm_cons_erase hmem).map Record.name
          rw [List.map_cons] at hsplit
          obtain ⟨hnot, hrest⟩ := List.nodup_cons.mp (hsplit.nodup_iff.mp hunique)
          exact List.nodup_cons.mpr ⟨fun hin => hnot (hname ▸ hin), hrest⟩

/-- A row at the start makes a name that is not there. -/
theorem owes_initEdit {task : Task} (h : Owes strict 0 d) (hmkdirs : strict → task.type = .mkdir ∨ task.type = .renfolderTo → ¬Has d.tasks.mkdirs task.text1)
    (hcreats : strict → task.type = .creat → ¬Has d.tasks.creats task.text1) : Owes strict 0 (initEdit task d) := by
  unfold initEdit
  cases htype : task.type with
  | mkdir =>
    exact (h.insert (k := .mkdirs) (r := ⟨task.text1, task.id, -task.id, if task.text2.isNone then 0 else flagEncrypted⟩) fun hs _ =>
      hmkdirs hs (.inl htype)).counted
  | rmdir => exact owes_hide h.drop (.inl rfl)
  | creat => exact h.make (.inr rfl) (by decide) fun hs => hcreats hs htype
  | unlink => exact owes_hide h.drop (.inr rfl)
  | unSetRev => exact owes_hide h.drop (.inr rfl)
  | renfileFrom => exact owes_hide h.drop (.inr rfl)
  | renfileTo => exact owes_replace h (.inr rfl) (.inr rfl) rfl
  | renfolderFrom => exact owes_hide h.drop (.inl rfl)
  | renfolderTo => exact h.make (.inl rfl) (by decide) fun hs => hmkdirs hs (.inr htype)
  | modify => exact owes_replace h (.inr rfl) (.inr rfl) rfl

end

/-! ### Calls -/

variable {strict : Prop} {s : State} {db : Database} {folderid parentfolderid to_folderid fileid : ℤ} {name new_name : Name} {taskid : ℕ} {i a : ℕ}
  {temp : List ℕ}

/-- The counts are right and the nodes in order. With `strict`, no name is made twice. -/
abbrev Good (strict : Prop) (s : State) : Prop := Holds (Owes strict 0) [] s

/-- A record of a folder has a node of a name. -/
def Taken (s : State) (k : Kind) (folderid : ℤ) (name : Name) : Prop := ∃ a d, s.Data a d ∧ d.folderid = folderid ∧ Has (k.tree d.tasks) name

/-- A name that is not taken is not in the record of the folder, be it old or new. -/
theorem not_has_of_known {k : Kind} {d : FolderTasks} (h : ¬Taken s k folderid name) (hd : Known s folderid d) : ¬Has (k.tree d.tasks) name := by
  intro hhas
  obtain ⟨hid, ⟨a, hdata⟩ | rfl⟩ := hd
  · exact h ⟨a, d, hdata, hid, hhas⟩
  · cases k <;> exact not_has_nil hhas

theorem good_mkdir {folderflags : ℕ} {key : Except ℤ Unit} {commit : Option ℕ} (h : Good strict s) :
    Does (mkdir db folderid name folderflags key commit) s fun _ s' => Good strict s' := by
  refine (h.getOrCreate owes_new).bind fun a s₁ ⟨h₁, _⟩ => (h₁.does_load (.head _)).bind fun d s₂ ⟨hs₂, hd, _⟩ => ?_
  subst hs₂
  split
  · exact h₁.release_pure.mono fun _ _ hpost => hpost.1
  cases hfind : d.find .mkdirs name 0 with
  | some task => exact h₁.release_pure.mono fun _ _ hpost => hpost.1
  | none =>
    cases hkey : if folderflags &&& flagEncrypted ≠ 0 then key else .ok () with
    | error e =>
      exact h₁.release_pure.mono fun _ _ hpost => hpost.1
    | ok _ =>
      cases commit with
      | none => exact h₁.release_pure.mono fun _ _ hpost => hpost.1
      | some taskid =>
        refine (h₁.does_edit (.head _) fun d' hd' hgood => owes_mkdir hgood ?_).bind fun _ s₃ ⟨h₃, _⟩ =>
          h₃.release_pure.mono fun _ _ hpost => hpost.1
        rw [← Valid.data_inj h₁ hd hd']
        exact hfind

theorem good_canRmdirFound {P : FolderTasks → Prop} {folder : Option ℕ} {cfolderid : ℤ} (h : Holds P folder.toList s) :
    Does (canRmdirFound db folder cfolderid) s fun _ s' => Holds P [] s' := by
  refine h.getIfAny.bind fun cfolder s₁ ⟨h₁, _⟩ => h₁.loadIfAny.bind fun ctasks s₂ ⟨hs₂, _⟩ => ?_
  subst hs₂
  refine h₁.releaseIfAny.bind fun _ s₃ ⟨h₃, _⟩ => ?_
  have h₃' : Holds P (folder.toList ++ []) s₃ := by
    rw [List.append_nil]
    exact h₃
  exact h₃'.releaseIfAny.bind fun _ s₄ ⟨h₄, _⟩ => does_pure.mpr h₄

/-- There is a record of the folder, or a row of the name. -/
def Checked (s : State) (db : Database) (folderid : ℤ) (name : Name) : Prop :=
  (∃ a d, s.Data a d ∧ d.folderid = folderid) ∨ (db.folderNamed folderid name).isSome

theorem good_canRmdir {P : FolderTasks → Prop} (h : Holds P [] s) (hchecked : Checked s db folderid name) :
    Does (canRmdir db folderid name) s fun _ s' => Holds P [] s' := by
  refine h.getIfAny.bind fun folder s₁ ⟨h₁, _, hnone⟩ => h₁.loadIfAny.bind fun tasks s₂ ⟨hs₂, htasks⟩ => ?_
  subst hs₂
  rw [List.append_nil] at h₁
  cases tasks.bind fun tasks => tasks.find .mkdirs name 0 with
  | some mk => exact good_canRmdirFound h₁
  | none =>
    dsimp only
    cases hrow : (db.folderNamed folderid name).filter fun _ => (tasks.bind fun tasks => tasks.find .rmdirs name 0).isNone with
    | some row => exact good_canRmdirFound h₁
    | none =>
      cases folder with
      | some a => exact h₁.release_pure.mono fun _ _ hpost => hpost.1
      | none =>
        -- no record, hence a row, which nothing hides
        obtain ⟨_, hno⟩ := hnone rfl
        have htasks : tasks = none := by
          cases tasks with
          | none => rfl
          | some d =>
            obtain ⟨_, a, ha, _⟩ := htasks d rfl
            cases ha
        obtain ⟨row, hsome⟩ := Option.isSome_iff_exists.mp (hchecked.resolve_left fun ⟨a, d, hd, hid⟩ => hno a d hd hid)
        rw [htasks, hsome] at hrow
        cases hrow

theorem good_rmdirFound {cfolderid : ℤ} {commit : Option ℕ} (h : Holds (Owes strict 0) [a] s) :
    Does (rmdirFound db a name cfolderid commit) s fun _ s' => Good strict s' := by
  refine h.getIfAny.bind fun cfolder s₁ ⟨h₁, _⟩ => h₁.loadIfAny.bind fun ctasks s₂ ⟨hs₂, _⟩ => ?_
  subst hs₂
  refine h₁.releaseIfAny.bind fun _ s₃ ⟨h₃, _⟩ => ?_
  split
  · cases commit with
    | none => exact h₃.release_pure.mono fun _ _ hpost => hpost.1
    | some taskid =>
      exact (h₃.does_edit (.head _) fun d _ hd => owes_hide hd (.inl rfl)).bind fun _ s₄ ⟨h₄, _⟩ =>
        h₄.release_pure.mono fun _ _ hpost => hpost.1
  · exact h₃.release_pure.mono fun _ _ hpost => hpost.1

theorem good_rmdir {commit : Option ℕ} (h : Good strict s) : Does (rmdir db folderid name commit) s fun _ s' => Good strict s' := by
  refine (h.getOrCreate owes_new).bind fun a s₁ ⟨h₁, _⟩ => (h₁.does_load (.head _)).bind fun d s₂ ⟨hs₂, _⟩ => ?_
  subst hs₂
  cases d.find .mkdirs name 0 with
  | some mk => exact (h₁.does_edit (.head _) fun d _ hd => hd.drop).bind fun _ s₃ ⟨h₃, _⟩ => good_rmdirFound h₃
  | none =>
    dsimp only
    cases (db.folderNamed folderid name).filter fun _ => (d.find .rmdirs name 0).isNone with
    | none => exact h₁.release_pure.mono fun _ _ hpost => hpost.1
    | some row => exact good_rmdirFound h₁

/-- Where a folder goes to, no other one is being made under its new name. -/
theorem good_renameFolder {targetflags : ℕ} {commit : Option (ℕ × ℕ)} (h : Good strict s)
    (hfree : strict → commit.isSome → new_name ≠ name → ¬Taken s .mkdirs to_folderid new_name) :
    Does (renameFolder folderid parentfolderid name to_folderid new_name targetflags commit) s fun _ s' => Good strict s' := by
  -- the first part takes nothing of the new name
  let Free (d : FolderTasks) : Prop :=
    Owes strict 0 d ∧ (strict → commit.isSome → new_name ≠ name → d.folderid = to_folderid → ¬Has d.tasks.mkdirs new_name)
  have hnew : ∀ folderid, Free ⟨folderid, {}, 0⟩ := fun _ => ⟨owes_new, fun _ _ _ _ => not_has_nil⟩
  have hstart : Holds Free [] s := Valid.strengthen h fun e he howes => ⟨howes, fun hs hcommit hne hid hhas =>
    hfree hs hcommit hne ⟨e.1, e.2.data, ⟨e.2.refcnt, he⟩, hid, hhas⟩⟩
  refine hstart.look.bind fun _ s₁ ⟨h₁, _⟩ => (h₁.getOrCreate (hnew _)).bind fun a s₂ ⟨h₂, _⟩ => ?_
  cases commit with
  | none => exact h₂.release_pure.mono fun _ _ hpost => hpost.1.mono fun _ hd => hd.1
  | some commit =>
    obtain ⟨ftaskid, ttaskid⟩ := commit
    refine (h₂.does_edit (.head _) fun d _ hd => ⟨owes_hide hd.1.drop (.inl rfl), fun hs hcommit hne hid hhas => ?_⟩).bind fun _ s₃ ⟨h₃, _⟩ => ?_
    · have hmkdirs : Has (Kind.mkdirs.tree (d.drop .mkdirs name 0).tasks) new_name := hhas
      rw [tree_drop] at hmkdirs
      obtain ⟨r, hr, hname⟩ := has_iff.mp hmkdirs
      refine hd.2 hs hcommit hne ?_ (has_iff.mpr ⟨r, mem_of_mem_deleteFromTree hr, hname⟩)
      have hsame : (d.drop .mkdirs name 0).folderid = d.folderid := by
        unfold FolderTasks.drop
        split_ifs <;> rfl
      exact hsame ▸ hid
    · refine h₃.release.bind fun _ s₄ ⟨h₄, _⟩ => ?_
      have hweak : Good strict s₄ := h₄.mono fun _ hd => hd.1
      refine (hweak.withNewFolder owes_new fun d hknown hd => ?_).bind fun _ s₅ ⟨h₅, _⟩ => does_pure.mpr h₅
      refine hd.drop.make (.inl rfl) (by decide) fun hs hhas => ?_
      have htree : Kind.mkdirs.tree (d.drop .mkdirs name 0).tasks = deleteFromTree d.tasks.mkdirs name 0 := tree_drop
      rw [htree] at hhas
      by_cases hne : new_name = name
      · exact has_deleteFromTree (hd.unique hs .mkdirs (.inl rfl)) (hne ▸ hhas)
      · obtain ⟨r, hr, hname⟩ := has_iff.mp hhas
        have hold : Has d.tasks.mkdirs new_name := has_iff.mpr ⟨r, mem_of_mem_deleteFromTree hr, hname⟩
        obtain ⟨hid, ⟨b, hdata⟩ | rfl⟩ := hknown
        · exact (Valid.data_of h₄ hdata).2 hs rfl hne hid hold
        · exact not_has_nil hold

theorem good_folderCreated {sfolderid : Option ℤ} (h : Good strict s) :
    Does (folderCreated parentfolderid taskid folderid name sfolderid) s fun _ s' => Good strict s' := by
  have hmove : ∀ s, Good strict s → Does (do let _ ← withFolder (-taskid) fun tasks => { tasks with folderid := folderid }) s
      fun _ s' => Good strict s' := fun s h => (h.withFolder_ fun d hd => hd.folderid).mono fun _ _ hpost => hpost.1
  refine (h.withFolder fun d hd => hd.drop).bind fun tasks s₁ ⟨h₁, _⟩ => ?_
  cases tasks.bind fun tasks => tasks.find .mkdirs name taskid with
  | some mk => exact hmove s₁ h₁
  | none =>
    cases sfolderid with
    | none => exact hmove s₁ h₁
    | some sfolderid => exact (h₁.withFolder fun d hd => hd.setId).bind fun _ s₂ ⟨h₂, _⟩ => hmove s₂ h₂

theorem good_folderDeleted (h : Good strict s) : Does (folderDeleted parentfolderid taskid name) s fun _ s' => Good strict s' :=
  (h.withFolder_ fun _ hd => hd.drop).mono fun _ _ hpost => hpost.1

theorem good_folderRenamed {from_row : Option (ℕ × ℤ × Name)} (h : Good strict s) :
    Does (folderRenamed parentfolderid taskid name from_row) s fun _ s' => Good strict s' := by
  refine (h.withFolder fun d hd => hd.drop.drop).bind fun _ s₁ ⟨h₁, _⟩ => ?_
  cases from_row with
  | none => exact does_pure.mpr h₁
  | some row => exact (h₁.withFolder_ fun _ hd => hd.drop).mono fun _ _ hpost => hpost.1

theorem good_addLocalCreatStatic (h : Good strict s) : Does (addLocalCreatStatic db folderid name) s fun _ s' => Good strict s' := by
  refine (h.getOrCreate owes_new).bind fun a s₁ ⟨h₁, _⟩ => (h₁.does_load (.head _)).bind fun d s₂ ⟨hs₂, hd, _⟩ => ?_
  subst hs₂
  split
  · exact h₁.release_pure.mono fun _ _ hpost => hpost.1
  next hfree =>
    refine does_bind.mpr (does_get.mpr ?_)
    refine (h₁.does_edit (.head _) fun d' hd' hgood => owes_localCreat hgood fun _ => ?_).bind fun _ s₃ ⟨h₃, _⟩ => ?_
    · rw [← Valid.data_inj h₁ hd hd']
      exact not_has_of_find (Option.not_isSome_iff_eq_none.mp fun hsome => hfree (.inl hsome))
    · have h₄ : Holds (Owes strict 0) [a] { s₃ with env := { s₃.env with localTaskid := s₃.env.localTaskid - 1 } } := Valid.env h₃ _
      exact does_bind.mpr (does_modify.mpr (h₄.release_pure.mono fun _ _ hpost => hpost.1))

theorem good_canUnlink {P : FolderTasks → Prop} (h : Holds P [] s) : Does (canUnlink db folderid name) s fun _ s' => Holds P [] s' := by
  refine h.getIfAny.bind fun folder s₁ ⟨h₁, _⟩ => h₁.loadIfAny.bind fun tasks s₂ ⟨hs₂, _⟩ => ?_
  subst hs₂
  split
  · exact h₁.releaseIfAny.bind fun _ _ hpost => does_pure.mpr hpost.1
  · split
    · exact h₁.releaseIfAny.bind fun _ _ hpost => does_pure.mpr hpost.1
    · exact h₁.releaseIfAny.bind fun _ _ hpost => does_pure.mpr hpost.1

theorem Holds.unlinked (h : Holds (Owes strict 0) [a] s) (commit : Option ℕ) :
    Does (match commit with
      | none => do
        releaseFolderTasks a
        pure (-eio)
      | some taskid => do
        edit a fun tasks => (tasks.insert .unlinks ⟨name, taskid, fileid, 0⟩).count 1
        releaseFolderTasks a
        pure 0) s fun _ s' => Good strict s' := by
  cases commit with
  | none => exact h.release_pure.mono fun _ _ hpost => hpost.1
  | some taskid =>
    exact (h.does_edit (.head _) fun d _ hd => owes_hide hd (.inr rfl)).bind fun _ s₁ hs₁ =>
      hs₁.1.release_pure.mono fun _ _ hpost => hpost.1

theorem good_unlinkFound {history : Option ℤ} {commit : Option ℕ} (h : Holds (Owes strict 0) [a] s) :
    Does (unlinkFound a name fileid history commit) s fun _ s' => Good strict s' := by
  unfold unlinkFound
  cases history with
  | none => exact h.unlinked commit
  | some folderid => exact h.look.bind fun _ s₁ hs₁ => hs₁.1.unlinked commit

theorem good_unlink {history : Option ℤ} {commit : Option ℕ} (h : Good strict s) :
    Does (unlink db folderid name history commit) s fun _ s' => Good strict s' := by
  refine (h.getOrCreate owes_new).bind fun a s₁ ⟨h₁, _⟩ => (h₁.does_load (.head _)).bind fun d s₂ ⟨hs₂, _⟩ => ?_
  subst hs₂
  cases d.find .creats name 0 with
  | none =>
    dsimp only
    cases (db.fileNamed folderid name).filter fun _ => (d.find .unlinks name 0).isNone with
    | none => exact h₁.release_pure.mono fun _ _ hpost => hpost.1
    | some row => exact good_unlinkFound h₁
  | some cr =>
    dsimp only
    split
    · exact (h₁.does_edit (.head _) fun d _ hd => Owes.drop (Owes.drop hd)).bind fun _ s₃ ⟨h₃, _⟩ =>
        h₃.release_pure.mono fun _ _ hpost => hpost.1
    · exact (h₁.does_edit (.head _) fun d _ hd => Owes.drop hd).bind fun _ s₃ ⟨h₃, _⟩ => good_unlinkFound h₃

theorem good_renameFile {commit : Option (ℕ × ℕ)} (h : Good strict s) :
    Does (renameFile fileid parentfolderid name to_folderid new_name commit) s fun _ s' => Good strict s' := by
  refine (h.getOrCreate owes_new).bind fun a s₁ ⟨h₁, _⟩ => ?_
  cases commit with
  | none => exact h₁.release_pure.mono fun _ _ hpost => hpost.1
  | some commit =>
    obtain ⟨ftaskid, ttaskid⟩ := commit
    refine (h₁.does_edit (.head _) fun d _ hd => hd.drop).bind fun _ s₂ ⟨h₂, _⟩ => ?_
    refine (h₂.renameOpenfileLocked owes_new).bind fun _ s₃ h₃ => ?_
    refine (h₃.does_edit (.head _) fun d _ hd => owes_hide hd (.inr rfl)).bind fun _ s₄ ⟨h₄, _⟩ => h₄.release.bind fun _ s₅ ⟨h₅, _⟩ => ?_
    exact (h₅.withNewFolder owes_new fun d _ hd => owes_renamed hd).bind fun _ _ ⟨h₆, _⟩ => does_pure.mpr h₆

theorem good_fileCreated {sfolderid : Option ℤ} (h : Good strict s) :
    Does (fileCreated parentfolderid taskid name fileid sfolderid) s fun _ s' => Good strict s' := by
  refine (h.withFolder fun d hd => hd.drop.drop).bind fun tasks s₁ ⟨h₁, _⟩ => ?_
  cases tasks.bind fun tasks => tasks.find .creats name taskid with
  | some cr => exact does_pure.mpr h₁
  | none =>
    cases sfolderid with
    | none => exact does_pure.mpr h₁
    | some sfolderid => exact (h₁.withFolder_ fun _ hd => hd.setId).mono fun _ _ hpost => hpost.1

theorem good_fileDeleted (h : Good strict s) : Does (fileDeleted parentfolderid taskid name) s fun _ s' => Good strict s' :=
  (h.withFolder_ fun _ hd => hd.drop).mono fun _ _ hpost => hpost.1

theorem good_fileRenamed {from_row : Option (ℕ × ℤ × Name)} (h : Good strict s) :
    Does (fileRenamed folderid taskid name from_row) s fun _ s' => Good strict s' := by
  refine (h.withFolder fun d hd => hd.drop.drop).bind fun _ s₁ ⟨h₁, _⟩ => ?_
  cases from_row with
  | none => exact does_pure.mpr h₁
  | some row => exact (h₁.withFolder_ fun _ hd => hd.drop).mono fun _ _ hpost => hpost.1

theorem good_initTask {task : Task} (h : Good strict s)
    (hmkdirs : strict → task.type = .mkdir ∨ task.type = .renfolderTo → ¬Taken s .mkdirs task.folderid task.text1)
    (hcreats : strict → task.type = .creat → ¬Taken s .creats task.folderid task.text1) :
    Does (initTask task) s fun _ s' => Good strict s' := by
  refine (h.withNewFolder owes_new fun d hknown hd => owes_initEdit hd (fun hs htype => not_has_of_known (hmkdirs hs htype) hknown)
    fun hs htype => not_has_of_known (hcreats hs htype) hknown).bind fun _ s₁ ⟨h₁, _⟩ => ?_
  cases task.type with
  | renfileTo => exact h₁.renameOpenfileLocked owes_new
  | mkdir => exact does_pure.mpr h₁
  | rmdir => exact does_pure.mpr h₁
  | creat => exact does_pure.mpr h₁
  | unlink => exact does_pure.mpr h₁
  | renfileFrom => exact does_pure.mpr h₁
  | renfolderFrom => exact does_pure.mpr h₁
  | renfolderTo => exact does_pure.mpr h₁
  | modify => exact does_pure.mpr h₁
  | unSetRev => exact does_pure.mpr h₁

theorem good_clean (h : Good strict s) : Does clean s fun _ s' => Good strict s' := by
  refine (Valid.does_sweep h fun d _ => Owes.clear).mono fun _ s' ⟨hvalid, henv⟩ => ?_
  rw [Good, Holds, henv]
  exact hvalid

theorem good_addBannedFolder (h : Good strict s) (hfree : strict → ¬Taken s .mkdirs folderid name) :
    Does (addBannedFolder folderid name) s fun _ s' => Good strict s' := by
  refine (h.withNewFolder owes_new fun d hknown hd => ?_).mono fun _ _ hpost => hpost.1
  exact ((hd.insert (k := .mkdirs) (r := ⟨name, 0, 0, flagInvisible⟩) fun hs _ => not_has_of_known (hfree hs) hknown).hide (.inl rfl)).counted

theorem good_delCreat (h : Good strict s) : Does (delCreat folderid name i) s fun _ s' => Good strict s' :=
  (h.withNewFolder owes_new fun _ _ hd => hd.drop).bind fun _ _ ⟨h₁, _⟩ => h₁.decOfRefcnt

/-- A file is made where no other one is being made under its name. -/
theorem good_openRow {o : Opening} {row : Option ℤ} (h : Holds (Owes strict 0) [a] s)
    (hfree : strict → o.ready ∧ o.commit.isSome → o.trunc ∨ o.creat ∧ row.isNone → ∀ d, s.Data a d → ¬Has d.tasks.creats o.name) :
    Does (openRow o a row) s fun _ s' => Good strict s' := by
  have hrelease : Does (releaseFolderTasks a) s fun _ s' => Good strict s' := h.release.mono fun _ _ hpost => hpost.1
  unfold openRow
  split
  next hmade =>
    cases hcommit : o.commit with
    | none => exact hrelease
    | some taskid =>
      cases hready : o.ready with
      | false => exact hrelease
      | true =>
        have hdone : o.ready = true ∧ o.commit.isSome = true := ⟨hready, by rw [hcommit]; rfl⟩
        exact (h.does_edit (.head _) fun d hdata hd => owes_addCreat hd fun hs => hfree hs hdone hmade d hdata).bind fun _ _ ⟨h₁, _⟩ => h₁.openIn
  · cases row with
    | none => exact hrelease
    | some fileid =>
      cases o.ready with
      | false => exact hrelease
      | true => exact h.openIn

/-- A file that was moved here is truncated. -/
def TruncatesMoved (s : State) (o : Opening) : Prop :=
  o.trunc ∧ o.moved ∧ (o.ready ∧ o.commit.isSome) ∧ ∃ a d cr, s.Data a d ∧ d.folderid = o.folderid ∧ d.find .creats o.name 0 = some cr ∧ 0 < cr.id

theorem good_fsOpen {o : Opening} (h : Good strict s) (hfree : strict → ¬TruncatesMoved s o) : Does (fsOpen o) s fun _ s' => Good strict s' := by
  refine (h.getOrCreate owes_new).bind fun a s₁ ⟨h₁, _, hknown, _⟩ => (h₁.does_load (.head _)).bind fun d s₂ ⟨hs₂, hd, _⟩ => ?_
  subst hs₂
  have hrelease : Does (releaseFolderTasks a) s₂ fun _ s' => Good strict s' := h₁.release.mono fun _ _ hpost => hpost.1
  cases hfind : d.find .creats o.name 0 with
  | some cr =>
    dsimp only
    split
    next hid =>
      split
      next hmoved =>
        refine good_openRow h₁ fun hs hdone hmade d' hd' hhas => hfree hs ⟨?_, hmoved, hdone, ?_⟩
        · rcases hmade with htrunc | ⟨_, hnone⟩
          · exact htrunc
          · cases hnone
        · obtain ⟨hfolder, ⟨b, hdata⟩ | rfl⟩ := hknown d hd
          · exact ⟨b, d, cr, hdata, hfolder, hfind, hid⟩
          · cases hfind
      · exact hrelease
    · split
      · split
        · exact h₁.openIn
        · exact hrelease
      · exact h₁.openIn
  | none =>
    refine good_openRow h₁ fun _ _ _ d' hd' => ?_
    rw [← Valid.data_inj h₁ hd hd']
    exact not_has_of_find hfind

theorem good_fsCreat {o : Opening} (h : Good strict s) (hfree : strict → ¬TruncatesMoved s o) : Does (fsCreat o) s fun _ s' => Good strict s' := by
  -- what is opened is what was there
  let Free (d : FolderTasks) : Prop := Owes strict 0 d ∧
    (strict → o.trunc → o.moved → o.ready ∧ o.commit.isSome → d.folderid = o.folderid → ∀ cr, d.find .creats o.name 0 = some cr → ¬0 < cr.id)
  have hstart : Holds Free [] s := Valid.strengthen h fun e he howes => ⟨howes, fun hs htrunc hmoved hdone hid cr hfind hpos =>
    hfree hs ⟨htrunc, hmoved, hdone, e.1, e.2.data, cr, ⟨e.2.refcnt, he⟩, hid, hfind, hpos⟩⟩
  have hnew : Free ⟨o.folderid, {}, 0⟩ := ⟨owes_new, fun _ _ _ _ _ cr hfind => by cases hfind⟩
  refine (hstart.getOrCreate hnew).bind fun a s₁ ⟨h₁, _⟩ => (h₁.does_load (.head _)).bind fun d s₂ ⟨hs₂, hd, _⟩ => ?_
  subst hs₂
  split
  · refine h₁.release.bind fun _ s₃ ⟨h₃, _⟩ => good_fsOpen (h₃.mono fun _ hd => hd.1) fun hs ⟨htrunc, hmoved, hdone, b, d, cr, hdata, hid, hfind, hpos⟩ => ?_
    exact (Valid.data_of h₃ hdata).2 hs htrunc hmoved hdone hid cr hfind hpos
  next hexists =>
    have hweak : Holds (Owes strict 0) [a] s₂ := h₁.mono fun _ hd => hd.1
    have hrelease : Does (releaseFolderTasks a) s₂ fun _ s' => Good strict s' := hweak.release.mono fun _ _ hpost => hpost.1
    have hfree : d.find .creats o.name 0 = none := Option.not_isSome_iff_eq_none.mp fun hsome => hexists (.inl hsome)
    cases o.commit with
    | none => exact hrelease
    | some taskid =>
      cases o.ready with
      | false => exact hrelease
      | true =>
        refine (hweak.does_edit (.head _) fun d' hd' hgood => owes_addCreat hgood fun _ => ?_).bind fun _ _ ⟨h₃, _⟩ => h₃.openIn
        rw [← Valid.data_inj h₁ hd hd']
        exact not_has_of_find hfree

theorem good_creatFakeLocked (h : Good strict s) (hfree : strict → ¬Taken s .creats folderid name) :
    Does (creatFakeLocked folderid name taskid) s fun _ s' => Good strict s' := by
  refine does_bind.mpr (does_get.mpr (does_bind.mpr (does_modify.mpr ?_)))
  have h₁ : Good strict { s with env := { s.env with fakeFileid := s.env.fakeFileid + 1 } } := Valid.env h _
  refine (h₁.getOrCreate owes_new).bind fun a s₂ ⟨h₂, _, hknown, _⟩ => ?_
  refine (h₂.does_edit (.head _) fun d hdata hd => ?_).bind fun _ _ ⟨h₃, _⟩ => h₃.openIn
  exact (hd.insert (k := .creats) (r := ⟨name, taskid, s.env.fakeFileid, 0⟩) fun hs _ => not_has_of_known (hfree hs) (hknown d hdata)).counted

/-- The name of an open file is being made. -/
def NameMade (s : State) (i : ℕ) : Prop := ∃ fl d, s.env.openfiles[i]? = some fl ∧ s.Data fl.currentfolder d ∧ Has d.tasks.creats fl.currentname

theorem good_reopenFileForWriting {convert : Bool} {commit : Option ℕ} (h : Good strict s) (hfree : strict → convert = true → commit.isSome → ¬NameMade s i) :
    Does (reopenFileForWriting i convert commit) s fun _ s' => Good strict s' := by
  refine does_bind.mpr (does_get.mpr ?_)
  cases hi : s.env.openfiles[i]? with
  | none => exact does_pure.mpr h
  | some fl =>
    dsimp only
    split
    next hconvert =>
      cases commit with
      | none => exact does_pure.mpr h
      | some taskid =>
        refine (h.does_edit (Holds.mem_refs hi) fun d hdata hd => owes_addCreat hd fun hs hhas => ?_).bind fun _ _ ⟨h₁, _⟩ => h₁.updateFileid
        exact hfree hs hconvert rfl ⟨fl, d, hi, hdata, hhas⟩
    · refine (h.does_edit (Holds.mem_refs hi) fun d _ hd => owes_addModifiedFile hd).bind fun _ _ ⟨h₁, _⟩ => ?_
      cases commit with
      | none => exact does_pure.mpr h₁
      | some taskid => exact h₁.updateFileid

/-- The task id of a file that only the client has, from the id that it was opened with. -/
def staticTaskid (fileid : ℤ) : ℕ := (fileid + 9223372036854775808).toNat

/-- Another file is being made under the name of an open file that only the client has. -/
def OtherMade (s : State) (i : ℕ) : Prop :=
  ∃ fl d cr, s.env.openfiles[i]? = some fl ∧ s.Data fl.currentfolder d ∧ d.find .creats fl.currentname 0 = some cr ∧ cr.taskid ≠ staticTaskid fl.fileid

theorem good_reopenStatic {commit : Option ℕ} (h : Good strict s) (hfree : strict → commit.isSome → ¬OtherMade s i) :
    Does (reopenStaticFileForWriting i commit) s fun _ s' => Good strict s' := by
  refine does_bind.mpr (does_get.mpr ?_)
  cases hi : s.env.openfiles[i]? with
  | none => exact does_pure.mpr h
  | some fl =>
    cases commit with
    | none => exact does_pure.mpr h
    | some taskid =>
      refine (h.does_edit (Holds.mem_refs hi) fun d hdata hd => owes_reopenStatic hd fun hs cr hfind => ?_).bind fun _ _ ⟨h₁, _⟩ => h₁.updateFileid
      exact not_not.mp fun hne => hfree hs rfl ⟨fl, d, cr, hi, hdata, hfind, hne⟩

/-- A file that only the client has takes the place of itself. -/
def TakesOwnPlace (s : State) (folderid : ℤ) (name : Name) (to_folderid : ℤ) (new_name : Name) : Prop :=
  folderid = to_folderid ∧ new_name = name ∧ ∃ a d cr, s.Data a d ∧ d.folderid = folderid ∧ d.find .creats name 0 = some cr ∧ cr.id = 0

/-- The end of `psync_fs_rename_static_file`. -/
theorem good_moveStatic {src dst : ℕ} (h : Holds (Owes strict 0) [dst, src] s) (old new : Name) (taskid : ℕ) : Does (do
    edit dst (injectStatic new taskid)
    releaseFolderTasks dst
    edit src fun tasks => (tasks.drop .unlinks old taskid).drop .creats old 0
    releaseFolderTasks src) s fun _ s' => Good strict s' := by
  refine (h.does_edit (.head _) fun d _ hd => owes_injectStatic hd).bind fun _ s₁ ⟨h₁, _⟩ => h₁.release.bind fun _ s₂ ⟨h₂, _⟩ => ?_
  refine (h₂.does_edit (.head _) fun d _ hd => Owes.drop (Owes.drop hd)).bind fun _ s₃ ⟨h₃, _⟩ => ?_
  exact h₃.release.mono fun _ _ hpost => hpost.1

theorem good_renameStaticFile (h : Good strict s) (hself : ¬TakesOwnPlace s folderid name to_folderid new_name) :
    Does (renameStaticFile folderid name to_folderid new_name) s fun _ s' => Good strict s' := by
  refine h.get.bind fun srcfolder s₁ hpost => ?_
  cases srcfolder with
  | none =>
    obtain ⟨rfl, _⟩ := hpost
    exact does_pure.mpr h
  | some src =>
    obtain ⟨h₁, _, hdata⟩ := hpost
    refine (h₁.does_load (.head _)).bind fun d s₂ ⟨hs₂, hd, _⟩ => ?_
    subst hs₂
    have hrelease : Does (releaseFolderTasks src) s₂ fun _ s' => Good strict s' := h₁.release.mono fun _ _ hpost => hpost.1
    cases hfind : d.find .creats name 0 with
    | none => exact hrelease
    | some srccr =>
      dsimp only
      split
      · exact hrelease
      next hid =>
        refine (h₁.getOrCreate owes_new).bind fun dst s₃ ⟨h₃, _, hknown, hkept⟩ => ?_
        have hother : ¬(dst = src ∧ new_name = name) := fun ⟨hsame, hname⟩ => by
          have hfolder : d.folderid = folderid := (hdata src d hd).2 rfl
          have hto : d.folderid = to_folderid := (hknown d (hsame ▸ hkept src d hd)).1
          exact hself ⟨hfolder.symm.trans hto, hname, src, d, srccr, (hdata src d hd).1, hfolder, hfind, not_not.mp hid⟩
        rw [if_neg hother]
        refine Does.bind (R := fun _ s' => s' = s₃) ⟨dst, s₃, rfl, rfl⟩ fun _ s₄ hs₄ => ?_
        subst hs₄
        exact good_moveStatic h₃ name new_name srccr.taskid

/-- Also where the record of the file might be freed: the call then has no result. -/
theorem keeps_renameStaticFile {s' : State} (h : Good strict s) (hrun : (renameStaticFile folderid name to_folderid new_name s).map Prod.snd = some s') :
    Good strict s' := by
  obtain ⟨srcfolder, s₁, hget, hpost⟩ := (Holds.get h : Does (getFolderTasks folderid) s _)
  rw [renameStaticFile, Does.run hget] at hrun
  cases srcfolder with
  | none =>
    obtain ⟨rfl, _⟩ := hpost
    cases hrun
    exact h
  | some src =>
    obtain ⟨h₁, _, _⟩ := hpost
    obtain ⟨d, s₂, hload, hs₂, _⟩ := h₁.does_load (.head _)
    subst hs₂
    obtain ⟨_, s₃, hrelease, h₃, _⟩ := h₁.release
    dsimp only at hrun
    rw [Does.run hload] at hrun
    cases hfind : d.find .creats name 0 with
    | none =>
      rw [hfind] at hrun
      dsimp only at hrun
      rw [hrelease] at hrun
      cases hrun
      exact h₃
    | some srccr =>
      rw [hfind] at hrun
      dsimp only at hrun
      split at hrun
      · rw [hrelease] at hrun
        cases hrun
        exact h₃
      · obtain ⟨dst, s₄, hdst, h₄, _⟩ := (h₁.getOrCreate owes_new : Does (getOrCreateFolderTasks to_folderid) s₂ _)
        rw [Does.run hdst] at hrun
        by_cases hsame : dst = src ∧ new_name = name
        · rw [if_pos hsame] at hrun
          cases hrun
        · rw [if_neg hsame] at hrun
          have hderef : deref (some dst) s₄ = some (dst, s₄) := rfl
          rw [Does.run hderef] at hrun
          obtain ⟨_, s₅, hmove, h₅⟩ := good_moveStatic h₄ name new_name srccr.taskid
          rw [hmove] at hrun
          cases hrun
          exact h₅

/-! ### Runs -/

/-- A call, with what it reads. `reorder` is that the tree of the records gets another shape, which says what record is found first. -/
inductive Event where
  | mkdir (db : Database) (folderid : ℤ) (name : Name) (folderflags : ℕ) (key : Except ℤ Unit) (commit : Option ℕ)
  | canRmdir (db : Database) (folderid : ℤ) (name : Name)
  | rmdir (db : Database) (folderid : ℤ) (name : Name) (commit : Option ℕ)
  | renameFolder (folderid parentfolderid : ℤ) (name : Name) (to_folderid : ℤ) (new_name : Name) (targetflags : ℕ) (commit : Option (ℕ × ℕ))
  | folderCreated (parentfolderid : ℤ) (taskid : ℕ) (folderid : ℤ) (name : Name) (sfolderid : Option ℤ)
  | folderDeleted (parentfolderid : ℤ) (taskid : ℕ) (name : Name)
  | folderRenamed (parentfolderid : ℤ) (taskid : ℕ) (name : Name) (from_row : Option (ℕ × ℤ × Name))
  | addLocalCreatStatic (db : Database) (folderid : ℤ) (name : Name)
  | canUnlink (db : Database) (folderid : ℤ) (name : Name)
  | unlink (db : Database) (folderid : ℤ) (name : Name) (history : Option ℤ) (commit : Option ℕ)
  | renameFile (fileid parentfolderid : ℤ) (name : Name) (to_folderid : ℤ) (new_name : Name) (commit : Option (ℕ × ℕ))
  | fileCreated (parentfolderid : ℤ) (taskid : ℕ) (name : Name) (fileid : ℤ) (sfolderid : Option ℤ)
  | fileDeleted (parentfolderid : ℤ) (taskid : ℕ) (name : Name)
  | fileRenamed (folderid : ℤ) (taskid : ℕ) (name : Name) (from_row : Option (ℕ × ℤ × Name))
  | initTask (task : Task)
  | clean
  | addBannedFolder (folderid : ℤ) (name : Name)
  | delCreat (folderid : ℤ) (name : Name) (i : ℕ)
  | fsOpen (o : Opening)
  | fsCreat (o : Opening)
  | creatFakeLocked (folderid : ℤ) (name : Name) (taskid : ℕ)
  | updateFileid (i : ℕ) (fileid : ℤ)
  | incOfRefcnt (i : ℕ)
  | decOfRefcnt (i : ℕ)
  | freeOpenfile (i : ℕ)
  | reopenFileForWriting (i : ℕ) (convert : Bool) (commit : Option ℕ)
  | reopenStaticFileForWriting (i : ℕ) (commit : Option ℕ)
  | renameStaticFile (folderid : ℤ) (name : Name) (to_folderid : ℤ) (new_name : Name)
  | look (folderid : ℤ)
  | reorder (cells : List (ℕ × Cell FolderTasks))

def discard {α : Type} (x : Call α) : Call Unit := do let _ ← x

def reorder (cells : List (ℕ × Cell FolderTasks)) : Call Unit := modify fun s => if s.cells.Perm cells then { s with cells := cells } else s

def call : Event → Call Unit
  | .mkdir db folderid name folderflags key commit => discard (mkdir db folderid name folderflags key commit)
  | .canRmdir db folderid name => discard (canRmdir db folderid name)
  | .rmdir db folderid name commit => discard (rmdir db folderid name commit)
  | .renameFolder folderid parentfolderid name to_folderid new_name targetflags commit =>
    discard (renameFolder folderid parentfolderid name to_folderid new_name targetflags commit)
  | .folderCreated parentfolderid taskid folderid name sfolderid => folderCreated parentfolderid taskid folderid name sfolderid
  | .folderDeleted parentfolderid taskid name => folderDeleted parentfolderid taskid name
  | .folderRenamed parentfolderid taskid name from_row => folderRenamed parentfolderid taskid name from_row
  | .addLocalCreatStatic db folderid name => discard (addLocalCreatStatic db folderid name)
  | .canUnlink db folderid name => discard (canUnlink db folderid name)
  | .unlink db folderid name history commit => discard (unlink db folderid name history commit)
  | .renameFile fileid parentfolderid name to_folderid new_name commit =>
    discard (renameFile fileid parentfolderid name to_folderid new_name commit)
  | .fileCreated parentfolderid taskid name fileid sfolderid => fileCreated parentfolderid taskid name fileid sfolderid
  | .fileDeleted parentfolderid taskid name => fileDeleted parentfolderid taskid name
  | .fileRenamed folderid taskid name from_row => fileRenamed folderid taskid name from_row
  | .initTask task => initTask task
  | .clean => clean
  | .addBannedFolder folderid name => addBannedFolder folderid name
  | .delCreat folderid name i => delCreat folderid name i
  | .fsOpen o => fsOpen o
  | .fsCreat o => fsCreat o
  | .creatFakeLocked folderid name taskid => creatFakeLocked folderid name taskid
  | .updateFileid i fileid => updateFileid i fileid
  | .incOfRefcnt i => incOfRefcnt i
  | .decOfRefcnt i => decOfRefcnt i
  | .freeOpenfile i => freeOpenfile i
  | .reopenFileForWriting i convert commit => reopenFileForWriting i convert commit
  | .reopenStaticFileForWriting i commit => reopenStaticFileForWriting i commit
  | .renameStaticFile folderid name to_folderid new_name => renameStaticFile folderid name to_folderid new_name
  | .look folderid => discard (look folderid)
  | .reorder cells => reorder cells

/-- What a call leaves, or `none` where it uses a pointer that leads nowhere. -/
def run (s : State) (e : Event) : Option State := (call e s).map Prod.snd

/-- Nothing is in memory. -/
def Start (s : State) : Prop := s.cells = [] ∧ s.released = [] ∧ s.env.openfiles = []

/-- A call makes a name that is there. -/
def Repeats (s : State) : Event → Prop
  | .renameFolder _ _ name to_folderid new_name _ commit => commit.isSome ∧ new_name ≠ name ∧ Taken s .mkdirs to_folderid new_name
  | .initTask task =>
    ((task.type = .mkdir ∨ task.type = .renfolderTo) ∧ Taken s .mkdirs task.folderid task.text1) ∨
      task.type = .creat ∧ Taken s .creats task.folderid task.text1
  | .addBannedFolder folderid name => Taken s .mkdirs folderid name
  | .fsOpen o => TruncatesMoved s o
  | .fsCreat o => TruncatesMoved s o
  | .creatFakeLocked folderid name _ => Taken s .creats folderid name
  | .reopenFileForWriting i convert commit => convert = true ∧ commit.isSome ∧ NameMade s i
  | .reopenStaticFileForWriting i commit => commit.isSome ∧ OtherMade s i
  | _ => False

/-- A call uses a pointer that leads nowhere. -/
def Faults (s : State) : Event → Prop
  | .canRmdir db folderid name => ¬Checked s db folderid name
  | .renameStaticFile folderid name to_folderid new_name => TakesOwnPlace s folderid name to_folderid new_name
  | _ => False

def Drift (s : State) (e : Event) : Prop := Repeats s e ∨ Faults s e

theorem does_discard {α : Type} {x : Call α} {Q : State → Prop} (h : Does x s fun _ s' => Q s') : Does (discard x) s fun _ s' => Q s' :=
  h.bind fun _ _ hq => does_pure.mpr hq

/-- Every call keeps the counts right, and the names apart where it does not make one that is there. -/
theorem good_call {e : Event} (h : Good strict s) (hfaults : ¬Faults s e) (hrepeats : strict → ¬Repeats s e) :
    Does (call e) s fun _ s' => Good strict s' := by
  cases e with
  | mkdir => exact does_discard (good_mkdir h)
  | canRmdir => exact does_discard (good_canRmdir h (not_not.mp hfaults))
  | rmdir => exact does_discard (good_rmdir h)
  | renameFolder => exact does_discard (good_renameFolder h fun hs hcommit hne htaken => hrepeats hs ⟨hcommit, hne, htaken⟩)
  | folderCreated => exact good_folderCreated h
  | folderDeleted => exact good_folderDeleted h
  | folderRenamed => exact good_folderRenamed h
  | addLocalCreatStatic => exact does_discard (good_addLocalCreatStatic h)
  | canUnlink => exact does_discard (good_canUnlink h)
  | unlink => exact does_discard (good_unlink h)
  | renameFile => exact does_discard (good_renameFile h)
  | fileCreated => exact good_fileCreated h
  | fileDeleted => exact good_fileDeleted h
  | fileRenamed => exact good_fileRenamed h
  | initTask =>
    exact good_initTask h (fun hs htype htaken => hrepeats hs (.inl ⟨htype, htaken⟩)) fun hs htype htaken => hrepeats hs (.inr ⟨htype, htaken⟩)
  | clean => exact good_clean h
  | addBannedFolder => exact good_addBannedFolder h hrepeats
  | delCreat => exact good_delCreat h
  | fsOpen => exact good_fsOpen h hrepeats
  | fsCreat => exact good_fsCreat h hrepeats
  | creatFakeLocked => exact good_creatFakeLocked h hrepeats
  | updateFileid => exact Holds.updateFileid h
  | incOfRefcnt => exact Holds.incOfRefcnt h
  | decOfRefcnt => exact Holds.decOfRefcnt h
  | freeOpenfile => exact Holds.freeOpenfile h fun _ _ hd => hd.drop
  | reopenFileForWriting => exact good_reopenFileForWriting h fun hs hconvert hcommit hmade => hrepeats hs ⟨hconvert, hcommit, hmade⟩
  | reopenStaticFileForWriting => exact good_reopenStatic h fun hs hcommit hother => hrepeats hs ⟨hcommit, hother⟩
  | renameStaticFile => exact good_renameStaticFile h hfaults
  | look => exact does_discard (Holds.look h |>.mono fun _ _ hpost => hpost.1)
  | reorder cells =>
    refine does_modify.mpr ?_
    split
    next hperm => exact Valid.reorder h hperm
    · exact h

theorem good_start (h : Start s) : Good strict s := by
  obtain ⟨hcells, hreleased, hfiles⟩ := h
  have hrefs : refs s.env = [] := by rw [refs, hfiles]; rfl
  refine ⟨by rw [hcells]; exact List.nodup_nil, ?_, ?_, ?_, ?_, ?_, ?_⟩
  · rw [hcells]; exact fun _ he => (nomatch he)
  · rw [hrefs]; exact fun _ he => (nomatch he)
  · rw [hcells]; exact fun _ he => (nomatch he)
  · rw [hcells]; exact fun _ he => (nomatch he)
  · rw [hcells]; exact fun _ he => (nomatch he)
  · rw [hreleased]; exact fun _ he => (nomatch he)

/-- The records count their nodes and the references to them. A record is freed when it has neither, the names of what is made are apart,
and a search finds what is there whatever the shape of the tree. -/
structure AllCounted (s : State) : Prop where
  taskscnt : ∀ a c, (a, c) ∈ s.cells → c.data.taskscnt = c.data.nodes
  refcnt : ∀ a c, (a, c) ∈ s.cells → c.refcnt = (refs s.env).count a
  live : ∀ fl ∈ s.env.openfiles, ∃ c, (fl.currentfolder, c) ∈ s.cells
  kept : ∀ a c, (a, c) ∈ s.cells → ¬(c.refcnt = 0 ∧ c.data.taskscnt = 0)
  freed : ∀ c ∈ s.released, c.refcnt = 0 ∧ c.data.taskscnt = 0
  unique : ∀ a c, (a, c) ∈ s.cells → (c.data.tasks.creats.map Record.name).Nodup ∧ (c.data.tasks.mkdirs.map Record.name).Nodup
  found : ∀ a c, (a, c) ∈ s.cells → ∀ (k : Kind) (tree : BinTree Record) (name : Name) (taskid : ℕ), tree.toList = k.tree c.data.tasks →
    (∃ r ∈ k.tree c.data.tasks, r.name = name ∧ r.taskid = taskid) →
    ∃ r, searchNodes tree name taskid = some r ∧ r.name = name ∧ (taskid = 0 ∨ r.taskid = taskid)

theorem allCounted_of_good (h : Good True s) : AllCounted s := by
  refine ⟨fun a c hc => ?_, fun a c hc => h.refcnt _ hc, fun fl hfl => h.live _ (List.mem_map_of_mem hfl), fun a c hc hzero => ?_,
    fun c hc => ?_, fun a c hc => ?_, fun a c hc k tree name taskid htree hthere => ?_⟩
  · have htaskscnt := (h.data _ hc).taskscnt
    rwa [add_zero] at htaskscnt
  · have hbusy := h.busy _ hc hzero.1
    exact absurd (decide_eq_true hzero.2) (by rw [idle] at hbusy; rw [hbusy]; exact Bool.false_ne_true)
  · obtain ⟨hzero, hidle⟩ := h.released c hc
    exact ⟨hzero, of_decide_eq_true hidle⟩
  · exact ⟨(h.data _ hc).unique trivial .creats (.inr rfl), (h.data _ hc).unique trivial .mkdirs (.inl rfl)⟩
  · obtain ⟨r, hr, hname, htaskid⟩ := hthere
    have hsorted := (h.data _ hc).sorted k
    rw [← htree] at hsorted hr
    obtain ⟨x, hx⟩ := Option.isSome_iff_exists.mp (searchNodes_isSome hsorted hr hname (.inr htaskid))
    exact ⟨x, hx, (searchNodes_some hx).2⟩

/-- In a run in which no call makes a name that is there or uses a pointer that leads nowhere, everything is counted, and the next such
call ends. -/
theorem allCounted_of_reachable (h : Reachable Start (Avoiding (fun s e s' => run s e = some s') Drift) s) :
    AllCounted s ∧ ∀ e, ¬Drift s e → (run s e).isSome := by
  have hgood : Good True s := h.invariant (fun s => good_start) fun s e s' hs ⟨hrun, hdrift⟩ => by
    obtain ⟨_, s₁, hcall, hs₁⟩ := good_call hs (fun hfaults => hdrift (.inr hfaults)) fun _ hrepeats => hdrift (.inl hrepeats)
    have hstep : (call e s).map Prod.snd = some s' := hrun
    rw [hcall] at hstep
    cases hstep
    exact hs₁
  refine ⟨allCounted_of_good hgood, fun e hdrift => ?_⟩
  obtain ⟨_, s₁, hcall, _⟩ := good_call hgood (fun hfaults => hdrift (.inr hfaults)) fun _ hrepeats => hdrift (.inl hrepeats)
  unfold run
  rw [hcall]
  rfl

/-- The folder `a` made. -/
def oneFolder : State := ⟨[(0, ⟨⟨0, ⟨[⟨[97], 1, -1, 0⟩], [], [], []⟩, 1⟩, 0⟩)], 1, [], ⟨[], 9, -9, false⟩⟩

theorem allCounted_oneFolder : AllCounted oneFolder ∧ ∀ e, ¬Drift oneFolder e → (run oneFolder e).isSome :=
  allCounted_of_reachable (.next (.start (s := ⟨[], 0, [], ⟨[], 9, -9, false⟩⟩) ⟨rfl, rfl, rfl⟩)
    (a := .mkdir {} 0 [97] 0 (.ok ()) (some 1)) ⟨by decide, fun h => h.elim id id⟩)

/-- Folders `a` and `b` made, and `a` renamed to `b`. -/
theorem renameFolder_repeats : ∃ s, Reachable Start (fun s e s' => run s e = some s') s ∧ ¬AllCounted s := by
  have hrun : ([.mkdir {} 0 [97] 0 (.ok ()) (some 1), .mkdir {} 0 [98] 0 (.ok ()) (some 2),
      .renameFolder (-1) 0 [97] 0 [98] 0 (some (3, 4))] : List Event).foldlM run ⟨[], 0, [], ⟨[], 9, -9, false⟩⟩ =
        some ⟨[(0, ⟨⟨0, ⟨[⟨[98], 2, -2, 0⟩, ⟨[98], 4, -1, 0⟩], [⟨[97], 3, -1, 0⟩, ⟨[98], 4, -1, 0⟩], [], []⟩, 4⟩, 0⟩)], 1, [],
          ⟨[], 9, -9, false⟩⟩ := by
    decide
  refine ⟨_, Reachable.runs _ (.start ⟨rfl, rfl, rfl⟩) hrun, fun h => ?_⟩
  exact absurd (h.unique 0 _ (.head _)).2 (by decide)

end Pclsync.Tasks.Counted
