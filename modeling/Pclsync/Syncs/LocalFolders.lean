import Mathlib.Data.List.Nodup
import Mathlib.Data.Nat.Notation
import Mathlib.Tactic.Common

/-! `psync_create_local_folder_in_db` of `psyncer.c`: the row of the table `localfolder` that a folder of a sync gets.

The rows that the new one refers to are there, and the id that it gets if it is inserted is given. -/
namespace Pclsync.Syncs.LocalFolders

abbrev Name := List ℕ

/-- A row of `localfolder`, with `none` for `NULL`. -/
structure Row where
  id : ℕ
  localparentfolderid : Option ℕ := none
  folderid : Option ℕ := none
  syncid : Option ℕ := none
  taskcnt : Option ℕ := none
  name : Option Name := none
deriving DecidableEq, Repr

/-- The key of the index `klocalfolderpsn`. -/
def Row.Keyed (r : Row) (syncid localparentfolderid : ℕ) (name : Name) : Prop :=
  r.localparentfolderid = some localparentfolderid ∧ r.syncid = some syncid ∧ r.name = some name

instance (r : Row) (s p : ℕ) (n : Name) : Decidable (r.Keyed s p n) := inferInstanceAs (Decidable (_ ∧ _))

/-- The unique constraints of the table. -/
structure Valid (rows : List Row) : Prop where
  ids : (rows.map Row.id).Nodup
  names : ∀ s p n, ∀ r ∈ rows, ∀ r' ∈ rows, r.Keyed s p n → r'.Keyed s p n → r = r'

/-- `SELECT id FROM localfolder WHERE syncid=? AND folderid=?`. -/
def byFolder (rows : List Row) (syncid folderid : ℕ) : Option Row :=
  rows.find? fun r => r.syncid = some syncid ∧ r.folderid = some folderid

/-- `SELECT id, folderid FROM localfolder WHERE localparentfolderid=? AND syncid=? AND name=?`. -/
def byName (rows : List Row) (syncid localparentfolderid : ℕ) (name : Name) : Option Row :=
  rows.find? fun r => r.Keyed syncid localparentfolderid name

def Row.setFolderid (folderid id : ℕ) (r : Row) : Row := if r.id = id then { r with folderid := some folderid } else r

/-- `UPDATE localfolder SET folderid=? WHERE id=?`. -/
def updateFolderid (rows : List Row) (folderid id : ℕ) : List Row := rows.map (Row.setFolderid folderid id)

def Row.increaseTaskcnt (id : ℕ) (r : Row) : Row := if r.id = id then { r with taskcnt := r.taskcnt.map (· + 1) } else r

/-- `psync_increase_local_folder_taskcnt`. -/
def increaseLocalFolderTaskcnt (rows : List Row) (lfolderid : ℕ) : List Row := rows.map (Row.increaseTaskcnt lfolderid)

/-- `psync_create_local_folder_in_db`: the rows after it, and the id that it returns. -/
def createLocalFolderInDb (rows : List Row) (slot syncid folderid localparentfolderid : ℕ) (name : Name) : List Row × ℕ :=
  let lfolderid := ((byFolder rows syncid folderid).map Row.id).getD 0
  if lfolderid ≠ 0 then (rows, lfolderid)
  else
    match byName rows syncid localparentfolderid name with
    | none => (rows ++ [⟨slot, some localparentfolderid, some folderid, some syncid, some 1, some name⟩], slot)
    | some r =>
      -- the id of the row is bound as its folder id, and the folder id as the id
      let rows := if r.id ≠ 0 ∧ r.folderid.getD 0 ≠ folderid then updateFolderid rows r.id folderid else rows
      (increaseLocalFolderTaskcnt rows r.id, r.id)

/-- The id that was returned is that of a row with these ids, and no other row has another folder id than before. -/
structure Associates (rows : List Row) (syncid folderid : ℕ) (out : List Row × ℕ) : Prop where
  row : ∃ r ∈ out.1, r.id = out.2 ∧ r.syncid = some syncid ∧ r.folderid = some folderid
  others : ∀ r ∈ rows, r.id ≠ out.2 → ∃ r' ∈ out.1, r'.id = r.id ∧ r'.folderid = r.folderid

/-- A row has the folder id, or none has the name, or the one that has it need not be repaired, or has the folder id for its own id. -/
def Fits (rows : List Row) (syncid folderid localparentfolderid : ℕ) (name : Name) : Prop :=
  ((byFolder rows syncid folderid).map Row.id).getD 0 ≠ 0 ∨
    ∀ r, byName rows syncid localparentfolderid name = some r → r.folderid = some folderid ∨ r.id = folderid ∧ folderid ≠ 0

variable {rows : List Row} {slot syncid folderid localparentfolderid id : ℕ} {name : Name} {r : Row}

theorem byName_some (h : byName rows syncid localparentfolderid name = some r) :
    r ∈ rows ∧ r.Keyed syncid localparentfolderid name := by
  have hkeyed := List.find?_some h
  exact ⟨List.mem_of_find?_eq_some h, of_decide_eq_true hkeyed⟩

/-! ### Updates -/

/-- An update of the rows of one id, which leaves their keys. -/
structure Keeps (f : Row → Row) : Prop where
  id : ∀ r, (f r).id = r.id
  keyed : ∀ r s p n, (f r).Keyed s p n ↔ r.Keyed s p n

theorem keeps_setFolderid : Keeps (Row.setFolderid folderid id) := by
  refine ⟨fun r => ?_, fun r s p n => ?_⟩
  · unfold Row.setFolderid
    split_ifs <;> rfl
  · unfold Row.setFolderid
    split_ifs <;> rfl

theorem keeps_increaseTaskcnt : Keeps (Row.increaseTaskcnt id) := by
  refine ⟨fun r => ?_, fun r s p n => ?_⟩
  · unfold Row.increaseTaskcnt
    split_ifs <;> rfl
  · unfold Row.increaseTaskcnt
    split_ifs <;> rfl

theorem Keeps.comp {f g : Row → Row} (hf : Keeps f) (hg : Keeps g) : Keeps (f ∘ g) :=
  ⟨fun r => (hf.id _).trans (hg.id r), fun r s p n => (hf.keyed _ s p n).trans (hg.keyed r s p n)⟩

theorem folderid_increaseTaskcnt : (r.increaseTaskcnt id).folderid = r.folderid := by
  unfold Row.increaseTaskcnt
  split_ifs <;> rfl

theorem folderid_setFolderid : (r.setFolderid folderid id).folderid = if r.id = id then some folderid else r.folderid := by
  unfold Row.setFolderid
  split_ifs <;> rfl

/-! ### The three ways -/

theorem associates_found (h : ((byFolder rows syncid folderid).map Row.id).getD 0 ≠ 0) :
    Associates rows syncid folderid (rows, ((byFolder rows syncid folderid).map Row.id).getD 0) := by
  cases hfind : byFolder rows syncid folderid with
  | none =>
    rw [hfind] at h
    exact absurd rfl h
  | some r =>
    have hr := List.find?_some hfind
    obtain ⟨hs, hf⟩ := of_decide_eq_true hr
    exact ⟨⟨r, List.mem_of_find?_eq_some hfind, rfl, hs, hf⟩, fun r hr _ => ⟨r, hr, rfl, rfl⟩⟩

theorem associates_inserted : Associates rows syncid folderid
    (rows ++ [⟨slot, some localparentfolderid, some folderid, some syncid, some 1, some name⟩], slot) :=
  ⟨⟨_, List.mem_append_right _ (.head _), rfl, rfl, rfl⟩, fun r hr _ => ⟨r, List.mem_append_left _ hr, rfl, rfl⟩⟩

/-- A row that is found by its name, after an update that leaves the ids: its own folder id decides. -/
theorem folderid_of_associates {f : Row → Row} (hids : (rows.map Row.id).Nodup) (hf : ∀ r, (f r).id = r.id) (hr : r ∈ rows)
    (h : Associates rows syncid folderid (rows.map f, r.id)) : (f r).folderid = some folderid := by
  obtain ⟨q', hq', hid, -, hfolder⟩ := h.row
  obtain ⟨q, hq, rfl⟩ := List.mem_map.mp hq'
  have heq : q = r := List.inj_on_of_nodup_map hids hq hr ((hf q).symm.trans hid)
  rwa [heq] at hfolder

theorem associates_named {f : Row → Row} (hf : ∀ r, (f r).id = r.id) (hr : r ∈ rows) (hsync : (f r).syncid = some syncid)
    (hfolder : (f r).folderid = some folderid) (hothers : ∀ q, q.id ≠ r.id → (f q).folderid = q.folderid) :
    Associates rows syncid folderid (rows.map f, r.id) :=
  ⟨⟨f r, List.mem_map_of_mem hr, hf r, hsync, hfolder⟩, fun q hq hne => ⟨f q, List.mem_map_of_mem hq, hf q, hothers q hne⟩⟩

/-- A local folder is associated where the row of its name need not be repaired. -/
theorem associates_iff (h : Valid rows) (slot syncid folderid localparentfolderid : ℕ) (name : Name) :
    Associates rows syncid folderid (createLocalFolderInDb rows slot syncid folderid localparentfolderid name) ↔
      Fits rows syncid folderid localparentfolderid name := by
  unfold createLocalFolderInDb Fits
  dsimp only
  split_ifs with hfound
  · exact ⟨fun _ => .inl hfound, fun _ => associates_found hfound⟩
  · cases hname : byName rows syncid localparentfolderid name with
    | none => exact ⟨fun _ => .inr fun r hr => (nomatch hr), fun _ => associates_inserted⟩
    | some r =>
      obtain ⟨hr, hkeyed⟩ := byName_some hname
      have hfits : (((byFolder rows syncid folderid).map Row.id).getD 0 ≠ 0 ∨
          ∀ r', some r = some r' → r'.folderid = some folderid ∨ r'.id = folderid ∧ folderid ≠ 0) ↔
            (r.folderid = some folderid ∨ r.id = folderid ∧ folderid ≠ 0) :=
        ⟨fun h => h.resolve_left hfound r rfl, fun h => .inr fun r' hr' => by rwa [← Option.some.inj hr']⟩
      rw [hfits]
      dsimp only
      split_ifs with hrepair
      · -- the row whose own id is the folder id gets the id of the row that was found
        have hf : Keeps (Row.increaseTaskcnt r.id ∘ Row.setFolderid r.id folderid) := keeps_increaseTaskcnt.comp keeps_setFolderid
        have hafter : ∀ q : Row, ((Row.increaseTaskcnt r.id ∘ Row.setFolderid r.id folderid) q).folderid =
            if q.id = folderid then some r.id else q.folderid := fun q => folderid_increaseTaskcnt.trans folderid_setFolderid
        rw [increaseLocalFolderTaskcnt, updateFolderid, List.map_map]
        constructor
        · intro hassoc
          have hfolder := (hafter r).symm.trans (folderid_of_associates h.ids hf.id hr hassoc)
          split_ifs at hfolder with hid
          · exact .inr ⟨hid, by rw [← hid]; exact hrepair.1⟩
          · exact .inl hfolder
        · rintro (hfolder | ⟨hid, -⟩)
          · rw [hfolder, Option.getD_some] at hrepair
            exact absurd rfl hrepair.2
          · refine associates_named hf.id hr ((hf.keyed r _ _ _).mpr hkeyed).2.1 ((hafter r).trans ?_) fun q hq => (hafter q).trans ?_
            · rw [if_pos hid, hid]
            · rw [if_neg (hid ▸ hq)]
      · rw [increaseLocalFolderTaskcnt]
        constructor
        · exact fun hassoc => .inl (folderid_increaseTaskcnt.symm.trans (folderid_of_associates h.ids keeps_increaseTaskcnt.id hr hassoc))
        · intro hgood
          have hfolder : r.folderid = some folderid := by
            refine hgood.elim id fun ⟨hid, hne⟩ => ?_
            have hsame : r.folderid.getD 0 = folderid := by
              by_contra hdiff
              exact hrepair ⟨hid ▸ hne, hdiff⟩
            cases hnull : r.folderid with
            | none =>
              rw [hnull] at hsame
              exact absurd hsame.symm hne
            | some f =>
              rw [hnull, Option.getD_some] at hsame
              rw [hsame]
          exact associates_named keeps_increaseTaskcnt.id hr ((keeps_increaseTaskcnt.keyed r _ _ _).mpr hkeyed).2.1
            (folderid_increaseTaskcnt.trans hfolder) fun q _ => folderid_increaseTaskcnt

/-- The table with the row of the root, and a folder of sync 1 that has no folder id. -/
def unassociated : List Row := [⟨0, none, none, none, none, none⟩, ⟨2, some 0, none, some 1, some 0, some [97]⟩]

theorem valid_unassociated : Valid unassociated := by
  refine ⟨by decide, fun s p n r hr r' hr' hk hk' => ?_⟩
  rcases List.mem_cons.mp hr with rfl | hr
  · exact absurd hk.2.1 nofun
  · rcases List.mem_cons.mp hr' with rfl | hr'
    · exact absurd hk'.2.1 nofun
    · rw [List.mem_singleton.mp hr, List.mem_singleton.mp hr']

/-- A folder that is not there is inserted. -/
theorem associates_inserted_row : Associates unassociated 1 7 (createLocalFolderInDb unassociated 3 1 7 0 [98]) ↔ Fits unassociated 1 7 0 [98] :=
  associates_iff valid_unassociated 3 1 7 0 [98]

/-- The folder that has no folder id does not get it. -/
theorem not_associates_unassociated : Valid unassociated ∧ 3 ∉ unassociated.map Row.id ∧
    ¬Associates unassociated 1 7 (createLocalFolderInDb unassociated 3 1 7 0 [97]) := by
  refine ⟨valid_unassociated, by decide, fun h => ?_⟩
  obtain ⟨r, hr, hid, -, hfolder⟩ := h.row
  have hrows : createLocalFolderInDb unassociated 3 1 7 0 [97] =
      ([⟨0, none, none, none, none, none⟩, ⟨2, some 0, none, some 1, some 1, some [97]⟩], 2) := by decide
  rw [hrows] at hr hid
  rcases List.mem_cons.mp hr with rfl | hr
  · cases hid
  · rw [List.mem_singleton.mp hr] at hfolder
    cases hfolder

end Pclsync.Syncs.LocalFolders
