import Mathlib.Data.List.Flatten
import Mathlib.Data.Nat.Notation
import Mathlib.Logic.Function.Basic
import Pclsync.Lib.Transition

/-! The local folders of syncs, from `psynclib.c` and `psyncer.c`: when a folder is refused because it
is, or is above or below, the folder of another sync or the drive.

The functions compare strings. What directory a string denotes is up to `psync_stat`, and is a
parameter: the names from the root down, or nothing where there is no folder. -/
namespace Pclsync.Syncs
open Lib.Transition

abbrev Path := List Char
abbrev Name := List Char

/-! ## The comparison of strings -/

/-- A string goes on with a separator at an index. -/
def separatorAt (str : Path) (i : ℕ) : Bool := str[i]? = some '/'

/-- `psync_str_is_prefix`. -/
def strIsPrefix (str1 str2 : Path) : Bool :=
  if str2.length < str1.length then
    separatorAt str1 str2.length && str1.take str2.length = str2
  else separatorAt str2 str1.length && str1 = str2.take str1.length

/-- A folder is refused because of another one. -/
def sameOrPrefix (str1 str2 : Path) : Bool := strIsPrefix str1 str2 || str1 = str2

/-- The comparison with the mount point. The bytes that `memcmp` reads behind the end of a shorter
string do not matter. -/
def onMountpoint (syncmp localpath : Path) : Bool :=
  localpath.take syncmp.length = syncmp &&
    (localpath[syncmp.length]? = none || separatorAt localpath syncmp.length || localpath[syncmp.length]? = some '\\')

/-- The spelling of a directory with no separator at its end. -/
def spell (names : List Name) : Path := names.flatMap ('/' :: ·)

theorem spell_append (a b : List Name) : spell (a ++ b) = spell a ++ spell b := List.flatMap_append

/-- What is below a directory goes on with a separator. -/
theorem separatorAt_spell (a : List Name) (n : Name) (b : List Name) :
    separatorAt (spell (a ++ n :: b)) (spell a).length = true := by
  unfold separatorAt
  rw [spell_append, List.getElem?_append_right (Nat.le_refl _), Nat.sub_self]
  rfl

theorem take_spell (a b : List Name) : (spell (a ++ b)).take (spell a).length = spell a := by
  rw [spell_append, List.take_left]

theorem length_spell_lt (a : List Name) (n : Name) (b : List Name) :
    (spell a).length < (spell (a ++ n :: b)).length := by
  rw [spell_append, List.length_append]
  exact Nat.lt_add_of_pos_right (Nat.succ_pos _)

/-- The comparison sees when a directory is below another. -/
theorem sameOrPrefix_spell {a b : List Name} (h : a <+: b) :
    sameOrPrefix (spell a) (spell b) = true ∧ sameOrPrefix (spell b) (spell a) = true := by
  obtain ⟨rest, rfl⟩ := h
  unfold sameOrPrefix strIsPrefix
  cases rest with
  | nil =>
    rw [List.append_nil]
    simp only [decide_true, Bool.or_true, and_self]
  | cons n rest =>
    have hlt := length_spell_lt a n rest
    rw [if_neg (Nat.not_lt.mpr (Nat.le_of_lt hlt)), if_pos hlt, separatorAt_spell, take_spell]
    simp only [decide_true, Bool.and_true, Bool.true_or, and_self]

theorem onMountpoint_spell {a b : List Name} (h : a <+: b) : onMountpoint (spell a) (spell b) = true := by
  obtain ⟨rest, rfl⟩ := h
  unfold onMountpoint
  rw [take_spell]
  cases rest with
  | nil =>
    rw [List.append_nil, List.getElem?_eq_none (Nat.le_refl _)]
    simp only [decide_true, Bool.true_or, Bool.and_true]
  | cons n rest =>
    rw [separatorAt_spell]
    simp only [decide_true, Bool.or_true, Bool.true_or, Bool.and_true]

/-! ## The functions -/

/-- A row of `syncfolder`. -/
structure Row where
  id : ℕ
  folderid : ℕ
  localpath : Path
deriving DecidableEq, Repr

/-- A call of `psync_add_sync_by_folderid` after its checks, with the rows and the mount point that
it has compared with. -/
structure Call where
  localpath : Path
  folderid : ℕ
  seen : List Row
  syncmp : Option Path

/-- `delayed` are the rows of `syncfolderdelayed`, and `wasOnDrive` is that a folder on the drive was
added as one of a sync. -/
structure State (T : Type) where
  rows : List Row
  insertid : ℕ
  delayed : List (ℕ × Path)
  delayedid : ℕ
  call : T → Option Call
  mountpoint : Option Path
  wasOnDrive : Bool

/-- A directory is another, or below it. -/
def below (dir : Path → Option (List Name)) (p q : Path) : Bool :=
  match dir p, dir q with
  | some a, some b => b.isPrefixOf a
  | _, _ => false

/-- Of two directories one is the other, or below it. -/
def overlap (dir : Path → Option (List Name)) (p q : Path) : Bool := below dir p q || below dir q p

/-- The drive is mounted at or above a directory. -/
def onDrive (dir : Path → Option (List Name)) (mountpoint : Option Path) (p : Path) : Bool :=
  mountpoint.any (below dir p)

/-- What threads do. What depends on permissions, on the server or on files is left open. -/
inductive Event (T : Type) where
  /-- `psync_add_sync_by_folderid` up to the end of its first query. -/
  | check (t : T) (localpath : Path) (folderid : ℕ)
  | giveUp (t : T)
  /-- `INSERT OR IGNORE INTO syncfolder`. -/
  | insert (t : T)
  /-- `psync_add_sync_by_path_delayed`. -/
  | addDelayed (localpath : Path)
  /-- One turn of `psync_syncer_check_delayed_syncs`, which has the database lock all the time. -/
  | checkDelayed (id : ℕ) (localpath : Path) (folderid : ℕ)
  | deleteDelayed (id : ℕ)
  /-- `psync_delete_sync`. -/
  | deleteSync (id : ℕ)
  | mount (mp : Path)
  | unmount

namespace State

variable {T : Type} [DecidableEq T]

def setCall (s : State T) (t : T) (c : Option Call) : State T := { s with call := Function.update s.call t c }

/-- A folder is refused because of the rows. -/
def refused (s : State T) (localpath : Path) : Bool := s.rows.any fun row => sameOrPrefix row.localpath localpath

/-- `INSERT OR IGNORE`, as the pairs of a remote and a local folder are unique. -/
def insertRow (dir : Path → Option (List Name)) (s : State T) (localpath : Path) (folderid : ℕ) : State T :=
  if s.rows.any fun row => row.folderid = folderid ∧ row.localpath = localpath then s
  else
    { s with
      rows := s.rows ++ [⟨s.insertid, folderid, localpath⟩]
      insertid := s.insertid + 1
      wasOnDrive := s.wasOnDrive || onDrive dir s.mountpoint localpath }

def deleteDelayed (s : State T) (id : ℕ) : State T := { s with delayed := s.delayed.filter (·.1 ≠ id) }

def run (dir : Path → Option (List Name)) (s : State T) : Event T → Option (State T)
  | .check t localpath folderid =>
    match s.call t with
    | some _ => none
    | none =>
      if (dir localpath).isNone then some s
      else if s.mountpoint.any (onMountpoint · localpath) then some s
      else if s.refused localpath then some s
      else some (s.setCall t (some ⟨localpath, folderid, s.rows, s.mountpoint⟩))
  | .giveUp t => some (s.setCall t none)
  | .insert t =>
    (s.call t).map fun c => (s.insertRow dir c.localpath c.folderid).setCall t none
  | .addDelayed localpath =>
    if (dir localpath).isNone then some s
    else some { s with delayed := s.delayed ++ [(s.delayedid, localpath)], delayedid := s.delayedid + 1 }
  | .checkDelayed id localpath folderid =>
    if (id, localpath) ∉ s.delayed then none
    else if (dir localpath).isNone then some (s.deleteDelayed id)
    else if s.refused localpath then some (s.deleteDelayed id)
    else some ((s.insertRow dir localpath folderid).deleteDelayed id)
  | .deleteDelayed id => some (s.deleteDelayed id)
  | .deleteSync id => some { s with rows := s.rows.filter (·.id ≠ id) }
  | .mount mp =>
    match s.mountpoint with
    | some _ => none
    | none => some { s with mountpoint := some mp }
  | .unmount => some { s with mountpoint := none }

end State

variable {T : Type} [DecidableEq T] {dir : Path → Option (List Name)} {s s' : State T} {e : Event T}

def step (dir : Path → Option (List Name)) (s : State T) (e : Event T) (s' : State T) : Prop := s.run dir e = some s'

structure Initial (s : State T) : Prop where
  rows : s.rows = []
  call : ∀ t, s.call t = none
  wasOnDrive : s.wasOnDrive = false

/-! ## Runs -/

/-- A path spells the names of its directory from the root down, with no separator at its end. -/
def Plain (dir : Path → Option (List Name)) (p : Path) : Prop := ∃ names, dir p = some names ∧ p = spell names

theorem below_iff {p q : Path} : below dir p q = true ↔ ∃ a b, dir p = some a ∧ dir q = some b ∧ b <+: a := by
  unfold below
  split
  · next a b ha hb =>
    rw [List.isPrefixOf_iff_prefix]
    refine ⟨fun h => ⟨a, b, ha, hb, h⟩, fun ⟨a', b', ha', hb', h⟩ => ?_⟩
    cases ha.symm.trans ha'
    cases hb.symm.trans hb'
    exact h
  · next hnot =>
    refine ⟨fun h => absurd h Bool.false_ne_true, fun ⟨a, b, ha, hb, _⟩ => (hnot a b ha hb).elim⟩

/-- Paths that are spelled plainly are compared right. -/
theorem Plain.sameOrPrefix {p q : Path} (hp : Plain dir p) (hq : Plain dir q) (h : overlap dir p q = true) :
    sameOrPrefix p q = true := by
  obtain ⟨a, ha, rfl⟩ := hp
  obtain ⟨b, hb, rfl⟩ := hq
  obtain h | h := (Bool.or_eq_true ..).mp h
  · obtain ⟨a', b', ha', hb', hle⟩ := below_iff.mp h
    cases ha.symm.trans ha'
    cases hb.symm.trans hb'
    exact (sameOrPrefix_spell hle).2
  · obtain ⟨b', a', hb', ha', hle⟩ := below_iff.mp h
    cases ha.symm.trans ha'
    cases hb.symm.trans hb'
    exact (sameOrPrefix_spell hle).1

theorem Plain.onMountpoint {mp p : Path} (hmp : Plain dir mp) (hp : Plain dir p) (h : below dir p mp = true) :
    onMountpoint mp p = true := by
  obtain ⟨a, ha, rfl⟩ := hmp
  obtain ⟨b, hb, rfl⟩ := hp
  obtain ⟨b', a', hb', ha', hle⟩ := below_iff.mp h
  cases ha.symm.trans ha'
  cases hb.symm.trans hb'
  exact onMountpoint_spell hle

/-- A path overlaps a row, of the two one is not spelled plainly, and the comparison does not see it. -/
def Missed (dir : Path → Option (List Name)) (rows : List Row) (p : Path) : Prop :=
  ∃ row ∈ rows, overlap dir row.localpath p = true ∧ sameOrPrefix row.localpath p = false ∧
    ¬(Plain dir row.localpath ∧ Plain dir p)

/-- The same, for a path on the drive. -/
def MissedDrive (dir : Path → Option (List Name)) (mountpoint : Option Path) (p : Path) : Prop :=
  ∃ mp, mountpoint = some mp ∧ below dir p mp = true ∧ onMountpoint mp p = false ∧ ¬(Plain dir mp ∧ Plain dir p)

/-- Since the check a sync was added that overlaps, or the drive was mounted there. -/
def Overtaken (dir : Path → Option (List Name)) (s : State T) (c : Call) : Prop :=
  (∃ row ∈ s.rows, row ∉ c.seen ∧ overlap dir row.localpath c.localpath = true) ∨
    (s.mountpoint ≠ c.syncmp ∧ onDrive dir s.mountpoint c.localpath = true)

/-- What a run may not do. -/
def Slips (dir : Path → Option (List Name)) (s : State T) : Event T → Prop
  | .check _ localpath _ => Missed dir s.rows localpath ∨ MissedDrive dir s.mountpoint localpath
  | .insert t => ∃ c, s.call t = some c ∧ Overtaken dir s c
  | .checkDelayed _ localpath _ => Missed dir s.rows localpath ∨ onDrive dir s.mountpoint localpath = true
  | _ => False

/-- No two syncs have folders that overlap, and none was added with a folder on the drive. -/
structure Apart (dir : Path → Option (List Name)) (s : State T) : Prop where
  rows : s.rows.Pairwise fun row row' => overlap dir row.localpath row'.localpath = false
  drive : s.wasOnDrive = false

/-- A call in progress overlaps nothing that it has seen. -/
structure Sound (dir : Path → Option (List Name)) (s : State T) : Prop extends Apart dir s where
  seen : ∀ {t c}, s.call t = some c → ∀ row ∈ c.seen, overlap dir row.localpath c.localpath = false
  syncmp : ∀ {t c}, s.call t = some c → onDrive dir c.syncmp c.localpath = false

omit [DecidableEq T] in
theorem Initial.sound (h : Initial s) : Sound dir s where
  rows := by
    rw [h.rows]
    exact .nil
  drive := h.wasOnDrive
  seen := fun hc => nomatch (h.call _).symm.trans hc
  syncmp := fun hc => nomatch (h.call _).symm.trans hc

omit [DecidableEq T] in
/-- A path that is not refused overlaps nothing, unless the comparison misses it. -/
theorem not_overlap_of_not_refused {p : Path} (hmissed : ¬Missed dir s.rows p) (hr : s.refused p = false) :
    ∀ row ∈ s.rows, overlap dir row.localpath p = false := by
  intro row hrow
  have hcmp : sameOrPrefix row.localpath p = false := by
    have := List.any_eq_false.mp hr row hrow
    exact Bool.eq_false_iff.mpr this
  by_contra hover
  rw [Bool.not_eq_false] at hover
  refine hmissed ⟨row, hrow, hover, hcmp, fun ⟨hplain, hplain'⟩ => ?_⟩
  rw [hplain.sameOrPrefix hplain' hover] at hcmp
  cases hcmp

theorem not_onDrive_of_not_onMountpoint {mountpoint : Option Path} {p : Path} (hmissed : ¬MissedDrive dir mountpoint p)
    (hm : mountpoint.any (onMountpoint · p) = false) : onDrive dir mountpoint p = false := by
  cases mountpoint with
  | none => rfl
  | some mp =>
    have hcmp : onMountpoint mp p = false := hm
    by_contra hbelow
    have hbelow : below dir p mp = true := Bool.not_eq_false _ ▸ hbelow
    refine hmissed ⟨mp, rfl, hbelow, hcmp, fun ⟨hplain, hplain'⟩ => ?_⟩
    rw [hplain.onMountpoint hplain' hbelow] at hcmp
    cases hcmp

theorem setCall_call (s : State T) (t : T) (c : Option Call) : (s.setCall t c).call = Function.update s.call t c := rfl

theorem Sound.setCall (h : Sound dir s) {t : T} {c : Option Call}
    (hc : ∀ c', c = some c' → (∀ row ∈ c'.seen, overlap dir row.localpath c'.localpath = false) ∧
      onDrive dir c'.syncmp c'.localpath = false) : Sound dir (s.setCall t c) := by
  have hget : ∀ {t' c'}, (s.setCall t c).call t' = some c' → s.call t' = some c' ∨ c = some c' := by
    intro t' c' hcall
    by_cases ht : t' = t
    · subst ht
      rw [setCall_call, Function.update_self] at hcall
      exact .inr hcall
    · rw [setCall_call, Function.update_of_ne ht] at hcall
      exact .inl hcall
  refine ⟨⟨h.rows, h.drive⟩, fun hcall => ?_, fun hcall => ?_⟩
  · obtain hcall | hcall := hget hcall
    · exact h.seen hcall
    · exact (hc _ hcall).1
  · obtain hcall | hcall := hget hcall
    · exact h.syncmp hcall
    · exact (hc _ hcall).2

omit [DecidableEq T] in
/-- A row that overlaps nothing is inserted. -/
theorem Sound.insertRow (h : Sound dir s) {p : Path} (folderid : ℕ)
    (hrows : ∀ row ∈ s.rows, overlap dir row.localpath p = false) (hdrive : onDrive dir s.mountpoint p = false) :
    Sound dir (s.insertRow dir p folderid) := by
  unfold State.insertRow
  split
  · exact h
  · refine ⟨⟨?_, ?_⟩, h.seen, h.syncmp⟩
    · refine List.pairwise_append.mpr ⟨h.rows, List.pairwise_singleton _ _, fun row hrow row' hrow' => ?_⟩
      cases List.mem_singleton.mp hrow'
      exact hrows row hrow
    · dsimp only
      rw [h.drive, hdrive]
      rfl

theorem Sound.step (h : Sound dir s) (hd : ¬Slips dir s e) (hstep : step dir s e s') : Sound dir s' := by
  unfold Syncs.step at hstep
  cases e with
  | check t localpath folderid =>
    simp only [State.run] at hstep
    split at hstep
    · cases hstep
    · split at hstep
      · cases hstep
        exact h
      · split at hstep
        · cases hstep
          exact h
        · next hmount =>
          split at hstep
          · cases hstep
            exact h
          · next hrefused =>
            cases hstep
            obtain ⟨hmissed, hdrive⟩ := not_or.mp hd
            refine h.setCall fun c hc => ?_
            cases hc
            exact ⟨not_overlap_of_not_refused hmissed (Bool.eq_false_iff.mpr hrefused),
              not_onDrive_of_not_onMountpoint hdrive (Bool.eq_false_iff.mpr hmount)⟩
  | giveUp t =>
    cases hstep
    exact h.setCall nofun
  | insert t =>
    obtain ⟨c, hc, hs'⟩ := Option.map_eq_some_iff.mp hstep
    subst hs'
    have hover : ¬Overtaken dir s c := fun hover => hd ⟨c, hc, hover⟩
    obtain ⟨hadded, hmounted⟩ := not_or.mp hover
    refine Sound.setCall (h.insertRow c.folderid (fun row hrow => ?_) ?_) nofun
    · by_cases hseen : row ∈ c.seen
      · exact h.seen hc row hseen
      · exact Bool.eq_false_iff.mpr fun htrue => hadded ⟨row, hrow, hseen, htrue⟩
    · by_cases hsame : s.mountpoint = c.syncmp
      · rw [hsame]
        exact h.syncmp hc
      · exact Bool.eq_false_iff.mpr fun htrue => hmounted ⟨hsame, htrue⟩
  | addDelayed localpath =>
    simp only [State.run] at hstep
    split at hstep
    · cases hstep
      exact h
    · cases hstep
      exact ⟨⟨h.rows, h.drive⟩, h.seen, h.syncmp⟩
  | checkDelayed id localpath folderid =>
    simp only [State.run] at hstep
    split at hstep
    · cases hstep
    · split at hstep
      · cases hstep
        exact ⟨⟨h.rows, h.drive⟩, h.seen, h.syncmp⟩
      · split at hstep
        · cases hstep
          exact ⟨⟨h.rows, h.drive⟩, h.seen, h.syncmp⟩
        · next hrefused =>
          cases hstep
          obtain ⟨hmissed, hdrive⟩ := not_or.mp hd
          have hins := h.insertRow folderid (not_overlap_of_not_refused hmissed (Bool.eq_false_iff.mpr hrefused))
            (Bool.eq_false_iff.mpr hdrive)
          exact ⟨⟨hins.rows, hins.drive⟩, hins.seen, hins.syncmp⟩
  | deleteDelayed id =>
    cases hstep
    exact ⟨⟨h.rows, h.drive⟩, h.seen, h.syncmp⟩
  | deleteSync id =>
    cases hstep
    exact ⟨⟨h.rows.filter _, h.drive⟩, h.seen, h.syncmp⟩
  | mount mp =>
    simp only [State.run] at hstep
    split at hstep
    · cases hstep
    · cases hstep
      exact ⟨⟨h.rows, h.drive⟩, h.seen, h.syncmp⟩
  | unmount =>
    cases hstep
    exact ⟨⟨h.rows, h.drive⟩, h.seen, h.syncmp⟩

/-- As long as the comparison of strings misses nothing, no call is overtaken, and no delayed folder
is on the drive, synced local folders do not overlap. -/
theorem apart_of_avoiding (h : Reachable Initial (Avoiding (step dir) (Slips dir)) s) : Apart dir s :=
  (h.invariant (fun _ => Initial.sound) fun _ _ _ h hs => h.step hs.2 hs.1).toApart

/-- The names of an absolute path. -/
def names : Path → Name → List Name
  | [], [] => []
  | [], name => [name]
  | '/' :: str, [] => names str []
  | '/' :: str, name => name :: names str []
  | c :: str, name => names str (name ++ [c])

/-- Every string is the path of a folder. -/
def everywhere (str : Path) : Option (List Name) := some (names str [])

def noSyncs : State ℕ := ⟨[], 1, [], 1, fun _ => none, none, false⟩

theorem noSyncs_initial : Initial noSyncs := ⟨rfl, fun _ => rfl, rfl⟩

/-- Two siblings are added. -/
theorem apart_siblings : ∃ s : State ℕ, Apart everywhere s ∧
    s.rows = [⟨1, 0, "/a/b".toList⟩, ⟨2, 0, "/a/c".toList⟩] := by
  have goes : ∀ {s s' : State ℕ} (e), s.run everywhere e = some s' → ¬Slips everywhere s e →
      Reachable Initial (Avoiding (step everywhere) (Slips everywhere)) s →
      Reachable Initial (Avoiding (step everywhere) (Slips everywhere)) s' := fun _ hs hd h => .next h ⟨hs, hd⟩
  refine ⟨_, apart_of_avoiding (goes (.insert 0) rfl ?second <| goes (.check 0 "/a/c".toList 0) rfl ?other <|
    goes (.insert 0) rfl ?first <| goes (.check 0 "/a/b".toList 0) rfl ?empty <| .start noSyncs_initial), rfl⟩
  case empty =>
    rintro (⟨row, hrow, -⟩ | ⟨mp, hmp, -⟩)
    · cases hrow
    · cases hmp
  case first =>
    rintro ⟨c, hc, ⟨row, hrow, -⟩ | ⟨hne, -⟩⟩
    · cases hrow
    · cases hc
      exact hne rfl
  case other =>
    rintro (⟨row, hrow, hover, -⟩ | ⟨mp, hmp, -⟩)
    · cases List.mem_singleton.mp hrow
      revert hover
      decide
    · cases hmp
  case second =>
    rintro ⟨c, hc, ⟨row, hrow, hnew, -⟩ | ⟨hne, -⟩⟩
    · cases hc
      exact hnew hrow
    · cases hc
      exact hne rfl

/-- The root is added when a folder below it is synced. -/
theorem root_overlaps : ∃ s : State ℕ, Reachable Initial (step everywhere) s ∧
    s.rows = [⟨1, 0, "/a".toList⟩, ⟨2, 0, "/".toList⟩] ∧ ¬Apart everywhere s := by
  have goes : ∀ {s s' : State ℕ} (e), s.run everywhere e = some s' → Reachable Initial (step everywhere) s →
      Reachable Initial (step everywhere) s' := fun _ hs h => .next h hs
  refine ⟨_, goes (.insert 0) rfl <| goes (.check 0 "/".toList 0) rfl <| goes (.insert 0) rfl <|
    goes (.check 0 "/a".toList 0) rfl <| .start noSyncs_initial, rfl, fun h => ?_⟩
  have hover := (List.pairwise_cons.mp h.rows).1 ⟨2, 0, "/".toList⟩ (List.mem_singleton_self _)
  revert hover
  decide

end Pclsync.Syncs
