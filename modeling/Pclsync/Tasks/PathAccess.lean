import Pclsync.Tasks.PathFolders
import Mathlib.Data.List.TakeWhile

/-! What a path gives depends on the folders on the way only, as long as no folder of which the
overlay has no record gives back a permission. -/
namespace Pclsync.Tasks.Paths
open Lib.Narrowing

variable {env : Env} {o o₁ o₂ : Folders} {w : Walk} {path name ename rest last : Name} {cfolderid : ℤ} {flags : ℕ} {st : Stage}
  {way : List Stage}

/-! ### Rounds -/

/-- What a round makes of the variables for the folder that it found. -/
def Walk.take (env : Env) (w : Walk) (st : Stage) : Walk :=
  match st.found with
  | .pending id flags => { w with cfolderid := id, flags := flags }
  | .stored row =>
    ⟨row.id, if st.recorded then w.permissions &&& row.permissions else row.permissions, row.flags,
      checkUserid env row.userid row.id w.shareid⟩

theorem resolveStep_of_visible (hname : encname env w.cfolderid w.flags name = .ok ename) (hst : visible env o w.cfolderid ename = some st) :
    resolveStep env o w name = .ok (w.take env st) := by
  unfold visible at hst
  simp only [resolveStep, hname, bind, Except.bind]
  cases hfolder : o w.cfolderid with
  | none =>
    rw [hfolder] at hst
    obtain ⟨row, hrow, rfl⟩ := Option.map_eq_some_iff.mp hst
    rw [hrow]
    rfl
  | some folder =>
    simp only [hfolder] at hst ⊢
    cases hmk : searchTree folder.mkdirs ename 0 with
    | some mk =>
      simp only [hmk] at hst ⊢
      split_ifs at hst ⊢
      cases hst
      rfl
    | none =>
      simp only [hmk] at hst ⊢
      split_ifs at hst ⊢
      obtain ⟨row, hrow, rfl⟩ := Option.map_eq_some_iff.mp hst
      rw [hrow]
      rfl

theorem resolveStep_of_hidden (hname : encname env w.cfolderid w.flags name = .ok ename) (hst : visible env o w.cfolderid ename = none) :
    resolveStep env o w name = .error 0 := by
  unfold visible at hst
  simp only [resolveStep, hname, bind, Except.bind]
  cases hfolder : o w.cfolderid with
  | none =>
    rw [hfolder] at hst
    rw [Option.map_eq_none_iff.mp hst]
  | some folder =>
    simp only [hfolder] at hst ⊢
    cases hmk : searchTree folder.mkdirs ename 0 with
    | some mk =>
      simp only [hmk] at hst ⊢
      split_ifs at hst ⊢
      rfl
    | none =>
      simp only [hmk] at hst ⊢
      split_ifs at hst ⊢ with hrmdir
      · rw [Option.map_eq_none_iff.mp hst]
      · cases folderNamed env w.cfolderid ename <;> rfl

theorem byPathStep_of_visible (hname : encname env cfolderid flags name = .ok ename) (hst : visible env o cfolderid ename = some st) :
    byPathStep env o cfolderid flags name = .ok (st.found.id, st.found.flags) := by
  unfold visible at hst
  simp only [byPathStep, hname, bind, Except.bind]
  cases hfolder : o cfolderid with
  | none =>
    rw [hfolder] at hst
    obtain ⟨row, hrow, rfl⟩ := Option.map_eq_some_iff.mp hst
    rw [hrow]
    rfl
  | some folder =>
    simp only [hfolder] at hst ⊢
    cases hmk : searchTree folder.mkdirs ename 0 with
    | some mk =>
      simp only [hmk] at hst ⊢
      split_ifs at hst
      cases hst
      rfl
    | none =>
      simp only [hmk] at hst ⊢
      split_ifs at hst ⊢
      obtain ⟨row, hrow, rfl⟩ := Option.map_eq_some_iff.mp hst
      rw [hrow]
      rfl

/-! ### Paths -/

/-- The folder behind a way, and its flags. -/
def place (start : ℤ × ℕ) (way : List Stage) : ℤ × ℕ := way.foldl (fun _ st => (st.found.id, st.found.flags)) start

theorem take_place : ((w.take env st).cfolderid, (w.take env st).flags) = (st.found.id, st.found.flags) := by
  unfold Walk.take
  cases st.found <;> rfl

theorem foldl_take_place : ((way.foldl (Walk.take env) w).cfolderid, (way.foldl (Walk.take env) w).flags) = place (w.cfolderid, w.flags) way := by
  induction way generalizing w with
  | nil => rfl
  | cons st way ih =>
    rw [List.foldl_cons, ih, take_place]
    rfl

/-- The loop is a walk over the visible folders. -/
theorem resolveFrom_eq : resolveFrom env o path w =
    stagesFrom env o path w.cfolderid w.flags >>= fun p => retFolderData env (p.1.foldl (Walk.take env) w) p.2 := by
  induction hlength : path.length using Nat.strong_induction_on generalizing path w with
  | _ n ih =>
    rw [resolveFrom, stagesFrom]
    split
    next => rfl
    next => rfl
    next name c rest hnext =>
      cases hname : encname env w.cfolderid w.flags name with
      | error e => simp only [resolveStep, hname, bind, Except.bind]
      | ok ename =>
        cases hst : visible env o w.cfolderid ename with
        | none => simp only [resolveStep_of_hidden hname hst, bind, Except.bind, hst]
        | some st =>
          have hrest := @ih _ (hlength ▸ nextName_lt hnext) (w.take env st) (c :: rest) rfl
          obtain ⟨hid, hflags⟩ := Prod.mk.inj (@take_place env w st)
          rw [hid, hflags] at hrest
          simp only [resolveStep_of_visible hname hst, bind, Except.bind, hst] at hrest ⊢
          rw [hrest]
          cases stagesFrom env o (c :: rest) st.found.id st.found.flags <;> rfl

/-! ### The directory of a path -/

theorem nextName_eq_none (h : ∀ c ∈ path, c = slash) : nextName path = none := by
  have hdrop : path.dropWhile (fun x => decide (x = slash)) = [] := List.dropWhile_eq_nil_iff.mpr (by simpa using h)
  rw [nextName, hdrop]

/-- A path is slashes, a name, and what is behind it. -/
theorem parts_of_nextName (h : nextName path = some (name, rest)) :
    ∃ pre, path = pre ++ (name ++ rest) ∧ (∀ c ∈ pre, c = slash) ∧ name ≠ [] ∧ (∀ c ∈ name, c ≠ slash) ∧ ∀ c ∈ rest.head?, c = slash := by
  unfold nextName at h
  split at h
  · cases h
  next c cs heq =>
    cases h
    have hc : c ≠ slash := by
      have hhead := List.head_dropWhile_not (fun x => decide (x = slash)) (l := path) (by rw [heq]; exact List.cons_ne_nil _ _)
      simpa [heq] using hhead
    refine ⟨path.takeWhile fun x => x = slash, ?_, fun x hx => ?_, List.cons_ne_nil _ _, fun x hx => ?_, fun x hx => ?_⟩
    · rw [List.cons_append, List.takeWhile_append_dropWhile, ← heq, List.takeWhile_append_dropWhile]
    · simpa using List.all_eq_true.mp List.all_takeWhile x hx
    · rcases List.mem_cons.mp hx with rfl | hx
      · exact hc
      · simpa using List.all_eq_true.mp List.all_takeWhile x hx
    · have hnot := List.head?_dropWhile_not (fun x => decide (x ≠ slash)) cs
      rw [Option.mem_def.mp hx] at hnot
      simpa using hnot

theorem nextName_of_parts {pre : Name} (hpre : ∀ c ∈ pre, c = slash) (hne : name ≠ []) (hname : ∀ c ∈ name, c ≠ slash)
    (hrest : ∀ c ∈ rest.head?, c = slash) : nextName (pre ++ (name ++ rest)) = some (name, rest) := by
  obtain ⟨c, cs, rfl⟩ := List.exists_cons_of_ne_nil hne
  have hc : c ≠ slash := hname c (.head _)
  have hdrop : (pre ++ (c :: cs ++ rest)).dropWhile (fun x => decide (x = slash)) = c :: (cs ++ rest) := by
    rw [List.dropWhile_append_of_pos (by simpa using hpre), List.cons_append, List.dropWhile_cons_of_neg (by simpa using hc)]
  have hcs : ∀ x ∈ cs, decide (x ≠ slash) = true := fun x hx => decide_eq_true (hname x (.tail _ hx))
  have hstop : rest.takeWhile (fun x => decide (x ≠ slash)) = [] ∧ rest.dropWhile (fun x => decide (x ≠ slash)) = rest := by
    cases rest with
    | nil => exact ⟨rfl, rfl⟩
    | cons x rest => simp [hrest x rfl]
  rw [nextName, hdrop]
  dsimp only
  rw [List.takeWhile_append_of_pos hcs, List.dropWhile_append_of_pos hcs, hstop.1, hstop.2, List.append_nil]

theorem directory_append {before after : Name} (h : slash ∈ after) : directory (before ++ after) = before ++ directory after := by
  induction before with
  | nil => rfl
  | cons c before ih =>
    rw [List.cons_append, directory, if_pos (.tail _ (List.mem_append_right _ h)), ih, List.cons_append]

theorem directory_of_slashes {pre : Name} (hpre : ∀ c ∈ pre, c = slash) (hname : ∀ c ∈ name, c ≠ slash) : directory (pre ++ name) = pre := by
  induction pre with
  | nil =>
    cases name with
    | nil => rfl
    | cons c cs => exact if_neg fun hmem => hname slash hmem rfl
  | cons c pre ih =>
    rw [List.cons_append, directory, if_pos (hpre c (.head _) ▸ .head _), ih fun x hx => hpre x (.tail _ hx)]

theorem head_directory (h : path.head? = some slash) : (directory path).head? = some slash := by
  cases path with
  | nil => cases h
  | cons c path =>
    cases h
    rw [directory, if_pos (.head _)]
    rfl

/-- The directory of a path that ends with its first name has no name. -/
theorem nextName_directory_last (h : nextName path = some (name, [])) : nextName (directory path) = none := by
  obtain ⟨pre, rfl, hpre, _, hname, _⟩ := parts_of_nextName h
  rw [List.append_nil, directory_of_slashes hpre hname]
  exact nextName_eq_none hpre

/-- The directory goes on as the path does. -/
theorem nextName_directory {c : UInt8} (h : nextName path = some (name, c :: rest)) :
    nextName (directory path) = some (name, directory (c :: rest)) := by
  obtain ⟨pre, rfl, hpre, hne, hname, hrest⟩ := parts_of_nextName h
  cases hrest c rfl
  have hslash : slash ∈ slash :: rest := .head _
  rw [directory_append (List.mem_append_right _ hslash), directory_append hslash]
  refine nextName_of_parts hpre hne hname fun x hx => ?_
  rw [head_directory rfl] at hx
  exact (Option.some.inj hx).symm

/-- The directory of a path is the folder that the path is in. -/
theorem byPathFrom_directory (h : stagesFrom env o path cfolderid flags = .ok (way, last)) :
    byPathFrom env o (directory path) cfolderid flags = .ok (place (cfolderid, flags) way) := by
  induction hlength : path.length using Nat.strong_induction_on generalizing path cfolderid flags way with
  | _ n ih =>
    rw [stagesFrom] at h
    split at h
    next => cases h
    next name' hnext =>
      cases h
      rw [byPathFrom]
      split
      next => rfl
      next heq => cases (nextName_directory_last hnext).symm.trans heq
    next name' c rest hnext =>
      cases hname : encname env cfolderid flags name' with
      | error e =>
        rw [hname] at h
        cases h
      | ok ename =>
        cases hst : visible env o cfolderid ename with
        | none =>
          simp only [hname, bind, Except.bind, hst] at h
          cases h
        | some st =>
          simp only [hname, bind, Except.bind, hst] at h
          cases hrest : stagesFrom env o (c :: rest) st.found.id st.found.flags with
          | error e =>
            rw [hrest] at h
            cases h
          | ok p =>
            rw [hrest] at h
            cases h
            have hloop := ih _ (hlength ▸ nextName_lt hnext) hrest rfl
            rw [byPathFrom]
            split
            next heq => cases (nextName_directory hnext).symm.trans heq
            next heq =>
              cases (nextName_directory hnext).symm.trans heq
              rw [byPathStep_of_visible hname hst]
              exact hloop

theorem stagesFrom_last (h : nextName path = some (name, [])) : stagesFrom env o path cfolderid flags = .ok ([], name) := by
  rw [stagesFrom]
  split
  next heq => cases heq.symm.trans h
  next heq =>
    cases heq.symm.trans h
    rfl
  next heq => cases heq.symm.trans h

theorem stagesFrom_next {c : UInt8} (h : nextName path = some (name, c :: rest)) (hname : encname env cfolderid flags name = .ok ename)
    (hst : visible env o cfolderid ename = some st) (hrest : stagesFrom env o (c :: rest) st.found.id st.found.flags = .ok (way, last)) :
    stagesFrom env o path cfolderid flags = .ok (st :: way, last) := by
  rw [stagesFrom]
  split
  next heq => cases heq.symm.trans h
  next heq => cases heq.symm.trans h
  next heq =>
    cases heq.symm.trans h
    simp only [hname, bind, Except.bind, hst, hrest]

/-! ### Permissions -/

/-- The rows on the way: what they permit, and whether the overlay has a record of the folder that they are in. -/
def rows (way : List Stage) : List (ℕ × Bool) := way.filterMap fun st => st.found.permissions.map fun permissions => (permissions, st.recorded)

theorem foldl_take_permissions : (way.foldl (Walk.take env) w).permissions =
    narrowFrom (· &&& ·) Prod.fst (fun row => row.2 = false) w.permissions (rows way) := by
  induction way generalizing w with
  | nil => rfl
  | cons st way ih =>
    obtain ⟨found, recorded⟩ := st
    rw [List.foldl_cons, ih]
    cases found with
    | pending => rfl
    | stored row => cases recorded <;> rfl

theorem intersection_eq : intersection (way.map Stage.found) = narrow (· &&& ·) Prod.fst permAll (rows way) := by
  have hrows : (way.map Stage.found).filterMap Found.permissions = (rows way).map Prod.fst := by
    rw [List.filterMap_map, rows, List.map_filterMap]
    refine List.filterMap_congr fun st _ => ?_
    rw [Option.map_map]
    exact Option.map_id.symm ▸ rfl
  rw [intersection, hrows, narrow, narrow, List.foldl_map]
  rfl

/-- A row that is looked up in a folder without a record gives nothing back: what it and the later rows permit the rows before it
permit. -/
def NothingComesBack (env : Env) (o : Folders) (path : Name) : Prop :=
  ∀ way last, stages env o path = .ok (way, last) → (retName env (place (0, 0) way).1 (place (0, 0) way).2 last).isOk →
    Falling (· &&& ·) Prod.fst (fun row => row.2 = false) permAll (rows way)

/-- What a path gives depends on the path only. -/
structure PathOnly (env : Env) (o₁ o₂ : Folders) (path : Name) : Prop where
  same : resolvePath env o₁ path = resolvePath env o₂ path
  permissions : ∀ o, o = o₁ ∨ o = o₂ → ∀ p found last, resolvePath env o path = .ok p → folders env o path = .ok (found, last) →
    p.permissions = intersection found
  directory : ∀ o, o = o₁ ∨ o = o₂ → ∀ p, resolvePath env o path = .ok p →
    folderidByPath env o (directory path) = .ok (p.folderid, p.flags)

theorem resolvePath_eq : resolvePath env o path =
    stages env o path >>= fun p => retFolderData env (p.1.foldl (Walk.take env) ⟨0, permAll, 0, 0⟩) p.2 := by
  unfold resolvePath stages
  split_ifs
  · exact resolveFrom_eq
  · rfl

/-- The shares on the way. -/
def shareOf (env : Env) (start : ℕ) (found : List Found) : ℕ :=
  found.foldl (fun shareid => fun
    | .pending _ _ => shareid
    | .stored row => checkUserid env row.userid row.id shareid) start

theorem foldl_take_shareid : (way.foldl (Walk.take env) w).shareid = shareOf env w.shareid (way.map Stage.found) := by
  induction way generalizing w with
  | nil => rfl
  | cons st way ih =>
    obtain ⟨found, recorded⟩ := st
    rw [List.foldl_cons, ih]
    cases found <;> rfl

/-- A path that is resolved. -/
theorem resolvePath_eq_ok {p : Fspath} (h : resolvePath env o path = .ok p) : ∃ way last, stages env o path = .ok (way, last) ∧
    retName env (place (0, 0) way).1 (place (0, 0) way).2 last = .ok p.name ∧ (p.folderid, p.flags) = place (0, 0) way ∧
    p.permissions = narrowFrom (· &&& ·) Prod.fst (fun row => row.2 = false) permAll (rows way) ∧
    p.shareid = shareOf env 0 (way.map Stage.found) := by
  rw [resolvePath_eq] at h
  cases hstages : stages env o path with
  | error e =>
    rw [hstages] at h
    cases h
  | ok q =>
    obtain ⟨way, last⟩ := q
    have hplace := @foldl_take_place env ⟨0, permAll, 0, 0⟩ way
    have hid : (way.foldl (Walk.take env) ⟨0, permAll, 0, 0⟩).cfolderid = (place (0, 0) way).1 := congrArg Prod.fst hplace
    have hflags : (way.foldl (Walk.take env) ⟨0, permAll, 0, 0⟩).flags = (place (0, 0) way).2 := congrArg Prod.snd hplace
    simp only [hstages, bind, Except.bind, retFolderData, hid, hflags] at h
    cases hname : retName env (place (0, 0) way).1 (place (0, 0) way).2 last with
    | error e =>
      rw [hname] at h
      cases h
    | ok name =>
      rw [hname] at h
      cases h
      exact ⟨way, last, rfl, hname, rfl, foldl_take_permissions, foldl_take_shareid⟩

theorem resolvePath_of_stages (hstages : stages env o path = .ok (way, last))
    (hname : retName env (place (0, 0) way).1 (place (0, 0) way).2 last = .ok name) :
    resolvePath env o path = .ok ⟨(place (0, 0) way).1, name, narrowFrom (· &&& ·) Prod.fst (fun row => row.2 = false) permAll (rows way),
      (place (0, 0) way).2, shareOf env 0 (way.map Stage.found)⟩ := by
  have hplace := @foldl_take_place env ⟨0, permAll, 0, 0⟩ way
  have hid : (way.foldl (Walk.take env) ⟨0, permAll, 0, 0⟩).cfolderid = (place (0, 0) way).1 := congrArg Prod.fst hplace
  have hflags : (way.foldl (Walk.take env) ⟨0, permAll, 0, 0⟩).flags = (place (0, 0) way).2 := congrArg Prod.snd hplace
  have hpermissions := @foldl_take_permissions env ⟨0, permAll, 0, 0⟩ way
  have hshareid := @foldl_take_shareid env ⟨0, permAll, 0, 0⟩ way
  rw [resolvePath_eq]
  simp only [hstages, bind, Except.bind, retFolderData, hid, hflags, hname, hpermissions, hshareid]

theorem resolvePath_of_refused {e : ℤ} (hstages : stages env o path = .ok (way, last))
    (hname : retName env (place (0, 0) way).1 (place (0, 0) way).2 last = .error e) : resolvePath env o path = .error e := by
  have hplace := @foldl_take_place env ⟨0, permAll, 0, 0⟩ way
  have hid : (way.foldl (Walk.take env) ⟨0, permAll, 0, 0⟩).cfolderid = (place (0, 0) way).1 := congrArg Prod.fst hplace
  have hflags : (way.foldl (Walk.take env) ⟨0, permAll, 0, 0⟩).flags = (place (0, 0) way).2 := congrArg Prod.snd hplace
  rw [resolvePath_eq]
  simp only [hstages, bind, Except.bind, retFolderData, hid, hflags, hname]

theorem resolvePath_of_lost {e : ℤ} (hstages : stages env o path = .error e) : resolvePath env o path = .error e := by
  rw [resolvePath_eq, hstages]
  rfl

/-! ### The folders are the same -/

/-- Where a way leads is seen from its folders. -/
theorem place_eq {start : ℤ × ℕ} : place start way = (way.map Stage.found).foldl (fun _ found => (found.id, found.flags)) start := by
  rw [place, List.foldl_map]

theorem folders_eq_ok {found : List Found} (h : folders env o path = .ok (found, last)) :
    ∃ way, stages env o path = .ok (way, last) ∧ way.map Stage.found = found := by
  unfold folders at h
  cases hstages : stages env o path with
  | error e =>
    rw [hstages] at h
    cases h
  | ok p =>
    rw [hstages] at h
    cases h
    exact ⟨p.1, rfl, rfl⟩

theorem folders_eq_error {e : ℤ} : folders env o path = .error e ↔ stages env o path = .error e := by
  unfold folders
  cases stages env o path with
  | error e' =>
    rw [Except.map, Except.error.injEq, Except.error.injEq]
  | ok p => exact ⟨fun h => (nomatch h), fun h => (nomatch h)⟩

theorem folders_of_stages (h : stages env o path = .ok (way, last)) : folders env o path = .ok (way.map Stage.found, last) := by
  rw [folders, h]
  rfl

/-- What the walk leaves is what all folders permit, exactly when nothing comes back. -/
theorem permissions_iff : narrowFrom (· &&& ·) Prod.fst (fun row => row.2 = false) permAll (rows way) = intersection (way.map Stage.found) ↔
    Falling (· &&& ·) Prod.fst (fun row => row.2 = false) permAll (rows way) := by
  rw [intersection_eq]
  exact narrowFrom_iff

/-- A path that is resolved gives what all folders permit, exactly when nothing comes back on it. -/
theorem permissions_eq_iff : (∀ p found last, resolvePath env o path = .ok p → folders env o path = .ok (found, last) →
    p.permissions = intersection found) ↔ NothingComesBack env o path := by
  constructor
  · intro h way last hstages hok
    cases hname : retName env (place (0, 0) way).1 (place (0, 0) way).2 last with
    | error e =>
      rw [hname] at hok
      cases hok
    | ok name => exact permissions_iff.mp (h _ _ _ (resolvePath_of_stages hstages hname) (folders_of_stages hstages))
  · intro h p found last hp hfolders
    obtain ⟨way, last', hstages, hname, hplace, hpermissions, hshareid⟩ := resolvePath_eq_ok hp
    cases (folders_of_stages hstages).symm.trans hfolders
    rw [hpermissions]
    refine permissions_iff.mpr (h way last hstages ?_)
    rw [hname]
    rfl

/-- The directory of a path that is resolved. -/
theorem directory_eq {p : Fspath} (hp : resolvePath env o path = .ok p) :
    folderidByPath env o (directory path) = .ok (p.folderid, p.flags) := by
  obtain ⟨way, last, hstages, hname, hplace, hpermissions, hshareid⟩ := resolvePath_eq_ok hp
  unfold stages at hstages
  split_ifs at hstages with hhead
  rw [folderidByPath, if_pos (head_directory hhead), byPathFrom_directory hstages, hplace]

/-- The same folders give the same, if nothing comes back. -/
theorem resolvePath_same (hsame : folders env o₁ path = folders env o₂ path) (h₁ : NothingComesBack env o₁ path)
    (h₂ : NothingComesBack env o₂ path) : resolvePath env o₁ path = resolvePath env o₂ path := by
  cases hfolders : folders env o₁ path with
  | error e => rw [resolvePath_of_lost (folders_eq_error.mp hfolders), resolvePath_of_lost (folders_eq_error.mp (hsame ▸ hfolders))]
  | ok q =>
    obtain ⟨found, last⟩ := q
    obtain ⟨way₁, hway₁, hfound₁⟩ := folders_eq_ok hfolders
    obtain ⟨way₂, hway₂, hfound₂⟩ := folders_eq_ok (hsame ▸ hfolders)
    have hplace : place (0, 0) way₁ = place (0, 0) way₂ := by rw [place_eq, place_eq, hfound₁, hfound₂]
    cases hname : retName env (place (0, 0) way₁).1 (place (0, 0) way₁).2 last with
    | error e => rw [resolvePath_of_refused hway₁ hname, resolvePath_of_refused hway₂ (hplace ▸ hname)]
    | ok name =>
      have hok : (retName env (place (0, 0) way₁).1 (place (0, 0) way₁).2 last).isOk := by
        rw [hname]
        rfl
      have hpermissions₁ := permissions_iff.mpr (h₁ way₁ last hway₁ hok)
      have hpermissions₂ := permissions_iff.mpr (h₂ way₂ last hway₂ (hplace ▸ hok))
      rw [resolvePath_of_stages hway₁ hname, resolvePath_of_stages hway₂ (hplace ▸ hname), hplace, hpermissions₁, hpermissions₂, hfound₁, hfound₂]

/-- A path gives what its folders give, whatever else the overlays hold, exactly when no folder whose parent has no record gives
back what a folder before it has taken. -/
theorem pathOnly_iff (hsame : folders env o₁ path = folders env o₂ path) :
    PathOnly env o₁ o₂ path ↔ NothingComesBack env o₁ path ∧ NothingComesBack env o₂ path := by
  constructor
  · intro h
    exact ⟨permissions_eq_iff.mp (h.permissions o₁ (.inl rfl)), permissions_eq_iff.mp (h.permissions o₂ (.inr rfl))⟩
  · rintro ⟨h₁, h₂⟩
    refine ⟨resolvePath_same hsame h₁ h₂, fun o ho => ?_, fun o _ p => directory_eq⟩
    rcases ho with rfl | rfl
    · exact permissions_eq_iff.mpr h₁
    · exact permissions_eq_iff.mpr h₂

/-- `/A/B/x`: what is below `A` may be read, `B` permits everything. -/
def narrowed : Env := ⟨[⟨0, [65], 1, 1, 0, 1⟩, ⟨1, [66], 2, permAll, 0, 1⟩], [], 1, fun _ name => .ok name, [46]⟩

def untouchedFolders : Folders := fun _ => none

/-- A file is being created in `A`. -/
def creatInA : Folders := fun folderid => if folderid = 1 then some ⟨[], [], [⟨[120], 7, 0, 0⟩], []⟩ else none

theorem stages_untouched : stages narrowed untouchedFolders [47, 65, 47, 66, 47, 120] =
    .ok ([⟨.stored ⟨0, [65], 1, 1, 0, 1⟩, false⟩, ⟨.stored ⟨1, [66], 2, permAll, 0, 1⟩, false⟩], [120]) :=
  stagesFrom_next rfl rfl rfl (stagesFrom_next rfl rfl rfl (stagesFrom_last rfl))

theorem stages_creatInA : stages narrowed creatInA [47, 65, 47, 66, 47, 120] =
    .ok ([⟨.stored ⟨0, [65], 1, 1, 0, 1⟩, false⟩, ⟨.stored ⟨1, [66], 2, permAll, 0, 1⟩, true⟩], [120]) :=
  stagesFrom_next rfl rfl rfl (stagesFrom_next rfl rfl rfl (stagesFrom_last rfl))

theorem folders_narrowed : folders narrowed untouchedFolders [47, 65, 47, 66, 47, 120] = folders narrowed creatInA [47, 65, 47, 66, 47, 120] := by
  rw [folders_of_stages stages_untouched, folders_of_stages stages_creatInA]
  rfl

theorem narrowed_pathOnly_iff : PathOnly narrowed untouchedFolders creatInA [47, 65, 47, 66, 47, 120] ↔
    NothingComesBack narrowed untouchedFolders [47, 65, 47, 66, 47, 120] ∧ NothingComesBack narrowed creatInA [47, 65, 47, 66, 47, 120] :=
  pathOnly_iff folders_narrowed

/-- Everything is permitted below `B`, until a file is created in `A`. -/
theorem creat_narrows : folders narrowed untouchedFolders [47, 65, 47, 66, 47, 120] = folders narrowed creatInA [47, 65, 47, 66, 47, 120] ∧
    (resolvePath narrowed untouchedFolders [47, 65, 47, 66, 47, 120]).toOption.map Fspath.permissions = some permAll ∧
    (resolvePath narrowed creatInA [47, 65, 47, 66, 47, 120]).toOption.map Fspath.permissions = some 1 ∧
    ¬PathOnly narrowed untouchedFolders creatInA [47, 65, 47, 66, 47, 120] := by
  have h₁ := @resolvePath_of_stages _ _ _ [120] _ _ stages_untouched (by decide)
  have h₂ := @resolvePath_of_stages _ _ _ [120] _ _ stages_creatInA (by decide)
  refine ⟨folders_narrowed, ?_, ?_, fun h => ?_⟩
  · rw [h₁]
    decide
  · rw [h₂]
    decide
  · have hsame := h.same
    rw [h₁, h₂] at hsame
    exact absurd (congrArg Fspath.permissions (Except.ok.inj hsame)) (by decide)

end Pclsync.Tasks.Paths
