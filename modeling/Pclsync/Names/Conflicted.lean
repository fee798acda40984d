import Mathlib.Data.Finset.Card
import Mathlib.Data.Nat.Digits.Defs
import Mathlib.Data.List.TakeDrop

/-! `psync_rename_conflicted_file` of `plibs.c`. Paths are the bytes before the final zero, and `psync_stat` succeeds
for the paths that are there. -/
namespace Pclsync.Names.Conflicted

def bytes (s : String) : List UInt8 := s.toList.map fun c => UInt8.ofNat c.toNat

/-- `'.'` -/
def dot : UInt8 := 46

/-- `'/'` -/
def slash : UInt8 := 47

/-- The loop from `dotidx` downwards. -/
def dotBefore (path : List UInt8) : ℕ → ℕ
  | 0 => 0
  | dotidx + 1 => if path[dotidx + 1]? = some dot then dotidx + 1 else dotBefore path dotidx

/-- Where the mark goes. -/
def dotidx (path : List UInt8) : ℕ := if dotBefore path path.length = 0 then path.length else dotBefore path path.length

/-- A number that is not 0, as it is printed. -/
def decimal (num : ℕ) : List UInt8 := (Nat.digits 10 num).reverse.map fun d => UInt8.ofNat (48 + d)

def mark (num : ℕ) : List UInt8 := if num = 0 then bytes " (conflicted)" else bytes " (conflicted " ++ decimal num ++ bytes ")"

/-- `npath` -/
def npath (path : List UInt8) (num : ℕ) : List UInt8 := path.take (dotidx path) ++ (mark num ++ path.drop (dotidx path))

/-- The loop over the candidates, `fuel` of them at most. -/
def renameFrom (stat : List UInt8 → Bool) (path : List UInt8) : (fuel num : ℕ) → Option (List UInt8 × List UInt8)
  | 0, _ => none
  | fuel + 1, num => if stat (npath path num) then renameFrom stat path fuel (num + 1) else some (path, npath path num)

/-- `psync_rename_conflicted_file`: what it gives to `psync_file_rename`. -/
def renameConflictedFile (stat : List UInt8 → Bool) (path : List UInt8) (fuel : ℕ) : Option (List UInt8 × List UInt8) :=
  renameFrom stat path fuel 0

/-- The file `name` of the folder `dir` is renamed within it, to the first free name with a mark between its stem and its
extension. -/
def StaysInFolder (files : Finset (List UInt8)) (dir name target : List UInt8) : Prop :=
  ∃ stem ext num, name = stem ++ ext ∧ target = dir ++ slash :: (stem ++ (mark num ++ ext)) ∧ target ∉ files ∧
    ∀ k < num, dir ++ slash :: (stem ++ (mark k ++ ext)) ∈ files

variable {path dir name : List UInt8} {files : Finset (List UInt8)} {num n d : ℕ}

/-! ### Marks -/

/-- The digits can be read back. -/
theorem map_decimal : (decimal num).map (fun c => c.toNat - 48) = (Nat.digits 10 num).reverse := by
  rw [decimal, List.map_map]
  refine (List.map_congr_left fun d hd => ?_).trans (List.map_id _)
  have hlt : d < 10 := Nat.digits_lt_base (by decide) (List.mem_reverse.mp hd)
  rw [Function.comp_apply, UInt8.toNat_ofNat', Nat.mod_eq_of_lt (by omega), Nat.add_sub_cancel_left, id_eq]

theorem decimal_injective {a b : ℕ} (h : decimal a = decimal b) : a = b := by
  have hdigits := congrArg (List.map fun c => c.toNat - 48) h
  rw [map_decimal, map_decimal] at hdigits
  exact Nat.digits_inj_iff.mp (List.reverse_injective hdigits)

theorem length_mark_zero : (mark 0).length = 13 := by decide

theorem mark_of_pos (h : num ≠ 0) : mark num = bytes " (conflicted " ++ decimal num ++ bytes ")" := if_neg h

theorem length_mark_of_pos (h : num ≠ 0) : 13 < (mark num).length := by
  have hfront : (bytes " (conflicted ").length = 13 := by decide
  have hback : (bytes ")").length = 1 := by decide
  rw [mark_of_pos h, List.length_append, List.length_append, hfront, hback]
  omega

theorem mark_injective {a b : ℕ} (h : mark a = mark b) : a = b := by
  by_cases ha : a = 0
  · by_cases hb : b = 0
    · rw [ha, hb]
    · have hlength := length_mark_of_pos hb
      rw [← h, ha, length_mark_zero] at hlength
      exact absurd hlength (lt_irrefl 13)
  · by_cases hb : b = 0
    · have hlength := length_mark_of_pos ha
      rw [h, hb, length_mark_zero] at hlength
      exact absurd hlength (lt_irrefl 13)
    · rw [mark_of_pos ha, mark_of_pos hb, List.append_cancel_right_eq, List.append_cancel_left_eq] at h
      exact decimal_injective h

theorem slash_notMem_decimal : slash ∉ decimal num := by
  intro hmem
  obtain ⟨d, hd, heq⟩ := List.mem_map.mp hmem
  have hlt : d < 10 := Nat.digits_lt_base (by decide) (List.mem_reverse.mp hd)
  have hvalue := congrArg UInt8.toNat heq
  rw [UInt8.toNat_ofNat', Nat.mod_eq_of_lt (by omega)] at hvalue
  have hslash : slash.toNat = 47 := rfl
  omega

theorem slash_notMem_mark : slash ∉ mark num := by
  by_cases hnum : num = 0
  · rw [hnum]
    decide
  · rw [mark_of_pos hnum, List.mem_append, List.mem_append]
    rintro ((hfront | hmiddle) | hback)
    · exact absurd hfront (by decide)
    · exact slash_notMem_decimal hmiddle
    · exact absurd hback (by decide)

theorem npath_injective {a b : ℕ} (h : npath path a = npath path b) : a = b :=
  mark_injective (List.append_cancel_right (List.append_cancel_left h))

/-! ### The loops -/

/-- There is no dot after the place that is found. -/
theorem no_dot_after {k : ℕ} (hlo : dotBefore path n < k) (hhi : k ≤ n) : path[k]? ≠ some dot := by
  induction n with
  | zero => exact absurd hhi (Nat.not_le_of_lt hlo)
  | succ n ih =>
    rw [dotBefore] at hlo
    split_ifs at hlo with hdot
    · exact absurd hhi (Nat.not_le_of_lt hlo)
    · rcases Nat.le_succ_iff.mp hhi with hle | rfl
      · exact ih hlo hle
      · exact hdot

theorem dot_at (h : dotBefore path n ≠ 0) : path[dotBefore path n]? = some dot := by
  induction n with
  | zero => exact absurd rfl h
  | succ n ih =>
    rw [dotBefore] at h ⊢
    split_ifs at h ⊢ with hdot
    · exact hdot
    · exact ih h

/-- What the loop gives is the first candidate that is not there. -/
theorem renameFrom_eq {stat : List UInt8 → Bool} {fuel : ℕ} {result : List UInt8 × List UInt8}
    (h : renameFrom stat path fuel n = some result) :
    ∃ m, n ≤ m ∧ result = (path, npath path m) ∧ stat (npath path m) = false ∧ ∀ k, n ≤ k → k < m → stat (npath path k) = true := by
  induction fuel generalizing n with
  | zero => cases h
  | succ fuel ih =>
    rw [renameFrom] at h
    split_ifs at h with hstat
    · obtain ⟨m, hle, hresult, hfree, hbefore⟩ := ih h
      refine ⟨m, Nat.le_of_succ_le hle, hresult, hfree, fun k hlo hhi => ?_⟩
      rcases Nat.eq_or_lt_of_le hlo with rfl | hlt
      · exact hstat
      · exact hbefore k hlt hhi
    · have hresult := (Option.some.inj h).symm
      exact ⟨n, Nat.le_refl n, hresult, Bool.eq_false_iff.mpr hstat, fun k hlo hhi => absurd hhi (Nat.not_lt_of_le hlo)⟩

/-- A loop that does not end within its rounds has met as many candidates. -/
theorem renameFrom_none {stat : List UInt8 → Bool} {fuel : ℕ} (h : renameFrom stat path fuel n = none) :
    ∀ k, n ≤ k → k < n + fuel → stat (npath path k) = true := by
  induction fuel generalizing n with
  | zero => exact fun k hlo hhi => absurd hhi (Nat.not_lt_of_le hlo)
  | succ fuel ih =>
    rw [renameFrom] at h
    split_ifs at h with hstat
    intro k hlo hhi
    rcases Nat.eq_or_lt_of_le hlo with rfl | hlt
    · exact hstat
    · exact ih h k hlt (by omega)

/-- One of the candidates is not there. -/
theorem rename_ends {fuel : ℕ} (hfuel : files.card < fuel) :
    ∃ m, renameConflictedFile (fun p => decide (p ∈ files)) path fuel = some (path, npath path m) ∧ npath path m ∉ files ∧
      ∀ k < m, npath path k ∈ files := by
  cases h : renameConflictedFile (fun p => decide (p ∈ files)) path fuel with
  | none =>
    have hall := renameFrom_none h
    have hcard : ((Finset.range fuel).image (npath path)).card ≤ files.card := by
      refine Finset.card_le_card fun p hp => ?_
      obtain ⟨k, hk, rfl⟩ := Finset.mem_image.mp hp
      exact of_decide_eq_true (hall k (Nat.zero_le k) (by rw [Nat.zero_add]; exact Finset.mem_range.mp hk))
    rw [Finset.card_image_of_injective _ fun _ _ => npath_injective, Finset.card_range] at hcard
    exact absurd hfuel (Nat.not_lt_of_le hcard)
  | some result =>
    obtain ⟨m, -, rfl, hfree, hbefore⟩ := renameFrom_eq h
    exact ⟨m, rfl, of_decide_eq_false hfree, fun k hk => of_decide_eq_true (hbefore k (Nat.zero_le k) hk)⟩

/-! ### Where the mark goes -/

/-- A mark in the file name. -/
theorem npath_in_name (hlo : dir.length < dotidx (dir ++ slash :: name)) : ∃ stem ext, name = stem ++ ext ∧
    ∀ num, npath (dir ++ slash :: name) num = dir ++ slash :: (stem ++ (mark num ++ ext)) := by
  obtain ⟨i, hi⟩ := Nat.exists_eq_add_of_lt hlo
  refine ⟨name.take i, name.drop i, (List.take_append_drop i name).symm, fun num => ?_⟩
  rw [npath, hi, Nat.add_assoc, List.take_length_add_append, List.drop_length_add_append, List.take_succ_cons, List.drop_succ_cons,
    List.append_assoc, List.cons_append]

/-- A mark in the path of the folder. -/
theorem npath_in_dir (hhi : dotidx (dir ++ slash :: name) ≤ dir.length) (num : ℕ) :
    ∃ dir', dir'.length = dir.length + (mark num).length ∧ npath (dir ++ slash :: name) num = dir' ++ slash :: name := by
  refine ⟨dir.take (dotidx (dir ++ slash :: name)) ++ (mark num ++ dir.drop (dotidx (dir ++ slash :: name))), ?_, ?_⟩
  · rw [List.length_append, List.length_append, List.length_take, List.length_drop]
    omega
  · rw [npath, List.take_append_of_le_length hhi, List.drop_append_of_le_length hhi, List.append_assoc, List.append_assoc]

/-- The path ends its folder with the last slash. -/
theorem folder_unique {dir' name' : List UInt8} (hname : slash ∉ name) (hname' : slash ∉ name')
    (h : dir ++ slash :: name = dir' ++ slash :: name') : dir = dir' := by
  rcases List.append_eq_append_iff.mp h with ⟨front, hdir, hrest⟩ | ⟨front, hdir, hrest⟩
  · cases front with
    | nil => rw [hdir, List.append_nil]
    | cons c front =>
      have htail := (List.cons.inj hrest).2
      exact absurd (htail ▸ List.mem_append_right _ List.mem_cons_self) hname
  · cases front with
    | nil => rw [hdir, List.append_nil]
    | cons c front =>
      have htail := (List.cons.inj hrest).2
      exact absurd (htail ▸ List.mem_append_right _ List.mem_cons_self) hname'

/-- The mark is in the file name unless the folders have dots and the name has none. -/
theorem dotidx_in_name_iff (habs : dir = [] ∨ dir.head? = some slash) :
    dir.length < dotidx (dir ++ slash :: name) ↔ dot ∈ name ∨ dot ∉ dir := by
  have hat : (dir ++ slash :: name)[dir.length]? = some slash := by simp
  have hne : slash ≠ dot := by decide
  constructor
  · intro hlo
    by_cases hzero : dotBefore (dir ++ slash :: name) (dir ++ slash :: name).length = 0
    · -- there is no dot but at the start of the path, and that is a slash
      refine .inr fun hmem => ?_
      obtain ⟨k, hk⟩ := List.mem_iff_getElem?.mp hmem
      have hklt := (List.getElem?_eq_some_iff.mp hk).1
      have hpos : 0 < k := by
        rcases Nat.eq_zero_or_pos k with rfl | hpos
        · rcases habs with rfl | hhead
          · exact absurd hmem List.not_mem_nil
          · rw [← List.head?_eq_getElem?, hhead] at hk
            exact absurd (Option.some.inj hk) hne
        · exact hpos
      refine no_dot_after (hzero ▸ hpos) ?_ ((List.getElem?_append_left hklt).trans hk)
      rw [List.length_append]
      omega
    · rw [dotidx, if_neg hzero] at hlo
      have hdot := dot_at hzero
      rw [List.getElem?_append_right hlo.le] at hdot
      obtain ⟨i, hi⟩ := Nat.exists_eq_add_of_lt hlo
      rw [hi, Nat.add_assoc, Nat.add_sub_cancel_left, List.getElem?_cons_succ] at hdot
      exact .inl (List.mem_of_getElem? hdot)
  · intro hdots
    by_contra hhi
    have hle := Nat.not_lt.mp hhi
    have hlength : (dir ++ slash :: name).length = dir.length + (name.length + 1) := by rw [List.length_append, List.length_cons]
    have hzero : dotBefore (dir ++ slash :: name) (dir ++ slash :: name).length ≠ 0 := by
      intro hzero
      rw [dotidx, if_pos hzero, hlength] at hle
      omega
    rw [dotidx, if_neg hzero] at hle
    have hdot := dot_at hzero
    rcases hdots with hmem | hnot
    · obtain ⟨k, hk⟩ := List.mem_iff_getElem?.mp hmem
      have hklt := (List.getElem?_eq_some_iff.mp hk).1
      refine @no_dot_after (dir ++ slash :: name) _ (dir.length + (k + 1)) (Nat.lt_of_le_of_lt hle (by omega)) (by omega) ?_
      rw [List.getElem?_append_right (Nat.le_add_right _ _), Nat.add_sub_cancel_left, List.getElem?_cons_succ, hk]
    · rcases Nat.lt_or_eq_of_le hle with hlt | heq
      · rw [List.getElem?_append_left hlt] at hdot
        exact hnot (List.mem_of_getElem? hdot)
      · rw [heq, hat] at hdot
        exact hne (Option.some.inj hdot)

/-! ### The claim -/

/-- The file stays in its folder exactly when its name has a dot or the path of the folder has none. -/
theorem stays_in_folder_iff (files : Finset (List UInt8)) (dir name : List UInt8) (habs : dir = [] ∨ dir.head? = some slash)
    (hname : slash ∉ name) :
    ∃ target, (∀ fuel > files.card, renameConflictedFile (fun p => decide (p ∈ files)) (dir ++ slash :: name) fuel =
      some (dir ++ slash :: name, target)) ∧ (StaysInFolder files dir name target ↔ dot ∈ name ∨ dot ∉ dir) := by
  obtain ⟨m, -, hfree, hbefore⟩ := @rename_ends (dir ++ slash :: name) _ _ (Nat.lt_succ_self files.card)
  refine ⟨npath (dir ++ slash :: name) m, fun fuel hfuel => ?_, ?_⟩
  · obtain ⟨m', hrun, hfree', hbefore'⟩ := @rename_ends (dir ++ slash :: name) _ _ hfuel
    rcases Nat.lt_trichotomy m m' with hlt | rfl | hlt
    · exact absurd (hbefore' m hlt) hfree
    · exact hrun
    · exact absurd (hbefore m' hlt) hfree'
  · rw [← dotidx_in_name_iff habs]
    constructor
    · rintro ⟨stem, ext, num, hsplit, htarget, -⟩
      by_contra hhi
      obtain ⟨dir', hlength, hpath⟩ := npath_in_dir (Nat.not_lt.mp hhi) m
      rw [hpath] at htarget
      have hmarked : slash ∉ stem ++ (mark num ++ ext) := by
        rw [hsplit, List.mem_append, not_or] at hname
        rw [List.mem_append, List.mem_append, not_or, not_or]
        exact ⟨hname.1, slash_notMem_mark, hname.2⟩
      obtain rfl := folder_unique hname hmarked htarget
      have hpos : 13 ≤ (mark m).length := by
        by_cases hm : m = 0
        · rw [hm, length_mark_zero]
        · exact (length_mark_of_pos hm).le
      omega
    · intro hlo
      obtain ⟨stem, ext, hsplit, hpath⟩ := npath_in_name hlo
      refine ⟨stem, ext, m, hsplit, hpath m, hfree, fun k hk => ?_⟩
      rw [← hpath k]
      exact hbefore k hk

/-- The file `/a/b.c`, and `/a/b (conflicted).c` is there. -/
theorem stays_in_folder_iff_second :
    ∃ target, (∀ fuel > 1, renameConflictedFile (fun p => decide (p ∈ ({bytes "/a/b (conflicted).c"} : Finset (List UInt8))))
      (bytes "/a" ++ slash :: bytes "b.c") fuel = some (bytes "/a" ++ slash :: bytes "b.c", target)) ∧
      (StaysInFolder {bytes "/a/b (conflicted).c"} (bytes "/a") (bytes "b.c") target ↔ dot ∈ bytes "b.c" ∨ dot ∉ bytes "/a") :=
  stays_in_folder_iff {bytes "/a/b (conflicted).c"} (bytes "/a") (bytes "b.c") (.inr rfl) (by decide)

/-- The file `/a.b/c` is moved to the folder `/a (conflicted).b`. -/
theorem moved_to_other_folder :
    renameConflictedFile (fun p => decide (p ∈ ({bytes "/a.b/c"} : Finset (List UInt8)))) (bytes "/a.b/c") 2 =
      some (bytes "/a.b/c", bytes "/a (conflicted).b/c") ∧
    ¬StaysInFolder {bytes "/a.b/c"} (bytes "/a.b") (bytes "c") (bytes "/a (conflicted).b/c") := by
  refine ⟨by decide, ?_⟩
  rintro ⟨stem, ext, num, hsplit, htarget, -⟩
  have htake := congrArg (List.take 4) htarget
  rw [List.take_left' (by decide)] at htake
  exact absurd htake (by decide)

end Pclsync.Names.Conflicted
