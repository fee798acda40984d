import Pclsync.Syncs.ListSort
import Mathlib.Tactic.Ring

/-! How the scanner pairs what was deleted with what is new, from `plocalscan.c` and `plist.c`. -/
namespace Pclsync.Syncs.Renames
open Lib.Comparators

/-- The fields of `sync_folderlist` that are compared. -/
structure SyncFolderlist where
  inode : BitVec 64
  mtimenat : BitVec 64
  size : BitVec 64
deriving DecidableEq, Repr

/-- The fields one after the other, each by the sign of an `int64_t` difference. -/
def compareFields : List (SyncFolderlist → BitVec 64) → SyncFolderlist → SyncFolderlist → ℤ
  | [], _, _ => 0
  | field :: fields, f1, f2 =>
    let d := (field f1 - field f2).toInt
    if d < 0 then -1
    else if d > 0 then 1
    else compareFields fields f1 f2

def sizeinodemtime : List (SyncFolderlist → BitVec 64) := [SyncFolderlist.size, SyncFolderlist.inode, SyncFolderlist.mtimenat]

/-- `compare_sizeinodemtime`. -/
def compareSizeinodemtime : SyncFolderlist → SyncFolderlist → ℤ := compareFields sizeinodemtime

/-- `compare_inode`. -/
def compareInode : SyncFolderlist → SyncFolderlist → ℤ := compareFields [SyncFolderlist.inode]

section Lists
variable {α : Type}

/-- What is left of both lists, and what is extracted of them. -/
structure Extracted (α : Type) where
  l1 : List α := []
  l2 : List α := []
  extracted1 : List α := []
  extracted2 : List α := []

/-- The walk of `psync_list_extract_repeating`. -/
def extractWalk (cmp : α → α → ℤ) : List α → List α → Extracted α
  | [], li2 => { l2 := li2 }
  | li1, [] => { l1 := li1 }
  | a :: li1, b :: li2 =>
    if cmp a b < 0 then
      let rest := extractWalk cmp li1 (b :: li2)
      { rest with l1 := a :: rest.l1 }
    else if cmp a b > 0 then
      let rest := extractWalk cmp (a :: li1) li2
      { rest with l2 := b :: rest.l2 }
    else
      let rest := extractWalk cmp li1 li2
      { rest with extracted1 := a :: rest.extracted1, extracted2 := b :: rest.extracted2 }
termination_by li1 li2 => li1.length + li2.length

/-- `psync_list_extract_repeating`. -/
def extractRepeating (cmp : α → α → ℤ) (l1 l2 : List α) : Extracted α :=
  extractWalk cmp (ListSort.listSort cmp l1) (ListSort.listSort cmp l2)

/-- The comparison is a total preorder on the entries, none that are alike remain on both sides, and only such ones are paired. -/
structure PairsUp (cmp : α → α → ℤ) (Alike : α → α → Prop) (l1 l2 : List α) (out : Extracted α) : Prop where
  consistent : Consistent cmp (l1 ++ l2)
  perm1 : (out.l1 ++ out.extracted1).Perm l1
  perm2 : (out.l2 ++ out.extracted2).Perm l2
  complete : ∀ a ∈ out.l1, ∀ b ∈ out.l2, ¬Alike a b
  only : List.Forall₂ Alike out.extracted1 out.extracted2

variable {cmp : α → α → ℤ} {l l1 l2 : List α}

/-- What the walk leaves and extracts. -/
structure Walked (cmp : α → α → ℤ) (l1 l2 : List α) (out : Extracted α) : Prop where
  perm1 : (out.l1 ++ out.extracted1).Perm l1
  perm2 : (out.l2 ++ out.extracted2).Perm l2
  complete : ∀ a ∈ out.l1, ∀ b ∈ out.l2, cmp a b ≠ 0
  only : List.Forall₂ (fun a b => cmp a b = 0) out.extracted1 out.extracted2

theorem lt_of_lt_of_le (h : Consistent cmp l) {a b c : α} (ha : a ∈ l) (hb : b ∈ l) (hc : c ∈ l) (hab : cmp a b < 0) (hbc : cmp b c ≤ 0) :
    cmp a c < 0 := by
  by_contra hac
  have hca : cmp c a ≤ 0 := not_lt.mp fun hpos => hac ((h.swap c hc a ha).mp hpos)
  have hba := h.trans b hb c hc a ha hbc hca
  have hpos := (h.swap b hb a ha).mpr hab
  omega

theorem extractWalk_nil_right : extractWalk cmp l1 [] = { l1 := l1 } := by
  cases l1 with
  | nil => rw [extractWalk]
  | cons a l1 =>
    rw [extractWalk]
    nofun

theorem walked (h : Consistent cmp l) (h1 : l1 ⊆ l) (h2 : l2 ⊆ l) (hs1 : l1.Pairwise fun a b => cmp a b ≤ 0)
    (hs2 : l2.Pairwise fun a b => cmp a b ≤ 0) : Walked cmp l1 l2 (extractWalk cmp l1 l2) := by
  induction l1, l2 using extractWalk.induct cmp with
  | case1 l2 =>
    rw [extractWalk]
    exact ⟨.refl _, .of_eq (List.append_nil l2), fun a ha => (nomatch ha), .nil⟩
  | case2 l1 hne =>
    rw [extractWalk_nil_right]
    exact ⟨.of_eq (List.append_nil l1), .refl _, fun a _ b hb => (nomatch hb), .nil⟩
  | case3 a l1 b l2 hlt ih =>
    obtain ⟨hal, h1l⟩ := List.cons_subset.mp h1
    have hrest := ih h1l h2 hs1.of_cons hs2
    rw [extractWalk, if_pos hlt]
    refine ⟨hrest.perm1.cons a, hrest.perm2, fun x hx y hy => ?_, hrest.only⟩
    rcases List.mem_cons.mp hx with rfl | hx
    · -- the second list has nothing before the entry that this one is before
      have hmem := hrest.perm2.mem_iff.mp (List.mem_append_left _ hy)
      rcases List.mem_cons.mp hmem with rfl | hmem'
      · exact hlt.ne
      · exact (lt_of_lt_of_le h hal (h2 (.head _)) (h2 (.tail _ hmem')) hlt ((List.pairwise_cons.mp hs2).1 y hmem')).ne
    · exact hrest.complete x hx y hy
  | case4 a l1 b l2 hge hgt ih =>
    obtain ⟨hbl, h2l⟩ := List.cons_subset.mp h2
    have hrest := ih h1 h2l hs1 hs2.of_cons
    rw [extractWalk, if_neg hge, if_pos hgt]
    refine ⟨hrest.perm1, hrest.perm2.cons b, fun x hx y hy => ?_, hrest.only⟩
    rcases List.mem_cons.mp hy with rfl | hy
    · have hba := (h.swap a (h1 (.head _)) y hbl).mp hgt
      have hmem := hrest.perm1.mem_iff.mp (List.mem_append_left _ hx)
      rcases List.mem_cons.mp hmem with rfl | hmem'
      · exact (show 0 < cmp x y from hgt).ne'
      · have hyx := lt_of_lt_of_le h hbl (h1 (.head _)) (h1 (.tail _ hmem')) hba ((List.pairwise_cons.mp hs1).1 x hmem')
        exact ((h.swap x (h1 (.tail _ hmem')) y hbl).mpr hyx).ne'
    · exact hrest.complete x hx y hy
  | case5 a l1 b l2 hge hle ih =>
    have hrest := ih (List.cons_subset.mp h1).2 (List.cons_subset.mp h2).2 hs1.of_cons hs2.of_cons
    rw [extractWalk, if_neg hge, if_neg hle]
    exact ⟨List.perm_middle.trans (hrest.perm1.cons a), List.perm_middle.trans (hrest.perm2.cons b), hrest.complete,
      .cons (le_antisymm (not_lt.mp hle) (not_lt.mp hge)) hrest.only⟩

/-- Where the comparison is consistent and takes for equal what is alike, all is paired that can be. -/
theorem pairsUp_of_consistent {Alike : α → α → Prop} (h : Consistent cmp (l1 ++ l2)) (halike : ∀ a b, Alike a b ↔ cmp a b = 0) :
    PairsUp cmp Alike l1 l2 (extractRepeating cmp l1 l2) := by
  have hsub1 : Consistent cmp l1 := ⟨fun a ha b hb => h.swap a (List.mem_append_left _ ha) b (List.mem_append_left _ hb),
    fun a ha b hb c hc => h.trans a (List.mem_append_left _ ha) b (List.mem_append_left _ hb) c (List.mem_append_left _ hc)⟩
  have hsub2 : Consistent cmp l2 := ⟨fun a ha b hb => h.swap a (List.mem_append_right _ ha) b (List.mem_append_right _ hb),
    fun a ha b hb c hc => h.trans a (List.mem_append_right _ ha) b (List.mem_append_right _ hb) c (List.mem_append_right _ hc)⟩
  have hperm1 := ListSort.listSort_sorts.perm cmp l1
  have hperm2 := ListSort.listSort_sorts.perm cmp l2
  have hwalked := walked h (fun a ha => List.mem_append_left _ (hperm1.mem_iff.mp ha)) (fun a ha => List.mem_append_right _ (hperm2.mem_iff.mp ha))
    (ListSort.listSort_sorts.sorted cmp l1 hsub1) (ListSort.listSort_sorts.sorted cmp l2 hsub2)
  exact ⟨h, hwalked.perm1.trans hperm1, hwalked.perm2.trans hperm2, fun a ha b hb hab => hwalked.complete a ha b hb ((halike a b).mp hab),
    hwalked.only.imp fun a b => (halike a b).mpr⟩

/-- Each before the other: the second is only found behind the first, and the first is looked for no more. -/
theorem extractRepeating_crossed {a b : α} (hab : cmp a b = -1) (hba : cmp b a = -1) (hbb : cmp b b = 0) :
    extractRepeating cmp [a, b] [b, a] = { l1 := [a], l2 := [a], extracted1 := [b], extracted2 := [b] } := by
  have hsort : ∀ {a b : α}, cmp a b = -1 → ListSort.listSort cmp [a, b] = [a, b] := fun h => by
    simp [ListSort.listSort, ListSort.sortFrom, ListSort.pass, ListSort.mergeRuns, h]
  rw [extractRepeating, hsort hab, hsort hba, extractWalk, if_pos (by rw [hab]; decide), extractWalk, if_neg (by rw [hbb]; decide),
    if_neg (by rw [hbb]; decide), extractWalk]

end Lists

/-! ### Differences of 64-bit numbers -/

/-- The values of a field are less than half a turn after one number. -/
def Window (field : SyncFolderlist → BitVec 64) (l : List SyncFolderlist) : Prop :=
  ∃ start : BitVec 64, ∀ e ∈ l, (field e - start).toNat < 2 ^ 63

/-- So are those of the first field, and of each other one among the entries that are equal in the fields before it. -/
def Windows : List (SyncFolderlist → BitVec 64) → List SyncFolderlist → Prop
  | [], _ => True
  | field :: fields, l => Window field l ∧ ∀ e ∈ l, Windows fields (l.filter fun e' => field e' = field e)

/-- Equal in all the fields. -/
def Alike (fields : List (SyncFolderlist → BitVec 64)) (e1 e2 : SyncFolderlist) : Prop := ∀ field ∈ fields, field e1 = field e2

variable {field : SyncFolderlist → BitVec 64} {fields : List (SyncFolderlist → BitVec 64)} {l : List SyncFolderlist}
  {e1 e2 : SyncFolderlist}

theorem toInt_sub_neg {x y : BitVec 64} : (x - y).toInt < 0 ↔ 2 ^ 63 ≤ (x - y).toNat := by
  rw [BitVec.toInt_neg_iff]
  omega

theorem toInt_sub_pos {x y : BitVec 64} : 0 < (x - y).toInt ↔ x ≠ y ∧ (x - y).toNat < 2 ^ 63 := by
  rw [BitVec.toInt_eq_toNat_cond, ne_eq, BitVec.toNat_eq, BitVec.toNat_sub]
  split <;> omega

/-- Within half a turn the sign of a difference is right. -/
theorem toInt_sub_of_window {x y start : BitVec 64} (hx : (x - start).toNat < 2 ^ 63) (hy : (y - start).toNat < 2 ^ 63) :
    ((x - y).toInt < 0 ↔ (x - start).toNat < (y - start).toNat) ∧ (0 < (x - y).toInt ↔ (y - start).toNat < (x - start).toNat) := by
  rw [toInt_sub_neg, toInt_sub_pos, ne_eq, BitVec.toNat_eq]
  rw [BitVec.toNat_sub] at hx hy ⊢
  rw [BitVec.toNat_sub, BitVec.toNat_sub]
  omega

theorem sub_eq_of_window {x y start : BitVec 64} (h : (x - start).toNat = (y - start).toNat) : x = y := by
  rw [BitVec.toNat_sub, BitVec.toNat_sub] at h
  apply BitVec.eq_of_toNat_eq
  omega

theorem toInt_sub_self {x : BitVec 64} : (x - x).toInt = 0 := by
  rw [BitVec.sub_self]
  rfl

theorem compareFields_of_eq (h : field e1 = field e2) : compareFields (field :: fields) e1 e2 = compareFields fields e1 e2 := by
  rw [compareFields, h, toInt_sub_self, if_neg (lt_irrefl 0), if_neg (lt_irrefl 0)]

theorem compareFields_eq_zero : compareFields fields e1 e2 = 0 ↔ Alike fields e1 e2 := by
  induction fields with
  | nil => exact ⟨fun _ field hfield => (nomatch hfield), fun _ => rfl⟩
  | cons field fields ih =>
    by_cases heq : field e1 = field e2
    · rw [compareFields_of_eq heq, ih]
      exact ⟨fun h field' hfield => (List.mem_cons.mp hfield).elim (fun h' => h' ▸ heq) (h field'), fun h field' hfield => h field' (.tail _ hfield)⟩
    · have hne : compareFields (field :: fields) e1 e2 ≠ 0 := by
        have hpos := @toInt_sub_pos (field e1) (field e2)
        have hneg := @toInt_sub_neg (field e1) (field e2)
        rw [compareFields]
        split_ifs with h1 h2
        · decide
        · decide
        · exact absurd (hpos.mpr ⟨heq, not_le.mp fun h => h1 (hneg.mpr h)⟩) h2
      exact ⟨fun h => absurd h hne, fun h => absurd (h field (.head _)) heq⟩

/-- An entry that none is before. -/
theorem exists_first {cmp : SyncFolderlist → SyncFolderlist → ℤ} (h : Consistent cmp l) (hl : l ≠ []) : ∃ e ∈ l, ∀ e' ∈ l, cmp e e' ≤ 0 := by
  have hperm := ListSort.listSort_sorts.perm cmp l
  have hsorted := ListSort.listSort_sorts.sorted cmp l h
  cases hs : ListSort.listSort cmp l with
  | nil =>
    rw [hs] at hperm
    exact absurd hperm.nil_eq.symm hl
  | cons e rest =>
    rw [hs] at hperm hsorted
    have he : e ∈ l := hperm.mem_iff.mp (.head _)
    refine ⟨e, he, fun e' he' => ?_⟩
    rcases List.mem_cons.mp (hperm.mem_iff.mpr he') with rfl | hmem
    · exact not_lt.mp fun hpos => lt_asymm hpos ((h.swap e' he e' he).mp hpos)
    · exact (List.pairwise_cons.mp hsorted).1 e' hmem

/-- The first field of entries in a consistent order. -/
theorem window_of_consistent (h : Consistent (compareFields (field :: fields)) l) : Window field l := by
  cases l with
  | nil => exact ⟨0, fun e he => (nomatch he)⟩
  | cons a l =>
    obtain ⟨e, he, hfirst⟩ := exists_first h (List.cons_ne_nil a l)
    refine ⟨field e, fun e' he' => ?_⟩
    by_contra hout
    -- then the other one comes before this one, whichever is asked first
    have hneg : compareFields (field :: fields) e' e < 0 := by
      rw [compareFields, if_pos (toInt_sub_neg.mpr (not_lt.mp hout))]
      decide
    exact absurd ((h.swap e he e' he').mpr hneg) (not_lt.mpr (hfirst e' he'))

/-- The order of a consistent first field, and of the other ones among the entries that are equal in it. -/
theorem consistent_cons_iff : Consistent (compareFields (field :: fields)) l ↔
    Window field l ∧ ∀ e ∈ l, Consistent (compareFields fields) (l.filter fun e' => field e' = field e) := by
  constructor
  · intro h
    refine ⟨window_of_consistent h, fun e he => ?_⟩
    have hmem : ∀ a ∈ l.filter (fun e' => field e' = field e), a ∈ l ∧ field a = field e := fun a ha =>
      (List.mem_filter.mp ha).imp_right of_decide_eq_true
    constructor
    · intro a ha b hb
      have hab := (hmem a ha).2.trans (hmem b hb).2.symm
      rw [← compareFields_of_eq hab, ← compareFields_of_eq hab.symm]
      exact h.swap a (hmem a ha).1 b (hmem b hb).1
    · intro a ha b hb c hc
      rw [← compareFields_of_eq ((hmem a ha).2.trans (hmem b hb).2.symm), ← compareFields_of_eq ((hmem b hb).2.trans (hmem c hc).2.symm),
        ← compareFields_of_eq ((hmem a ha).2.trans (hmem c hc).2.symm)]
      exact h.trans a (hmem a ha).1 b (hmem b hb).1 c (hmem c hc).1
  · rintro ⟨⟨start, hwindow⟩, hclass⟩
    have hin : ∀ a ∈ l, ∀ b ∈ l, field b = field a → b ∈ l.filter fun e' => field e' = field a := fun a _ b hb hba =>
      List.mem_filter.mpr ⟨hb, decide_eq_true hba⟩
    -- the order is the one of the distances, and behind it that of the other fields
    have hcmp : ∀ a ∈ l, ∀ b ∈ l,
        ((field a - start).toNat < (field b - start).toNat ∧ compareFields (field :: fields) a b = -1) ∨
        ((field b - start).toNat < (field a - start).toNat ∧ compareFields (field :: fields) a b = 1) ∨
        (field a = field b ∧ (field a - start).toNat = (field b - start).toNat ∧
          compareFields (field :: fields) a b = compareFields fields a b) := by
      intro a ha b hb
      obtain ⟨hneg, hpos⟩ := toInt_sub_of_window (hwindow a ha) (hwindow b hb)
      rcases lt_trichotomy (field a - start).toNat (field b - start).toNat with hlt | heq | hgt
      · exact .inl ⟨hlt, by rw [compareFields, if_pos (hneg.mpr hlt)]⟩
      · have hfield := sub_eq_of_window heq
        exact .inr (.inr ⟨hfield, heq, compareFields_of_eq hfield⟩)
      · have hnot : ¬(field a - field b).toInt < 0 := fun h => lt_asymm hgt (hneg.mp h)
        exact .inr (.inl ⟨hgt, by rw [compareFields, if_neg hnot, if_pos (hpos.mpr hgt)]⟩)
    constructor
    · intro a ha b hb
      rcases hcmp a ha b hb with ⟨hlt, hab⟩ | ⟨hgt, hab⟩ | ⟨hfield, heq, hab⟩
      all_goals rcases hcmp b hb a ha with ⟨hlt', hba⟩ | ⟨hgt', hba⟩ | ⟨hfield', heq', hba⟩
      all_goals try omega
      rw [hab, hba]
      exact (hclass a ha).swap a (hin a ha a ha rfl) b (hin a ha b hb hfield')
    · intro a ha b hb c hc habl hbcl
      rcases hcmp a ha b hb with ⟨hlt, hab⟩ | ⟨hgt, hab⟩ | ⟨hfield, heq, hab⟩
      all_goals rcases hcmp b hb c hc with ⟨hlt', hbc⟩ | ⟨hgt', hbc⟩ | ⟨hfield', heq', hbc⟩
      all_goals rcases hcmp a ha c hc with ⟨hlt'', hac⟩ | ⟨hgt'', hac⟩ | ⟨hfield'', heq'', hac⟩
      all_goals try omega
      rw [hac]
      exact (hclass a ha).trans a (hin a ha a ha rfl) b (hin a ha b hb hfield.symm) c (hin a ha c hc hfield''.symm) (hab ▸ habl) (hbc ▸ hbcl)

theorem consistent_iff : Consistent (compareFields fields) l ↔ Windows fields l := by
  induction fields generalizing l with
  | nil => exact ⟨fun _ => trivial, fun _ => ⟨fun _ _ _ _ => by simp [compareFields], fun _ _ _ _ _ _ _ _ => le_refl 0⟩⟩
  | cons field fields ih =>
    rw [consistent_cons_iff, Windows]
    exact and_congr_right fun _ => forall₂_congr fun e _ => ih

/-- The deleted and the new are paired as they should be by a comparison of fields exactly where these fields, field by field,
are less than half a turn apart. -/
theorem pairsUp_iff_windows {l1 l2 : List SyncFolderlist} :
    PairsUp (compareFields fields) (Alike fields) l1 l2 (extractRepeating (compareFields fields) l1 l2) ↔ Windows fields (l1 ++ l2) :=
  ⟨fun h => consistent_iff.mp h.consistent, fun h => pairsUp_of_consistent (consistent_iff.mpr h) fun _ _ => compareFields_eq_zero.symm⟩

/-- So it is for the folders and for the files of `scanner_scan`. -/
theorem rename_pairs_iff (deleted new : List SyncFolderlist) :
    (PairsUp compareInode (Alike [SyncFolderlist.inode]) deleted new (extractRepeating compareInode deleted new) ↔
      Windows [SyncFolderlist.inode] (deleted ++ new)) ∧
    (PairsUp compareSizeinodemtime (Alike sizeinodemtime) deleted new (extractRepeating compareSizeinodemtime deleted new) ↔
      Windows sizeinodemtime (deleted ++ new)) :=
  ⟨pairsUp_iff_windows, pairsUp_iff_windows⟩

/-- Inode numbers half a turn apart: each is before the other, and one of the folders is not found. -/
theorem rename_unpaired : ∃ deleted new : List SyncFolderlist,
    ¬Consistent compareInode (deleted ++ new) ∧
      ∃ a ∈ (extractRepeating compareInode deleted new).l1, ∃ b ∈ (extractRepeating compareInode deleted new).l2, a.inode = b.inode := by
  obtain ⟨high, low, hhl, hlh, hll⟩ : ∃ high low, compareInode high low = -1 ∧ compareInode low high = -1 ∧ compareInode low low = 0 :=
    ⟨⟨0x8000000000000000, 0, 0⟩, ⟨0, 0, 0⟩, by decide, by decide, by decide⟩
  refine ⟨[high, low], [low, high], fun h => ?_, ?_⟩
  · have hswap := (h.swap high (by simp) low (by simp)).mpr (by rw [hlh]; decide)
    rw [hhl] at hswap
    exact absurd hswap (by decide)
  · rw [extractRepeating_crossed hhl hlh hll]
    exact ⟨high, .head _, high, .head _, rfl⟩

end Pclsync.Syncs.Renames
