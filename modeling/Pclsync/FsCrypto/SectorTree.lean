import Pclsync.FsCrypto.Offsets
import Pclsync.PTree.Descent
import Mathlib.Data.List.Perm.Subperm

/-! The sectors of a log, in a tree that `pfscrypto.c` orders by the sign of a difference of 32 bits. -/
namespace Pclsync.FsCrypto
open Lib.BinaryTree Lib.HeapProgram PTree

/-- `psync_sector_inlog_t`. -/
structure SectorInlog (P A : Type) where
  tree : Node P
  sectorid : ℕ
  logoffset : ℕ
  auth : A
deriving DecidableEq, Repr

variable {P A : Type}

def sectorCells : Cells P (SectorInlog P A) where
  tree c := c.tree
  setTree c n := { c with tree := n }
  tree_setTree _ _ := rfl
  setTree_tree _ := rfl
  setTree_setTree _ _ _ := rfl

abbrev SectorProg (P A α : Type) := Program P (SectorInlog P A) α

/-- A difference of two ids as `psync_crypto_sectorid_diff_t`. -/
def sectoridDiff (a b : ℕ) : ℤ := ((a : ℤ) - b).bmod (2 ^ 32)

/-- How the descents compare an id to the one of a cell. -/
def compareSectorid (sectorid : ℕ) (tr : SectorInlog P A) : Ordering :=
  let d := sectoridDiff sectorid tr.sectorid
  if d < 0 then .lt else if d > 0 then .gt else .eq

/-- What is logged of a sector; `new` is the pointer that `psync_new` answers. -/
structure SectorWrite (P A : Type) where
  new : P
  sectorid : ℕ
  offset : ℕ
  auth : A

section
variable [DecidableEq P]

/-- The cell of a new sector, whose node has not been linked. -/
def newCell (w : SectorWrite P A) : SectorInlog P A := ⟨⟨none, none, none, 0⟩, w.sectorid, w.offset, w.auth⟩

def newSector (w : SectorWrite P A) : SectorProg P A Unit := alloc w.new (newCell w)

/-- `psync_fs_crypto_set_sector_log_offset`: the root after it. -/
def setSectorLogOffset (fuel : ℕ) (sectorsinlog : Option P) (w : SectorWrite P A) : SectorProg P A (Option P) :=
  match sectorsinlog with
  | none => do
    newSector w
    sectorCells.addRoot fuel w.new
  | some root => do
    match ← sectorCells.descend (compareSectorid w.sectorid) fuel root with
    | (tr, none) =>
      store tr fun c => { c with logoffset := w.offset, auth := w.auth }
      return some root
    | (tr, some slot) =>
      newSector w
      sectorCells.addAt fuel (some root) tr slot w.new

/-- The search of `psync_fs_crypto_read_newfile_full_sector`: what it reads from the log, or `none` for the data file. -/
def findSector (fuel : ℕ) (sectorsinlog : Option P) (sectorid : ℕ) : SectorProg P A (Option (ℕ × A)) := do
  match ← sectorCells.find (compareSectorid sectorid) fuel sectorsinlog with
  | none => return none
  | some tr =>
    let c ← load tr
    return some (c.logoffset, c.auth)

def loadIds : List P → SectorProg P A (List ℕ)
  | [] => return []
  | sect :: sects => do
    let c ← load sect
    return c.sectorid :: (← loadIds sects)

/-- The ids that the walk of `psync_fs_write_auth_tree_to_log` visits. -/
def walkIds (fuel : ℕ) (sectorsinlog : Option P) : SectorProg P A (List ℕ) := do
  let sects ← sectorCells.onTree (forEach fuel sectorsinlog)
  loadIds sects

/-- One call after another. -/
def setSectors (fuel : ℕ) : Option P → List (SectorWrite P A) → SectorProg P A (Option P)
  | sectorsinlog, [] => return sectorsinlog
  | sectorsinlog, w :: writes => do
    let sectorsinlog ← setSectorLogOffset fuel sectorsinlog w
    setSectors fuel sectorsinlog writes

end

/-- What the last call with an id logged. -/
def lastWrite (writes : List (SectorWrite P A)) (sectorid : ℕ) : Option (ℕ × A) :=
  ((writes.filter (·.sectorid = sectorid)).getLast?).map fun w => (w.offset, w.auth)

/-! ### Ids near each other -/

theorem sectoridDiff_eq {a b : ℕ} (hlt : a < b + 2 ^ 31) (hgt : b < a + 2 ^ 31) : sectoridDiff a b = (a : ℤ) - b := by
  rw [sectoridDiff, Int.bmod_eq_of_le] <;> omega

theorem compareSectorid_near {sectorid : ℕ} {tr : SectorInlog P A} (hlt : sectorid < tr.sectorid + 2 ^ 31) (hgt : tr.sectorid < sectorid + 2 ^ 31) :
    compareSectorid sectorid tr = compare sectorid tr.sectorid := by
  rw [compareSectorid, sectoridDiff_eq hlt hgt]
  rcases Nat.lt_trichotomy sectorid tr.sectorid with hid | hid | hid
  · rw [if_pos (by omega), Nat.compare_eq_lt.mpr hid]
  · rw [if_neg (by omega), if_neg (by omega), Nat.compare_eq_eq.mpr hid]
  · rw [if_neg (by omega), if_pos (by omega), Nat.compare_eq_gt.mpr hid]

/-- Only a cell with the same id is equal. -/
theorem compareSectorid_eq {sectorid : ℕ} {tr : SectorInlog P A} (hid : sectorid ≤ maxSectorid) (htr : tr.sectorid ≤ maxSectorid) :
    compareSectorid sectorid tr = .eq ↔ sectorid = tr.sectorid := by
  have hmax : maxSectorid = 2 ^ 32 - 2 := rfl
  have hzero : sectoridDiff sectorid tr.sectorid = 0 ↔ sectorid = tr.sectorid := by
    rw [sectoridDiff, ← Int.dvd_iff_bmod_eq_zero]
    omega
  rw [compareSectorid]
  split_ifs with hneg hpos
  · exact ⟨nofun, fun heq => absurd (hzero.mpr heq) (ne_of_lt hneg)⟩
  · exact ⟨nofun, fun heq => absurd (hzero.mpr heq) (ne_of_gt hpos)⟩
  · exact ⟨fun _ => hzero.mp (le_antisymm (not_lt.mp hpos) (not_lt.mp hneg)), fun _ => rfl⟩

/-! ### What the tree holds -/

abbrev SectorHeap (P A : Type) := Heap P (SectorInlog P A)

variable {h h' : SectorHeap P A} {root : Option P} {writes : List (SectorWrite P A)} {w : SectorWrite P A} {fuel : ℕ}

/-- What a cell says. -/
def SectorInlog.entry (c : SectorInlog P A) : ℕ × ℕ × A := (c.sectorid, c.logoffset, c.auth)

/-- The cells in order are those of the ids that were written, each with what was written last. -/
structure Logs (h : SectorHeap P A) (root : Option P) (writes : List (SectorWrite P A)) (list : List P) : Prop where
  keeps : sectorCells.Keeps h root list
  sorted : list.Pairwise fun p q => ∀ c c', h p = some c → h q = some c' → c.sectorid < c'.sectorid
  entries : ∀ p ∈ list, ∀ c, h p = some c → lastWrite writes c.sectorid = some (c.logoffset, c.auth)
  covers : ∀ w ∈ writes, ∃ p ∈ list, ∃ c, h p = some c ∧ c.sectorid = w.sectorid
  owned : ∀ p c, h p = some c → ∃ w ∈ writes, w.new = p

/-- Any two of the ids are less than `2 ^ 31` apart. -/
def Near (writes : List (SectorWrite P A)) : Prop := ∀ w ∈ writes, ∀ w' ∈ writes, w.sectorid < w'.sectorid + 2 ^ 31

theorem lastWrite_concat (sectorid : ℕ) :
    lastWrite (writes ++ [w]) sectorid = if w.sectorid = sectorid then some (w.offset, w.auth) else lastWrite writes sectorid := by
  rw [lastWrite, List.filter_append, List.filter_singleton]
  by_cases hw : w.sectorid = sectorid
  · simp [hw]
  · simp [hw, lastWrite]

theorem lastWrite_mem {sectorid : ℕ} {entry : ℕ × A} (hlast : lastWrite writes sectorid = some entry) :
    ∃ w ∈ writes, w.sectorid = sectorid := by
  obtain ⟨w, hw, -⟩ := Option.map_eq_some_iff.mp hlast
  obtain ⟨hmem, hid⟩ := List.mem_filter.mp (List.mem_of_getLast? hw)
  exact ⟨w, hmem, of_decide_eq_true hid⟩

/-- A function of the nodes leaves what the cells say. -/
theorem retains_entry (hr : sectorCells.Retains h h') {p : P} {c' : SectorInlog P A} (hp : h' p = some c') :
    ∃ c, h p = some c ∧ c.entry = c'.entry := by
  have hmap := hr p
  rw [hp, Option.map_some] at hmap
  obtain ⟨c, hc, hrest⟩ := Option.map_eq_some_iff.mp hmap.symm
  have hsays : (sectorCells.rest c).entry = (sectorCells.rest c').entry := congrArg SectorInlog.entry hrest
  exact ⟨c, hc, hsays⟩

namespace Logs
variable {list : List P} (hl : Logs h root writes list)
include hl

theorem cell {p : P} (hp : p ∈ list) : ∃ c, h p = some c ∧ ∃ w ∈ writes, w.sectorid = c.sectorid := by
  obtain ⟨c, hc⟩ := hl.keeps.used hp
  exact ⟨c, hc, lastWrite_mem (hl.entries p hp c hc)⟩

theorem length_le : list.length ≤ writes.length := by
  have hsub : list ⊆ writes.map (·.new) := fun p hp => by
    obtain ⟨c, hc⟩ := hl.keeps.used hp
    obtain ⟨w, hw, rfl⟩ := hl.owned p c hc
    exact List.mem_map_of_mem hw
  have hle := (List.subperm_of_subset hl.keeps.nodup hsub).length_le
  rwa [List.length_map] at hle

/-- A descent for an id near all others goes by the order of the ids. -/
theorem compared_eq {sectorid : ℕ} (hnear : ∀ w ∈ writes, sectorid < w.sectorid + 2 ^ 31 ∧ w.sectorid < sectorid + 2 ^ 31) {p : P} (hp : p ∈ list)
    {c : SectorInlog P A} (hc : h p = some c) : compared (compareSectorid sectorid) h p = compare sectorid c.sectorid := by
  obtain ⟨w, hw, hid⟩ := lastWrite_mem (hl.entries p hp c hc)
  obtain ⟨hlt, hgt⟩ := hnear w hw
  rw [compared_of hc, compareSectorid_near (hid ▸ hlt) (hid ▸ hgt)]

theorem ascends {sectorid : ℕ} (hnear : ∀ w ∈ writes, sectorid < w.sectorid + 2 ^ 31 ∧ w.sectorid < sectorid + 2 ^ 31) :
    Ascends (compared (compareSectorid sectorid) h) list := by
  refine hl.sorted.imp_of_mem fun {p q} hp hq hlt => ?_
  obtain ⟨c, hc, -⟩ := hl.cell hp
  obtain ⟨c', hc', -⟩ := hl.cell hq
  rw [hl.compared_eq hnear hp hc, hl.compared_eq hnear hq hc', Nat.compare_eq_gt, Nat.compare_eq_lt]
  have hids := hlt c c' hc hc'
  omega

/-- No two cells are of one id. -/
theorem ids_inj {p q : P} (hp : p ∈ list) (hq : q ∈ list) {c c' : SectorInlog P A} (hc : h p = some c) (hc' : h q = some c')
    (hid : c.sectorid = c'.sectorid) : p = q := by
  obtain ⟨i, hi, rfl⟩ := List.mem_iff_getElem.mp hp
  obtain ⟨j, hj, rfl⟩ := List.mem_iff_getElem.mp hq
  have hsorted := List.pairwise_iff_getElem.mp hl.sorted
  rcases Nat.lt_trichotomy i j with hij | rfl | hji
  · exact absurd hid (ne_of_lt (hsorted i j hi hj hij c c' hc hc'))
  · rfl
  · exact absurd hid (ne_of_gt (hsorted j i hj hi hji c' c hc' hc))

end Logs

theorem Near.one (hnear : Near (writes ++ [w])) : ∀ v ∈ writes, w.sectorid < v.sectorid + 2 ^ 31 ∧ v.sectorid < w.sectorid + 2 ^ 31 := fun v hv =>
  ⟨hnear w (by simp) v (List.mem_append_left _ hv), hnear v (List.mem_append_left _ hv) w (by simp)⟩

theorem Near.of_append {more : List (SectorWrite P A)} (hnear : Near (writes ++ more)) : Near writes := fun v hv v' hv' =>
  hnear v (List.mem_append_left _ hv) v' (List.mem_append_left _ hv')

/-- The id in a cell. -/
def idAt (h : SectorHeap P A) (p : P) : ℕ := ((h p).map (·.sectorid)).getD 0

theorem idAt_of {p : P} {c : SectorInlog P A} (hc : h p = some c) : idAt h p = c.sectorid := by
  rw [idAt, hc, Option.map_some, Option.getD_some]

theorem loadIds_spec {sects : List P} (hcells : ∀ p ∈ sects, ∃ c, h p = some c) :
    Does (loadIds sects) h fun ids h' => h' = h ∧ ids = sects.map (idAt h) := by
  induction sects with
  | nil => exact does_pure.mpr ⟨rfl, rfl⟩
  | cons p sects ih =>
    obtain ⟨c, hc⟩ := hcells p List.mem_cons_self
    simp only [loadIds, does_bind, does_load, does_pure]
    refine ⟨c, hc, (ih fun q hq => hcells q (List.mem_cons_of_mem _ hq)).mono fun ids h' hids => ⟨hids.1, ?_⟩⟩
    rw [List.map_cons, idAt_of hc, hids.2]

section
variable [DecidableEq P] {list xs ys : List P}

/-- A sector that had no cell gets one between those before it and those behind it. -/
theorem logs_added (hl : Logs h root writes (xs ++ ys)) (hfresh : h w.new = none) (hnear : Near (writes ++ [w]))
    (hxs : ∀ q ∈ xs, compared (compareSectorid w.sectorid) h q = .gt) (hys : ∀ q ∈ ys, compared (compareSectorid w.sectorid) h q = .lt)
    {root' : Option P} (hr : sectorCells.Retains (Function.update h w.new (some (newCell w))) h')
    (hk : sectorCells.Keeps h' root' (xs ++ w.new :: ys)) : Logs h' root' (writes ++ [w]) (xs ++ w.new :: ys) := by
  have hnew : ∀ c', h' w.new = some c' → (w.sectorid, w.offset, w.auth) = c'.entry := by
    intro c' hc'
    obtain ⟨c, hc, hsays⟩ := retains_entry hr hc'
    rw [Function.update_self] at hc
    obtain rfl := Option.some.inj hc
    exact hsays
  have hold : ∀ q c', q ≠ w.new → h' q = some c' → ∃ c, h q = some c ∧ c.entry = c'.entry := by
    intro q c' hq hc'
    obtain ⟨c, hc, hsays⟩ := retains_entry hr hc'
    rw [update_other hq] at hc
    exact ⟨c, hc, hsays⟩
  have hne : ∀ q ∈ xs ++ ys, q ≠ w.new := by
    rintro q hq rfl
    obtain ⟨c, hc⟩ := hl.keeps.used hq
    cases hfresh.symm.trans hc
  have hbefore : ∀ q ∈ xs, ∀ c, h q = some c → c.sectorid < w.sectorid := by
    intro q hq c hc
    have hgt := hxs q hq
    rwa [hl.compared_eq hnear.one (List.mem_append_left _ hq) hc, Nat.compare_eq_gt] at hgt
  have hafter : ∀ q ∈ ys, ∀ c, h q = some c → w.sectorid < c.sectorid := by
    intro q hq c hc
    have hlt := hys q hq
    rwa [hl.compared_eq hnear.one (List.mem_append_right _ hq) hc, Nat.compare_eq_lt] at hlt
  obtain ⟨hsortedX, hsortedY, hacross⟩ := List.pairwise_append.mp hl.sorted
  have hstill : ∀ q ∈ xs ++ ys, ∀ q' ∈ xs ++ ys, (∀ c c', h q = some c → h q' = some c' → c.sectorid < c'.sectorid) →
      ∀ c c', h' q = some c → h' q' = some c' → c.sectorid < c'.sectorid := by
    intro q hq q' hq' hlt c c' hc hc'
    obtain ⟨d, hd, hsays⟩ := hold q c (hne q hq) hc
    obtain ⟨d', hd', hsays'⟩ := hold q' c' (hne q' hq') hc'
    have hid : d.sectorid = c.sectorid := congrArg Prod.fst hsays
    have hid' : d'.sectorid = c'.sectorid := congrArg Prod.fst hsays'
    rw [← hid, ← hid']
    exact hlt d d' hd hd'
  refine ⟨hk, List.pairwise_append.mpr ⟨?_, List.pairwise_cons.mpr ⟨?_, ?_⟩, ?_⟩, ?_, ?_, ?_⟩
  · exact hsortedX.imp_of_mem fun hq hq' => hstill _ (List.mem_append_left _ hq) _ (List.mem_append_left _ hq')
  · intro q hq c c' hc hc'
    obtain ⟨d', hd', hsays'⟩ := hold q c' (hne q (List.mem_append_right _ hq)) hc'
    have hid : w.sectorid = c.sectorid := congrArg Prod.fst (hnew c hc)
    have hid' : d'.sectorid = c'.sectorid := congrArg Prod.fst hsays'
    rw [← hid, ← hid']
    exact hafter q hq d' hd'
  · exact hsortedY.imp_of_mem fun hq hq' => hstill _ (List.mem_append_right _ hq) _ (List.mem_append_right _ hq')
  · intro q hq q' hq' c c' hc hc'
    rcases List.mem_cons.mp hq' with rfl | hq'
    · obtain ⟨d, hd, hsays⟩ := hold q c (hne q (List.mem_append_left _ hq)) hc
      have hid : d.sectorid = c.sectorid := congrArg Prod.fst hsays
      have hid' : w.sectorid = c'.sectorid := congrArg Prod.fst (hnew c' hc')
      rw [← hid, ← hid']
      exact hbefore q hq d hd
    · exact hstill q (List.mem_append_left _ hq) q' (List.mem_append_right _ hq') (hacross q hq q' hq') c c' hc hc'
  · intro q hq c hc
    by_cases hqw : q = w.new
    · rw [hqw] at hc
      have hid : w.sectorid = c.sectorid := congrArg Prod.fst (hnew c hc)
      have hentry : (w.offset, w.auth) = (c.logoffset, c.auth) := congrArg Prod.snd (hnew c hc)
      rw [lastWrite_concat, if_pos hid, hentry]
    · have hmem : q ∈ xs ++ ys := by
        rw [List.mem_append, List.mem_cons] at hq
        rw [List.mem_append]
        tauto
      obtain ⟨d, hd, hsays⟩ := hold q c hqw hc
      have hid : d.sectorid = c.sectorid := congrArg Prod.fst hsays
      have hentry : (d.logoffset, d.auth) = (c.logoffset, c.auth) := congrArg Prod.snd hsays
      have hother : w.sectorid ≠ d.sectorid := by
        rcases List.mem_append.mp hmem with hmem | hmem
        · exact ne_of_gt (hbefore q hmem d hd)
        · exact ne_of_lt (hafter q hmem d hd)
      rw [← hid, lastWrite_concat, if_neg hother, hl.entries q hmem d hd, hentry]
  · intro v hv
    rcases List.mem_append.mp hv with hv | hv
    · obtain ⟨q, hq, d, hd, hid⟩ := hl.covers v hv
      have hmem : q ∈ xs ++ w.new :: ys := by
        rw [List.mem_append] at hq
        rw [List.mem_append, List.mem_cons]
        tauto
      obtain ⟨c, hc⟩ := hk.used hmem
      obtain ⟨d', hd', hsays⟩ := hold q c (hne q hq) hc
      obtain rfl := Option.some.inj (hd.symm.trans hd')
      exact ⟨q, hmem, c, hc, (congrArg Prod.fst hsays).symm.trans hid⟩
    · obtain rfl := List.mem_singleton.mp hv
      have hmem : v.new ∈ xs ++ v.new :: ys := List.mem_append_right _ List.mem_cons_self
      obtain ⟨c, hc⟩ := hk.used hmem
      exact ⟨v.new, hmem, c, hc, (congrArg Prod.fst (hnew c hc)).symm⟩
  · intro q c hc
    by_cases hqw : q = w.new
    · exact ⟨w, by simp, hqw.symm⟩
    · obtain ⟨d, hd, -⟩ := hold q c hqw hc
      obtain ⟨v, hv, hown⟩ := hl.owned q d hd
      exact ⟨v, List.mem_append_left _ hv, hown⟩

/-- A sector that has a cell gets another entry there. -/
theorem logs_again (hl : Logs h root writes list) {p : P} (hp : p ∈ list) {c : SectorInlog P A} (hc : h p = some c) (hid : w.sectorid = c.sectorid) :
    Logs (Function.update h p (some { c with logoffset := w.offset, auth := w.auth })) root (writes ++ [w]) list := by
  have hids : ∀ q d', Function.update h p (some { c with logoffset := w.offset, auth := w.auth }) q = some d' →
      ∃ d, h q = some d ∧ d.sectorid = d'.sectorid := by
    intro q d' hd'
    by_cases hq : q = p
    · rw [hq, Function.update_self] at hd'
      obtain rfl := Option.some.inj hd'
      exact ⟨c, hq ▸ hc, rfl⟩
    · rw [update_other hq] at hd'
      exact ⟨d', hd', rfl⟩
  refine ⟨hl.keeps.frame fun q _ => ?_, hl.sorted.imp fun {q q'} hlt d d' hd hd' => ?_, fun q hq d hd => ?_, fun v hv => ?_, fun q d hd => ?_⟩
  · rw [nodes_update]
    by_cases hq : q = p
    · rw [hq, Function.update_self, nodes_of hc]
      rfl
    · rw [update_other hq]
  · obtain ⟨e, he, hidE⟩ := hids q d hd
    obtain ⟨e', he', hidE'⟩ := hids q' d' hd'
    rw [← hidE, ← hidE']
    exact hlt e e' he he'
  · by_cases hqp : q = p
    · rw [hqp, Function.update_self] at hd
      obtain rfl := Option.some.inj hd
      rw [lastWrite_concat, if_pos hid]
    · rw [update_other hqp] at hd
      have hother : w.sectorid ≠ d.sectorid := by
        intro heq
        exact hqp (hl.ids_inj hq hp hd hc (heq.symm.trans hid))
      rw [lastWrite_concat, if_neg hother]
      exact hl.entries q hq d hd
  · have hcell : ∃ q ∈ list, ∃ d, h q = some d ∧ d.sectorid = v.sectorid := by
      rcases List.mem_append.mp hv with hv | hv
      · exact hl.covers v hv
      · rw [List.mem_singleton.mp hv]
        exact ⟨p, hp, c, hc, hid.symm⟩
    obtain ⟨q, hq, d, hd, hidv⟩ := hcell
    by_cases hqp : q = p
    · refine ⟨q, hq, _, by rw [hqp, Function.update_self], ?_⟩
      rw [hqp, hc] at hd
      rw [← hidv, ← Option.some.inj hd]
    · exact ⟨q, hq, d, by rw [update_other hqp, hd], hidv⟩
  · obtain ⟨e, he, -⟩ := hids q d hd
    obtain ⟨v, hv, hown⟩ := hl.owned q e he
    exact ⟨v, List.mem_append_left _ hv, hown⟩

/-- The call with an id that no cell compares equal to puts a cell where the descent for it ends. -/
theorem setSectorLogOffset_new (hk : sectorCells.Keeps h root list) (hasc : Ascends (compared (compareSectorid w.sectorid) h) list)
    (hfresh : h w.new = none) (hother : ∀ p ∈ list, compared (compareSectorid w.sectorid) h p ≠ .eq) (hfuel : list.length < fuel) :
    Does (setSectorLogOffset fuel root w) h fun root' h' => ∃ xs ys, list = xs ++ ys ∧
      (∀ q ∈ xs, compared (compareSectorid w.sectorid) h q = .gt) ∧ (∀ q ∈ ys, compared (compareSectorid w.sectorid) h q = .lt) ∧
      sectorCells.Retains (Function.update h w.new (some (newCell w))) h' ∧ sectorCells.Keeps h' root' (xs ++ w.new :: ys) := by
  have hused : ∃ c, Function.update h w.new (some (newCell w)) w.new = some c := ⟨_, Function.update_self ..⟩
  have hnew : w.new ∉ list := fun hmem => by
    obtain ⟨c, hc⟩ := hk.used hmem
    cases hfresh.symm.trans hc
  obtain ⟨t, ht, rfl⟩ := hk
  cases root with
  | none =>
    obtain rfl := root_eq_none ht.root
    simp only [setSectorLogOffset, newSector, does_bind, does_alloc]
    refine ⟨hfresh, (addRoot_spec hused).mono fun root' h' hadded => ?_⟩
    exact ⟨[], [], rfl, fun q hq => (by cases hq), fun q hq => (by cases hq), hadded.1, hadded.2⟩
  | some root =>
    obtain ⟨l, r, rfl⟩ := node_of_root ht.root
    have hheight := (BinTree.node l root r).height_le_length
    simp only [setSectorLogOffset, does_bind]
    refine (descend_spec (c := .top) ht.holds.links hasc (fun q hq => by cases hq) (fun q hq => by cases hq) (by omega)).mono ?_
    rintro ⟨tr, side⟩ h' ⟨rfl, hends⟩
    cases side with
    | none => exact absurd hends.2 (hother tr hends.1)
    | some slot =>
      obtain ⟨s, c, hwhole, hbefore, hafter⟩ := hends
      have hwhole : BinTree.node l root r = (Context.frame slot tr s c).plug .nil := hwhole
      rw [hwhole] at ht hnew hfuel ⊢
      have hframe : Avl (sectorCells.nodes (Function.update h' w.new (some (newCell w)))) (some root) ((Context.frame slot tr s c).plug .nil) :=
        ht.frame fun q hq => by rw [nodes_update, update_other (ne_of_mem_of_not_mem hq hnew)]
      have hdepth := Context.depth_le_length (.frame slot tr s c) .nil
      simp only [newSector, does_bind, does_alloc]
      refine ⟨hfresh, (addAt_spec hframe hnew hused (by rw [Context.depth] at hdepth; omega)).mono fun root' h'' hadded => ?_⟩
      exact ⟨_, _, Context.toList_plug _ _, hbefore, hafter, hadded.1, hadded.2⟩

/-- The call with an id that a cell is of stores there. -/
theorem setSectorLogOffset_again {p : P} {c : SectorInlog P A} (hk : sectorCells.Keeps h root list)
    (hasc : Ascends (compared (compareSectorid w.sectorid) h) list) (hp : p ∈ list) (hc : h p = some c)
    (heq : compareSectorid w.sectorid c = .eq) (hfuel : list.length < fuel) :
    Does (setSectorLogOffset fuel root w) h fun root' h' => root' = root ∧
      ∃ q d, q ∈ list ∧ h q = some d ∧ compareSectorid w.sectorid d = .eq ∧ h' = Function.update h q (some { d with logoffset := w.offset, auth := w.auth }) := by
  obtain ⟨t, ht, rfl⟩ := hk
  obtain ⟨root, rfl⟩ := ht.exists_root hp
  obtain ⟨l, r, rfl⟩ := node_of_root ht.root
  have hheight := (BinTree.node l root r).height_le_length
  simp only [setSectorLogOffset, does_bind]
  refine (descend_spec (c := .top) ht.holds.links hasc (fun q hq => by cases hq) (fun q hq => by cases hq) (by omega)).mono ?_
  rintro ⟨tr, side⟩ h' ⟨rfl, hends⟩
  cases side with
  | none =>
    obtain ⟨hmem, htr⟩ := hends
    obtain ⟨n, hn⟩ := ht.holds.links.used hmem
    obtain ⟨d, hd, -⟩ := used_of_nodes hn
    simp only [does_bind, does_store, does_pure]
    exact ⟨d, hd, trivial, tr, d, hmem, hd, (compared_of hd).symm.trans htr, rfl⟩
  | some slot =>
    obtain ⟨s, c', hwhole, hbefore, hafter⟩ := hends
    have hwhole : BinTree.node l root r = (Context.frame slot tr s c').plug .nil := hwhole
    rw [hwhole, Context.toList_plug, BinTree.toList_nil, List.nil_append] at hp
    have hcompared : compared (compareSectorid w.sectorid) h' p = .eq := (compared_of hc).trans heq
    rcases List.mem_append.mp hp with hp | hp
    · cases (hbefore p hp).symm.trans hcompared
    · cases (hafter p hp).symm.trans hcompared

/-- One call. -/
theorem setSectorLogOffset_spec (hl : Logs h root writes list) (hfresh : h w.new = none) (hnear : Near (writes ++ [w]))
    (hids : ∀ v ∈ writes ++ [w], v.sectorid ≤ maxSectorid) (hfuel : list.length < fuel) :
    Does (setSectorLogOffset fuel root w) h fun root' h' => ∃ list', Logs h' root' (writes ++ [w]) list' := by
  have hcells : ∀ p ∈ list, ∀ c, h p = some c → (compareSectorid w.sectorid c = .eq ↔ w.sectorid = c.sectorid) := by
    intro p hp c hc
    obtain ⟨c', hc', v, hv, hidv⟩ := hl.cell hp
    obtain rfl := Option.some.inj (hc.symm.trans hc')
    exact compareSectorid_eq (hids w (by simp)) (hidv ▸ hids v (List.mem_append_left _ hv))
  by_cases hwritten : ∃ p ∈ list, ∃ c, h p = some c ∧ compareSectorid w.sectorid c = .eq
  · obtain ⟨p, hp, c, hc, heq⟩ := hwritten
    refine (setSectorLogOffset_again hl.keeps (hl.ascends hnear.one) hp hc heq hfuel).mono fun root' h' hset => ?_
    obtain ⟨rfl, q, d, hq, hd, hdeq, rfl⟩ := hset
    exact ⟨list, logs_again hl hq hd ((hcells q hq d hd).mp hdeq)⟩
  · refine (setSectorLogOffset_new hl.keeps (hl.ascends hnear.one) hfresh (fun p hp heq => ?_) hfuel).mono fun root' h' hset => ?_
    · obtain ⟨c, hc⟩ := hl.keeps.used hp
      exact hwritten ⟨p, hp, c, hc, (compared_of hc).symm.trans heq⟩
    · obtain ⟨xs, ys, rfl, hxs, hys, hr, hk⟩ := hset
      exact ⟨_, logs_added hl hfresh hnear hxs hys hr hk⟩

/-- A run of calls. -/
theorem setSectors_spec {more : List (SectorWrite P A)} (hl : Logs h root writes list) (hfresh : ∀ w ∈ more, h w.new = none)
    (hnews : ((writes ++ more).map (·.new)).Nodup) (hnear : Near (writes ++ more))
    (hids : ∀ v ∈ writes ++ more, v.sectorid ≤ maxSectorid) (hfuel : (writes ++ more).length ≤ fuel) :
    Does (setSectors fuel root more) h fun root' h' => ∃ list', Logs h' root' (writes ++ more) list' := by
  induction more generalizing h root writes list with
  | nil => exact does_pure.mpr ⟨list, by rwa [List.append_nil]⟩
  | cons w more ih =>
    rw [List.append_cons] at hnews hnear hids hfuel ⊢
    have hlength := hl.length_le
    simp only [List.length_append, List.length_cons] at hfuel
    rw [setSectors, does_bind]
    refine (setSectorLogOffset_spec hl (hfresh w List.mem_cons_self) hnear.of_append (fun v hv => hids v (List.mem_append_left _ hv))
      (by omega)).mono fun root' h' hset => ?_
    obtain ⟨list', hl'⟩ := hset
    refine ih hl' (fun v hv => ?_) hnews hnear hids (by simp only [List.length_append, List.length_cons]; omega)
    by_contra hused
    obtain ⟨c, hc⟩ := Option.ne_none_iff_exists'.mp hused
    obtain ⟨u, hu, hown⟩ := hl'.owned _ c hc
    rw [List.map_append, List.nodup_append] at hnews
    exact hnews.2.2 _ (List.mem_map_of_mem hu) _ (List.mem_map_of_mem hv) hown

/-! ### What is found and visited -/

omit [DecidableEq P] in
/-- The search for an id, whether it was written or not. -/
theorem findSector_spec (hl : Logs h root writes list) (hnear : Near writes) (hids : ∀ v ∈ writes, v.sectorid ≤ maxSectorid)
    (hfuel : list.length ≤ fuel) {sectorid : ℕ} (hid : sectorid ≤ maxSectorid) :
    Does (findSector fuel root sectorid) h fun found h' => h' = h ∧ found = lastWrite writes sectorid := by
  obtain ⟨t, ht, hlist⟩ := hl.keeps
  have hheight : t.height ≤ fuel := le_trans t.height_le_length (by rwa [hlist])
  have hroot := ht.root
  have hcells : ∀ q c, q ∈ list → h q = some c → compared (compareSectorid sectorid) h q = .eq → sectorid = c.sectorid := by
    intro q c hq hc heq
    obtain ⟨c', hc', v, hv, hidv⟩ := hl.cell hq
    obtain rfl := Option.some.inj (hc.symm.trans hc')
    rwa [compared_of hc, compareSectorid_eq hid (hidv ▸ hids v hv)] at heq
  rw [findSector, does_bind, ← hroot]
  by_cases hwritten : ∃ w ∈ writes, w.sectorid = sectorid
  · obtain ⟨w, hw, rfl⟩ := hwritten
    have hasc := @Logs.ascends _ _ _ _ _ _ hl w.sectorid fun v hv => ⟨hnear w hw v hv, hnear v hv w hw⟩
    rw [← hlist] at hasc
    refine (find_spec ht.holds.links hasc hheight).mono fun found h' hfound => ?_
    obtain ⟨rfl, hfound⟩ := hfound
    obtain ⟨q, hq, c, hc, hidc⟩ := hl.covers w hw
    have heq : compared (compareSectorid w.sectorid) h' q = .eq := by
      rw [compared_of hc, compareSectorid_eq hid (hidc ▸ hid)]
      exact hidc.symm
    rw [(hfound q).mpr ⟨hlist ▸ hq, heq⟩]
    simp only [does_bind, does_load, does_pure]
    exact ⟨c, hc, trivial, by rw [← hidc, hl.entries q hq c hc]⟩
  · refine (find_sound ht.holds.links hheight).mono fun found h' hfound => ?_
    obtain ⟨rfl, hfound⟩ := hfound
    cases found with
    | none =>
      refine does_pure.mpr ⟨rfl, ?_⟩
      by_contra hlast
      obtain ⟨entry, hentry⟩ := Option.ne_none_iff_exists'.mp (Ne.symm hlast)
      exact hwritten (lastWrite_mem hentry)
    | some q =>
      obtain ⟨hmem, heq⟩ := hfound q rfl
      rw [hlist] at hmem
      obtain ⟨c, hc, v, hv, hidv⟩ := hl.cell hmem
      exact absurd ⟨v, hv, hidv.trans (hcells q c hmem hc heq).symm⟩ hwritten

/-- The walk is over the ids that were written, in order. -/
theorem walkIds_spec (hl : Logs h root writes list) (hfuel : list.length < fuel) :
    Does (walkIds fuel root) h fun ids h' => h' = h ∧ ids.Pairwise (· < ·) ∧ ∀ id, id ∈ ids ↔ ∃ w ∈ writes, w.sectorid = id := by
  rw [walkIds, does_bind]
  refine (forEach_cells hl.keeps hfuel).mono fun sects h' hwalked => ?_
  obtain ⟨rfl, rfl⟩ := hwalked
  refine (loadIds_spec fun p hp => hl.keeps.used hp).mono fun ids h'' hids => ?_
  obtain ⟨rfl, rfl⟩ := hids
  refine ⟨rfl, List.pairwise_map.mpr (hl.sorted.imp_of_mem fun {p q} hp hq hlt => ?_), fun id => ⟨fun hid => ?_, fun hid => ?_⟩⟩
  · obtain ⟨c, hc⟩ := hl.keeps.used hp
    obtain ⟨c', hc'⟩ := hl.keeps.used hq
    rw [idAt_of hc, idAt_of hc']
    exact hlt c c' hc hc'
  · obtain ⟨p, hp, rfl⟩ := List.mem_map.mp hid
    obtain ⟨c, hc, hwritten⟩ := hl.cell hp
    rwa [idAt_of hc]
  · obtain ⟨w, hw, rfl⟩ := hid
    obtain ⟨p, hp, c, hc, hidc⟩ := hl.covers w hw
    exact List.mem_map.mpr ⟨p, hp, (idAt_of hc).trans hidc⟩

omit [DecidableEq P] in
theorem logs_start : Logs (fun _ => none : SectorHeap P A) none [] [] :=
  ⟨keeps_empty, .nil, fun _ hp => (nomatch hp), fun _ hw => (nomatch hw), fun _ _ hc => (nomatch hc)⟩

/-- After the calls every id is found as it was written last, and the walk is over the ids that were written, in their order. -/
def SectorsFound (fuel : ℕ) (writes : List (SectorWrite P A)) : Prop :=
  Does (setSectors fuel none writes) (fun _ => none) fun root h =>
    (∀ id ≤ maxSectorid, Does (findSector fuel root id) h fun found h' => h' = h ∧ found = lastWrite writes id) ∧
    Does (walkIds fuel root) h fun ids h' => h' = h ∧ ids.Pairwise (· < ·) ∧ ∀ id, id ∈ ids ↔ ∃ w ∈ writes, w.sectorid = id

/-- Calls with ids that are near each other. -/
theorem near_found (hnews : (writes.map (·.new)).Nodup) (hids : ∀ w ∈ writes, w.sectorid ≤ maxSectorid) (hnear : Near writes)
    (hfuel : writes.length < fuel) : SectorsFound fuel writes := by
  refine (setSectors_spec logs_start (fun _ _ => rfl) hnews hnear hids (Nat.le_of_lt hfuel)).mono fun root h hset => ?_
  obtain ⟨list, hl⟩ := hset
  have hlength : list.length ≤ writes.length := hl.length_le
  exact ⟨fun id hid => findSector_spec hl hnear hids (by omega) hid, walkIds_spec hl (by omega)⟩

omit [DecidableEq P] in
/-- The second of two sectors that are far apart comes before the first. -/
theorem far_lt {sectorid : ℕ} {tr : SectorInlog P A} (hfar : tr.sectorid + 2 ^ 31 ≤ sectorid) (hid : sectorid ≤ maxSectorid) :
    compareSectorid sectorid tr = .lt := by
  have hmax : maxSectorid = 2 ^ 32 - 2 := rfl
  have hmod : ((sectorid : ℤ) - tr.sectorid).bmod (2 ^ 32) = (sectorid : ℤ) - tr.sectorid - 2 ^ 32 := by
    rw [← Int.sub_bmod_right, Int.bmod_eq_of_le] <;> omega
  rw [compareSectorid, sectoridDiff, hmod, if_pos (by omega)]

theorem far_walk {w w' : SectorWrite P A} (hne : w'.new ≠ w.new) (hfar : w.sectorid + 2 ^ 31 ≤ w'.sectorid) (hid : w'.sectorid ≤ maxSectorid) :
    Does (setSectors 3 none [w, w']) (fun _ => none) fun root h =>
      Does (walkIds 3 root) h fun ids _ => ids = [w'.sectorid, w.sectorid] := by
  simp only [setSectors, does_bind, does_pure]
  refine (setSectorLogOffset_new keeps_empty .nil rfl (fun _ hp => by cases hp) (by simp)).mono fun root h hfirst => ?_
  obtain ⟨xs, ys, hnil, -, -, hr, hk⟩ := hfirst
  obtain ⟨rfl, rfl⟩ := List.append_eq_nil_iff.mp hnil.symm
  obtain ⟨c, hc⟩ := hk.used (List.mem_singleton_self _)
  have hcell : w.sectorid = c.sectorid := by
    obtain ⟨c', hc', hsays⟩ := retains_entry hr hc
    rw [Function.update_self] at hc'
    obtain rfl := Option.some.inj hc'
    exact congrArg Prod.fst hsays
  have hlt : ∀ q ∈ [w.new], compared (compareSectorid w'.sectorid) h q = .lt := by
    intro q hq
    rw [List.mem_singleton.mp hq, compared_of hc]
    exact far_lt (hcell ▸ hfar) hid
  have hfresh : h w'.new = none := by
    have hmap := hr w'.new
    rw [update_other hne, Option.map_none] at hmap
    exact Option.map_eq_none_iff.mp hmap
  refine (setSectorLogOffset_new hk (List.pairwise_singleton _ _) hfresh (fun q hq heq => ?_) (by simp)).mono fun root' h' hsecond => ?_
  · cases (hlt q hq).symm.trans heq
  obtain ⟨xs, ys, hone, hxs, -, hr', hk'⟩ := hsecond
  obtain rfl : xs = [] := by
    by_contra hxs'
    obtain ⟨q, hq⟩ := List.exists_mem_of_ne_nil xs hxs'
    have hmem : q ∈ [w.new] := by
      rw [List.nil_append] at hone
      rw [hone]
      exact List.mem_append_left _ hq
    cases (hxs q hq).symm.trans (hlt q hmem)
  obtain rfl : [w.new] = ys := hone
  rw [walkIds, does_bind]
  refine (forEach_cells hk' (by simp)).mono fun sects h'' hwalked => ?_
  obtain ⟨rfl, rfl⟩ := hwalked
  refine (loadIds_spec fun q hq => hk'.used hq).mono fun ids _ hids => ?_
  have hidAt : ∀ q ∈ [w'.new, w.new], ∀ d, Function.update h w'.new (some (newCell w')) q = some d → idAt h'' q = d.sectorid := by
    intro q hq d hd
    obtain ⟨d', hd'⟩ := hk'.used hq
    obtain ⟨e, he, hsays⟩ := retains_entry hr' hd'
    obtain rfl := Option.some.inj (hd.symm.trans he)
    rw [idAt_of hd']
    exact (congrArg Prod.fst hsays).symm
  have hlast := hidAt w'.new (by simp) _ (Function.update_self ..)
  have hfirst := hidAt w.new (by simp) c ((update_other hne.symm).trans hc)
  rw [hids.2, List.nil_append, List.map_cons, List.map_singleton, hlast, hfirst, ← hcell]
  rfl

theorem far_not_found {w w' : SectorWrite P A} (hne : w'.new ≠ w.new) (hfar : w.sectorid + 2 ^ 31 ≤ w'.sectorid) (hid : w'.sectorid ≤ maxSectorid) :
    ¬ SectorsFound 3 [w, w'] := by
  intro hfound
  obtain ⟨root, h, hrun, hwalk⟩ := far_walk hne hfar hid
  obtain ⟨root', h', hrun', -, hwalk'⟩ := hfound
  obtain ⟨rfl, rfl⟩ := Prod.mk.inj (Option.some.inj (hrun.symm.trans hrun'))
  obtain ⟨ids, g, hids, rfl⟩ := hwalk
  obtain ⟨ids', g', hids', -, hsorted, -⟩ := hwalk'
  obtain ⟨rfl, rfl⟩ := Prod.mk.inj (Option.some.inj (hids.symm.trans hids'))
  have hlt : w'.sectorid < w.sectorid := (List.pairwise_cons.mp hsorted).1 _ (List.mem_singleton_self _)
  omega

/-- Exactly ids of which any two are less than `2 ^ 31` apart can be logged in any order. -/
theorem sectors_found_iff {p q : P} (hne : q ≠ p) (auth : A) (ids : Set ℕ) (hids : ∀ id ∈ ids, id ≤ maxSectorid) :
    (∀ fuel, ∀ writes : List (SectorWrite P A), (∀ w ∈ writes, w.sectorid ∈ ids) → (writes.map (·.new)).Nodup → writes.length < fuel →
      SectorsFound fuel writes) ↔ ∀ id ∈ ids, ∀ id' ∈ ids, id' < id + 2 ^ 31 := by
  constructor
  · intro hall id hid id' hid'
    by_contra hfar
    refine @far_not_found _ _ _ ⟨p, id, 0, auth⟩ ⟨q, id', 0, auth⟩ hne (not_lt.mp hfar) (hids id' hid')
      (hall 3 _ ?_ ?_ (by simp))
    · simp [hid, hid']
    · simp [hne.symm]
  · intro hnear fuel writes hmem hnews hfuel
    exact near_found hnews (fun w hw => hids _ (hmem w hw)) (fun w hw w' hw' => hnear _ (hmem w' hw') _ (hmem w hw)) hfuel

theorem sectors_found_iff_small : (∀ fuel, ∀ writes : List (SectorWrite ℕ Unit), (∀ w ∈ writes, w.sectorid ∈ Set.Iic 5) → (writes.map (·.new)).Nodup →
    writes.length < fuel → SectorsFound fuel writes) ↔ ∀ id ∈ Set.Iic 5, ∀ id' ∈ Set.Iic 5, id' < id + 2 ^ 31 :=
  sectors_found_iff (p := 0) (q := 1) (by decide) () (Set.Iic 5) fun id hid => le_trans hid (by decide)

/-- The sectors 0 and 3000000000. -/
theorem far_sectors_swapped : ¬ SectorsFound 3 [(⟨0, 0, 100, ()⟩ : SectorWrite ℕ Unit), ⟨1, 3000000000, 200, ()⟩] :=
  far_not_found (by decide) (by decide) (by decide)

end

end Pclsync.FsCrypto
