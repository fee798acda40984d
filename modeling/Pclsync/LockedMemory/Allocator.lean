import Pclsync.Lib.Transition
import Pclsync.LockedMemory.Placement

/-! Runs of `psync_locked_malloc` and `psync_locked_free`.

A malloc that finds a fit in a range that is not locked tries to lock it first, and holds
the mutex: the locking may call `psync_cloud_crypto_clean_cache`, and the frees of the same
thread in it run in between. A malloc that finds no fit maps a new range and locks it
without the mutex, and any call may run before the range is in the tree. -/
namespace Pclsync.LockedMemory
open Lib.Intervals Lib.Partition Lib.Transition

/-- A malloc in `psync_mem_lock` of the range it has chosen. -/
structure Choice where
  mem : ℕ
  boffset : ℕ
  size : ℕ
deriving DecidableEq, Repr

/-- A malloc in `psync_mem_lock` of a new range. -/
structure Growth where
  mem : ℕ
  size : ℕ
deriving DecidableEq, Repr

structure State where
  /-- `allocator_ranges`, in the order of the tree. -/
  allocatorRanges : List Range
  memory : Memory
  live : Live
  chosen : Option Choice
  growing : List Growth

inductive Action where
  /-- `mem` is what `psync_mmap_anon_safe` returns, if it is called. -/
  | malloc (size mem : ℕ)
  | memLocked (locked : Bool)
  | grown (g : Growth) (locked : Bool)
  /-- `root` is the interval that the shape of the tree has at its root. -/
  | free (ptr : ℕ) (root : ℕ × ℕ)
  /-- The caller writes a byte of its own. -/
  | write (ptr i : ℕ) (v : UInt8)
deriving DecidableEq, Repr

def State.init (memory : Memory) : State := ⟨[], memory, fun _ => none, none, []⟩

-- `debug` is `IS_DEBUG`, and `pageSize` what `psync_get_page_size` returns, or 4096
variable (debug : Bool) (pageSize : ℕ)

/-- The new range as it comes into the tree. -/
def Growth.range (g : Growth) (locked : Bool) : Range :=
  let size := withOverhead g.size
  let intsize := rangeSize pageSize size
  ⟨g.mem, intsize, if size + lmRangeOverhead < intsize then [(lmRangeOverhead + size, intsize)] else [], locked⟩

/-- A block at `ret` is written and its pointer returned. -/
def State.hand (s : State) (ret size : ℕ) : State :=
  { s with
    memory := writeBlock debug ret size s.memory
    live := Function.update s.live (ret + sizeofSizeT) (some size) }

/-- The rest of a malloc with a fit. -/
def State.carve (s : State) (c : Choice) : State :=
  let cut (r : Range) : Range :=
    { r with freeintervals := remove c.boffset (c.boffset + withOverhead c.size) r.freeintervals }
  State.hand debug { s with allocatorRanges := updateRange c.mem cut s.allocatorRanges } (c.mem + c.boffset) c.size

/-- `psync_locked_malloc` up to where a range is to be locked. -/
def State.malloc (s : State) (size mem : ℕ) : Option State :=
  match findFit s.allocatorRanges (withOverhead size) with
  | some f =>
    let c : Choice := ⟨f.range.mem, f.boffset, size⟩
    if f.range.locked then some (s.carve debug c) else some { s with chosen := some c }
  | none =>
    let g : Growth := ⟨mem, size⟩
    let mapped := s.allocatorRanges ++ s.growing.map fun g => g.range pageSize false
    if 0 < (g.range pageSize false).size ∧ ∀ r ∈ mapped, (g.range pageSize false).Clear r then
      some { s with growing := g :: s.growing }
    else none

/-- The rest of a malloc that tried to lock the range it has chosen. -/
def State.memLocked (s : State) (c : Choice) (locked : Bool) : State :=
  let s := { s with chosen := none }
  let s := if locked then
      { s with allocatorRanges := updateRange c.mem (fun r => { r with locked := true }) s.allocatorRanges }
    else s
  s.carve debug c

/-- The rest of a malloc that tried to lock a new range. -/
def State.grown (s : State) (g : Growth) (locked : Bool) : State :=
  let s := s.hand debug (g.mem + lmRangeOverhead) g.size
  { s with allocatorRanges := insertRange (g.range pageSize locked) s.allocatorRanges, growing := s.growing.erase g }

/-- The range of a pointer and the size of its block, where no assertion of `psync_locked_free`
fails and the range is found. -/
def State.lookup (s : State) (ptr : ℕ) : Option (Range × ℕ) :=
  let cptr := ptr - sizeofSizeT
  let word := load s.memory cptr
  if Intact debug s.memory cptr word then
    (s.allocatorRanges.find? fun range => range.Has cptr).map fun range => (range, sizeOf debug word)
  else none

/-- The rest of `psync_locked_free`. -/
def State.free (s : State) (ptr : ℕ) (range : Range) (size : ℕ) (root : ℕ × ℕ) : Option State :=
  let offset := ptr - sizeofSizeT - range.mem
  let freed := add offset (offset + size) range.freeintervals
  let s := { s with live := Function.update s.live ptr none }
  if root ∈ freed then
    if root.1 = lmRangeOverhead ∧ root.2 = range.size then
      some { s with allocatorRanges := s.allocatorRanges.filter fun r => r.mem ≠ range.mem }
    else
      some { s with
        allocatorRanges := updateRange range.mem
          (fun r => { r with freeintervals := add offset (offset + size) r.freeintervals }) s.allocatorRanges }
  else none

def step (s : State) : Action → Option State
  | .malloc size mem => if s.chosen = none ∧ size < sizeTValues then s.malloc debug pageSize size mem else none
  | .memLocked locked => s.chosen.map fun c => s.memLocked debug c locked
  | .grown g locked => if s.chosen = none ∧ g ∈ s.growing then some (s.grown debug pageSize g locked) else none
  | .free ptr root =>
    if (s.live ptr).isSome then
      (s.lookup debug ptr).bind fun (range, size) => s.free ptr range size root
    else none
  | .write ptr i v =>
    match s.live ptr with
    | some size => if i < size then some { s with memory := Function.update s.memory (ptr + i) v } else none
    | none => none

def Step (s : State) (a : Action) (s' : State) : Prop := step debug pageSize s a = some s'

/-- The pointer is for the one block of the range. -/
def State.Last (s : State) (r : Range) (ptr : ℕ) : Prop :=
  ∃ i, blocks s.live r = {i} ∧ ptr = r.mem + i.1 + sizeofSizeT

/-- The step frees the last block of the range that a malloc has chosen, or asks for so much
that the sum with the overhead is no `size_t`. -/
def Upsets (s : State) : Action → Prop
  | .malloc size _ => ¬Fits size
  | .free ptr _ => ∃ c ∈ s.chosen, ∃ r ∈ s.allocatorRanges, r.mem = c.mem ∧ s.Last r ptr
  | _ => False

/-- Every live block is in a range of the tree, and a range is its blocks and its free intervals. -/
structure State.Sound (s : State) : Prop where
  apart : Apart s.allocatorRanges
  inside : ∀ ptr size, s.live ptr = some size → ∃ r ∈ s.allocatorRanges, ∃ i ∈ blocks s.live r,
    ptr = r.mem + i.1 + sizeofSizeT ∧ i.1 + lmOverhead + size ≤ i.2 ∧ i.2 ≤ r.size
  partition : ∀ r ∈ s.allocatorRanges, Parts (Set.Ico lmRangeOverhead r.size) r.freeintervals (blocks s.live r)
  aligned : ∀ r ∈ s.allocatorRanges, ∀ i ∈ blocks s.live r, Aligned i.1
  held : ∀ r ∈ s.allocatorRanges, (blocks s.live r).Nonempty

variable {debug} {pageSize} {s s' : State}

/-- What is found for the choice is still there. -/
def Choice.Ready (c : Choice) (ranges : List Range) : Prop :=
  Fits c.size ∧ Aligned c.boffset ∧ ∃ r ∈ ranges, r.mem = c.mem ∧
    Set.Ico c.boffset (c.boffset + withOverhead c.size) ⊆ points r.freeintervals

variable (debug pageSize) in
structure State.Kept (s : State) : Prop where
  placed : Placed s.live s.allocatorRanges
  written : ∀ ptr size, s.live ptr = some size → Written debug s.memory (ptr - sizeofSizeT) size
  chosen : ∀ c ∈ s.chosen, c.Ready s.allocatorRanges
  growing : ∀ g ∈ s.growing, Fits g.size ∧ 0 < (g.range pageSize false).size ∧
    ∀ r ∈ s.allocatorRanges, (g.range pageSize false).Clear r
  clear : s.growing.Pairwise fun g g' => (g.range pageSize false).Clear (g'.range pageSize false)

theorem Choice.Ready.mono {c : Choice} {ranges ranges' : List Range} (h : c.Ready ranges)
    (hranges : ∀ r ∈ ranges, r.mem = c.mem → ∃ r' ∈ ranges', r'.mem = r.mem ∧ points r.freeintervals ⊆ points r'.freeintervals) :
    c.Ready ranges' := by
  obtain ⟨hfits, haligned, r, hr, hmem, hin⟩ := h
  obtain ⟨r', hr', hmem', hsub⟩ := hranges r hr hmem
  exact ⟨hfits, haligned, r', hr', hmem'.trans hmem, hin.trans hsub⟩

theorem Range.Clear.congr {r r₁ r' : Range} (h : r.Clear r') (hmem : r₁.mem = r'.mem) (hsize : r₁.size = r'.size) : r.Clear r₁ := by
  unfold Range.Clear Range.end_ at *
  rwa [hmem, hsize]

theorem init_kept (memory : Memory) : (State.init memory).Kept debug pageSize where
  placed := ⟨.nil, nofun, nofun, nofun⟩
  written := nofun
  chosen := nofun
  growing := nofun
  clear := .nil

/-- Blocks that are where they should be stay as they were written when another one is written. -/
theorem written_hand {live : Live} {ranges : List Range} {memory : Memory} {ret size : ℕ}
    (hplaced : Placed (Function.update live (ret + sizeofSizeT) (some size)) ranges)
    (hwritten : ∀ ptr n, live ptr = some n → Written debug memory (ptr - sizeofSizeT) n) (ptr n : ℕ)
    (hptr : Function.update live (ret + sizeofSizeT) (some size) ptr = some n) :
    Written debug (writeBlock debug ret size memory) (ptr - sizeofSizeT) n := by
  have hnew : Function.update live (ret + sizeofSizeT) (some size) (ret + sizeofSizeT) = some size := Function.update_self ..
  have hfits := (hplaced.inside _ _ hnew).1
  by_cases hsame : ptr = ret + sizeofSizeT
  · subst hsame
    rw [Function.update_self] at hptr
    rw [← Option.some_inj.mp hptr, Nat.add_sub_cancel]
    exact written_writeBlock hfits
  · have hapart := hplaced.blocks_apart hptr hnew hsame
    obtain ⟨hfits', r, -, offset, -, rfl⟩ := hplaced.inside _ _ hptr
    rw [Function.update_of_ne hsame] at hptr
    rw [Nat.add_sub_cancel]
    have hold := hwritten _ _ hptr
    rw [Nat.add_sub_cancel] at hold
    refine hold.frame hfits' fun x hx hlt _ => writeBlock_other hfits ?_
    omega

/-- A block is carved out of the range of a choice. -/
theorem carve_kept {c : Choice} (hs : s.Kept debug pageSize) (hnone : s.chosen = none) (hc : c.Ready s.allocatorRanges) :
    (s.carve debug c).Kept debug pageSize := by
  obtain ⟨hfits, haligned, r, hr, hmem, hin⟩ := hc
  have hplaced : Placed (s.carve debug c).live (s.carve debug c).allocatorRanges := by
    have h := hs.placed.take hr hfits haligned hin
    rw [hmem] at h
    exact h
  refine ⟨hplaced, written_hand hplaced hs.written, ?_, fun g hg => ?_, hs.clear⟩
  · intro c' hc'
    exact nomatch hnone.symm.trans hc'
  · obtain ⟨hfits', hpos, hclear⟩ := hs.growing g hg
    refine ⟨hfits', hpos, fun r' hr' => ?_⟩
    obtain ⟨r₁, hr₁, rfl⟩ := List.mem_map.mp hr'
    have hstays := @Stays.changeAt (fun r : Range =>
      { r with freeintervals := remove c.boffset (c.boffset + withOverhead c.size) r.freeintervals }) (fun _ => ⟨rfl, rfl⟩) c.mem
    exact (hclear r₁ hr₁).congr (hstays r₁).1 (hstays r₁).2

theorem relock_kept {mem : ℕ} {locked : Bool} (hs : s.Kept debug pageSize) :
    State.Kept debug pageSize
      { s with allocatorRanges := updateRange mem (fun r => { r with locked := locked }) s.allocatorRanges } := by
  have hstays := @Stays.changeAt (fun r : Range => { r with locked := locked }) (fun _ => ⟨rfl, rfl⟩) mem
  refine ⟨hs.placed.relock locked, hs.written, fun c hc => ?_, fun g hg => ?_, hs.clear⟩
  · refine (hs.chosen c hc).mono fun r hr _ => ⟨_, List.mem_map_of_mem hr, (hstays r).1, ?_⟩
    unfold changeAt
    split_ifs <;> exact Set.Subset.refl _
  · obtain ⟨hfits, hpos, hclear⟩ := hs.growing g hg
    refine ⟨hfits, hpos, fun r' hr' => ?_⟩
    obtain ⟨r, hr, rfl⟩ := List.mem_map.mp hr'
    exact (hclear r hr).congr (hstays r).1 (hstays r).2

theorem memLocked_kept {c : Choice} {locked : Bool} (hs : s.Kept debug pageSize) (hc : c ∈ s.chosen) :
    (s.memLocked debug c locked).Kept debug pageSize := by
  have hready := hs.chosen c hc
  have hopen : State.Kept debug pageSize { s with chosen := none } :=
    ⟨hs.placed, hs.written, nofun, hs.growing, hs.clear⟩
  unfold State.memLocked
  cases locked with
  | false => exact carve_kept hopen rfl hready
  | true =>
    refine carve_kept (relock_kept hopen) rfl (hready.mono fun r hr _ => ⟨_, List.mem_map_of_mem hr, ?_⟩)
    unfold changeAt
    split_ifs
    exact ⟨rfl, Set.Subset.refl _⟩

/-- A fit is ready to be carved. -/
theorem findFit_ready {f : Fit} {size : ℕ} (hs : s.Kept debug pageSize) (hfits : Fits size)
    (hf : findFit s.allocatorRanges (withOverhead size) = some f) :
    Choice.Ready ⟨f.range.mem, f.boffset, size⟩ s.allocatorRanges := by
  obtain ⟨hr, i, hi, hstart, hroom⟩ := findFit_holds hf
  have hdivided := hs.placed.divided f.range hr
  have hlt := hdivided.parts.separated.nonempty i hi
  refine ⟨hfits, hstart ▸ hdivided.starts i hi, f.range, hr, rfl, ?_⟩
  rintro x ⟨hle, hx⟩
  exact ⟨i, hi, hstart ▸ hle, by simp only at hx; omega⟩

/-- A malloc leaves everything in place, whichever way it goes. -/
theorem malloc_kept {size mem : ℕ} (hs : s.Kept debug pageSize) (hnone : s.chosen = none) (hfits : Fits size)
    (hstep : s.malloc debug pageSize size mem = some s') : s'.Kept debug pageSize := by
  unfold State.malloc at hstep
  split at hstep
  next f hf =>
    have hready := findFit_ready hs hfits hf
    split_ifs at hstep
    · obtain rfl := Option.some_inj.mp hstep
      exact carve_kept hs hnone hready
    · obtain rfl := Option.some_inj.mp hstep
      exact ⟨hs.placed, hs.written, fun c hc => Option.some_inj.mp hc ▸ hready, hs.growing, hs.clear⟩
  next =>
    dsimp only at hstep
    split_ifs at hstep with hmap
    obtain ⟨hpos, hclear⟩ := hmap
    obtain ⟨hranges, hgrowing⟩ := List.forall_mem_append.mp hclear
    obtain rfl := Option.some_inj.mp hstep
    refine ⟨hs.placed, hs.written, hs.chosen, ?_, ?_⟩
    · exact List.forall_mem_cons.mpr ⟨⟨hfits, hpos, hranges⟩, hs.growing⟩
    · exact List.pairwise_cons.mpr ⟨fun g hg => hgrowing _ (List.mem_map_of_mem hg), hs.clear⟩

/-- The whole of a new range, with a block taken from its start. -/
theorem grown_divided {g : Growth} {locked : Bool} {live : Live} (hfits : Fits g.size) (hpos : 0 < (g.range pageSize locked).size)
    (hnone : blocks live (g.range pageSize locked) = ∅) :
    (g.range pageSize locked).Divided (Function.update live (g.mem + lmRangeOverhead + sizeofSizeT) (some g.size)) := by
  have hroom := rangeSize_ge hpos (withOverhead_lt g.size) (withOverhead_aligned g.size)
  have hblock := withOverhead_pos hfits
  let whole : Range := { g.range pageSize locked with freeintervals := [(lmRangeOverhead, (g.range pageSize locked).size)] }
  have hlt : lmRangeOverhead < whole.size := Nat.lt_of_lt_of_le (Nat.lt_add_of_pos_left hblock) hroom
  have hwhole : whole.Divided live := by
    have hempty : blocks live whole = ∅ := hnone
    refine ⟨?_, ?_, ?_⟩
    · rw [hempty]
      refine ⟨separated_cons.mpr ⟨hlt, by simp, separated_nil⟩, by simp, Set.pairwise_empty _, by simp, ?_⟩
      ext x
      simp [whole]
    · rintro i hi
      rw [List.mem_singleton.mp hi]
      exact (by decide : Aligned lmRangeOverhead)
    · rw [hempty]
      simp
  have htaken := hwhole.take hfits (show Aligned lmRangeOverhead by decide) fun x hx =>
    ⟨_, List.mem_singleton_self _, hx.1, Nat.lt_of_lt_of_le hx.2 (by rwa [Nat.add_comm])⟩
  refine htaken.congr rfl ?_ rfl
  have hhead : head lmRangeOverhead (lmRangeOverhead, whole.size) = [] := head_after (le_refl _)
  change _ = head lmRangeOverhead (lmRangeOverhead, whole.size) ++ tail _ (lmRangeOverhead, whole.size) ++ []
  rw [hhead, List.nil_append, List.append_nil, tail, max_eq_right (Nat.le_add_right ..), Growth.range, Nat.add_comm]
  rfl

/-- Nothing starts in a range that is clear of all. -/
theorem Placed.blocks_none {live : Live} {ranges : List Range} {r : Range} (h : Placed live ranges)
    (hclear : ∀ r' ∈ ranges, r.Clear r') : blocks live r = ∅ := by
  refine Set.eq_empty_iff_forall_notMem.mpr ?_
  rintro i ⟨hlt, size, hlive, -⟩
  obtain ⟨-, r', hr', offset, hlt', hptr⟩ := h.inside _ _ hlive
  exact (hclear r' hr').ptr_ne hlt hlt' hptr

/-- Calls that map new ranges do not share one. -/
theorem State.Kept.growing_clear {g g' : Growth} (hs : s.Kept debug pageSize) (hg : g ∈ s.growing)
    (hg' : g' ∈ s.growing.erase g) : (g'.range pageSize false).Clear (g.range pageSize false) := by
  have hnodup : s.growing.Nodup := by
    refine hs.clear.imp_of_mem fun {g g'} hg _ hclear heq => ?_
    subst heq
    exact hclear.ne (hs.growing g hg).2.1 (hs.growing g hg).2.1 rfl
  obtain ⟨hne, hg'⟩ := hnodup.mem_erase_iff.mp hg'
  have : Std.Symm fun g g' : Growth => (g.range pageSize false).Clear (g'.range pageSize false) :=
    ⟨fun _ _ hclear => hclear.symm⟩
  exact hs.clear.forall hg' hg hne

theorem grown_kept {g : Growth} {locked : Bool} (hs : s.Kept debug pageSize) (hnone : s.chosen = none) (hg : g ∈ s.growing) :
    (s.grown debug pageSize g locked).Kept debug pageSize := by
  obtain ⟨hfits, hpos, hclear⟩ := hs.growing g hg
  have hclear' : ∀ r ∈ s.allocatorRanges, (g.range pageSize locked).Clear r := hclear
  have hroom := rangeSize_ge hpos (withOverhead_lt g.size) (withOverhead_aligned g.size)
  have hlt : lmRangeOverhead < (g.range pageSize locked).size :=
    Nat.lt_of_lt_of_le (Nat.lt_add_of_pos_left (withOverhead_pos hfits)) hroom
  have hplaced : Placed (s.grown debug pageSize g locked).live (s.grown debug pageSize g locked).allocatorRanges :=
    hs.placed.grow hclear' hfits hlt (grown_divided hfits hpos (hs.placed.blocks_none hclear'))
  refine ⟨hplaced, written_hand hplaced hs.written, ?_, fun g' hg' => ?_, hs.clear.sublist List.erase_sublist⟩
  · intro c hc
    exact nomatch hnone.symm.trans hc
  · obtain ⟨hfits', hpos', hclear'⟩ := hs.growing g' (List.mem_of_mem_erase hg')
    refine ⟨hfits', hpos', fun r hr => ?_⟩
    rcases mem_insertRange.mp hr with rfl | hr
    · exact hs.growing_clear hg hg'
    · exact hclear' r hr

/-- `psync_locked_free` of a live pointer fails no assertion, and finds the range and the size of its block. -/
theorem State.Kept.lookup {ptr size : ℕ} (hs : s.Kept debug pageSize) (hptr : s.live ptr = some size) :
    ∃ r ∈ s.allocatorRanges, ∃ i ∈ blocks s.live r, ptr = r.mem + i.1 + sizeofSizeT ∧ i.2 = i.1 + withOverhead size ∧
      s.lookup debug ptr = some (r, withOverhead size) := by
  obtain ⟨-, r, hr, i, hi, rfl, hend⟩ := hs.placed.block hptr
  refine ⟨r, hr, i, hi, rfl, hend, ?_⟩
  obtain ⟨hheader, hintact⟩ := hs.written _ _ hptr
  unfold State.lookup
  dsimp only
  rw [hheader, if_pos hintact, sizeOf_header]
  rw [Nat.add_sub_cancel]
  have hhas : r.Has (r.mem + i.1) := ⟨Nat.le_add_right .., Nat.add_lt_add_left hi.1 _⟩
  obtain ⟨r', hfound⟩ := Option.isSome_iff_exists.mp
    (List.find?_isSome.mpr ⟨r, hr, decide_eq_true hhas⟩ : (s.allocatorRanges.find? fun range => range.Has (r.mem + i.1)).isSome)
  have hhas' : r'.Has (r.mem + i.1) := by
    have h := List.find?_some hfound
    exact of_decide_eq_true h
  rw [hfound, Option.map_some]
  rcases hs.placed.apart.eq_or_clear hr (List.mem_of_find?_eq_some hfound) with rfl | hclear
  · rfl
  · unfold Range.Clear Range.Has at *
    omega

/-- What a free does: its block was the last one of its range, and the range is released, or
others are left in it. -/
theorem free_cases {ptr : ℕ} {root : ℕ × ℕ} (hs : s.Kept debug pageSize) (hstep : Step debug pageSize s (.free ptr root) s') :
    ∃ r ∈ s.allocatorRanges, ∃ i ∈ blocks s.live r, ptr = r.mem + i.1 + sizeofSizeT ∧
      (blocks s.live r \ {i} = ∅ ∧ s' = { s with
          live := Function.update s.live ptr none
          allocatorRanges := s.allocatorRanges.filter fun r' => r'.mem ≠ r.mem } ∨
        (blocks s.live r \ {i}).Nonempty ∧ s' = { s with
          live := Function.update s.live ptr none
          allocatorRanges := updateRange r.mem (fun r => { r with freeintervals := add i.1 i.2 r.freeintervals })
            s.allocatorRanges }) := by
  unfold Step step at hstep
  dsimp only at hstep
  split_ifs at hstep with hlive
  obtain ⟨size, hptr⟩ := Option.isSome_iff_exists.mp hlive
  obtain ⟨r, hr, i, hi, rfl, hend, hlookup⟩ := hs.lookup hptr
  refine ⟨r, hr, i, hi, rfl, ?_⟩
  rw [hlookup, Option.bind_some] at hstep
  unfold State.free at hstep
  have hoffset : r.mem + i.1 + sizeofSizeT - sizeofSizeT - r.mem = i.1 := by omega
  dsimp only at hstep
  rw [hoffset, ← hend] at hstep
  have hgiven := ((hs.placed.divided r hr).parts.give hi)
  split_ifs at hstep with hroot hwhole
  · obtain rfl := Option.some_inj.mp hstep
    have hin : (lmRangeOverhead, r.size) ∈ add i.1 i.2 r.freeintervals := by
      rwa [← hwhole.1, ← hwhole.2]
    exact .inl ⟨hgiven.none_used hin, rfl⟩
  · obtain rfl := Option.some_inj.mp hstep
    refine .inr ⟨Set.nonempty_iff_ne_empty.mpr fun hempty => hwhole ?_, rfl⟩
    rw [hempty] at hgiven
    have hstart := (hs.placed.divided r hr).parts.used_subset hi ⟨le_refl _, (hs.placed.block_end hr hi).1⟩
    rw [hgiven.all_free (Nat.lt_of_le_of_lt hstart.1 hstart.2), List.mem_singleton] at hroot
    exact ⟨congrArg Prod.fst hroot, congrArg Prod.snd hroot⟩

theorem free_kept {ptr : ℕ} {root : ℕ × ℕ} (hs : s.Kept debug pageSize) (hclear : ¬Upsets s (.free ptr root))
    (hstep : Step debug pageSize s (.free ptr root) s') : s'.Kept debug pageSize := by
  obtain ⟨r, hr, i, hi, rfl, hcases⟩ := free_cases hs hstep
  have hwritten : ∀ p n, Function.update s.live (r.mem + i.1 + sizeofSizeT) none p = some n →
      Written debug s.memory (p - sizeofSizeT) n := fun p n hp => by
    have hne : p ≠ r.mem + i.1 + sizeofSizeT := by
      rintro rfl
      rw [Function.update_self] at hp
      exact nomatch hp
    exact hs.written p n (by rwa [Function.update_of_ne hne] at hp)
  rcases hcases with ⟨hlast, rfl⟩ | ⟨hheld, rfl⟩
  · refine ⟨hs.placed.release hr hi hlast, hwritten, fun c hc => ?_, fun g hg => ?_, hs.clear⟩
    · refine (hs.chosen c hc).mono fun r' hr' hmem => ⟨r', List.mem_filter.mpr ⟨hr', decide_eq_true ?_⟩, rfl, Set.Subset.refl _⟩
      intro hsame
      obtain rfl := hs.placed.eq_of_mem hr' hr hsame
      refine hclear ⟨c, hc, r', hr, hmem, i, ?_, rfl⟩
      exact Set.Subset.antisymm (Set.sdiff_eq_empty.mp hlast) (Set.singleton_subset_iff.mpr hi)
    · obtain ⟨hfits, hpos, hg⟩ := hs.growing g hg
      exact ⟨hfits, hpos, fun r' hr' => hg r' (List.mem_of_mem_filter hr')⟩
  · have hstays := @Stays.changeAt
      (fun r : Range => { r with freeintervals := add i.1 i.2 r.freeintervals }) (fun _ => ⟨rfl, rfl⟩) r.mem
    refine ⟨hs.placed.give hr hi hheld, hwritten, fun c hc => ?_, fun g hg => ?_, hs.clear⟩
    · refine (hs.chosen c hc).mono fun r' hr' _ => ⟨_, List.mem_map_of_mem hr', (hstays r').1, ?_⟩
      unfold changeAt
      split_ifs
      · have hsep := (hs.placed.divided r' hr').parts.separated
        change _ ⊆ points (add i.1 i.2 r'.freeintervals)
        rw [(add_spec (hs.placed.block_end hr hi).1 hsep).2]
        exact Set.subset_union_right
      · exact Set.Subset.refl _
    · obtain ⟨hfits, hpos, hg⟩ := hs.growing g hg
      refine ⟨hfits, hpos, fun r' hr' => ?_⟩
      obtain ⟨r₁, hr₁, rfl⟩ := List.mem_map.mp hr'
      exact (hg r₁ hr₁).congr (hstays r₁).1 (hstays r₁).2

/-- A caller that writes its own bytes spoils no block. -/
theorem write_kept {ptr i size : ℕ} {v : UInt8} (hs : s.Kept debug pageSize) (hptr : s.live ptr = some size) (hi : i < size) :
    State.Kept debug pageSize { s with memory := Function.update s.memory (ptr + i) v } := by
  refine ⟨hs.placed, fun q n hq => ?_, hs.chosen, hs.growing, hs.clear⟩
  obtain ⟨hfits, r, -, offset, -, hqeq⟩ := hs.placed.inside q n hq
  obtain ⟨hfits', r', -, offset', -, hpeq⟩ := hs.placed.inside ptr size hptr
  refine (hs.written q n hq).frame hfits fun x hx hlt hown => Function.update_of_ne ?_ _ _
  rintro rfl
  by_cases hsame : q = ptr
  · subst hsame
    rw [hptr] at hq
    obtain rfl := Option.some_inj.mp hq
    omega
  · have hapart := hs.placed.blocks_apart hq hptr hsame
    have hroom := withOverhead_ge hfits'
    have hroom' := withOverhead_ge hfits
    unfold lmOverhead at hroom hroom'
    omega

/-- A step that upsets nothing keeps everything in place. -/
theorem step_kept {a : Action} (hs : s.Kept debug pageSize) (hclear : ¬Upsets s a) (hstep : Step debug pageSize s a s') :
    s'.Kept debug pageSize := by
  cases a with
  | malloc size mem =>
    unfold Step step at hstep
    dsimp only at hstep
    split_ifs at hstep with hguard
    exact malloc_kept hs hguard.1 (not_not.mp hclear) hstep
  | memLocked locked =>
    obtain ⟨c, hc, rfl⟩ := Option.map_eq_some_iff.mp hstep
    exact memLocked_kept hs hc
  | grown g locked =>
    unfold Step step at hstep
    dsimp only at hstep
    split_ifs at hstep with hguard
    obtain rfl := Option.some_inj.mp hstep
    exact grown_kept hs hguard.1 hguard.2
  | free ptr root => exact free_kept hs hclear hstep
  | write ptr i v =>
    unfold Step step at hstep
    dsimp only at hstep
    split at hstep
    next size hptr =>
      split_ifs at hstep with hi
      obtain rfl := Option.some_inj.mp hstep
      exact write_kept hs hptr hi
    next => exact nomatch hstep

/-! ### What is promised -/

theorem State.Kept.sound (hs : s.Kept debug pageSize) : s.Sound where
  apart := hs.placed.apart
  inside ptr size hptr := by
    obtain ⟨hfits, r, hr, i, hi, heq, hend⟩ := hs.placed.block hptr
    refine ⟨r, hr, i, hi, heq, ?_, (hs.placed.block_end hr hi).2⟩
    have hroom := withOverhead_ge hfits
    omega
  partition r hr := (hs.placed.divided r hr).parts
  aligned r hr := (hs.placed.divided r hr).aligned
  held := hs.placed.held

theorem updateRange_has {mem : ℕ} {f : Range → Range} {ranges : List Range} (hf : Stays f) :
    ∀ r ∈ ranges, ∃ r' ∈ updateRange mem f ranges, r'.mem = r.mem := fun r hr =>
  ⟨_, List.mem_map_of_mem hr, (hf.changeAt mem r).1⟩

theorem carve_has (c : Choice) : ∀ r ∈ s.allocatorRanges, ∃ r' ∈ (s.carve debug c).allocatorRanges, r'.mem = r.mem :=
  updateRange_has fun _ => ⟨rfl, rfl⟩

/-- A step that is no free releases no range. -/
theorem step_has {a : Action} (hstep : Step debug pageSize s a s') (hfree : ∀ ptr root, a ≠ .free ptr root) :
    ∀ r ∈ s.allocatorRanges, ∃ r' ∈ s'.allocatorRanges, r'.mem = r.mem := by
  unfold Step step at hstep
  cases a with
  | malloc size mem =>
    dsimp only at hstep
    split_ifs at hstep
    unfold State.malloc at hstep
    split at hstep
    next f hf =>
      split_ifs at hstep
      · obtain rfl := Option.some_inj.mp hstep
        exact carve_has _
      · obtain rfl := Option.some_inj.mp hstep
        exact fun r hr => ⟨r, hr, rfl⟩
    next =>
      dsimp only at hstep
      split_ifs at hstep
      obtain rfl := Option.some_inj.mp hstep
      exact fun r hr => ⟨r, hr, rfl⟩
  | memLocked locked =>
    obtain ⟨c, hc, rfl⟩ := Option.map_eq_some_iff.mp hstep
    unfold State.memLocked
    cases locked with
    | false => exact updateRange_has fun _ => ⟨rfl, rfl⟩
    | true =>
      intro r hr
      obtain ⟨r₁, hr₁, hmem₁⟩ := @updateRange_has c.mem (fun r => { r with locked := true }) _ (fun _ => ⟨rfl, rfl⟩) r hr
      obtain ⟨r₂, hr₂, hmem₂⟩ := @updateRange_has c.mem (fun r : Range =>
        { r with freeintervals := remove c.boffset (c.boffset + withOverhead c.size) r.freeintervals }) _ (fun _ => ⟨rfl, rfl⟩) r₁ hr₁
      exact ⟨r₂, hr₂, hmem₂.trans hmem₁⟩
  | grown g locked =>
    dsimp only at hstep
    split_ifs at hstep
    obtain rfl := Option.some_inj.mp hstep
    exact fun r hr => ⟨r, mem_insertRange.mpr (.inr hr), rfl⟩
  | free ptr root => exact absurd rfl (hfree ptr root)
  | write ptr i v =>
    dsimp only at hstep
    split at hstep
    next size hptr =>
      split_ifs at hstep
      obtain rfl := Option.some_inj.mp hstep
      exact fun r hr => ⟨r, hr, rfl⟩
    next => exact nomatch hstep

/-- A pointer to a block of one range is for the last block of no other. -/
theorem State.Last.range {r r₁ : Range} {i : ℕ × ℕ} (hs : s.Kept debug pageSize) (hr : r ∈ s.allocatorRanges)
    (hr₁ : r₁ ∈ s.allocatorRanges) (hi : i ∈ blocks s.live r₁) (hlast : s.Last r (r₁.mem + i.1 + sizeofSizeT)) :
    r = r₁ ∧ blocks s.live r₁ \ {i} = ∅ := by
  obtain ⟨j, hone, hptr⟩ := hlast
  have hj : j ∈ blocks s.live r := hone ▸ Set.mem_singleton j
  rcases hs.placed.apart.eq_or_clear hr hr₁ with rfl | hclear
  · rw [hone] at hi ⊢
    rw [Set.mem_singleton_iff.mp hi, Set.sdiff_self]
    exact ⟨rfl, rfl⟩
  · exact absurd hptr.symm (hclear.ptr_ne hj.1 hi.1)

/-- A range is released by the free of its last block, and by nothing else. -/
theorem released_iff {a : Action} (hs : s.Kept debug pageSize) (hstep : Step debug pageSize s a s') {r : Range}
    (hr : r ∈ s.allocatorRanges) :
    (∀ r' ∈ s'.allocatorRanges, r'.mem ≠ r.mem) ↔ ∃ ptr root, a = .free ptr root ∧ s.Last r ptr := by
  by_cases hfree : ∃ ptr root, a = .free ptr root
  · obtain ⟨ptr, root, rfl⟩ := hfree
    obtain ⟨r₁, hr₁, i, hi, rfl, hcases⟩ := free_cases hs hstep
    constructor
    · intro hgone
      refine ⟨_, root, rfl, ?_⟩
      rcases hcases with ⟨hlast, rfl⟩ | ⟨-, rfl⟩
      · have hsame : r.mem = r₁.mem := by
          by_contra hne
          exact hgone r (List.mem_filter.mpr ⟨hr, decide_eq_true hne⟩) rfl
        obtain rfl := hs.placed.eq_of_mem hr hr₁ hsame
        exact ⟨i, Set.Subset.antisymm (Set.sdiff_eq_empty.mp hlast) (Set.singleton_subset_iff.mpr hi), rfl⟩
      · obtain ⟨r', hr', hmem⟩ := @updateRange_has r₁.mem (fun r : Range =>
          { r with freeintervals := add i.1 i.2 r.freeintervals }) _ (fun _ => ⟨rfl, rfl⟩) r hr
        exact absurd hmem (hgone r' hr')
    · rintro ⟨ptr, root', heq, hlast⟩
      obtain ⟨rfl, -⟩ := Action.free.inj heq
      obtain ⟨rfl, hnone⟩ := hlast.range hs hr hr₁ hi
      rcases hcases with ⟨-, rfl⟩ | ⟨hheld, -⟩
      · exact fun r' hr' => of_decide_eq_true (List.mem_filter.mp hr').2
      · exact absurd hnone hheld.ne_empty
  · refine iff_of_false (fun hgone => ?_) fun ⟨ptr, root, ha, _⟩ => hfree ⟨ptr, root, ha⟩
    obtain ⟨r', hr', hmem⟩ := step_has hstep (fun ptr root ha => hfree ⟨ptr, root, ha⟩) r hr
    exact hgone r' hr' hmem

/-- Unless the range that a malloc has chosen loses its last block in the locking, or a size does not fit,
the blocks stay apart and in the tree, and no free goes wrong. -/
theorem blocks_stay_apart (memory : Memory)
    (h : Reachable (· = State.init memory) (Avoiding (Step debug pageSize) Upsets) s) :
    s.Sound ∧ (∀ ptr, (s.live ptr).isSome → (s.lookup debug ptr).isSome) ∧
      ∀ a s', Step debug pageSize s a s' → ∀ r ∈ s.allocatorRanges,
        (∀ r' ∈ s'.allocatorRanges, r'.mem ≠ r.mem) ↔ ∃ ptr root, a = .free ptr root ∧ s.Last r ptr := by
  have hkept : s.Kept debug pageSize := h.invariant
    (fun _ hinit => hinit ▸ init_kept memory)
    (fun _ _ _ hs hstep => step_kept hs hstep.2 hstep.1)
  refine ⟨hkept.sound, fun ptr hlive => ?_, fun a s' hstep r hr => released_iff hkept hstep hr⟩
  obtain ⟨size, hptr⟩ := Option.isSome_iff_exists.mp hlive
  obtain ⟨r, hr, i, hi, -, -, hlookup⟩ := hkept.lookup hptr
  rw [hlookup]
  rfl

/-- A second block in a range that is locked at the second try. -/
theorem blocks_stay_apart_second : ∃ s : State, s.live 65552 = some 100 ∧ s.live 65680 = some 200 ∧ s.Sound := by
  have h : Reachable (· = State.init fun _ => 0) (Avoiding (Step false 4096) Upsets) (State.init fun _ => 0) := .start rfl
  have h := h.next (a := .malloc 100 65536) ⟨(rfl : step false 4096 _ _ = some { State.init _ with growing := [⟨65536, 100⟩] }),
    fun hunfit => hunfit (by decide : Fits 100)⟩
  have h := h.next (a := .grown ⟨65536, 100⟩ false) ⟨(rfl : step false 4096 _ _ = some (State.grown false 4096 _ _ _)), id⟩
  have h := h.next (a := .malloc 200 0) ⟨(rfl : step false 4096 _ _ = some { State.grown .. with chosen := some ⟨65536, 136, 200⟩ }),
    fun hunfit => hunfit (by decide : Fits 200)⟩
  have h := h.next (a := .memLocked true) ⟨(rfl : step false 4096 _ _ = some (State.memLocked false _ ⟨65536, 136, 200⟩ true)), id⟩
  exact ⟨_, rfl, rfl, (blocks_stay_apart _ h).1⟩

/-- The last block of the chosen range is freed in the locking: the range goes, and the block is returned. -/
theorem block_in_released_range : ∃ s : State, Reachable (· = State.init fun _ => 0) (Step false 4096) s ∧
    s.live 65680 = some 100 ∧ s.allocatorRanges = [] ∧ ¬s.Sound := by
  have h : Reachable (· = State.init fun _ => 0) (Step false 4096) (State.init fun _ => 0) := .start rfl
  have h := h.next (a := .malloc 100 65536) (rfl : step false 4096 _ _ = some { State.init _ with growing := [⟨65536, 100⟩] })
  have h := h.next (a := .grown ⟨65536, 100⟩ false) (rfl : step false 4096 _ _ = some (State.grown false 4096 _ _ _))
  have h := h.next (a := .malloc 100 0)
    (rfl : step false 4096 _ _ = some { State.grown .. with chosen := some ⟨65536, 136, 100⟩ })
  have h := h.next (a := .free 65552 (8, 4096)) (rfl : step false 4096 _ _ = some { (_ : State) with allocatorRanges := [] })
  have h := h.next (a := .memLocked false) (rfl : step false 4096 _ _ = some (State.memLocked false _ ⟨65536, 136, 100⟩ false))
  refine ⟨_, h, rfl, rfl, fun hs => ?_⟩
  obtain ⟨r, hr, -⟩ := hs.inside 65680 100 rfl
  exact absurd hr List.not_mem_nil

end Pclsync.LockedMemory
