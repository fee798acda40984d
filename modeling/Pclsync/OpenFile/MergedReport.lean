import Pclsync.OpenFile.MergedRead
import Mathlib.Data.List.TakeWhile

/-! When reads of a modified file that is encrypted report what fails. -/
namespace Pclsync.OpenFile.Merged
open FsCrypto (sectorSize maxSectorid dataSectoridBySectorid)
open Lib.Intervals

variable {c : Call} {size offset sectorid i : ℕ}

/-! ### Sectors and their bytes -/

theorem mem_sectorsOf (hsize : 0 < size) :
    sectorid ∈ sectorsOf size offset ↔ sectorid * sectorSize < offset + size ∧ offset < (sectorid + 1) * sectorSize := by
  simp only [sectorsOf, List.mem_range'_1, sectorSize]
  omega

theorem byte_mem_sectorsOf (hi : i < size) : (offset + i) / sectorSize ∈ sectorsOf size offset := by
  rw [mem_sectorsOf (Nat.zero_lt_of_lt hi)]
  simp only [sectorSize]
  omega

/-- A piece is where the range and the sector meet. -/
theorem mergedPiece_spec (hsize : 0 < size) (h : sectorid ∈ sectorsOf size offset) :
    sectorid * sectorSize + (mergedPiece size offset sectorid).1 = max offset (sectorid * sectorSize) ∧
      sectorid * sectorSize + (mergedPiece size offset sectorid).1 + (mergedPiece size offset sectorid).2 =
        min (offset + size) ((sectorid + 1) * sectorSize) ∧
      offset + mergedBase offset sectorid = max offset (sectorid * sectorSize) := by
  rw [mem_sectorsOf hsize] at h
  by_cases hfirst : sectorid = offset / sectorSize ∧ offset % sectorSize ≠ 0
  · rw [mergedPiece, mergedBase, if_pos hfirst, if_pos hfirst]
    simp only [sectorSize] at *
    omega
  · rw [mergedPiece, mergedBase, if_neg hfirst, if_neg hfirst]
    by_cases hlast : sectorid = (offset + size - 1) / sectorSize ∧ (offset + size) % sectorSize ≠ 0
    · rw [if_pos hlast]
      simp only [sectorSize] at *
      omega
    · rw [if_neg hlast]
      simp only [sectorSize] at *
      omega

/-- A sector that is read in full is copied to its bytes of the buffer. -/
theorem copyInto_piece (buf : Buffer) (h : sectorid ∈ sectorsOf size offset) (hi : i < size) :
    copyInto buf (mergedBase offset sectorid) sectorid (mergedPiece size offset sectorid).1 ((mergedPiece size offset sectorid).2 : ℕ) i =
      if (offset + i) / sectorSize = sectorid then .sector sectorid ((offset + i) % sectorSize) else buf i := by
  obtain ⟨hstart, hstop, hbase⟩ := mergedPiece_spec (Nat.zero_lt_of_lt hi) h
  have hiff : (mergedBase offset sectorid ≤ i ∧ (i : ℤ) < mergedBase offset sectorid + ((mergedPiece size offset sectorid).2 : ℕ)) ↔
      (offset + i) / sectorSize = sectorid := by
    simp only [sectorSize] at *
    omega
  rw [copyInto]
  split_ifs with hin hsector hsector
  · have hindex : (mergedPiece size offset sectorid).1 + (i - mergedBase offset sectorid) = (offset + i) % sectorSize := by
      simp only [sectorSize] at *
      omega
    rw [hindex]
  · exact absurd (hiff.mp hin) hsector
  · exact absurd (hiff.mpr hsector) hin
  · rfl

/-- No more is read than was asked for. -/
theorem readSector_le (copy : LocalCopy) (sectorid : ℕ) (piece : ℕ × ℕ) : readSector copy sectorid piece ≤ piece.2 := by
  have hfull : fullSector copy sectorid ≤ (sectorSize : ℕ) := by
    rw [fullSector]
    split
    · next length hlogged =>
      have hle := copy.logged_le sectorid length hlogged
      split_ifs
      · exact_mod_cast hle
      · exact le_trans (by decide : -eio ≤ 0) (Int.natCast_nonneg _)
    · split
      · exact le_trans (by decide : -eio ≤ 0) (Int.natCast_nonneg _)
      · split_ifs
        · exact Int.natCast_nonneg _
        · exact_mod_cast Nat.min_le_left _ _
        · exact le_trans (by decide : -eio ≤ 0) (Int.natCast_nonneg _)
  rw [readSector]
  split_ifs with hwhole
  · rw [hwhole]
    exact hfull
  · unfold partialSector
    dsimp only
    split_ifs with hneg hshort
    · exact le_trans hneg (Int.natCast_nonneg _)
    · exact Int.natCast_nonneg _
    · exact min_le_right _ _

/-! ### The first loop -/

/-- An interval is one of the tree, or none. -/
def Among (tree : IntervalTree) (itr : Option (ℕ × ℕ)) : Prop := ∀ interval ∈ itr, interval ∈ tree

theorem among_first (tree : IntervalTree) (point : ℕ) : Among tree (firstIntervalContainingOrAfter tree point) :=
  fun _ h => List.mem_of_find?_eq_some h

variable {o : Opened} {itr : Option (ℕ × ℕ)}

theorem Among.local_of_covers (h : Among o.writeintervals itr) (hcovers : covers itr sectorid = true) : o.Local sectorid := by
  obtain ⟨interval, hitr, hin⟩ := (Option.any_eq_true _ _).mp hcovers
  exact ⟨interval, h interval hitr, of_decide_eq_true hin⟩

theorem startsBefore_iff (o : Opened) (sectorid : ℕ) :
    startsBefore (firstIntervalContainingOrAfter o.writeintervals (eoffset sectorid)) sectorid = true ↔ o.Local sectorid := by
  constructor
  · intro h
    obtain ⟨interval, hfirst, hfrom⟩ := (Option.any_eq_true _ _).mp h
    obtain ⟨hto, -⟩ := List.find?_eq_some_iff_append.mp hfirst
    exact ⟨interval, List.mem_of_find?_eq_some hfirst, of_decide_eq_true hfrom, of_decide_eq_true hto⟩
  · rintro ⟨interval, hmem, hfrom, hto⟩
    cases hfirst : firstIntervalContainingOrAfter o.writeintervals (eoffset sectorid) with
    | none => exact absurd (decide_eq_true hto) (List.find?_eq_none.mp hfirst interval hmem)
    | some first =>
      obtain ⟨hlt, xs, ys, htree, hxs⟩ := List.find?_eq_some_iff_append.mp hfirst
      refine decide_eq_true ?_
      have hsep := o.separated
      rw [htree] at hmem hsep
      rcases List.mem_append.mp hmem with hx | hmem
      · have hbefore := hxs interval hx
        rw [decide_eq_true hto] at hbefore
        cases hbefore
      · rcases List.mem_cons.mp hmem with rfl | hy
        · exact hfrom
        · -- a later interval begins behind the first one
          obtain ⟨hne, hafter⟩ := hsep.after
          have hle := hafter interval hy
          simp only [decide_eq_true_eq] at hlt
          omega

theorem classify_spec (sectors : List ℕ) (hitr : Among o.writeintervals itr) :
    ((classify o.writeintervals sectors itr).1 = true ↔ ∃ s ∈ sectors, o.Local s) ∧
      ((classify o.writeintervals sectors itr).2.1 = true ↔ ∃ s ∈ sectors, ¬o.Local s) := by
  induction sectors generalizing itr with
  | nil => simp [classify]
  | cons s sectors ih =>
    rw [classify]
    by_cases hcovers : covers itr s = true
    · rw [if_pos hcovers]
      have hlocal := hitr.local_of_covers hcovers
      obtain ⟨-, hremote⟩ := ih hitr
      simp only [List.exists_mem_cons_iff, hlocal, true_or, not_true_eq_false, false_or, true_and]
      exact hremote
    · rw [if_neg hcovers]
      obtain ⟨hlocals, hremotes⟩ := ih (among_first o.writeintervals (eoffset s))
      by_cases hlocal : o.Local s
      · simp only [if_pos ((startsBefore_iff o s).mpr hlocal)]
        simp only [List.exists_mem_cons_iff, hlocal, true_or, not_true_eq_false, false_or, true_and]
        exact hremotes
      · simp only [if_neg (fun h => hlocal ((startsBefore_iff o s).mp h))]
        simp only [List.exists_mem_cons_iff, hlocal, false_or, not_false_eq_true, true_or, and_true]
        exact hlocals

/-! ### The second loop -/

theorem local_of_takeWhile {sectors : List ℕ} (hitr : Among o.writeintervals itr) : ∀ s ∈ sectors.takeWhile (covers itr), o.Local s :=
  fun _ hs => hitr.local_of_covers (List.mem_takeWhile_imp hs)

/-- A sector is read as far as the range goes. -/
def Call.Delivers (c : Call) (size s : ℕ) : Prop := readSector c.copy s (mergedPiece size c.offset s) = (mergedPiece size c.offset s).2

/-- The read of a sector in the second loop. -/
def Call.readOf (c : Call) (size s : ℕ) : Read := ⟨s, (mergedPiece size c.offset s).2, readSector c.copy s (mergedPiece size c.offset s)⟩

/-- What the second loop does when it takes these sectors. -/
structure Call.Takes (c : Call) (size : ℕ) (m m' : Merge) (taken : List ℕ) : Prop where
  reads : m'.reads = m.reads ++ taken.map (c.readOf size)
  kept : m.unlocks ≤ m'.unlocks
  unlocks : m'.unlocks = m.unlocks ↔ ∀ s ∈ taken, c.Delivers size s
  buf : (∀ s ∈ taken, c.Delivers size s) → (∀ s ∈ taken, s ∈ sectorsOf size c.offset) → ∀ i < size, m'.buf i =
    if (c.offset + i) / sectorSize ∈ taken then .sector ((c.offset + i) / sectorSize) ((c.offset + i) % sectorSize) else m.buf i

variable {m m' : Merge} {taken : List ℕ}

theorem Call.Takes.nil (c : Call) (size : ℕ) (m : Merge) : c.Takes size m m [] where
  reads := (List.append_nil _).symm
  kept := le_refl _
  unlocks := iff_of_true rfl fun _ h => (nomatch h)
  buf := fun _ _ _ _ => (if_neg List.not_mem_nil).symm

/-- The state behind a round that takes a sector. -/
def Call.taking (c : Call) (size : ℕ) (m : Merge) (itr : Option (ℕ × ℕ)) (s : ℕ) : Merge where
  itr := itr
  unlocks := if readSector c.copy s (mergedPiece size c.offset s) ≠ (mergedPiece size c.offset s).2 then m.unlocks + 1 else m.unlocks
  reads := m.reads ++ [c.readOf size s]
  buf := copyInto m.buf (mergedBase c.offset s) s (mergedPiece size c.offset s).1 (readSector c.copy s (mergedPiece size c.offset s))

theorem Call.Takes.cons (h : c.Takes size (c.taking size m itr sectorid) m' taken) : c.Takes size m m' (sectorid :: taken) := by
  have hstep : (c.taking size m itr sectorid).unlocks = m.unlocks ∧ c.Delivers size sectorid ∨
      (c.taking size m itr sectorid).unlocks = m.unlocks + 1 ∧ ¬c.Delivers size sectorid := by
    by_cases hd : c.Delivers size sectorid
    · exact .inl ⟨if_neg (not_not.mpr hd), hd⟩
    · exact .inr ⟨if_pos hd, hd⟩
  have hkept := h.kept
  refine ⟨?_, by omega, ?_, fun hdelivers hin i hi => ?_⟩
  · rw [h.reads, taking, List.append_assoc]
    rfl
  · rw [List.forall_mem_cons, ← h.unlocks]
    rcases hstep with ⟨heq, hd⟩ | ⟨heq, hd⟩
    · simp only [hd, true_and]
      rw [heq]
    · simp only [hd, false_and, iff_false]
      omega
  · obtain ⟨hd, hdelivers⟩ := List.forall_mem_cons.mp hdelivers
    obtain ⟨hs, hin⟩ := List.forall_mem_cons.mp hin
    have hcopy := copyInto_piece m.buf hs hi
    rw [h.buf hdelivers hin i hi]
    by_cases htaken : (c.offset + i) / sectorSize ∈ taken
    · rw [if_pos htaken, if_pos (List.mem_cons_of_mem _ htaken)]
    · rw [if_neg htaken]
      simp only [taking]
      rw [hd, hcopy]
      by_cases heq : (c.offset + i) / sectorSize = sectorid
      · rw [if_pos heq, if_pos (heq ▸ List.mem_cons_self), heq]
      · rw [if_neg heq, if_neg fun hmem => (List.mem_cons.mp hmem).elim heq htaken]

theorem Call.Takes.skip (h : c.Takes size { m with itr := itr } m' taken) : c.Takes size m m' taken := ⟨h.reads, h.kept, h.unlocks, h.buf⟩

/-- The second loop takes the local sectors, and those in which it goes on with its interval. -/
theorem Call.merge_spec (c : Call) (size : ℕ) (m : Merge) (sectors : List ℕ) : ∃ taken, c.Takes size m (sectors.foldl (c.mergeSector size) m) taken ∧
    ∀ s, s ∈ taken ↔ s ∈ sectors ∧ (c.later.Local s ∨ s ∈ sectors.takeWhile (covers m.itr)) := by
  induction sectors generalizing m with
  | nil => exact ⟨[], .nil c size m, fun s => by simp⟩
  | cons s sectors ih =>
    rw [List.foldl_cons]
    by_cases hcovers : covers m.itr s = true
    · have hround : c.mergeSector size m s = c.taking size m m.itr s := by
        have hstarts : startsBefore m.itr s = true := by
          obtain ⟨interval, hitr, hin⟩ := (Option.any_eq_true _ _).mp hcovers
          exact (Option.any_eq_true _ _).mpr ⟨interval, hitr, decide_eq_true (of_decide_eq_true hin).1⟩
        simp only [mergeSector, if_pos hcovers, if_pos hstarts]
        rfl
      obtain ⟨taken, htakes, hmem⟩ := ih (c.taking size m m.itr s)
      rw [hround]
      refine ⟨s :: taken, htakes.cons, fun x => ?_⟩
      rw [List.takeWhile_cons_of_pos hcovers, List.mem_cons, List.mem_cons, List.mem_cons, hmem]
      simp only [taking]
      tauto
    · -- the interval is looked up
      have hamong := among_first c.later.writeintervals (eoffset s)
      by_cases hlocal : c.later.Local s
      · have hround : c.mergeSector size m s = c.taking size m (firstIntervalContainingOrAfter c.later.writeintervals (eoffset s)) s := by
          simp only [mergeSector, if_neg hcovers, if_pos ((startsBefore_iff c.later s).mpr hlocal)]
          rfl
        obtain ⟨taken, htakes, hmem⟩ := ih (c.taking size m (firstIntervalContainingOrAfter c.later.writeintervals (eoffset s)) s)
        rw [hround]
        refine ⟨s :: taken, htakes.cons, fun x => ?_⟩
        rw [List.takeWhile_cons_of_neg hcovers, List.mem_cons, List.mem_cons, hmem]
        constructor
        · rintro (rfl | ⟨hx, hx' | hx'⟩)
          · exact ⟨.inl rfl, .inl hlocal⟩
          · exact ⟨.inr hx, .inl hx'⟩
          · exact ⟨.inr hx, .inl (local_of_takeWhile hamong x hx')⟩
        · rintro ⟨rfl | hx, hx' | hx'⟩
          · exact .inl rfl
          · cases hx'
          · exact .inr ⟨hx, .inl hx'⟩
          · cases hx'
      · have hround : c.mergeSector size m s = { m with itr := firstIntervalContainingOrAfter c.later.writeintervals (eoffset s) } := by
          simp only [mergeSector, if_neg hcovers, if_neg fun h => hlocal ((startsBefore_iff c.later s).mp h)]
        obtain ⟨taken, htakes, hmem⟩ := ih { m with itr := firstIntervalContainingOrAfter c.later.writeintervals (eoffset s) }
        rw [hround]
        refine ⟨taken, htakes.skip, fun x => ?_⟩
        rw [List.takeWhile_cons_of_neg hcovers, List.mem_cons, hmem]
        constructor
        · rintro ⟨hx, hx' | hx'⟩
          · exact ⟨.inr hx, .inl hx'⟩
          · exact ⟨.inr hx, .inl (local_of_takeWhile hamong x hx')⟩
        · rintro ⟨rfl | hx, hx' | hx'⟩
          · exact absurd hx' hlocal
          · cases hx'
          · exact ⟨hx, .inl hx'⟩
          · cases hx'

/-! ### The sectors one after the other -/

/-- Behind the part of a first sector come whole sectors and a part of a last one. -/
theorem pieces_from {s k r : ℕ} (hr : r < sectorSize) (hend : s * sectorSize + (k * sectorSize + r) = offset + size) (hstart : offset ≤ s * sectorSize) :
    (List.range' s (k + if r = 0 then 0 else 1)).map (mergedPiece size offset) =
      List.replicate k (0, sectorSize) ++ if r = 0 then [] else [(0, r)] := by
  have hnot : ¬(s = offset / sectorSize ∧ offset % sectorSize ≠ 0) := by
    simp only [sectorSize] at *
    omega
  induction k generalizing s with
  | zero =>
    by_cases hzero : r = 0
    · rw [if_pos hzero, if_pos hzero]
      rfl
    · rw [if_neg hzero, if_neg hzero]
      have hlast : s = (offset + size - 1) / sectorSize ∧ (offset + size) % sectorSize ≠ 0 ∧ (offset + size) % sectorSize = r := by
        simp only [sectorSize] at *
        omega
      show [mergedPiece size offset s] = [(0, r)]
      rw [mergedPiece, if_neg hnot, if_pos ⟨hlast.1, hlast.2.1⟩, hlast.2.2]
  | succ k ih =>
    have hwhole : ¬(s = (offset + size - 1) / sectorSize ∧ (offset + size) % sectorSize ≠ 0) := by
      simp only [sectorSize] at *
      omega
    rw [Nat.add_right_comm, List.range'_succ, List.map_cons, List.replicate_succ, List.cons_append, mergedPiece, if_neg hnot, if_neg hwhole]
    refine congrArg _ (ih ?_ ?_ ?_)
    · rw [← hend, Nat.succ_mul, Nat.succ_mul]
      omega
    · exact le_trans hstart (Nat.mul_le_mul_right _ (Nat.le_succ s))
    · simp only [sectorSize] at *
      omega

/-- `psync_fs_crypto_read_newfile_locked` reads the same pieces as the second loop. -/
theorem newfilePieces_eq (hsize : 0 < size) : newfilePieces size offset = (sectorsOf size offset).map (mergedPiece size offset) := by
  rw [newfilePieces, sectorsOf]
  by_cases hoff : offset % sectorSize = 0
  · have hpieces : (List.range' (offset / sectorSize) (size / sectorSize + if size % sectorSize = 0 then 0 else 1)).map (mergedPiece size offset) =
        List.replicate (size / sectorSize) (0, sectorSize) ++ if size % sectorSize = 0 then [] else [(0, size % sectorSize)] := by
      refine pieces_from (Nat.mod_lt size (by decide)) ?_ ?_
      · simp only [sectorSize] at *
        omega
      · simp only [sectorSize] at *
        omega
    have hcount : size / sectorSize + (if size % sectorSize = 0 then 0 else 1) = (offset + size - 1) / sectorSize + 1 - offset / sectorSize := by
      by_cases hrest : size % sectorSize = 0
      · rw [if_pos hrest]
        simp only [sectorSize] at *
        omega
      · rw [if_neg hrest]
        simp only [sectorSize] at *
        omega
    rw [if_pos hoff, if_pos hoff, Nat.sub_zero, List.nil_append, ← hpieces, hcount]
  · rw [if_neg hoff, if_neg hoff, List.append_assoc]
    have hfirst : mergedPiece size offset (offset / sectorSize) = (offset % sectorSize, min (sectorSize - offset % sectorSize) size) :=
      if_pos ⟨rfl, hoff⟩
    by_cases hshort : size ≤ sectorSize - offset % sectorSize
    · have hone : (offset + size - 1) / sectorSize + 1 - offset / sectorSize = 1 := by
        simp only [sectorSize] at *
        omega
      rw [hone, Nat.min_eq_right hshort, Nat.sub_self]
      show [(offset % sectorSize, size)] = [mergedPiece size offset (offset / sectorSize)]
      rw [hfirst, Nat.min_eq_right hshort]
    · have hmore : (offset + size - 1) / sectorSize + 1 - offset / sectorSize =
          (size - (sectorSize - offset % sectorSize)) / sectorSize +
            (if (size - (sectorSize - offset % sectorSize)) % sectorSize = 0 then 0 else 1) + 1 := by
        by_cases hrest : (size - (sectorSize - offset % sectorSize)) % sectorSize = 0
        · rw [if_pos hrest]
          simp only [sectorSize] at *
          omega
        · rw [if_neg hrest]
          simp only [sectorSize] at *
          omega
      have hmin : min (sectorSize - offset % sectorSize) size = sectorSize - offset % sectorSize := Nat.min_eq_left (Nat.le_of_not_le hshort)
      rw [hmore, List.range'_succ, List.map_cons, hfirst, hmin,
        pieces_from (Nat.mod_lt _ (by decide)) ?_ ?_, List.singleton_append]
      · simp only [sectorSize] at *
        omega
      · simp only [sectorSize] at *
        omega

/-- A run over sectors that follow each other: all are read, or one is the first that is not. -/
theorem readPieces_spec (hsize : 0 < size) (n s rd : ℕ) (reads : List Read) (buf : Buffer) (hin : ∀ x ∈ List.range' s n, x ∈ sectorsOf size c.offset)
    (hrd : n ≠ 0 → c.offset + rd = max c.offset (s * sectorSize)) :
    ((∀ x ∈ List.range' s n, c.Delivers size x) → ∃ rd' buf',
      readPieces c.copy ((List.range' s n).map (mergedPiece size c.offset)) s rd reads buf =
        ((rd' : ℤ), reads ++ (List.range' s n).map (c.readOf size), buf') ∧
      (n ≠ 0 → c.offset + rd' = min (c.offset + size) ((s + n) * sectorSize)) ∧
      ∀ i < size, buf' i = if (c.offset + i) / sectorSize ∈ List.range' s n
        then .sector ((c.offset + i) / sectorSize) ((c.offset + i) % sectorSize) else buf i) ∧
    (¬(∀ x ∈ List.range' s n, c.Delivers size x) → ∃ (good : List Read) (q : Read) (base : ℕ) (buf' : Buffer),
      readPieces c.copy ((List.range' s n).map (mergedPiece size c.offset)) s rd reads buf =
        (if q.got < 0 then q.got else q.got + base, reads ++ (good ++ [q]), buf') ∧
      (∀ r ∈ good, r.got = r.asked) ∧ q.got < q.asked ∧ base + q.asked ≤ size) := by
  induction n generalizing s rd reads buf with
  | zero =>
    refine ⟨fun _ => ⟨rd, buf, by rw [List.range'_zero, List.map_nil, List.map_nil, List.append_nil]; rfl, fun h => absurd rfl h, fun i _ => ?_⟩,
      fun h => absurd (fun _ hx => (nomatch hx)) h⟩
    rw [List.range'_zero, if_neg List.not_mem_nil]
  | succ n ih =>
    rw [List.range'_succ] at hin ⊢
    obtain ⟨hs, hrest⟩ := List.forall_mem_cons.mp hin
    obtain ⟨hstart, hstop, hbase⟩ := mergedPiece_spec hsize hs
    have hrd := hrd (Nat.succ_ne_zero n)
    have hbaseEq : mergedBase c.offset s = rd := by omega
    rw [List.map_cons, readPieces]
    by_cases hd : c.Delivers size s
    · have hgot : readSector c.copy s (mergedPiece size c.offset s) = (mergedPiece size c.offset s).2 := hd
      have hcopy : ∀ i < size, copyInto buf rd s (mergedPiece size c.offset s).1 (readSector c.copy s (mergedPiece size c.offset s)) i =
          if (c.offset + i) / sectorSize = s then .sector s ((c.offset + i) % sectorSize) else buf i := fun i hi => by
        rw [hgot, ← hbaseEq]
        exact copyInto_piece buf hs hi
      obtain ⟨hall, hsome⟩ := ih (s + 1) (rd + (mergedPiece size c.offset s).2) (reads ++ [c.readOf size s])
        (copyInto buf rd s (mergedPiece size c.offset s).1 (readSector c.copy s (mergedPiece size c.offset s))) hrest fun hn => by
          have hnext := hrest (s + 1) (List.mem_range'_1.mpr ⟨le_refl _, by omega⟩)
          rw [mem_sectorsOf hsize] at hnext hs
          simp only [sectorSize] at *
          omega
      rw [if_pos hgot]
      constructor
      · intro hdelivers
        obtain ⟨rd', buf', hrun, hend, hbuf⟩ := hall (List.forall_mem_cons.mp hdelivers).2
        refine ⟨rd', buf', hrun.trans (by rw [List.append_assoc]; rfl), fun _ => ?_, fun i hi => ?_⟩
        · by_cases hn : n = 0
          · subst hn
            have hrun' := congrArg Prod.fst hrun
            simp only [List.range'_zero, List.map_nil, readPieces] at hrun'
            have hrd' : rd' = rd + (mergedPiece size c.offset s).2 := by exact_mod_cast hrun'.symm
            rw [Nat.zero_add]
            omega
          · rw [hend hn, Nat.add_right_comm, Nat.add_assoc]
        · rw [hbuf i hi, hcopy i hi]
          by_cases heq : (c.offset + i) / sectorSize = s
          · have hmem : (c.offset + i) / sectorSize ∈ s :: List.range' (s + 1) n := List.mem_cons.mpr (.inl heq)
            rw [if_pos heq, if_pos hmem, heq, ite_self]
          · by_cases hmem : (c.offset + i) / sectorSize ∈ List.range' (s + 1) n
            · rw [if_pos hmem, if_pos (List.mem_cons_of_mem _ hmem)]
            · rw [if_neg hmem, if_neg heq, if_neg fun h => (List.mem_cons.mp h).elim heq hmem]
      · intro hnot
        have hnot' : ¬∀ x ∈ List.range' (s + 1) n, c.Delivers size x := fun h => hnot (List.forall_mem_cons.mpr ⟨hd, h⟩)
        obtain ⟨good, q, base, buf', hrun, hgood, hq⟩ := hsome hnot'
        refine ⟨c.readOf size s :: good, q, base, buf', hrun.trans (by rw [List.append_assoc]; rfl), List.forall_mem_cons.mpr ⟨hgot, hgood⟩, hq⟩
    · have hgot : ¬readSector c.copy s (mergedPiece size c.offset s) = (mergedPiece size c.offset s).2 := hd
      rw [if_neg hgot]
      refine ⟨fun h => absurd (List.forall_mem_cons.mp h).1 hd, fun _ => ⟨[], c.readOf size s, rd, _, rfl, fun _ h => (nomatch h), ?_, ?_⟩⟩
      · exact lt_of_le_of_ne (readSector_le c.copy s _) hd
      · show rd + (mergedPiece size c.offset s).2 ≤ size
        omega

/-! ### The three ways of a call -/

theorem cut_eq (size offset currentsize : ℕ) :
    (if offset + size > currentsize then currentsize - offset else size) = min size (currentsize - offset) := by
  split_ifs <;> omega

theorem exists_sector (hsize : 0 < size) (offset : ℕ) : ∃ s, s ∈ sectorsOf size offset :=
  ⟨_, byte_mem_sectorsOf hsize⟩

/-- What the first loop finds. -/
theorem Call.classify_bits (c : Call) :
    ((classify c.now.writeintervals (sectorsOf c.within c.offset) none).1 = true ↔ ¬c.AllRemote) ∧
      ((classify c.now.writeintervals (sectorsOf c.within c.offset) none).2.1 = true ↔ ¬c.AllLocal) := by
  have hnone : Among c.now.writeintervals none := nofun
  obtain ⟨hlocal, hremote⟩ := classify_spec (sectorsOf c.within c.offset) hnone
  refine ⟨hlocal.trans ?_, hremote.trans ?_⟩
  · simp only [AllRemote, not_forall, not_not, exists_prop]
  · simp only [AllLocal, not_forall, exists_prop]

/-- The call, when its range is not empty. -/
theorem Call.readModifiedLocked_eq (c : Call) (hnear : ¬tooFar c.size c.offset) (hwithin : 0 < c.within) :
    (c.AllLocal → c.readModifiedLocked = c.readNewfileLocked c.within) ∧
    (c.AllRemote → c.readModifiedLocked =
      ⟨(c.readUnmodified c.within).1, 0, 1, [], (c.readUnmodified c.within).2, decide ((c.readUnmodified c.within).1 < 0)⟩) ∧
    (¬c.AllLocal → ¬c.AllRemote → c.readModifiedLocked = c.readMerged c.within c.found) := by
  have hsome : ¬(c.size = 0 ∨ c.now.currentsize ≤ c.offset) := by
    rw [within] at hwithin
    omega
  obtain ⟨hlocal, hremote⟩ := c.classify_bits
  obtain ⟨s, hs⟩ := exists_sector hwithin c.offset
  have hmin : min c.size (c.now.currentsize - c.offset) = c.within := rfl
  rw [readModifiedLocked, if_neg hnear, if_neg hsome, cut_eq, hmin, found]
  obtain ⟨l, r, itr, hbits⟩ : ∃ l r itr, classify c.now.writeintervals (sectorsOf c.within c.offset) none = (l, r, itr) := ⟨_, _, _, rfl⟩
  rw [hbits] at hlocal hremote ⊢
  simp only [hbits] at hlocal hremote ⊢
  refine ⟨fun h => ?_, fun h => ?_, fun h h' => ?_⟩
  · have hnot : ¬c.AllRemote := fun h' => h' s hs (h s hs)
    obtain rfl := hlocal.mpr hnot
    obtain rfl : r = false := Bool.eq_false_iff.mpr fun hr => hremote.mp hr h
    rfl
  · have hnot : ¬c.AllLocal := fun h' => h s hs (h' s hs)
    obtain rfl := hremote.mpr hnot
    obtain rfl : l = false := Bool.eq_false_iff.mpr fun hl => hlocal.mp hl h
    rfl
  · obtain rfl := hlocal.mpr h'
    obtain rfl := hremote.mpr h
    rfl

theorem Call.count_remote (h : c.AllRemote) : c.seen = c.now ∧ c.count = c.within := by
  have hseen : c.seen = c.now := if_pos h
  refine ⟨hseen, ?_⟩
  rw [count, hseen, within]
  omega

theorem Call.seen_later (h : ¬c.AllRemote) : c.seen = c.later := if_neg h

/-- A range that is empty. -/
theorem Call.meets_empty (hnear : ¬tooFar c.size c.offset) (hwithin : c.within = 0) : c.Meets := by
  have hnone : c.size = 0 ∨ c.now.currentsize ≤ c.offset := by
    rw [within] at hwithin
    omega
  have hrun : c.readModifiedLocked = unlockRet 0 := by rw [readModifiedLocked, if_neg hnear, if_pos hnone]
  have hcount : c.count = 0 := by rw [count, hwithin, Nat.zero_min]
  refine ⟨by rw [hrun]; rfl, by rw [hrun]; exact fun _ h => (nomatch h), fun _ _ => ?_⟩
  rw [hrun, hcount]
  exact ⟨rfl, fun i hi => absurd hi (Nat.not_lt_zero i)⟩

/-! ### From remote only -/

theorem Call.meets_remote (hnear : ¬tooFar c.size c.offset) (hwithin : 0 < c.within) (hall : c.AllRemote) :
    c.Meets ↔ (c.Answered → c.offset + c.count ≤ c.initialsize) := by
  obtain ⟨hseen, hcount⟩ := count_remote hall
  have hrun := (c.readModifiedLocked_eq hnear hwithin).2.1 hall
  rw [hcount]
  by_cases hend : c.initialsize ≤ c.offset
  · rw [readUnmodified, if_pos hend] at hrun
    have hanswered : c.Answered := fun h => absurd h (Nat.not_lt.mpr hend)
    constructor
    · intro h
      have hdone := h.done (by rw [hrun]; exact fun _ h => (nomatch h)) (by rw [hrun]; rfl)
      rw [hrun, hcount] at hdone
      have hzero : (0 : ℤ) = c.within := hdone.1
      omega
    · intro h
      have hle := h hanswered
      omega
  · rw [readUnmodified, if_neg hend] at hrun
    cases hremote : c.remote with
    | some e =>
      rw [hremote] at hrun
      refine iff_of_true ⟨by rw [hrun], by rw [hrun]; exact fun _ h => (nomatch h), fun _ h => ?_⟩ fun h => ?_
      · rw [hrun] at h
        exact absurd e.2 (of_decide_eq_false h)
      · rw [Answered, hremote] at h
        cases h (Nat.not_le.mp hend)
    | none =>
      rw [hremote] at hrun
      have hnonneg : decide (((min c.within (c.initialsize - c.offset) : ℕ) : ℤ) < 0) = false := decide_eq_false (Int.not_lt.mpr (Int.natCast_nonneg _))
      simp only [cut_eq, hnonneg] at hrun
      have hanswered : c.Answered := fun _ => hremote
      constructor
      · intro h _
        have hdone := h.done (by rw [hrun]; exact fun _ h => (nomatch h)) (by rw [hrun])
        rw [hrun, hcount] at hdone
        have hret : ((min c.within (c.initialsize - c.offset) : ℕ) : ℤ) = c.within := hdone.1
        omega
      · intro h
        have hle := h hanswered
        rw [Nat.min_eq_left (by omega)] at hrun
        refine ⟨by rw [hrun], by rw [hrun]; exact fun _ h => (nomatch h), fun _ _ => ?_⟩
        rw [hrun, hcount]
        refine ⟨rfl, fun i hi => ⟨fun h => ?_, fun _ => if_pos hi⟩⟩
        rw [hseen] at h
        exact absurd h (hall _ (byte_mem_sectorsOf hi))

/-! ### From the local copy only -/

theorem tooFar_mono {size' : ℕ} (h : ¬tooFar size offset) (hle : size' ≤ size) : ¬tooFar size' offset := by
  simp only [tooFar, maxSectorid, sectorSize] at h ⊢
  omega

theorem Call.meets_local (hnear : ¬tooFar c.size c.offset) (hwithin : 0 < c.within) (hall : c.AllLocal) :
    c.Meets ↔ (0 < c.count → c.extender = 0 → (∀ s ∈ sectorsOf c.count c.offset, c.Reads s) →
      ∀ s ∈ sectorsOf c.count c.offset, c.later.Local s) := by
  obtain ⟨s, hs⟩ := exists_sector hwithin c.offset
  have hseen : c.seen = c.later := seen_later fun h => h s hs (hall s hs)
  have hrun := (c.readModifiedLocked_eq hnear hwithin).1 hall
  have hnear' : ¬tooFar c.within c.offset := tooFar_mono hnear (Nat.min_le_left _ _)
  rw [readNewfileLocked, if_neg hnear'] at hrun
  by_cases hextender : c.extender = 0
  · rw [if_neg (not_not.mpr hextender)] at hrun
    have hcount : c.count = min c.within (c.later.currentsize - c.offset) := by rw [count, hseen]
    by_cases hend : c.later.currentsize ≤ c.offset
    · have hzero : c.count = 0 := by omega
      rw [if_pos (.inr hend)] at hrun
      refine iff_of_true ⟨by rw [hrun]; rfl, by rw [hrun]; exact fun _ h => (nomatch h), fun _ _ => ?_⟩ fun h => absurd h (hzero ▸ Nat.lt_irrefl 0)
      rw [hrun, hzero]
      exact ⟨rfl, fun i hi => absurd hi (Nat.not_lt_zero i)⟩
    · have hpos : 0 < c.count := by omega
      rw [if_neg (by omega), cut_eq, ← hcount] at hrun
      simp only [newfilePieces_eq hpos] at hrun
      obtain ⟨hevery, hsome⟩ := readPieces_spec (c := c) hpos ((c.offset + c.count - 1) / sectorSize + 1 - c.offset / sectorSize)
        (c.offset / sectorSize) 0 [] (fun _ => .unset) (fun _ h => h) fun _ => by
          simp only [sectorSize]
          omega
      by_cases hreads : ∀ s ∈ sectorsOf c.count c.offset, c.Reads s
      · obtain ⟨rd, buf, hpieces, hrd, hbuf⟩ := hevery hreads
        have hrd' : rd = c.count := by
          have hend' := hrd (by simp only [sectorSize]; omega)
          simp only [sectorSize] at hend'
          omega
        subst hrd'
        rw [sectorsOf, hpieces] at hrun
        have hgot : ∀ q ∈ c.readModifiedLocked.reads, q.got = q.asked := by
          rw [hrun, List.nil_append]
          rintro q hq
          obtain ⟨x, hx, rfl⟩ := List.mem_map.mp hq
          exact hreads x hx
        have hbuf' : ∀ i < c.count, c.readModifiedLocked.buf i = .sector ((c.offset + i) / sectorSize) ((c.offset + i) % sectorSize) := fun i hi => by
          rw [hrun]
          exact (hbuf i hi).trans (if_pos (byte_mem_sectorsOf hi))
        constructor
        · intro h _ _ _ x hx
          obtain ⟨-, hright⟩ := h.done hgot (by rw [hrun])
          obtain ⟨hlow, hhigh⟩ := (mem_sectorsOf hpos).mp hx
          by_contra hnot
          -- a byte of the sector
          have hi : max c.offset (x * sectorSize) - c.offset < c.count := by omega
          have hbyte : (c.offset + (max c.offset (x * sectorSize) - c.offset)) / sectorSize = x := by
            simp only [sectorSize] at *
            omega
          have hremote := (hright _ hi).2 (by rw [hseen, hbyte]; exact hnot)
          rw [hbuf' _ hi] at hremote
          cases hremote
        · intro h
          have hlocal := h hpos hextender hreads
          refine ⟨by rw [hrun], fun q hq hne => absurd (hgot q hq) hne, fun _ _ => ⟨by rw [hrun], fun i hi => ⟨fun _ => hbuf' i hi, fun hnot => ?_⟩⟩⟩
          rw [hseen] at hnot
          exact absurd (hlocal _ (byte_mem_sectorsOf hi)) hnot
      · obtain ⟨good, q, base, buf, hpieces, hgood, hshort, hle⟩ := hsome hreads
        rw [sectorsOf, hpieces] at hrun
        refine iff_of_true ⟨by rw [hrun], fun r hr hne => ?_, fun h _ => ?_⟩ fun _ _ h => absurd h hreads
        · rw [hrun, List.nil_append] at hr
          rw [hrun]
          rcases List.mem_append.mp hr with hr | hr
          · exact absurd (hgood r hr) hne
          · obtain rfl := List.mem_singleton.mp hr
            refine ⟨fun h => if_pos h, ?_⟩
            simp only
            split_ifs with hneg
            · omega
            · omega
        · rw [hrun] at h
          have hq := h q (List.mem_append_right _ (List.mem_append_right _ (List.mem_singleton_self q)))
          omega
  · rw [if_pos hextender] at hrun
    refine iff_of_true ⟨by rw [hrun]; rfl, by rw [hrun]; exact fun _ h => (nomatch h), fun _ h => ?_⟩ fun _ h => absurd h hextender
    rw [hrun] at h
    cases h

/-! ### From both -/

theorem Call.meets_both (hnear : ¬tooFar c.size c.offset) (hwithin : 0 < c.within) (hlocal : ¬c.AllLocal) (hremote : ¬c.AllRemote) :
    c.Meets ↔ (0 < c.count → c.Answered →
      (∀ s ∈ (sectorsOf c.count c.offset).takeWhile (covers (c.found.map fun _ => c.node)), c.later.Local s) ∧
      (∀ s ∈ sectorsOf c.count c.offset, c.later.Local s → c.Reads s) ∧
      ∀ i < c.count, ¬c.later.Local ((c.offset + i) / sectorSize) → c.offset + i < c.initialsize) := by
  have hseen : c.seen = c.later := seen_later hremote
  have hcount : c.count = min c.within (c.later.currentsize - c.offset) := by rw [count, hseen]
  have hrun := (c.readModifiedLocked_eq hnear hwithin).2.2 hlocal hremote
  rw [readMerged] at hrun
  by_cases hanswered : c.Answered
  · -- the bytes that came from remote
    obtain ⟨rfr, buf, hunmodified, hrfr, hbuf⟩ : ∃ (rfr : ℕ) (buf : Buffer), c.readUnmodified c.within = ((rfr : ℤ), buf) ∧ (0 ≤ (rfr : ℤ)) ∧
        ∀ i < c.within, buf i = if c.offset + i < c.initialsize then .remote (c.offset + i) else .unset := by
      rw [readUnmodified]
      by_cases hend : c.initialsize ≤ c.offset
      · rw [if_pos hend]
        exact ⟨0, _, rfl, le_refl _, fun i _ => (if_neg (by omega)).symm⟩
      · rw [if_neg hend, hanswered (Nat.not_le.mp hend)]
        simp only [cut_eq]
        refine ⟨_, _, rfl, Int.natCast_nonneg _, fun i hi => ?_⟩
        by_cases hin : c.offset + i < c.initialsize
        · rw [if_pos hin, if_pos (by omega)]
        · rw [if_neg hin, if_neg (by omega)]
    rw [hunmodified] at hrun
    simp only [if_neg (Int.not_lt.mpr hrfr), cut_eq, ← hcount] at hrun
    by_cases hend : c.offset + c.within > c.later.currentsize ∧ c.later.currentsize ≤ c.offset
    · have hzero : c.count = 0 := by omega
      rw [if_pos hend] at hrun
      refine iff_of_true ⟨by rw [hrun], by rw [hrun]; exact fun _ h => (nomatch h), fun _ _ => ?_⟩ fun h => absurd h (hzero ▸ Nat.lt_irrefl 0)
      rw [hrun, hzero]
      exact ⟨rfl, fun i hi => absurd hi (Nat.not_lt_zero i)⟩
    · have hpos : 0 < c.count := by omega
      rw [if_neg hend] at hrun
      obtain ⟨taken, htakes, hmem⟩ := c.merge_spec c.count ⟨c.found.map fun _ => c.node, 0, [], buf⟩ (sectorsOf c.count c.offset)
      have hreads : c.readModifiedLocked.reads = taken.map (c.readOf c.count) := by
        rw [hrun]
        exact htakes.reads
      have hbytes : (∀ s ∈ taken, c.Delivers c.count s) → ∀ i < c.count, c.readModifiedLocked.buf i =
          if (c.offset + i) / sectorSize ∈ taken then .sector ((c.offset + i) / sectorSize) ((c.offset + i) % sectorSize) else buf i := fun h i hi => by
        rw [hrun]
        exact htakes.buf h (fun s hs => ((hmem s).mp hs).1) i hi
      have hgot : (∀ q ∈ c.readModifiedLocked.reads, q.got = q.asked) ↔ ∀ s ∈ taken, c.Delivers c.count s := by
        rw [hreads, List.forall_mem_map]
        rfl
      have hunlocks : c.readModifiedLocked.unlocks = c.readModifiedLocked.locks + 1 ↔ ∀ s ∈ taken, c.Delivers c.count s := by
        rw [← htakes.unlocks, hrun]
        simp only
        omega
      constructor
      · intro h _ _
        have hdelivers := hunlocks.mp h.unlocked
        obtain ⟨-, hright⟩ := h.done (hgot.mpr hdelivers) (by rw [hrun])
        have hlocals : ∀ s ∈ taken, c.later.Local s := by
          intro s hs
          obtain ⟨hlow, hhigh⟩ := (mem_sectorsOf hpos).mp ((hmem s).mp hs).1
          by_contra hnot
          -- a byte of the sector
          have hi : max c.offset (s * sectorSize) - c.offset < c.count := by omega
          have hbyte : (c.offset + (max c.offset (s * sectorSize) - c.offset)) / sectorSize = s := by
            simp only [sectorSize] at *
            omega
          have hfar := (hright _ hi).2 (by rw [hseen, hbyte]; exact hnot)
          rw [hbytes hdelivers _ hi, if_pos (hbyte.symm ▸ hs)] at hfar
          cases hfar
        refine ⟨fun s hs => hlocals s ((hmem s).mpr ⟨List.takeWhile_subset _ hs, .inr hs⟩), fun s hs hl => hdelivers s ((hmem s).mpr ⟨hs, .inl hl⟩),
          fun i hi hnot => ?_⟩
        have hfar := (hright i hi).2 (by rw [hseen]; exact hnot)
        rw [hbytes hdelivers i hi, if_neg fun h => hnot (hlocals _ h), hbuf i (by omega)] at hfar
        by_contra hbehind
        rw [if_neg hbehind] at hfar
        cases hfar
      · intro h
        obtain ⟨hstale, hlocals, hcovered⟩ := h hpos hanswered
        have htaken : ∀ s, s ∈ taken ↔ s ∈ sectorsOf c.count c.offset ∧ c.later.Local s := by
          intro s
          rw [hmem]
          exact and_congr_right fun _ => or_iff_left_of_imp (hstale s)
        have hdelivers : ∀ s ∈ taken, c.Delivers c.count s := fun s hs => hlocals s ((htaken s).mp hs).1 ((htaken s).mp hs).2
        refine ⟨hunlocks.mpr hdelivers, fun q hq hne => absurd (hgot.mpr hdelivers q hq) hne, fun _ _ => ⟨by rw [hrun], fun i hi => ?_⟩⟩
        rw [hbytes hdelivers i hi]
        refine ⟨fun hl => if_pos ((htaken _).mpr ⟨byte_mem_sectorsOf hi, hseen ▸ hl⟩), fun hnot => ?_⟩
        rw [hseen] at hnot
        rw [if_neg fun hs => hnot ((htaken _).mp hs).2, hbuf i (by omega), if_pos (hcovered i hi hnot)]
  · obtain ⟨hin, hsome⟩ := Classical.not_imp.mp hanswered
    obtain ⟨e, he⟩ := Option.ne_none_iff_exists'.mp hsome
    rw [readUnmodified, if_neg (Nat.not_le.mpr hin), he] at hrun
    simp only [if_pos e.2] at hrun
    refine iff_of_true ⟨by rw [hrun], by rw [hrun]; exact fun _ h => (nomatch h), fun _ h => ?_⟩ fun _ h => absurd h hanswered
    rw [hrun] at h
    cases h

/-- A call reports the local sectors that it cannot read, and merges the others, where its state is proper, and nowhere else. -/
theorem meets_iff (c : Call) : c.Meets ↔ c.Proper := by
  by_cases hnear : tooFar c.size c.offset
  · have hrun : c.readModifiedLocked = unlockRet (-einval) := by rw [Call.readModifiedLocked, if_pos hnear]
    refine iff_of_false (fun h => ?_) fun h => h.near hnear
    have hdone := h.done (by rw [hrun]; exact fun _ h => (nomatch h)) (by rw [hrun]; rfl)
    rw [hrun] at hdone
    have hret : -22 = (c.count : ℤ) := hdone.1
    omega
  · rcases Nat.eq_zero_or_pos c.within with hwithin | hwithin
    · have hzero : ¬0 < c.count := by
        rw [Call.count, hwithin, Nat.zero_min]
        exact Nat.lt_irrefl 0
      exact iff_of_true (Call.meets_empty hnear hwithin)
        ⟨hnear, fun h => absurd h hzero, fun h => absurd h hzero, fun h => absurd h hzero⟩
    · obtain ⟨s, hs⟩ := exists_sector hwithin c.offset
      by_cases hremote : c.AllRemote
      · have hlocal : ¬c.AllLocal := fun h => hremote s hs (h s hs)
        have hpos : 0 < c.count := (Call.count_remote hremote).2 ▸ hwithin
        rw [Call.meets_remote hnear hwithin hremote]
        exact ⟨fun h => ⟨hnear, fun _ h => absurd h hlocal, fun _ _ => h, fun _ _ h => absurd hremote h⟩, fun h => h.onlyRemote hpos hremote⟩
      · by_cases hlocal : c.AllLocal
        · rw [Call.meets_local hnear hwithin hlocal]
          exact ⟨fun h => ⟨hnear, fun hpos _ => h hpos, fun _ h => absurd h hremote, fun _ h => absurd hlocal h⟩, fun h hpos => h.onlyLocal hpos hlocal⟩
        · rw [Call.meets_both hnear hwithin hlocal hremote]
          exact ⟨fun h => ⟨hnear, fun _ h => absurd h hlocal, fun _ h => absurd h hremote, fun hpos _ _ => h hpos⟩,
            fun h hpos => h.both hpos hlocal hremote⟩

/-- A file of two sectors, of which the first one was written and cannot be read back. -/
def halfWritten : Opened := ⟨8192, [(0, 4096)], by rw [separated_cons]; simp⟩

def brokenCall : Call where
  size := 8192
  offset := 0
  now := halfWritten
  initialsize := 8192
  remote := none
  extender := 0
  later := halfWritten
  node := (0, 4096)
  copy := ⟨fun _ => none, some 4096, fun _ => false, nofun⟩

/-- The mutex is unlocked once too often, and the call returns its size. -/
theorem broken_unreported : ¬brokenCall.Meets ∧ brokenCall.readModifiedLocked.ret = 8192 := by
  have hunlocks : brokenCall.readModifiedLocked.unlocks = 3 := rfl
  have hlocks : brokenCall.readModifiedLocked.locks = 1 := rfl
  refine ⟨fun h => ?_, rfl⟩
  have hunlocked := h.unlocked
  rw [hunlocks, hlocks] at hunlocked
  cases hunlocked

end Pclsync.OpenFile.Merged
