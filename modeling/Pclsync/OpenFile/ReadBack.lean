import Pclsync.OpenFile.Handle

/-! What is read from a modified file after writes and truncations that succeed. -/
namespace Pclsync.OpenFile
open Lib.Machine Lib.Files Lib.Intervals
open FsCrypto (indexRecord sizeofIndexRecord sizeofIndexHeader)

inductive Change where
  | write (buf : Bytes) (offset : ℕ)
  | ftruncate (size : ℕ)
deriving DecidableEq, Repr

def Change.run (of : Handle) : Change → Option Handle
  | .write buf offset => (writeModified of buf offset .whole).map Prod.snd
  | .ftruncate size => (ftruncateOf of size .whole).map Prod.snd

def runChanges (of : Handle) (changes : List Change) : Option Handle := changes.foldlM Change.run of

/-- A handle after `psync_fs_reopen_file_for_writing` made it modified. -/
def reopened (size : ℕ) : Handle := ⟨size, size, 0, true, false, [], some (List.replicate size 0), some []⟩

/-! ### What a file should be -/

/-- The bytes of a file, and the part of it that was written or zeroed since it was remote. -/
structure Reference where
  bytes : Bytes
  stored : Set ℕ

def Change.apply (r : Reference) : Change → Reference
  | .write buf offset =>
    if buf = [] then r
    else ⟨pwrite r.bytes buf offset, r.stored ∪ Set.Ico r.bytes.length offset ∪ Set.Ico offset (offset + buf.length)⟩
  | .ftruncate size => ⟨truncate r.bytes size, r.stored ∪ Set.Ico r.bytes.length size⟩

def reference (remote : Bytes) (changes : List Change) : Reference := changes.foldl Change.apply ⟨remote, ∅⟩

/-- A write of no bytes. -/
def Change.Empty : Change → Prop
  | .write buf _ => buf = []
  | .ftruncate _ => False

/-- A read that does not go from the remote bytes past the end of a file that is shorter
than the remote one. -/
def Reference.Within (r : Reference) (remote : Bytes) (size offset : ℕ) : Prop :=
  remote.length ≤ r.bytes.length ∨ offset + size ≤ r.bytes.length ∨ remote.length ≤ offset ∨ size = 0 ∨
    Set.Ico offset (offset + size) ⊆ r.stored

/-! ### The handle and the file -/

/-- The data file has what is stored, the remote file has the rest. -/
structure Reflects (remote : Bytes) (of : Handle) (d : Bytes) (r : Reference) : Prop where
  newfile : of.newfile = false
  datafile : of.datafile = some d
  indexfile : ∃ f, of.indexfile = some f
  size : of.currentsize = d.length
  length : d.length = r.bytes.length
  separated : Separated of.writeintervals
  stored : points of.writeintervals = r.stored
  real : ∀ i < d.length, i ∈ r.stored → get d i = get r.bytes i
  rest : ∀ i < d.length, i ∉ r.stored → i < remote.length ∧ get r.bytes i = get remote i
  past : ∀ i ∈ r.stored, ∀ j, remote.length ≤ j → j ≤ i → j ∈ r.stored

variable {remote d : Bytes} {of : Handle} {r : Reference}

theorem reflects_reopened : Reflects remote (reopened remote.length) (List.replicate remote.length 0) ⟨remote, ∅⟩ := by
  refine ⟨rfl, rfl, ⟨[], rfl⟩, ?_, ?_, separated_nil, points_nil, fun _ _ h => absurd h (Set.notMem_empty _), ?_,
    fun _ h => absurd h (Set.notMem_empty _)⟩
  · exact (List.length_replicate ..).symm
  · exact List.length_replicate ..
  · intro i hi _
    rw [List.length_replicate] at hi
    exact ⟨hi, rfl⟩

/-- A file that gets longer is zero there, and the data file has that part. -/
theorem Reflects.extend {size : ℕ} (h : Reflects remote of d r) (hgrows : of.currentsize < size) :
    ∃ of', modfileCheckSizeOk of size .whole = some (true, of') ∧ of'.currentsize = size ∧
      Reflects remote of' (truncate d size) ⟨truncate r.bytes size, r.stored ∪ Set.Ico r.bytes.length size⟩ := by
  obtain ⟨f, hindex⟩ := h.indexfile
  have hsize := h.size
  have hlength := h.length
  have hrecorded : recordExtension { of with datafile := some (truncate d size) } size .whole = _ :=
    recordExtension_whole hindex rfl hgrows
  rw [modfileCheckSizeOk_extends h.newfile h.datafile hgrows rfl]
  refine ⟨_, hrecorded, rfl, h.newfile, rfl, ⟨_, rfl⟩, length_truncate.symm, ?_, ?_, ?_, ?_, ?_, ?_⟩
  · rw [length_truncate, length_truncate]
  · exact (add_spec hgrows h.separated).1
  · show points (add _ _ _) = _
    rw [(add_spec hgrows h.separated).2, h.stored, Set.union_comm, hsize, hlength]
  · intro i hi hin
    rw [length_truncate] at hi
    rw [get_truncate, get_truncate, if_pos hi, if_pos hi]
    by_cases hold : i < d.length
    · exact h.real i hold (hin.resolve_right fun hnew => absurd hnew.1 (by omega))
    · rw [get_of_le (by omega), get_of_le (by omega)]
  · intro i hi hout
    rw [length_truncate] at hi
    rw [Set.mem_union, not_or] at hout
    have hold : i < d.length := by
      by_contra hpast
      exact hout.2 ⟨by omega, hi⟩
    rw [get_truncate, if_pos hi]
    exact h.rest i hold hout.1
  · intro i hi j hremote hj
    rcases hi with hi | hi
    · exact .inl (h.past i hi j hremote hj)
    · by_cases hold : j < d.length
      · by_contra hout
        rw [Set.mem_union, not_or] at hout
        exact absurd (h.rest j hold hout.1).1 (Nat.not_lt.mpr hremote)
      · exact .inr ⟨by omega, hj.trans_lt hi.2⟩

/-- Bytes written from inside the file on. -/
theorem Reflects.write {buf : Bytes} {offset : ℕ} (h : Reflects remote of d r) (hbuf : buf ≠ [])
    (hoffset : offset ≤ of.currentsize) :
    ∃ ret of', writeData of buf offset .whole = some (ret, of') ∧
      Reflects remote of' (pwrite d buf offset)
        ⟨pwrite r.bytes buf offset, r.stored ∪ Set.Ico offset (offset + buf.length)⟩ := by
  obtain ⟨f, hindex⟩ := h.indexfile
  have hsize := h.size
  have hlength := h.length
  have hpos : 0 < buf.length := List.length_pos_iff.mpr hbuf
  have hlt : offset < offset + buf.length := Nat.lt_add_of_pos_right hpos
  have hpwrite : ∀ g : Bytes, (pwrite g buf offset).length = max g.length (offset + buf.length) :=
    fun g => by rw [length_pwrite, if_neg hbuf]
  rw [writeData_whole h.datafile hindex, intervalTreeAdd, if_pos hlt]
  refine ⟨_, _, rfl, h.newfile, rfl, ⟨_, rfl⟩, ?_, ?_, ?_, ?_, ?_, ?_, ?_⟩
  · show (if of.currentsize < offset + buf.length then offset + buf.length else of.currentsize) = _
    rw [hpwrite]
    split_ifs with hpast
    · omega
    · omega
  · rw [hpwrite, hpwrite, hlength]
  · exact (add_spec hlt h.separated).1
  · show points (add _ _ _) = _
    rw [(add_spec hlt h.separated).2, h.stored, Set.union_comm]
  · intro i hi hin
    rw [get_pwrite, get_pwrite]
    by_cases hnew : offset ≤ i ∧ i < offset + buf.length
    · rw [if_pos hnew, if_pos hnew]
    · rw [if_neg hnew, if_neg hnew]
      rw [hpwrite] at hi
      exact h.real i (by omega) (hin.resolve_right hnew)
  · intro i hi hout
    rw [Set.mem_union, not_or, Set.mem_Ico] at hout
    rw [hpwrite] at hi
    rw [get_pwrite, if_neg hout.2]
    exact h.rest i (by omega) hout.1
  · intro i hi j hremote hj
    by_cases hnew : j ∈ Set.Ico offset (offset + buf.length)
    · exact .inr hnew
    refine .inl ?_
    rw [Set.mem_Ico] at hnew
    rcases hi with hi | hi
    · exact h.past i hi j hremote hj
    · -- before the bytes that are written, the file is remote or stored
      by_contra hout
      have hold : j < d.length := by
        have := hi.2
        omega
      exact absurd (h.rest j hold hout).1 (Nat.not_lt.mpr hremote)

theorem truncate_truncate_self (g : Bytes) : truncate g g.length = g := by simp [truncate]

theorem pwrite_truncate {g buf : Bytes} {offset : ℕ} (hbuf : buf ≠ []) (hpast : g.length ≤ offset) :
    pwrite (truncate g offset) buf offset = pwrite g buf offset := by
  refine ext_get ?_ fun i _ => ?_
  · rw [length_pwrite, length_pwrite, if_neg hbuf, if_neg hbuf, length_truncate]
    omega
  · rw [get_pwrite, get_pwrite, get_truncate]
    split_ifs with hnew hbefore
    · rfl
    · rfl
    · exact (get_of_le (by omega)).symm

/-- A file that gets shorter. -/
theorem Reflects.cut {size : ℕ} (h : Reflects remote of d r) (hcut : size < of.currentsize) :
    Reflects remote { of with datafile := some (truncate d size), currentsize := size } (truncate d size)
      ⟨truncate r.bytes size, r.stored⟩ := by
  have hsize := h.size
  refine ⟨h.newfile, rfl, h.indexfile, length_truncate.symm, ?_, h.separated, h.stored, ?_, ?_, h.past⟩
  · rw [length_truncate, length_truncate]
  · intro i hi hin
    rw [length_truncate] at hi
    rw [get_truncate, get_truncate, if_pos hi, if_pos hi]
    exact h.real i (by omega) hin
  · intro i hi hout
    rw [length_truncate] at hi
    rw [get_truncate, if_pos hi]
    exact h.rest i (by omega) hout

/-- A change that is not empty changes the handle as it changes the file. -/
theorem Reflects.change {c : Change} (h : Reflects remote of d r) (hc : ¬c.Empty) :
    ∃ of' d', c.run of = some of' ∧ Reflects remote of' d' (c.apply r) := by
  have hsize := h.size
  have hlength := h.length
  cases c with
  | write buf offset =>
    have hbuf : buf ≠ [] := hc
    rw [Change.apply, if_neg hbuf, Change.run, writeModified]
    by_cases hgrows : of.currentsize < offset
    · obtain ⟨of₁, hcheck, hsize₁, h₁⟩ := h.extend hgrows
      obtain ⟨ret, of', hwrite, h'⟩ := h₁.write hbuf (Nat.le_of_eq hsize₁.symm)
      have hbytes : pwrite (truncate r.bytes offset) buf offset = pwrite r.bytes buf offset :=
        pwrite_truncate hbuf (by omega)
      refine ⟨of', _, ?_, hbytes ▸ h'⟩
      simp only [hcheck, Option.bind_eq_bind, Option.bind_some, not_true_eq_false, if_false, hwrite, Option.map_some]
    · obtain ⟨ret, of', hwrite, h'⟩ := h.write hbuf (Nat.not_lt.mp hgrows)
      refine ⟨of', pwrite d buf offset, ?_, ?_⟩
      · simp only [modfileCheckSizeOk, if_neg hgrows, Option.bind_eq_bind, Option.bind_some, not_true_eq_false, if_false,
          hwrite, Option.map_some]
      · rw [Set.Ico_eq_empty (by omega), Set.union_empty]
        exact h'
  | ftruncate size =>
    rw [Change.apply, Change.run, ftruncateOf]
    by_cases hsame : of.currentsize = size
    · refine ⟨of, d, by rw [if_pos hsame]; rfl, ?_⟩
      rw [← hsame, hsize, hlength, truncate_truncate_self, Set.Ico_self, Set.union_empty]
      exact h
    rw [if_neg hsame]
    by_cases hgrows : of.currentsize < size
    · obtain ⟨of₁, hcheck, hsize₁, h₁⟩ := h.extend hgrows
      refine ⟨of₁, _, ?_, h₁⟩
      simp only [hcheck, Option.bind_eq_bind, Option.bind_some, not_true_eq_false, if_false, hsize₁, ne_eq, Option.map_some]
    · refine ⟨{ of with datafile := some (truncate d size), currentsize := size }, truncate d size, ?_, ?_⟩
      · simp only [modfileCheckSizeOk, if_neg hgrows, Option.bind_eq_bind, Option.bind_some, not_true_eq_false, if_false,
          ne_eq, hsame, not_false_eq_true, if_true, h.datafile, Fates.whole, fileSetSize, Option.map_some]
      · rw [Set.Ico_eq_empty (by omega), Set.union_empty]
        exact h.cut (by omega)

theorem Reflects.writeData_empty {offset : ℕ} (h : Reflects remote of d r) : writeData of [] offset .whole = none := by
  obtain ⟨f, hindex⟩ := h.indexfile
  rw [writeData_whole h.datafile hindex, intervalTreeAdd,
    if_neg (show ¬offset < offset + ([] : Bytes).length from Nat.lt_irrefl _)]
  rfl

/-- A write of no bytes fails at an assertion. -/
theorem Reflects.run_empty {c : Change} (h : Reflects remote of d r) (hc : c.Empty) : c.run of = none := by
  cases c with
  | ftruncate size => exact hc.elim
  | write buf offset =>
    obtain rfl : buf = [] := hc
    rw [Change.run, writeModified]
    by_cases hgrows : of.currentsize < offset
    · obtain ⟨of₁, hcheck, -, h₁⟩ := h.extend hgrows
      simp only [hcheck, Option.bind_eq_bind, Option.bind_some, not_true_eq_false, if_false, h₁.writeData_empty,
        Option.map_none]
    · simp only [modfileCheckSizeOk, if_neg hgrows, Option.bind_eq_bind, Option.bind_some, not_true_eq_false, if_false,
        h.writeData_empty, Option.map_none]

theorem Reflects.changes {changes : List Change} (h : Reflects remote of d r) (hc : ∀ c ∈ changes, ¬c.Empty) :
    ∃ of' d', runChanges of changes = some of' ∧ Reflects remote of' d' (changes.foldl Change.apply r) := by
  induction changes generalizing of d r with
  | nil => exact ⟨of, d, rfl, h⟩
  | cons c changes ih =>
    obtain ⟨hhead, hrest⟩ := List.forall_mem_cons.mp hc
    obtain ⟨of₁, d₁, hrun, h₁⟩ := h.change hhead
    obtain ⟨of', d', hruns, h'⟩ := ih h₁ hrest
    refine ⟨of', d', ?_, h'⟩
    rw [runChanges, List.foldlM_cons, hrun]
    exact hruns

/-- Only changes that are not empty come to their end. -/
theorem Reflects.changes_none {changes : List Change} (h : Reflects remote of d r) (hc : ¬∀ c ∈ changes, ¬c.Empty) :
    runChanges of changes = none := by
  induction changes generalizing of d r with
  | nil => exact absurd (fun _ hc => absurd hc List.not_mem_nil) hc
  | cons c changes ih =>
    rw [runChanges, List.foldlM_cons]
    by_cases hhead : c.Empty
    · rw [h.run_empty hhead]
      rfl
    · obtain ⟨of₁, d₁, hrun, h₁⟩ := h.change hhead
      rw [hrun]
      exact ih h₁ fun hrest => hc (List.forall_mem_cons.mpr ⟨hhead, hrest⟩)

/-! ### Reading -/

variable {size offset : ℕ}

/-- The part of an interval that a read wants. -/
theorem readIntervals_cons {from_ to_ rd : ℕ} {rest : IntervalTree} {buf : Bytes} (hne : from_ < to_) (hto : offset < to_)
    (hin : from_ < offset + size) :
    readIntervals d size offset ((from_, to_) :: rest) (rd, buf) =
      let bytes := pread d (min to_ (offset + size) - max from_ offset) (max from_ offset)
      let end_ := bytes.length + max from_ offset - offset
      readIntervals d size offset rest
        (if rd ≠ size ∧ end_ > rd then end_ else rd, pwrite buf bytes (max from_ offset - offset)) := by
  have hioffset : (if from_ < offset then offset else from_) = max from_ offset := by
    split_ifs
    · omega
    · omega
  have hisize : (if from_ < offset then to_ - from_ - (offset - from_) else to_ - from_) = to_ - max from_ offset := by
    split_ifs
    · omega
    · omega
  have hclip : (if max from_ offset + (to_ - max from_ offset) > offset + size then offset + size - max from_ offset
      else to_ - max from_ offset) = min to_ (offset + size) - max from_ offset := by
    split_ifs
    · omega
    · omega
  simp only [readIntervals, if_pos hin, hioffset, hisize, hclip]

/-- What the loop puts into the buffer: the stored bytes that are in the data file. -/
structure Merges (d : Bytes) (size offset : ℕ) (list : IntervalTree) (rd : ℕ) (buf : Bytes) (result : ℕ × Bytes) : Prop where
  length : result.2.length = size
  mono : rd ≤ result.1
  le : result.1 ≤ size
  stored : ∀ p < size, offset + p ∈ points list → offset + p < d.length → get result.2 p = get d (offset + p)
  other : ∀ p < size, offset + p ∉ points list → get result.2 p = get buf p
  covers : ∀ x ∈ points list, offset ≤ x → x < offset + size → x < d.length → x < offset + result.1
  reached : rd < result.1 → ∃ i ∈ list, i.1 < offset + size ∧
    offset + result.1 = max (max i.1 offset) (min (min i.2 (offset + size)) d.length)

theorem readIntervals_spec {list : IntervalTree} {rd : ℕ} {buf : Bytes} (hsep : Separated list)
    (hafter : ∀ i ∈ list, offset < i.2) (hbuf : buf.length = size) (hrd : rd ≤ size) :
    Merges d size offset list rd buf (readIntervals d size offset list (rd, buf)) := by
  induction list generalizing rd buf with
  | nil => exact ⟨hbuf, le_rfl, hrd, by simp, fun _ _ _ => rfl, by simp, fun h => absurd h (lt_irrefl _)⟩
  | cons i list ih =>
    obtain ⟨from_, to_⟩ := i
    obtain ⟨hne, hgap, hlater⟩ := separated_cons.mp hsep
    obtain ⟨hto, hrest⟩ := List.forall_mem_cons.mp hafter
    simp only at hne hgap hto
    by_cases hin : from_ < offset + size
    · rw [readIntervals_cons hne hto hin]
      dsimp only
      generalize hbytes : pread d (min to_ (offset + size) - max from_ offset) (max from_ offset) = bytes
      have hlength : bytes.length = min (min to_ (offset + size) - max from_ offset) (d.length - max from_ offset) := by
        rw [← hbytes, length_pread]
      have hsize : (pwrite buf bytes (max from_ offset - offset)).length = size := by
        rw [length_pwrite, hbuf]
        split_ifs
        · rfl
        · omega
      generalize hend : bytes.length + max from_ offset - offset = end_
      have hendle : end_ ≤ size := by omega
      have hnext : (if rd ≠ size ∧ end_ > rd then end_ else rd) = max rd end_ := by
        split_ifs
        · omega
        · omega
      rw [hnext]
      have hpart : ∀ p < size, offset + p ∈ Set.Ico from_ to_ → offset + p < d.length →
          get (pwrite buf bytes (max from_ offset - offset)) p = get d (offset + p) := by
        intro p hp hi hd
        obtain ⟨hlo, hhi⟩ := hi
        rw [get_pwrite, if_pos (by omega), ← hbytes, get_pread, if_pos (by omega)]
        congr 1
        omega
      have hskip : ∀ p < size, offset + p ∉ Set.Ico from_ to_ →
          get (pwrite buf bytes (max from_ offset - offset)) p = get buf p := by
        intro p hp hout
        rw [Set.mem_Ico] at hout
        rw [get_pwrite, if_neg (by omega)]
      have hmerges := ih hlater hrest hsize (max_le hrd hendle)
      generalize readIntervals d size offset list _ = result at hmerges ⊢
      obtain ⟨hl, hmono, hle, hstored, hother, hcovers, hreached⟩ := hmerges
      refine ⟨hl, (le_max_left ..).trans hmono, hle, fun p hp hi hd => ?_, fun p hp hout => ?_, fun x hx hlo hhi hd => ?_,
        fun hlt => ?_⟩
      · by_cases hin' : offset + p ∈ points list
        · exact hstored p hp hin' hd
        · rw [points_cons] at hi
          rw [hother p hp hin']
          exact hpart p hp (hi.resolve_right hin') hd
      · rw [points_cons, Set.mem_union, not_or] at hout
        rw [hother p hp hout.2, hskip p hp hout.1]
      · rw [points_cons] at hx
        rcases hx with ⟨hxlo, hxhi⟩ | hx
        · have := (le_max_right rd end_).trans hmono
          simp only at hxlo hxhi
          omega
        · exact hcovers x hx hlo hhi hd
      · by_cases hmore : max rd end_ < result.1
        · obtain ⟨i, hi, h⟩ := hreached hmore
          exact ⟨i, List.mem_cons_of_mem _ hi, h⟩
        · refine ⟨(from_, to_), List.mem_cons_self .., hin, ?_⟩
          clear hreached
          simp only
          omega
    · have hpast : ∀ x ∈ points ((from_, to_) :: list), ¬x < offset + size := by
        rintro x ⟨i, hi, hlo, -⟩ hx
        rcases List.mem_cons.mp hi with rfl | hi
        · exact hin (hlo.trans_lt hx)
        · have := hgap i hi
          omega
      rw [readIntervals, if_neg hin]
      refine ⟨hbuf, le_rfl, hrd, fun p hp hi _ => absurd (Nat.add_lt_add_left hp _) (hpast _ hi), fun _ _ _ => rfl,
        fun x hx _ hlt => absurd hlt (hpast x hx), fun h => absurd h (lt_irrefl _)⟩

theorem mem_intervalsFrom {tree : IntervalTree} {point : ℕ} (hsep : Separated tree) {i : ℕ × ℕ} :
    i ∈ intervalsFrom tree point ↔ i ∈ tree ∧ point < i.2 := by
  induction tree with
  | nil => simp [intervalsFrom]
  | cons j tree ih =>
    obtain ⟨hne, hgap, hlater⟩ := separated_cons.mp hsep
    rw [intervalsFrom, List.dropWhile_cons]
    by_cases hj : j.2 ≤ point
    · rw [if_pos (decide_eq_true hj)]
      refine (ih hlater).trans ⟨fun ⟨hi, hp⟩ => ⟨List.mem_cons_of_mem _ hi, hp⟩, fun ⟨hi, hp⟩ => ⟨?_, hp⟩⟩
      rcases List.mem_cons.mp hi with rfl | hi
      · omega
      · exact hi
    · rw [if_neg (by simpa using hj)]
      refine ⟨fun hi => ⟨hi, ?_⟩, And.left⟩
      rcases List.mem_cons.mp hi with rfl | hi
      · exact Nat.not_le.mp hj
      · have := hgap i hi
        have := hlater.nonempty i hi
        omega

/-- A read inside one interval is one from the data file. -/
theorem head_contains {tree : IntervalTree} (hsep : Separated tree) (hsize : size ≠ 0) :
    (∃ fi ∈ (intervalsFrom tree offset).head?, fi.1 ≤ offset ∧ fi.2 ≥ offset + size) ↔
      Set.Ico offset (offset + size) ⊆ points tree := by
  constructor
  · rintro ⟨fi, hfi, hlo, hhi⟩ x ⟨hxlo, hxhi⟩
    exact ⟨fi, ((mem_intervalsFrom hsep).mp (List.mem_of_mem_head? hfi)).1, hlo.trans hxlo, hxhi.trans_le hhi⟩
  · intro hin
    obtain ⟨i, hi, hlo, hhi⟩ := hin ⟨le_rfl, Nat.lt_add_of_pos_right (Nat.pos_of_ne_zero hsize)⟩
    have hmem := (mem_intervalsFrom hsep).mpr ⟨hi, hhi⟩
    cases hlist : intervalsFrom tree offset with
    | nil => exact absurd (hlist ▸ hmem) List.not_mem_nil
    | cons j rest =>
      have hfrom : Separated (j :: rest) := hlist ▸ hsep.sublist (List.dropWhile_sublist _)
      have hj := (mem_intervalsFrom hsep).mp (hlist ▸ List.mem_cons_self .. : j ∈ intervalsFrom tree offset)
      obtain rfl : i = j := by
        rcases List.mem_cons.mp (hlist ▸ hmem) with heq | hrest
        · exact heq
        · have := (separated_cons.mp hfrom).2.1 i hrest
          omega
      refine ⟨i, rfl, hlo, ?_⟩
      by_contra hshort
      obtain ⟨k, hk, hklo, hkhi⟩ := hin ⟨hhi.le, Nat.not_le.mp hshort⟩
      have hne := hsep.nonempty i hi
      rcases hsep.apart hi hk (by rintro rfl; exact lt_irrefl _ hkhi) with h | h
      · omega
      · omega

/-- The merged bytes are the file, as far as they go. -/
theorem Reflects.merged {buf : Bytes} {result : ℕ × Bytes} (h : Reflects remote of d r)
    (hm : Merges d size offset (intervalsFrom of.writeintervals offset) (pread remote size offset).length
      (pwrite buf (pread remote size offset) 0) result) (hrd : result.1 = min size (r.bytes.length - offset)) :
    result.2.take result.1 = pread r.bytes size offset := by
  have hlength := h.length
  have hresult := hm.length
  refine ext_get ?_ fun p hp => ?_
  · rw [List.length_take, length_pread]
    omega
  · rw [List.length_take] at hp
    rw [get_take, get_pread, if_pos (by omega), if_pos (by omega)]
    by_cases hin : offset + p ∈ points of.writeintervals
    · obtain ⟨i, hi, hlo, hhi⟩ := hin
      have hfrom : offset + p ∈ points (intervalsFrom of.writeintervals offset) :=
        ⟨i, (mem_intervalsFrom h.separated).mpr ⟨hi, by omega⟩, hlo, hhi⟩
      rw [hm.stored p (by omega) hfrom (by omega)]
      exact h.real _ (by omega) (h.stored ▸ ⟨i, hi, hlo, hhi⟩)
    · have hfrom : offset + p ∉ points (intervalsFrom of.writeintervals offset) := by
        rintro ⟨i, hi, hlo, hhi⟩
        exact hin ⟨i, ((mem_intervalsFrom h.separated).mp hi).1, hlo, hhi⟩
      obtain ⟨hremote, heq⟩ := h.rest (offset + p) (by omega) (h.stored ▸ hin)
      rw [hm.other p (by omega) hfrom, heq, get_pwrite, length_pread, if_pos (by omega), Nat.sub_zero, get_pread,
        if_pos (by omega)]

/-- Past the remote bytes, an interval starts where they end. -/
theorem Reflects.starts_before {i : ℕ × ℕ} (h : Reflects remote of d r) (hi : i ∈ of.writeintervals) :
    i.1 ≤ remote.length := by
  by_contra hpast
  have hne := h.separated.nonempty i hi
  obtain ⟨k, hk, hlo, hhi⟩ : i.1 - 1 ∈ points of.writeintervals := by
    rw [h.stored]
    exact h.past i.1 (h.stored ▸ ⟨i, hi, le_rfl, hne⟩) _ (by omega) (Nat.sub_le ..)
  rcases h.separated.apart hi hk (by rintro rfl; omega) with hgap | hgap
  · omega
  · omega

/-- How far the merged bytes go. -/
theorem Reflects.count_iff {buf : Bytes} {result : ℕ × Bytes} (h : Reflects remote of d r) (hsize : size ≠ 0)
    (hm : Merges d size offset (intervalsFrom of.writeintervals offset) (pread remote size offset).length buf result) :
    result.1 = min size (r.bytes.length - offset) ↔
      remote.length ≤ r.bytes.length ∨ offset + size ≤ r.bytes.length ∨ remote.length ≤ offset := by
  have hlength := h.length
  have hmono := hm.mono
  have hle := hm.le
  rw [length_pread] at hmono
  constructor
  · intro heq
    omega
  intro hcond
  have hlower : min size (r.bytes.length - offset) ≤ result.1 := by
    by_contra hshort
    -- the last byte of the file in the request
    let x := offset + min size (r.bytes.length - offset) - 1
    have hx : x = offset + min size (r.bytes.length - offset) - 1 := rfl
    by_cases hin : x ∈ points of.writeintervals
    · obtain ⟨i, hi, hlo, hhi⟩ := hin
      have := hm.covers x ⟨i, (mem_intervalsFrom h.separated).mpr ⟨hi, by omega⟩, hlo, hhi⟩ (by omega) (by omega) (by omega)
      omega
    · have := (h.rest x (by omega) (h.stored ▸ hin)).1
      omega
  refine le_antisymm ?_ hlower
  by_cases hmore : (pread remote size offset).length < result.1
  · obtain ⟨i, hi, hin, hreach⟩ := hm.reached hmore
    obtain ⟨hi, hto⟩ := (mem_intervalsFrom h.separated).mp hi
    have hne := h.separated.nonempty i hi
    have := h.starts_before hi
    omega
  · rw [length_pread] at hmore
    omega

/-- A read gives the file exactly when it does not go from remote bytes past the end. -/
theorem Reflects.read_iff {buf : Bytes} (h : Reflects remote of d r) (hbuf : buf.length = size) :
    readModified of remote buf size offset = some (pread r.bytes size offset) ↔ r.Within remote size offset := by
  have hlength := h.length
  have hread : readModified of remote buf size offset =
      if ∃ fi ∈ (intervalsFrom of.writeintervals offset).head?, fi.1 ≤ offset ∧ fi.2 ≥ offset + size then
        some (pread d size offset)
      else
        let result := readIntervals d size offset (intervalsFrom of.writeintervals offset)
          ((pread remote size offset).length, pwrite buf (pread remote size offset) 0)
        some (result.2.take result.1) := by
    rw [readModified, h.datafile]
    rfl
  have hpad : (pwrite buf (pread remote size offset) 0).length = size := by
    rw [length_pwrite, length_pread, hbuf]
    split_ifs
    · rfl
    · omega
  have hfrom : Separated (intervalsFrom of.writeintervals offset) := h.separated.sublist (List.dropWhile_sublist _)
  have hmerges := @readIntervals_spec d _ _ _ (pread remote size offset).length _ hfrom
    (fun i hi => ((mem_intervalsFrom h.separated).mp hi).2) hpad (by rw [length_pread]; exact min_le_left ..)
  rw [hread]
  generalize readIntervals d size offset _ _ = result at hmerges
  by_cases hsize : size = 0
  · have hresult : result.2 = [] := List.length_eq_zero_iff.mp (hmerges.length.trans hsize)
    have hwithin : r.Within remote size offset := .inr (.inr (.inr (.inl hsize)))
    rw [hsize]
    simp only [hresult, pread, List.take_zero, List.take_nil, ite_self, true_iff]
    exact hsize ▸ hwithin
  have hhead : _ ↔ Set.Ico offset (offset + size) ⊆ _ := head_contains h.separated hsize
  by_cases hinside : Set.Ico offset (offset + size) ⊆ points of.writeintervals
  · rw [if_pos (hhead.mpr hinside)]
    refine iff_of_true (congrArg some (ext_get ?_ fun p hp => ?_)) (.inr (.inr (.inr (.inr (h.stored ▸ hinside)))))
    · rw [length_pread, length_pread, hlength]
    · rw [length_pread] at hp
      rw [get_pread, get_pread, if_pos (by omega), if_pos (by omega)]
      exact h.real _ (by omega) (h.stored ▸ hinside ⟨by omega, by omega⟩)
  · rw [if_neg fun hin => hinside (hhead.mp hin), Option.some.injEq]
    have hcount := h.count_iff hsize hmerges
    have hle := hmerges.le
    have hresult := hmerges.length
    have heq : result.2.take result.1 = pread r.bytes size offset ↔ result.1 = min size (r.bytes.length - offset) := by
      refine ⟨fun heq => ?_, h.merged hmerges⟩
      have := congrArg List.length heq
      rw [List.length_take, length_pread] at this
      omega
    rw [h.stored] at hinside
    rw [Reference.Within, heq, hcount]
    tauto

/-- Reading a file back after changes that are not empty gives its bytes exactly when the
request does not go from remote bytes past the end. -/
theorem reads_back_iff (remote : Bytes) (changes : List Change) (buf : Bytes) (offset : ℕ) :
    (∃ of, runChanges (reopened remote.length) changes = some of ∧
      readModified of remote buf buf.length offset = some (pread (reference remote changes).bytes buf.length offset)) ↔
      (∀ c ∈ changes, ¬c.Empty) ∧ (reference remote changes).Within remote buf.length offset := by
  by_cases hchanges : ∀ c ∈ changes, ¬c.Empty
  · obtain ⟨of, d, hrun, h⟩ := (reflects_reopened : Reflects remote _ _ _).changes hchanges
    have hread : readModified of remote buf buf.length offset =
        some (pread (reference remote changes).bytes buf.length offset) ↔
          (reference remote changes).Within remote buf.length offset := h.read_iff rfl
    constructor
    · rintro ⟨of', hrun', heq⟩
      obtain rfl := Option.some.inj (hrun.symm.trans hrun')
      exact ⟨hchanges, hread.mp heq⟩
    · exact fun hwithin => ⟨of, hrun, hread.mpr hwithin.2⟩
  · have hnone := (reflects_reopened : Reflects remote _ _ _).changes_none hchanges
    constructor
    · rintro ⟨of, hrun, -⟩
      exact nomatch hnone.symm.trans hrun
    · exact fun hwithin => absurd hwithin.1 hchanges

/-- A file of four bytes that is cut to one still shows the other three. -/
theorem reads_past_end : ¬∀ (remote : Bytes) (changes : List Change) (buf : Bytes) (offset : ℕ),
    (∀ c ∈ changes, ¬c.Empty) → ∃ of, runChanges (reopened remote.length) changes = some of ∧
      readModified of remote buf buf.length offset = some (pread (reference remote changes).bytes buf.length offset) := by
  intro hall
  obtain ⟨of, hrun, hread⟩ := hall [1, 2, 3, 4] [.ftruncate 1] [0, 0, 0, 0] 0 (by simp [Change.Empty])
  obtain rfl := Option.some.inj hrun
  exact absurd hread (by decide)

end Pclsync.OpenFile
