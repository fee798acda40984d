import Pclsync.Lists.Builder
import Mathlib.Logic.Function.Iterate
import Mathlib.Data.Nat.Basic

/-! What a builder holds: the elements in order, a copy of every string, and the numbers of every
element behind each other. -/
namespace Pclsync.Lists
open Lib.Chunks

variable {b b' b'' : Builder} {row : Row} {rows : List Row}

/-! ### The numbers of an element -/

/-- What is pushed for a string. -/
def Row.pair (row : Row) (offset : ℕ) : List ℕ := [offset % 2 ^ 32, ((row.text offset).length + 1) % 2 ^ 32]

/-- What is pushed for an element. -/
def Row.record (row : Row) : List ℕ := row.adds.length % 2 ^ 32 :: row.adds.flatMap row.pair

/-- `cstrcnt` is the place of `n`, with these numbers before and behind it. -/
structure Builder.Counts (b : Builder) (before : List ℕ) (n : ℕ) (behind : List ℕ) : Prop where
  place : At b.numberList b.cstrcnt.1 b.cstrcnt.2 before.length
  numbers : b.numberList.flatten = before ++ n :: behind
  filled : ∀ chunk ∈ b.numberList, chunk ≠ []

namespace Builder
variable {before behind : List ℕ} {n m : ℕ}

theorem Counts.pushNum (h : b.Counts before n behind) (m : ℕ) : (b.pushNum m).Counts before n (behind ++ [m % 2 ^ 32]) where
  place := h.place.push
  numbers := by
    rw [Builder.pushNum, flatten_push, h.numbers, List.append_assoc]
    rfl
  filled := push_filled 1000 _ h.filled

theorem Counts.modify (h : b.Counts before n behind) (f : ℕ → ℕ) :
    Counts { b with numberList := modifyAt f b.numberList b.cstrcnt } before (f n) behind where
  place := h.place.modifyAt f
  numbers := by
    have hmodify := modify_append_right f before (n :: behind) 0
    rw [Nat.add_zero, ← h.numbers] at hmodify
    exact (flatten_modifyAt f h.place).trans hmodify
  filled := modifyAt_filled f b.cstrcnt h.filled

theorem counts_startElement (h : ∀ chunk ∈ b.numberList, chunk ≠ []) : b.startElement.Counts b.numberList.flatten 0 [] where
  place := at_push_last ..
  numbers := flatten_push ..
  filled := push_filled 1000 _ h

/-- What the strings of an element leave as it is. -/
structure Like (b b' : Builder) : Prop where
  elementSize : b'.elementSize = b.elementSize
  elementsOffset : b'.elementsOffset = b.elementsOffset
  cnt : b'.cnt = b.cnt
  elementList : b'.elementList = b.elementList

theorem Like.trans (h : Like b b') (h' : Like b' b'') : Like b b'' :=
  ⟨h'.1.trans h.1, h'.2.trans h.2, h'.3.trans h.3, h'.4.trans h.4⟩

end Builder

/-! ### Adding strings -/

/-- The pointer of an added string is one to a copy. -/
def Row.Kept (row : Row) (strings : Arena UInt8) (offset : ℕ) (cell : Cell) : Prop :=
  ∃ place, cell = .chunk place ∧ strings.read place ((row.text offset).length + 1) = some (row.text offset ++ [0])

theorem Row.Kept.grows {strings strings' : Arena UInt8} {offset : ℕ} {cell : Cell} (h : row.Kept strings offset cell)
    (hgrows : strings.Grows strings') : row.Kept strings' offset cell := by
  obtain ⟨place, hcell, hread⟩ := h
  exact ⟨place, hcell, hgrows _ _ _ hread⟩

theorem Row.field (row : Row) {offset : ℕ} (h : offset ∈ row.adds) : row.fields offset = .text (row.text offset) := by
  obtain ⟨bytes, hbytes⟩ := row.texts offset h
  rw [Row.text, hbytes]
  rfl

/-- The element is one of the row, with some of its strings added. -/
def Row.Loading (row : Row) (b : Builder) : Prop :=
  ∀ offset ∈ row.adds, b.currentElement offset = .given (row.fields offset) ∨ row.Kept b.strings offset (b.currentElement offset)

theorem Row.Loading.read (h : row.Loading b) {offset : ℕ} (hmem : offset ∈ row.adds) :
    b.read (b.currentElement offset) ((row.text offset).length + 1) = some (row.text offset ++ [0]) := by
  rcases h offset hmem with hgiven | ⟨place, hcell, hread⟩
  · rw [hgiven, row.field hmem, Builder.read, if_pos (le_refl _), List.take_of_length_le (by simp)]
  · rw [hcell]
    exact hread

/-- What adding strings does. -/
structure Row.Adds (row : Row) (offsets : List ℕ) (b b' : Builder) : Prop where
  like : b.Like b'
  grows : b.strings.Grows b'.strings
  alloc : b'.stringalloc = b.stringalloc + (offsets.map fun offset => (row.text offset).length + 1).sum
  counts : ∀ before n behind, b.Counts before n behind →
    b'.Counts before ((fun n => (n + 1) % 2 ^ 32)^[offsets.length] n) (behind ++ offsets.flatMap row.pair)
  others : ∀ offset, offset ∉ offsets → b'.currentElement offset = b.currentElement offset
  kept : ∀ offset ∈ offsets, row.Kept b'.strings offset (b'.currentElement offset)

theorem Row.Adds.nil (row : Row) (b : Builder) : row.Adds [] b b where
  like := ⟨rfl, rfl, rfl, rfl⟩
  grows := .refl _
  alloc := rfl
  counts := fun before n behind h => by rwa [List.flatMap_nil, List.append_nil]
  others := fun _ _ => rfl
  kept := fun _ h => (nomatch h)

theorem Row.Adds.cons {offset : ℕ} {offsets : List ℕ} (h : row.Adds [offset] b b') (h' : row.Adds offsets b' b'') :
    row.Adds (offset :: offsets) b b'' where
  like := h.like.trans h'.like
  grows := h.grows.trans h'.grows
  alloc := by
    rw [h'.alloc, h.alloc, List.map_singleton, List.sum_singleton, List.map_cons, List.sum_cons, Nat.add_assoc]
  counts := fun before n behind hcounts => by
    have hall := h'.counts _ _ _ (h.counts _ _ _ hcounts)
    rwa [List.append_assoc, List.flatMap_singleton] at hall
  others := fun o ho => by
    obtain ⟨hne, hmem⟩ := not_or.mp (List.mem_cons.not.mp ho)
    rw [h'.others o hmem, h.others o (List.mem_singleton.not.mpr hne)]
  kept := fun o ho => by
    by_cases hmem : o ∈ offsets
    · exact h'.kept o hmem
    · obtain rfl := (List.mem_cons.mp ho).resolve_right hmem
      rw [h'.others o hmem]
      exact (h.kept o (List.mem_singleton_self o)).grows h'.grows

theorem Row.Loading.adds {offsets : List ℕ} (h : row.Loading b) (hadds : row.Adds offsets b b') : row.Loading b' := by
  intro offset hmem
  by_cases hin : offset ∈ offsets
  · exact .inr (hadds.kept offset hin)
  · rw [hadds.others offset hin]
    exact (h offset hmem).imp_right fun hkept => hkept.grows hadds.grows

theorem Builder.addLstringOffset_spec (h : row.Loading b) {offset : ℕ} (hmem : offset ∈ row.adds) :
    ∃ b', b.addLstringOffset offset (row.text offset).length = some b' ∧ row.Adds [offset] b b' := by
  have hread := h.read hmem
  obtain ⟨hgrows, hkept⟩ := Arena.alloc_spec 2000 4000 b.strings (row.text offset ++ [0])
  rw [List.length_append, List.length_singleton] at hkept
  refine ⟨_, Option.bind_eq_some_iff.mpr ⟨_, hread, rfl⟩, ⟨rfl, rfl, rfl, rfl⟩, hgrows, rfl, fun before n behind hcounts => ?_, ?_, ?_⟩
  · have hkeep : Counts (keep { b with stringalloc := b.stringalloc + ((row.text offset).length + 1) } offset (row.text offset ++ [0]))
        before n behind := ⟨hcounts.place, hcounts.numbers, hcounts.filled⟩
    have hall := ((hkeep.pushNum offset).pushNum ((row.text offset).length + 1)).modify fun n => (n + 1) % 2 ^ 32
    rwa [List.append_assoc] at hall
  · intro o ho
    exact Function.update_of_ne (List.mem_singleton.not.mp ho) ..
  · intro o ho
    obtain rfl := List.mem_singleton.mp ho
    exact ⟨_, Function.update_self .., hkept⟩

theorem Builder.foldlM_adds (offsets : List ℕ) (h : row.Loading b) (hmem : ∀ offset ∈ offsets, offset ∈ row.adds) :
    ∃ b', offsets.foldlM (fun b offset => b.addLstringOffset offset (row.text offset).length) b = some b' ∧ row.Adds offsets b b' := by
  induction offsets generalizing b with
  | nil => exact ⟨b, rfl, .nil row b⟩
  | cons offset offsets ih =>
    obtain ⟨hoffset, hoffsets⟩ := List.forall_mem_cons.mp hmem
    obtain ⟨b₁, hrun₁, hadds₁⟩ := addLstringOffset_spec h hoffset
    obtain ⟨b₂, hrun₂, hadds₂⟩ := ih (h.adds hadds₁) hoffsets
    exact ⟨b₂, by rw [List.foldlM_cons, hrun₁]; exact hrun₂, hadds₁.cons hadds₂⟩

/-! ### Filling an element -/

/-- An element whose strings are added. -/
structure Row.Loaded (row : Row) (strings : Arena UInt8) (element : Element) : Prop where
  others : ∀ offset, offset ∉ row.adds → element offset = .given (row.fields offset)
  kept : ∀ offset ∈ row.adds, row.Kept strings offset (element offset)

theorem Row.Loaded.grows {strings strings' : Arena UInt8} {element : Element} (h : row.Loaded strings element)
    (hgrows : strings.Grows strings') : row.Loaded strings' element :=
  ⟨h.others, fun offset hmem => (h.kept offset hmem).grows hgrows⟩

theorem iterate_count (k : ℕ) {n : ℕ} (hn : n < 2 ^ 32) : (fun n => (n + 1) % 2 ^ 32)^[k] n = (n + k) % 2 ^ 32 := by
  induction k generalizing n with
  | zero => exact (Nat.mod_eq_of_lt hn).symm
  | succ k ih =>
    rw [Function.iterate_succ_apply, ih (Nat.mod_lt _ (Nat.two_pow_pos 32)), Nat.mod_add_mod, Nat.add_assoc, Nat.add_comm 1 k]

structure Builder.Fills (b b' : Builder) (row : Row) : Prop where
  like : b.Like b'
  grows : b.strings.Grows b'.strings
  alloc : b'.stringalloc = b.stringalloc + row.size
  counts : ∀ before, b.Counts before 0 [] → b'.Counts before (row.adds.length % 2 ^ 32) (row.adds.flatMap row.pair)
  loaded : row.Loaded b'.strings b'.currentElement

theorem Builder.fill_spec (b : Builder) (row : Row) : ∃ b', b.fill row = some b' ∧ b.Fills b' row := by
  have hloading : row.Loading { b with currentElement := fun offset => .given (row.fields offset) } := fun _ _ => .inl rfl
  obtain ⟨b', hrun, hadds⟩ := foldlM_adds row.adds hloading fun _ h => h
  refine ⟨b', hrun, ⟨⟨hadds.like.1, hadds.like.2, hadds.like.3, hadds.like.4⟩, hadds.grows, hadds.alloc, fun before hcounts => ?_,
    hadds.others, hadds.kept⟩⟩
  have hall := hadds.counts before 0 [] ⟨hcounts.place, hcounts.numbers, hcounts.filled⟩
  rwa [iterate_count _ (Nat.two_pow_pos 32), Nat.zero_add, List.nil_append] at hall

end Pclsync.Lists
