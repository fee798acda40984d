import Pclsync.Lists.Filling
import Mathlib.Algebra.Order.BigOperators.Group.List
import Mathlib.Algebra.Order.Group.Nat

/-! What a run of the builder leaves: how many elements and bytes of strings there are, and, where
no refused row has added a string, the elements of the accepted rows with their numbers. -/
namespace Pclsync.Lists
open Lib.Chunks

variable {b b' b'' : Builder} {row : Row} {rows : List Row}

/-! ### Numbers of elements and of bytes -/

/-- The elements that are counted for rows; `again` as in `addSql`. -/
def countedFrom (again : Bool) : List (Row × Bool) → ℕ
  | [] => if again then 1 else 0
  | (_, refused) :: rows => if refused then countedFrom true rows else countedFrom false rows + 1

def Action.counted : Action → ℕ
  | .element _ => 1
  | .sql rows => countedFrom false rows

def Action.size : Action → ℕ
  | .element row => row.size
  | .sql rows => (rows.map fun r => r.1.size).sum

/-- So many elements and bytes of strings more. -/
structure Builder.Totals (b b' : Builder) (n size : ℕ) : Prop where
  elementSize : b'.elementSize = b.elementSize
  elementsOffset : b'.elementsOffset = b.elementsOffset
  cnt : b'.cnt = b.cnt + n
  alloc : b'.stringalloc = b.stringalloc + size
  elements : b'.elementList.flatten.length = b.elementList.flatten.length + n

namespace Builder
variable {n m size size' : ℕ}

theorem Totals.trans (h : b.Totals b' n size) (h' : b'.Totals b'' m size') : b.Totals b'' (n + m) (size + size') where
  elementSize := h'.elementSize.trans h.elementSize
  elementsOffset := h'.elementsOffset.trans h.elementsOffset
  cnt := by rw [h'.cnt, h.cnt, Nat.add_assoc]
  alloc := by rw [h'.alloc, h.alloc, Nat.add_assoc]
  elements := by rw [h'.elements, h.elements, Nat.add_assoc]

theorem totals_refl (b : Builder) : b.Totals b 0 0 := ⟨rfl, rfl, rfl, rfl, rfl⟩

theorem Fills.totals (h : b.Fills b' row) : b.Totals b' 0 row.size :=
  ⟨h.like.elementSize, h.like.elementsOffset, h.like.cnt, h.alloc, by rw [h.like.elementList]; rfl⟩

theorem totals_count (b : Builder) : b.Totals b.count 1 0 where
  elementSize := rfl
  elementsOffset := rfl
  cnt := rfl
  alloc := rfl
  elements := by rw [count, flatten_push, List.length_append, List.length_singleton]

theorem addSql_totals (b : Builder) (again : Bool) (rows : List (Row × Bool)) :
    ∃ b', b.addSql again rows = some b' ∧ b.Totals b' (countedFrom again rows) (rows.map fun r => r.1.size).sum := by
  induction rows generalizing b again with
  | nil =>
    cases again with
    | true => exact ⟨b.count, rfl, b.totals_count⟩
    | false => exact ⟨b, rfl, b.totals_refl⟩
  | cons r rows ih =>
    obtain ⟨row, refused⟩ := r
    obtain ⟨b₀, hb₀, hstart⟩ : ∃ b₀, (if again then { b with numberList := modifyAt (fun _ => 0) b.numberList b.cstrcnt } else b.startElement) = b₀
        ∧ b.Totals b₀ 0 0 := by
      refine ⟨_, rfl, ?_⟩
      cases again with
      | true => exact ⟨rfl, rfl, rfl, rfl, rfl⟩
      | false => exact ⟨rfl, rfl, rfl, rfl, rfl⟩
    obtain ⟨b₁, hfill, hfills⟩ := b₀.fill_spec row
    have htotals := hstart.trans hfills.totals
    rw [addSql, hb₀, hfill, List.map_cons, List.sum_cons]
    cases refused with
    | true =>
      obtain ⟨b₂, hrun, hrest⟩ := ih b₁ true
      refine ⟨b₂, hrun, ?_⟩
      have hall := htotals.trans hrest
      rwa [Nat.zero_add, Nat.zero_add] at hall
    | false =>
      obtain ⟨b₂, hrun, hrest⟩ := ih b₁.count false
      refine ⟨b₂, hrun, ?_⟩
      have hall := (htotals.trans b₁.totals_count).trans hrest
      rw [Nat.zero_add, Nat.zero_add, Nat.add_zero, Nat.add_comm 1] at hall
      exact hall

theorem run_totals (b : Builder) (a : Action) : ∃ b', b.run a = some b' ∧ b.Totals b' a.counted a.size := by
  cases a with
  | element row =>
    obtain ⟨b₁, hfill, hfills⟩ := b.startElement.fill_spec row
    have hstart : b.Totals b.startElement 0 0 := ⟨rfl, rfl, rfl, rfl, rfl⟩
    refine ⟨b₁.count, by rw [run, addElement, hfill]; rfl, ?_⟩
    have hall := (hstart.trans hfills.totals).trans b₁.totals_count
    rwa [Nat.zero_add, Nat.zero_add, Nat.add_zero] at hall
  | sql rows => exact b.addSql_totals false rows

theorem foldlM_totals (b : Builder) (actions : List Action) :
    ∃ b', actions.foldlM run b = some b' ∧ b.Totals b' (actions.map Action.counted).sum (actions.map Action.size).sum := by
  induction actions generalizing b with
  | nil => exact ⟨b, rfl, b.totals_refl⟩
  | cons a actions ih =>
    obtain ⟨b₁, hrun, htotals⟩ := b.run_totals a
    obtain ⟨b₂, hrest, hall⟩ := ih b₁
    exact ⟨b₂, by rw [List.foldlM_cons, hrun]; exact hrest, htotals.trans hall⟩

end Builder

/-! ### When the totals are those of the accepted rows -/

theorem eq_of_sum_eq {α : Type} {f g : α → ℕ} {l : List α} (hle : ∀ a ∈ l, f a ≤ g a) (h : (l.map f).sum = (l.map g).sum) :
    ∀ a ∈ l, f a = g a := by
  induction l with
  | nil => exact fun _ h => (nomatch h)
  | cons a l ih =>
    obtain ⟨ha, hl⟩ := List.forall_mem_cons.mp hle
    have hsum : (l.map f).sum ≤ (l.map g).sum := List.sum_le_sum hl
    rw [List.map_cons, List.map_cons, List.sum_cons, List.sum_cons] at h
    exact List.forall_mem_cons.mpr ⟨by omega, ih hl (by omega)⟩

/-- A last row that is refused is counted as well. -/
theorem countedFrom_eq (again : Bool) (rows : List (Row × Bool)) :
    countedFrom again rows = (rows.filter fun r => !r.2).length + if (rows.getLast?.map Prod.snd).getD again then 1 else 0 := by
  induction rows generalizing again with
  | nil => exact (Nat.zero_add _).symm
  | cons r rows ih =>
    obtain ⟨row, refused⟩ := r
    have hlast : ((((row, refused) :: rows).getLast?).map Prod.snd).getD again = (rows.getLast?.map Prod.snd).getD refused := by
      rw [List.getLast?_cons, Option.map_some, Option.getD_some]
      cases rows.getLast? <;> rfl
    rw [hlast]
    cases refused with
    | true => exact ih true
    | false =>
      rw [countedFrom, if_neg Bool.false_ne_true, ih false, List.filter_cons_of_pos rfl, List.length_cons, Nat.add_right_comm]

theorem Action.accepted_le_counted (a : Action) : a.accepted.length ≤ a.counted := by
  cases a with
  | element row => exact le_refl _
  | sql rows =>
    rw [accepted, counted, List.length_map, countedFrom_eq]
    exact Nat.le_add_right _ _

theorem sum_size_le (rows : List (Row × Bool)) : (((rows.filter fun r => !r.2).map Prod.fst).map Row.size).sum ≤ (rows.map fun r => r.1.size).sum := by
  rw [List.map_map]
  exact List.Sublist.sum_le_sum ((List.filter_sublist).map _) fun _ _ => Nat.zero_le _

theorem Action.accepted_le_size (a : Action) : (a.accepted.map Row.size).sum ≤ a.size := by
  cases a with
  | element row => exact le_refl _
  | sql rows => exact sum_size_le rows

theorem Row.adds_eq_nil (h : row.size = 0) : row.adds = [] := by
  rw [size] at h
  cases hadds : row.adds with
  | nil => rfl
  | cons offset adds =>
    rw [hadds, List.map_cons, List.sum_cons] at h
    omega

theorem refused_of_sum_eq {rows : List (Row × Bool)}
    (h : (((rows.filter fun r => !r.2).map Prod.fst).map Row.size).sum = (rows.map fun r => r.1.size).sum) :
    ∀ r ∈ rows, r.2 = true → r.1.adds = [] := by
  induction rows with
  | nil => exact fun _ h => (nomatch h)
  | cons r rows ih =>
    obtain ⟨row, refused⟩ := r
    have hle := sum_size_le rows
    cases refused with
    | true =>
      replace h : (((rows.filter fun r => !r.2).map Prod.fst).map Row.size).sum = row.size + (rows.map fun r => r.1.size).sum := h
      refine List.forall_mem_cons.mpr ⟨fun _ => Row.adds_eq_nil ?_, ih ?_⟩
      · show row.size = 0
        omega
      · omega
    | false =>
      rw [List.filter_cons_of_pos rfl, List.map_cons, List.map_cons, List.sum_cons, List.map_cons, List.sum_cons] at h
      exact List.forall_mem_cons.mpr ⟨fun h => (nomatch h), ih (Nat.add_left_cancel h)⟩

/-- Where no element and no byte is too many, rows are refused in time. -/
theorem Action.clean_of (a : Action) (hcounted : a.accepted.length = a.counted) (hsize : (a.accepted.map Row.size).sum = a.size) : a.Clean := by
  cases a with
  | element row => trivial
  | sql rows =>
    refine ⟨refused_of_sum_eq hsize, fun r hr => ?_⟩
    rw [accepted, counted, List.length_map, countedFrom_eq, hr] at hcounted
    cases hrefused : r.2 with
    | false => rfl
    | true =>
      rw [Option.map_some, Option.getD_some, hrefused, if_pos rfl] at hcounted
      omega

theorem clean_of_totals {actions : List Action} (hcounted : (actions.flatMap Action.accepted).length = (actions.map Action.counted).sum)
    (hsize : ((actions.flatMap Action.accepted).map Row.size).sum = (actions.map Action.size).sum) : ∀ a ∈ actions, a.Clean := by
  rw [List.length_flatMap] at hcounted
  rw [List.map_flatMap, List.flatMap_def, List.sum_flatten, List.map_map] at hsize
  have hlength := eq_of_sum_eq (fun (a : Action) _ => a.accepted_le_counted) hcounted
  have hsizes := eq_of_sum_eq (fun (a : Action) _ => a.accepted_le_size) hsize
  exact fun a ha => a.clean_of (hlength a ha) (hsizes a ha)

/-! ### What is collected -/

/-- The elements of these rows are in the list. -/
structure Builder.Collects (b : Builder) (rows : List Row) : Prop where
  cnt : b.cnt = rows.length
  alloc : b.stringalloc = (rows.map Row.size).sum
  elements : List.Forall₂ (fun element row => Row.Loaded row b.strings element) b.elementList.flatten rows

/-- So are their numbers. -/
structure Builder.Holds (b : Builder) (rows : List Row) : Prop where
  collects : b.Collects rows
  numbers : b.numberList.flatten = rows.flatMap Row.record
  filled : ∀ chunk ∈ b.numberList, chunk ≠ []

namespace Builder

/-- An element is filled from a row, and counted. -/
theorem Fills.holds (h : b.Fills b' row) (hcollects : b.Collects rows) (hcounts : b.Counts (rows.flatMap Row.record) 0 []) :
    b'.count.Holds (rows ++ [row]) where
  collects := {
    cnt := by
      rw [List.length_append, ← hcollects.cnt]
      exact congrArg (· + 1) h.like.cnt
    alloc := by
      rw [List.map_append, List.sum_append, List.map_singleton, List.sum_singleton, ← hcollects.alloc]
      exact h.alloc
    elements := by
      rw [count, flatten_push, h.like.elementList]
      exact List.rel_append (hcollects.elements.imp fun _ _ hloaded => hloaded.grows h.grows) (.cons h.loaded .nil) }
  numbers := by
    rw [List.flatMap_append, List.flatMap_singleton]
    exact (h.counts _ hcounts).numbers
  filled := (h.counts _ hcounts).filled

/-- An element is filled from a row that adds no string, and refused. -/
theorem Fills.refused (h : b.Fills b' row) (hadds : row.adds = []) (hcollects : b.Collects rows)
    (hcounts : b.Counts (rows.flatMap Row.record) 0 []) : b'.Collects rows ∧ b'.Counts (rows.flatMap Row.record) 0 [] := by
  have hcounts' := h.counts _ hcounts
  rw [hadds] at hcounts'
  refine ⟨⟨h.like.cnt.trans hcollects.cnt, ?_, ?_⟩, hcounts'⟩
  · rw [h.alloc, Row.size, hadds]
    exact hcollects.alloc
  · rw [h.like.elementList]
    exact hcollects.elements.imp fun _ _ hloaded => hloaded.grows h.grows

/-- Where `again` says that an element is refilled, its number of strings is the last number. -/
def Stands (b : Builder) (again : Bool) (rows : List Row) : Prop :=
  if again then b.Collects rows ∧ b.Counts (rows.flatMap Row.record) 0 [] else b.Holds rows

theorem addSql_holds {again : Bool} {sql : List (Row × Bool)} (hstands : b.Stands again rows) (hlast : (sql.getLast?.map Prod.snd).getD again = false)
    (hrefused : ∀ r ∈ sql, r.2 = true → r.1.adds = []) (hrun : b.addSql again sql = some b') :
    b'.Holds (rows ++ (sql.filter fun r => !r.2).map Prod.fst) := by
  induction sql generalizing b again rows with
  | nil =>
    obtain rfl : again = false := hlast
    obtain rfl := Option.some.inj hrun
    rwa [List.filter_nil, List.map_nil, List.append_nil]
  | cons r sql ih =>
    obtain ⟨row, refused⟩ := r
    obtain ⟨hrow, hrest⟩ := List.forall_mem_cons.mp hrefused
    have hlast' : (sql.getLast?.map Prod.snd).getD refused = false := by
      rw [List.getLast?_cons, Option.map_some, Option.getD_some] at hlast
      cases hsql : sql.getLast? with
      | none =>
        rw [hsql] at hlast
        exact hlast
      | some r =>
        rw [hsql] at hlast
        exact hlast
    obtain ⟨b₀, hb₀, hcollects, hcounts⟩ : ∃ b₀, (if again then { b with numberList := modifyAt (fun _ => 0) b.numberList b.cstrcnt } else b.startElement) = b₀
        ∧ b₀.Collects rows ∧ b₀.Counts (rows.flatMap Row.record) 0 [] := by
      refine ⟨_, rfl, ?_⟩
      cases again with
      | true => exact ⟨⟨hstands.1.cnt, hstands.1.alloc, hstands.1.elements⟩, hstands.2.modify fun _ => 0⟩
      | false =>
        have hholds : b.Holds rows := hstands
        have hcounts := counts_startElement hholds.filled
        rw [hholds.numbers] at hcounts
        exact ⟨⟨hholds.collects.cnt, hholds.collects.alloc, hholds.collects.elements⟩, hcounts⟩
    obtain ⟨b₁, hfill, hfills⟩ := b₀.fill_spec row
    rw [addSql, hb₀, hfill] at hrun
    cases refused with
    | true => exact ih (show b₁.Stands true rows from hfills.refused (hrow rfl) hcollects hcounts) hlast' hrest hrun
    | false =>
      have hall := ih (show b₁.count.Stands false (rows ++ [row]) from hfills.holds hcollects hcounts) hlast' hrest hrun
      rwa [List.append_assoc] at hall

theorem run_holds {a : Action} (hholds : b.Holds rows) (hclean : a.Clean) (hrun : b.run a = some b') : b'.Holds (rows ++ a.accepted) := by
  cases a with
  | element row =>
    obtain ⟨b₁, hfill, hfills⟩ := b.startElement.fill_spec row
    rw [run, addElement, hfill] at hrun
    obtain rfl := Option.some.inj hrun
    have hcounts := counts_startElement hholds.filled
    rw [hholds.numbers] at hcounts
    exact hfills.holds ⟨hholds.collects.cnt, hholds.collects.alloc, hholds.collects.elements⟩ hcounts
  | sql sql =>
    refine addSql_holds (show b.Stands false rows from hholds) ?_ hclean.1 hrun
    cases hlast : sql.getLast? with
    | none => rfl
    | some r => exact hclean.2 r hlast

theorem foldlM_holds {actions : List Action} (hholds : b.Holds rows) (hclean : ∀ a ∈ actions, a.Clean) (hrun : actions.foldlM run b = some b') :
    b'.Holds (rows ++ actions.flatMap Action.accepted) := by
  induction actions generalizing b rows with
  | nil =>
    obtain rfl := Option.some.inj hrun
    rwa [List.flatMap_nil, List.append_nil]
  | cons a actions ih =>
    obtain ⟨ha, hrest⟩ := List.forall_mem_cons.mp hclean
    rw [List.foldlM_cons] at hrun
    obtain ⟨b₁, hrun₁, hrun⟩ := Option.bind_eq_some_iff.mp hrun
    rw [List.flatMap_cons, ← List.append_assoc]
    exact ih (run_holds hholds ha hrun₁) hrest hrun

end Builder

/-- What is built when rows are refused in time. -/
theorem build_holds {elementSize offset : ℕ} {actions : List Action} (hclean : ∀ a ∈ actions, a.Clean)
    (hrun : build elementSize offset actions = some b) : b.Holds (actions.flatMap Action.accepted) := by
  have hcreate : (Builder.create elementSize offset).Holds [] := ⟨⟨rfl, rfl, .nil⟩, rfl, fun _ h => (nomatch h)⟩
  exact Builder.foldlM_holds hcreate hclean hrun

end Pclsync.Lists
