import Pclsync.Lib.Chunks
import Mathlib.Data.List.Forall2
import Mathlib.Logic.Function.Basic
import Mathlib.Tactic.Ring

/-! `psync_list_builder_t` of `plibs.c`: elements and their strings are collected in chunks, and
copied into one block at the end.

An element is what is at each of its offsets. A string is copied when it is added, and once more
into the block; the numbers of `number_list` say where its pointer is and how long it is. -/
namespace Pclsync.Lists
open Lib.Chunks

/-- What a caller writes to a field of an element. -/
inductive Field where
  | data (value : ℕ)
  /-- A pointer to these bytes and a terminator. -/
  | text (bytes : List UInt8)

inductive Cell where
  | given (field : Field)
  /-- A pointer into `string_list`. -/
  | chunk (place : ℕ × ℕ)
  /-- A pointer into the block. -/
  | block (position : ℕ)

abbrev Element : Type := ℕ → Cell

/-- An element as its caller fills it, and the offsets for which `psync_list_add_lstring_offset` is called. -/
structure Row where
  fields : ℕ → Field
  adds : List ℕ
  texts : ∀ offset ∈ adds, ∃ bytes, fields offset = .text bytes

def Field.bytes : Field → List UInt8
  | .data _ => []
  | .text bytes => bytes

/-- The string that is added for an offset. -/
def Row.text (row : Row) (offset : ℕ) : List UInt8 := (row.fields offset).bytes

structure Builder where
  elementSize : ℕ
  elementsOffset : ℕ
  elementsPerList : ℕ
  stringalloc : ℕ
  cnt : ℕ
  elementList : List (List Element)
  strings : Arena UInt8
  numberList : List (List ℕ)
  currentElement : Element
  /-- Where the number of the strings of the element is. -/
  cstrcnt : ℕ × ℕ

namespace Builder

/-- `psync_list_builder_create`. -/
def create (elementSize offset : ℕ) : Builder where
  elementSize := elementSize
  elementsOffset := offset
  elementsPerList := if elementSize ≤ 200 then 40 else 12
  stringalloc := 0
  cnt := 0
  elementList := []
  strings := ⟨[], none⟩
  numberList := []
  currentElement := fun _ => .given (.data 0)
  cstrcnt := (0, 0)

/-- `psync_list_bulder_push_num`, and the assignment of a `uint32_t` through it. -/
def pushNum (b : Builder) (n : ℕ) : Builder := { b with numberList := push 1000 (n % 2 ^ 32) b.numberList }

/-- The bytes behind a pointer. -/
def read (b : Builder) : Cell → ℕ → Option (List UInt8)
  | .given (.data _), _ => none
  | .given (.text bytes), length => if length ≤ bytes.length + 1 then some ((bytes ++ [0]).take length) else none
  | .chunk place, length => b.strings.read place length
  | .block _, _ => none

/-- `(*builder->cstrcnt)++`. -/
def countString (b : Builder) : Builder := { b with numberList := modifyAt (fun n => (n + 1) % 2 ^ 32) b.numberList b.cstrcnt }

/-- The copy of a string, and its pointer. -/
def keep (b : Builder) (offset : ℕ) (bytes : List UInt8) : Builder :=
  let (strings, place) := b.strings.alloc 2000 4000 bytes
  { b with strings := strings, currentElement := Function.update b.currentElement offset (.chunk place) }

/-- `psync_list_add_lstring_offset`. -/
def addLstringOffset (b : Builder) (offset length : ℕ) : Option Builder := do
  let length := length + 1
  let b := { b with stringalloc := b.stringalloc + length }
  let bytes ← b.read (b.currentElement offset) length
  some (((b.keep offset bytes).pushNum offset).pushNum length).countString

/-- The place of an element and of the number of its strings. -/
def startElement (b : Builder) : Builder :=
  let b := b.pushNum 0
  { b with cstrcnt := lastPlace b.numberList }

/-- The caller fills the element and adds its strings. -/
def fill (b : Builder) (row : Row) : Option Builder :=
  row.adds.foldlM (fun b offset => b.addLstringOffset offset (row.text offset).length)
    { b with currentElement := fun offset => .given (row.fields offset) }

/-- The element is one of the list. -/
def count (b : Builder) : Builder :=
  { b with elementList := push b.elementsPerList b.currentElement b.elementList, cnt := b.cnt + 1 }

/-- `psync_list_bulder_add_element`, and the calls that its caller makes for the element. -/
def addElement (b : Builder) (row : Row) : Option Builder := do
  let b ← b.startElement.fill row
  some b.count

/-- `psync_list_bulder_add_sql`; a row comes with whether the callback refuses it, and `again`
says that the element of a refused row is to be filled from the next one. -/
def addSql (b : Builder) (again : Bool) : List (Row × Bool) → Option Builder
  | [] => some (if again then b.count else b)
  | (row, refused) :: rows => do
    let b := if again then { b with numberList := modifyAt (fun _ => 0) b.numberList b.cstrcnt } else b.startElement
    let b ← b.fill row
    if refused then b.addSql true rows else b.count.addSql false rows

end Builder

inductive Action where
  | element (row : Row)
  | sql (rows : List (Row × Bool))

def Builder.run (b : Builder) : Action → Option Builder
  | .element row => b.addElement row
  | .sql rows => b.addSql false rows

def build (elementSize offset : ℕ) (actions : List Action) : Option Builder :=
  actions.foldlM Builder.run (.create elementSize offset)

/-! ### The block -/

/-- What is written to the block of `psync_list_builder_finalize`: the strings are behind the elements, at `base`. -/
structure Block where
  size : ℕ
  counter : ℕ
  base : ℕ
  elements : List Element
  strings : List UInt8

/-- The bytes of a region that begins at `base`. -/
def readAt (base : ℕ) (strings : List UInt8) (position length : ℕ) : Option (List UInt8) :=
  if base ≤ position ∧ position - base + length ≤ strings.length then some ((strings.drop (position - base)).take length) else none

namespace Builder

/-- The bytes behind a pointer of an element that is in the block. -/
def source (b : Builder) (base : ℕ) (strings : List UInt8) : Cell → ℕ → Option (List UInt8)
  | .block position, length => readAt base strings position length
  | cell, length => b.read cell length

def relocate (b : Builder) (base : ℕ) (out : Element × List UInt8) (offset length : ℕ) : Option (Element × List UInt8) := do
  let bytes ← b.source base out.2 (out.1 offset) length
  some (Function.update out.1 offset (.block (base + out.2.length)), out.2 ++ bytes)

/-- The strings of an element; the first argument is `scnt`. -/
def replay (b : Builder) (base : ℕ) : ℕ → Cursor ℕ → Element × List UInt8 → Option (Cursor ℕ × Element × List UInt8)
  | 0, cursor, out => some (cursor, out)
  | scnt + 1, cursor, out => do
    let (offset, cursor) ← cursor.pop
    let (length, cursor) ← cursor.pop
    let out ← b.relocate base out offset length
    b.replay base scnt cursor out

/-- How far `psync_list_builder_finalize` is. -/
structure Progress where
  cursor : Cursor ℕ
  elements : List Element
  strings : List UInt8

def copyElement (b : Builder) (base : ℕ) (p : Progress) (element : Element) : Option Progress := do
  let (scnt, cursor) ← p.cursor.pop
  let (cursor, element, strings) ← b.replay base scnt cursor (element, p.strings)
  some ⟨cursor, p.elements ++ [element], strings⟩

/-- `psync_list_builder_finalize`. -/
def finalize (b : Builder) : Option Block := do
  let base := b.elementsOffset + b.elementSize * b.cnt
  let p ← b.elementList.foldlM (fun p chunk => chunk.foldlM (b.copyElement base) p) ⟨⟨b.numberList, 0⟩, [], []⟩
  some {
    size := base + b.stringalloc
    counter := b.cnt % 256 ^ min b.elementsOffset 8
    base := base
    elements := p.elements
    strings := p.strings }

end Builder

/-! ### What is asked -/

/-- The rows that are put in. -/
def Action.accepted : Action → List Row
  | .element row => [row]
  | .sql rows => (rows.filter fun r => !r.2).map Prod.fst

/-- The bytes of the strings of a row, with their terminators. -/
def Row.size (row : Row) : ℕ := (row.adds.map fun offset => (row.text offset).length + 1).sum

/-- An element of the block is a row, less its added pointers, which point to equal strings in the block. -/
def Block.Holds (k : Block) (element : Element) (row : Row) : Prop :=
  (∀ offset, offset ∉ row.adds → element offset = .given (row.fields offset)) ∧
  ∀ offset ∈ row.adds, ∃ position, element offset = .block position ∧
    readAt k.base k.strings position ((row.text offset).length + 1) = some (row.text offset ++ [0])

/-- The block is written to its end, and made of these rows only. -/
structure Block.Built (k : Block) (elementSize offset : ℕ) (rows : List Row) : Prop where
  size : k.size = offset + elementSize * rows.length + (rows.map Row.size).sum
  base : k.base = offset + elementSize * k.elements.length
  exact : k.base + k.strings.length = k.size
  counter : k.counter = rows.length
  elements : List.Forall₂ k.Holds k.elements rows

/-- What is built is what was put in. -/
def Meets (elementSize offset : ℕ) (actions : List Action) : Prop :=
  ∃ k, (build elementSize offset actions).bind Builder.finalize = some k ∧ k.Built elementSize offset (actions.flatMap Action.accepted)

/-- No row is refused behind a string that it added, and a row that is refused is followed by another one. -/
def Action.Clean : Action → Prop
  | .element _ => True
  | .sql rows => (∀ r ∈ rows, r.2 = true → r.1.adds = []) ∧ ∀ r ∈ rows.getLast?, r.2 = false

/-- The strings can be counted. -/
def Row.Countable (row : Row) : Prop := row.adds.length < 2 ^ 32

/-- The offsets and lengths are numbers of 32 bits. -/
def Row.Narrow (row : Row) : Prop := ∀ offset ∈ row.adds, offset < 2 ^ 32 ∧ (row.text offset).length + 1 < 2 ^ 32

/-- There is room for the counter in front of the elements, rows are refused in time, and the numbers of the strings are of 32 bits. -/
structure Proper (offset : ℕ) (actions : List Action) : Prop where
  counter : (actions.flatMap Action.accepted).length < 256 ^ min offset 8
  clean : ∀ a ∈ actions, a.Clean
  countable : ∀ row ∈ actions.flatMap Action.accepted, row.Countable
  narrow : ∀ row ∈ actions.flatMap Action.accepted, row.Narrow

end Pclsync.Lists
