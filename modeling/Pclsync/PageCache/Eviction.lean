import Mathlib.Data.Prod.Lex
import Pclsync.Lib.Comparators
import Pclsync.Lib.Machine

/-! `clean_cache` of `ppagecache.c`, from the table on: which pages of the cache are freed.

The table stands as it is while the pages are sorted. -/
namespace Pclsync.PageCache.Eviction
open Lib.Comparators Lib.Machine

inductive PageType where
  | free
  | read
  | cache
deriving DecidableEq, Repr

/-- A row of `pagecache`. -/
structure Row where
  id : ℕ
  hash : Option ℕ
  pageid : Option ℕ
  crc : Option ℕ
  lastuse : ℤ
  usecnt : ℕ
  type : PageType
deriving DecidableEq, Repr

/-- `pagecache_entry`. -/
structure Entry where
  lastuse : ℤ
  id : ℕ
  usecnt : ℕ
  isfirst : Bool
  isxfirst : Bool
deriving DecidableEq, Repr

/-- `pagecache`, in the order of the ids, and `free_db_pages`. -/
structure Cache where
  rows : List Row
  freeDbPages : ℕ
deriving DecidableEq, Repr

def lruFirstPagesPercent : ℕ := 15
def lruXfirstPagesPercent : ℕ := 5
def lruPercent : ℕ := 40
def lru2Percent : ℕ := 20
def lru4Percent : ℕ := 15
def lru8Percent : ℕ := 10
def lru16Percent : ℕ := 5
def firstPagesUnderId : ℕ := 128 * 1024 / 4096
def xfirstPagesUnderId : ℕ := 1024 * 1024 / 4096

/-- A cast to `int`. -/
def s32 (x : ℤ) : ℤ := x.bmod (2 ^ 32)

/-! ## The comparisons -/

def cmpLastuse (e1 e2 : Entry) : ℤ := s32 (e1.lastuse - e2.lastuse)

/-- `pagecache_entry_cmp_usecnt_lastuse2`, and those for 4, 8 and 16 uses. -/
def cmpUsecntLastuse (uses : ℕ) (e1 e2 : Entry) : ℤ :=
  if uses ≤ e1.usecnt ∧ e2.usecnt < uses then 1
  else if uses ≤ e2.usecnt ∧ e1.usecnt < uses then -1
  else cmpLastuse e1 e2

def cmpUsecntLastuse2 : Entry → Entry → ℤ := cmpUsecntLastuse 2
def cmpUsecntLastuse4 : Entry → Entry → ℤ := cmpUsecntLastuse 4
def cmpUsecntLastuse8 : Entry → Entry → ℤ := cmpUsecntLastuse 8
def cmpUsecntLastuse16 : Entry → Entry → ℤ := cmpUsecntLastuse 16

def cmpId (e1 e2 : Entry) : ℤ := s32 (s32 e1.id - s32 e2.id)

def cmpFirstPages (e1 e2 : Entry) : ℤ :=
  if (e1.isfirst.toNat : ℤ) - e2.isfirst.toNat ≠ 0 then e1.isfirst.toNat - e2.isfirst.toNat
  else if e1.isfirst = true then cmpLastuse e1 e2
  else if (e1.isxfirst.toNat : ℤ) - e2.isxfirst.toNat ≠ 0 then e1.isxfirst.toNat - e2.isxfirst.toNat
  else cmpLastuse e1 e2

def cmpXfirstPages (e1 e2 : Entry) : ℤ :=
  if (e1.isxfirst.toNat : ℤ) - e2.isxfirst.toNat ≠ 0 then e1.isxfirst.toNat - e2.isxfirst.toNat
  else cmpLastuse e1 e2

/-- All of them. -/
def comparisons : List (Entry → Entry → ℤ) :=
  [cmpLastuse, cmpUsecntLastuse2, cmpUsecntLastuse4, cmpUsecntLastuse8, cmpUsecntLastuse16, cmpId, cmpFirstPages,
    cmpXfirstPages]

/-! ## `clean_cache` -/

/-- The entry of a row. Its flags are of `row[2]`, which is `lastuse`. -/
def Row.entry (row : Row) : Entry where
  lastuse := row.lastuse
  id := u32 row.id
  usecnt := if 2 ^ 16 - 1 < row.usecnt then 2 ^ 16 - 1 else row.usecnt
  isfirst := u64OfS64 row.lastuse < firstPagesUnderId
  isxfirst := u64OfS64 row.lastuse < xfirstPagesUnderId

/-- The rows of one query. -/
def readRows (cnt : ℕ) : List Row → ℕ → List Entry → ℕ × List Entry
  | [], e, entries => (e, entries)
  | row :: rows, e, entries =>
    if cnt ≤ entries.length then (e, entries)
    else readRows cnt rows row.id (if row.type = .read then entries ++ [row.entry] else entries)

/-- The queries, of 5000 rows each. -/
def readEntries (table : List Row) (cnt : ℕ) : ℕ → ℕ → List Entry → List Entry
  | 0, _, entries => entries
  | fuel + 1, e, entries =>
    if cnt ≤ entries.length then entries
    else
      match (table.filter fun row => e < row.id).take 5000 with
      | [] => entries
      | row :: rows =>
        let after := readRows cnt (row :: rows) e entries
        readEntries table cnt fuel after.1 after.2

def maxId (table : List Row) : ℕ := (table.map Row.id).foldr max 0

/-- The entries are sorted, and the last of them are kept. -/
def cut (qsort : (Entry → Entry → ℤ) → List Entry → List Entry) (cmp : Entry → Entry → ℤ) (k : ℕ) (entries : List Entry) :
    List Entry :=
  (qsort cmp entries).take (entries.length - k)

/-- The entries that are to be freed. -/
def evicted (qsort : (Entry → Entry → ℤ) → List Entry → List Entry) (entries : List Entry) : List Entry :=
  let n := entries.length
  let entries := cut qsort cmpFirstPages (lruFirstPagesPercent * n / 100) entries
  let entries := cut qsort cmpXfirstPages (lruXfirstPagesPercent * n / 100) entries
  let m := entries.length
  let entries := cut qsort cmpLastuse (lruPercent * m / 100) entries
  let entries := cut qsort cmpUsecntLastuse2 (lru2Percent * m / 100) entries
  let entries := cut qsort cmpUsecntLastuse4 (lru4Percent * m / 100) entries
  let entries := cut qsort cmpUsecntLastuse8 (lru8Percent * m / 100) entries
  let entries := cut qsort cmpUsecntLastuse16 (lru16Percent * m / 100) entries
  qsort cmpId entries

/-- `UPDATE pagecache SET type=PAGE_TYPE_FREE, hash=NULL, pageid=NULL, crc=NULL`. -/
def Row.freed (row : Row) : Row := { row with type := .free, hash := none, pageid := none, crc := none }

def Cache.free (cache : Cache) (entry : Entry) : Cache where
  rows := cache.rows.map fun row => if row.id = entry.id then row.freed else row
  freeDbPages := cache.freeDbPages + 1

def cleanCache (qsort : (Entry → Entry → ℤ) → List Entry → List Entry) (cache : Cache) : Cache :=
  let cnt := maxId cache.rows
  if cnt = 0 then cache
  else (evicted qsort (readEntries cache.rows cnt (cache.rows.length + 1) 0 [])).foldl Cache.free cache

/-! ## The policy -/

/-- Pages in the order in which they are kept: by two flags, then by their last use. -/
abbrev Key := Bool ×ₗ Bool ×ₗ ℤ

def key (first second : Bool) (lastuse : ℤ) : Key := toLex (first, toLex (second, lastuse))

def Row.under (row : Row) (bound : ℕ) : Bool := row.pageid.any (· < bound)

/-- First pages before others, and of those, first pages in a wider sense before others. -/
def Row.firstPages (row : Row) : Key :=
  key (row.under firstPagesUnderId) (!row.under firstPagesUnderId && row.under xfirstPagesUnderId) row.lastuse

def Row.xfirstPages (row : Row) : Key := key (row.under xfirstPagesUnderId) false row.lastuse

/-- Pages with some uses before others. -/
def Row.uses (uses : ℕ) (row : Row) : Key := key (uses ≤ row.usecnt) false row.lastuse

/-- Numbers of pages are reserved one after the other, by a key each, and `freed` is left. -/
inductive Reserved : List ((Row → Key) × ℕ) → List Row → List Row → Prop
  | done {pages : List Row} : Reserved [] pages pages
  | next {order : Row → Key} {k : ℕ} {rs : List ((Row → Key) × ℕ)} {pages rest kept freed : List Row}
    (hkeep : Reserves order k pages rest kept) (hrest : Reserved rs rest freed) : Reserved ((order, k) :: rs) pages freed

def firstReservations (n : ℕ) : List ((Row → Key) × ℕ) :=
  [(Row.firstPages, lruFirstPagesPercent * n / 100), (Row.xfirstPages, lruXfirstPagesPercent * n / 100)]

def reservations (m : ℕ) : List ((Row → Key) × ℕ) :=
  [(Row.uses 0, lruPercent * m / 100), (Row.uses 2, lru2Percent * m / 100), (Row.uses 4, lru4Percent * m / 100),
    (Row.uses 8, lru8Percent * m / 100), (Row.uses 16, lru16Percent * m / 100)]

def Cache.pages (cache : Cache) : List Row := cache.rows.filter (·.type = .read)

/-- The pages that are freed are the ones the policy leaves, and they are counted. -/
structure Cleaned (cache cache' : Cache) : Prop where
  policy : ∃ rest freed, Reserved (firstReservations cache.pages.length) cache.pages rest ∧
    Reserved (reservations rest.length) rest freed ∧
    cache'.rows = cache.rows.map (fun row => if row ∈ freed then row.freed else row) ∧
    cache'.freeDbPages = cache.freeDbPages + freed.length

/-- A table: the ids are positive and ascend. -/
structure Table (rows : List Row) : Prop where
  ascending : rows.Pairwise (·.id < ·.id)
  positive : ∀ row ∈ rows, 0 < row.id

/-- The flags that are computed are those of the page ids, times of last use are less than `2^31` apart, and ids below
`2^31`. -/
structure Faithful (rows : List Row) : Prop where
  first : ∀ row ∈ rows, row.type = .read → row.entry.isfirst = row.under firstPagesUnderId
  xfirst : ∀ row ∈ rows, row.type = .read → row.entry.isxfirst = row.under xfirstPagesUnderId
  near : ∀ row ∈ rows, ∀ row' ∈ rows, row.type = .read → row'.type = .read → row.lastuse - row'.lastuse < 2 ^ 31
  ids : ∀ row ∈ rows, row.id < 2 ^ 31

/-! ## The comparisons are orders -/

variable {entries : List Entry} {rows pages : List Row} {qsort : (Entry → Entry → ℤ) → List Entry → List Entry}

def Entry.firstPages (e : Entry) : Key := key e.isfirst (!e.isfirst && e.isxfirst) e.lastuse
def Entry.xfirstPages (e : Entry) : Key := key e.isxfirst false e.lastuse
def Entry.uses (uses : ℕ) (e : Entry) : Key := key (uses ≤ e.usecnt) false e.lastuse

theorem key_lt {first first' second second' : Bool} {lastuse lastuse' : ℤ} :
    key first second lastuse < key first' second' lastuse' ↔
      first < first' ∨ first = first' ∧ (second < second' ∨ second = second' ∧ lastuse < lastuse') := by
  unfold key
  rw [Prod.Lex.toLex_lt_toLex, Prod.Lex.toLex_lt_toLex]

/-- Times that are near enough for the difference to fit in an `int`. -/
def Near (entries : List Entry) : Prop := ∀ a ∈ entries, ∀ b ∈ entries, a.lastuse - b.lastuse < 2 ^ 31

theorem Near.cmpLastuse (h : Near entries) {a b : Entry} (ha : a ∈ entries) (hb : b ∈ entries) :
    cmpLastuse a b = a.lastuse - b.lastuse := by
  have hab := h a ha b hb
  have hba := h b hb a ha
  exact Int.bmod_eq_of_le (by omega) (by omega)

theorem sub_neg_iff {a b : ℤ} : a - b < 0 ↔ a < b := by omega

theorem byKey_firstPages (h : Near entries) : ByKey cmpFirstPages Entry.firstPages entries := by
  intro a ha b hb
  unfold cmpFirstPages Entry.firstPages
  rw [key_lt, key_lt, h.cmpLastuse ha hb]
  cases a.isfirst <;> cases b.isfirst <;> cases a.isxfirst <;> cases b.isxfirst <;> simp [sub_neg_iff]

theorem byKey_xfirstPages (h : Near entries) : ByKey cmpXfirstPages Entry.xfirstPages entries := by
  intro a ha b hb
  unfold cmpXfirstPages Entry.xfirstPages
  rw [key_lt, key_lt, h.cmpLastuse ha hb]
  cases a.isxfirst <;> cases b.isxfirst <;> simp [sub_neg_iff]

theorem byKey_uses (h : Near entries) (uses : ℕ) : ByKey (cmpUsecntLastuse uses) (Entry.uses uses) entries := by
  intro a ha b hb
  unfold cmpUsecntLastuse Entry.uses
  rw [key_lt, key_lt, h.cmpLastuse ha hb]
  have hlt : ∀ e : Entry, e.usecnt < uses ↔ ¬uses ≤ e.usecnt := fun _ => Nat.not_le.symm
  simp only [hlt]
  by_cases hua : uses ≤ a.usecnt <;> by_cases hub : uses ≤ b.usecnt <;> simp [hua, hub, sub_neg_iff]

theorem byKey_lastuse (h : Near entries) : ByKey cmpLastuse (Entry.uses 0) entries := by
  intro a ha b hb
  unfold Entry.uses
  rw [key_lt, key_lt, h.cmpLastuse ha hb]
  simp [sub_neg_iff]

theorem byKey_id (h : ∀ e ∈ entries, e.id < 2 ^ 31) : ByKey cmpId Entry.id entries := by
  intro a ha b hb
  have hla := h a ha
  have hlb := h b hb
  have hsa : s32 a.id = a.id := Int.bmod_eq_of_le (by omega) (by omega)
  have hsb : s32 b.id = b.id := Int.bmod_eq_of_le (by omega) (by omega)
  have hs : s32 ((a.id : ℤ) - b.id) = a.id - b.id := Int.bmod_eq_of_le (by omega) (by omega)
  unfold cmpId
  rw [hsa, hsb, hs]
  omega

/-! ## The entries are those of the pages -/

/-- The entries of the pages among some rows. -/
def entriesOf (rows : List Row) : List Entry := (rows.filter (·.type = .read)).map Row.entry

theorem entriesOf_append {rows' : List Row} : entriesOf (rows ++ rows') = entriesOf rows ++ entriesOf rows' := by
  unfold entriesOf
  rw [List.filter_append, List.map_append]

theorem length_entriesOf : (entriesOf rows).length ≤ rows.length := by
  unfold entriesOf
  rw [List.length_map]
  exact List.length_filter_le _ _

theorem length_lt_of_pairwise {l : List ℕ} {b x : ℕ} (h : (l ++ [x]).Pairwise (· < ·)) (hb : ∀ y ∈ l ++ [x], b < y) :
    l.length + b < x := by
  induction l generalizing b with
  | nil =>
    have := hb x (List.mem_singleton_self x)
    rwa [List.length_nil, Nat.zero_add]
  | cons y l ih =>
    obtain ⟨hy, hrest⟩ := List.pairwise_cons.mp h
    have hlt := ih hrest hy
    have hby := hb y (.head _)
    rw [List.length_cons]
    omega

/-- There are fewer rows before one than its id. -/
theorem Table.length_lt {before after : List Row} {row : Row} (h : Table (before ++ row :: after)) : before.length < row.id := by
  have hmap : ∀ id ∈ before.map Row.id ++ [row.id], 0 < id := fun id hid => by
    rcases List.mem_append.mp hid with hid | hid
    · obtain ⟨r, hr, rfl⟩ := List.mem_map.mp hid
      exact h.positive r (List.mem_append_left _ hr)
    · cases List.mem_singleton.mp hid
      exact h.positive row (List.mem_append_right _ (.head _))
  have hsub : (before ++ [row]).Pairwise (·.id < ·.id) := by
    have := h.ascending
    rw [List.append_cons] at this
    exact (List.pairwise_append.mp this).1
  have := length_lt_of_pairwise (l := before.map Row.id) (x := row.id) (b := 0) (by
    have := List.pairwise_map.mpr hsub
    rwa [List.map_append] at this) hmap
  rwa [List.length_map, Nat.add_zero] at this

/-- The last of some rows has the highest id. -/
theorem id_le_getLast (h : rows.Pairwise (·.id < ·.id)) (hne : rows ≠ []) {row : Row} (hrow : row ∈ rows) :
    row.id ≤ (rows.getLast hne).id := by
  rw [← List.dropLast_append_getLast hne] at h hrow
  rcases List.mem_append.mp hrow with hrow | hrow
  · exact Nat.le_of_lt ((List.pairwise_append.mp h).2.2 row hrow _ (List.mem_singleton_self _))
  · exact Nat.le_of_eq (congrArg Row.id (List.mem_singleton.mp hrow))

theorem readRows_eq {cnt e : ℕ} {before batch after : List Row} (htable : Table (before ++ batch ++ after))
    (hcnt : ∀ row ∈ batch, row.id ≤ cnt) :
    readRows cnt batch e (entriesOf before) = ((batch.getLast?.map Row.id).getD e, entriesOf (before ++ batch)) := by
  induction batch generalizing before e with
  | nil =>
    unfold readRows
    rw [List.append_nil]
    rfl
  | cons row batch ih =>
    have hlt : before.length < row.id := by
      rw [List.append_assoc] at htable
      exact htable.length_lt
    have hmore : ¬cnt ≤ (entriesOf before).length := by
      have := @length_entriesOf before
      have := hcnt row (.head _)
      omega
    have hnext : (if row.type = .read then entriesOf before ++ [row.entry] else entriesOf before) = entriesOf (before ++ [row]) := by
      rw [entriesOf_append]
      split
      next hread => rw [entriesOf, entriesOf, List.filter_singleton, decide_eq_true hread]; rfl
      next hother => rw [entriesOf, entriesOf, List.filter_singleton, decide_eq_false hother]; simp
    unfold readRows
    rw [if_neg hmore, hnext, ih, List.append_assoc, List.singleton_append, List.getLast?_cons]
    · cases batch.getLast? <;> rfl
    · rwa [List.append_assoc before, List.singleton_append]
    · exact fun r hr => hcnt r (.tail _ hr)

theorem readEntries_eq {cnt fuel e : ℕ} {before after : List Row} (htable : Table (before ++ after))
    (hbefore : ∀ row ∈ before, row.id ≤ e) (hafter : ∀ row ∈ after, e < row.id) (hcnt : ∀ row ∈ after, row.id ≤ cnt)
    (hfuel : after.length < fuel) :
    readEntries (before ++ after) cnt fuel e (entriesOf before) = entriesOf (before ++ after) := by
  induction fuel generalizing before after e with
  | zero => exact absurd hfuel (Nat.not_lt_zero _)
  | succ fuel ih =>
    have hrows : (before ++ after).filter (fun row => e < row.id) = after := by
      rw [List.filter_append, List.filter_eq_nil_iff.mpr fun row hrow => by
          rw [decide_eq_true_eq]
          exact Nat.not_lt_of_le (hbefore row hrow),
        List.filter_eq_self.mpr fun row hrow => decide_eq_true (hafter row hrow), List.nil_append]
    unfold readEntries
    split
    next henough =>
      cases after with
      | nil => rw [List.append_nil]
      | cons row after =>
        have := htable.length_lt
        have := @length_entriesOf before
        have := hcnt row (.head _)
        omega
    next hmore =>
      rw [hrows]
      split
      next hnil =>
        have : after = [] := by
          cases after with
          | nil => rfl
          | cons => cases hnil
        rw [this, List.append_nil]
      next row rows hbatch =>
        have hsplit : after = (row :: rows) ++ after.drop 5000 := by rw [← hbatch, List.take_append_drop]
        have hlast : (row :: rows).getLast? = some ((row :: rows).getLast (List.cons_ne_nil _ _)) := List.getLast?_eq_getLast_of_ne_nil _
        have hmem : ∀ r ∈ row :: rows, r ∈ after := fun r hr => List.mem_of_mem_take (hbatch ▸ hr)
        have htable' : Table ((before ++ (row :: rows)) ++ after.drop 5000) := by
          rw [List.append_assoc, ← hsplit]
          exact htable
        simp only
        rw [readRows_eq htable' fun r hr => hcnt r (hmem r hr), hlast, Option.map_some, Option.getD_some]
        have hall : before ++ after = (before ++ (row :: rows)) ++ after.drop 5000 := by rw [List.append_assoc, ← hsplit]
        have hne : before ++ (row :: rows) ≠ [] := List.append_ne_nil_of_right_ne_nil _ (List.cons_ne_nil _ _)
        have hends : (before ++ (row :: rows)).getLast hne = (row :: rows).getLast (List.cons_ne_nil _ _) :=
          List.getLast_append_of_ne_nil _ _
        obtain ⟨hfirst, _, hcross⟩ := List.pairwise_append.mp htable'.ascending
        rw [hall]
        refine ih htable' (fun r hr => hends ▸ id_le_getLast hfirst hne hr) (fun r hr => ?_)
          (fun r hr => hcnt r (List.mem_of_mem_drop hr)) ?_
        · exact hcross _ (List.mem_append_right _ (List.getLast_mem _)) r hr
        · have hlength := congrArg List.length hsplit
          rw [List.length_append, List.length_cons] at hlength
          omega

theorem le_maxId {row : Row} (hrow : row ∈ rows) : row.id ≤ maxId rows := by
  unfold maxId
  induction rows with
  | nil => cases hrow
  | cons r rows ih =>
    rw [List.map_cons, List.foldr_cons]
    rcases List.mem_cons.mp hrow with rfl | hrow
    · exact Nat.le_max_left _ _
    · exact Nat.le_trans (ih hrow) (Nat.le_max_right _ _)

/-- All pages are read. -/
theorem readEntries_all (htable : Table rows) : readEntries rows (maxId rows) (rows.length + 1) 0 [] = entriesOf rows :=
  @readEntries_eq _ _ _ [] rows htable nofun htable.positive (fun _ => le_maxId) (Nat.lt_succ_self _)

/-! ## What is cut off is what is reserved -/

/-- What is used of the pages, and of those that are left of them. -/
structure Fair (pages : List Row) : Prop where
  near : Near (pages.map Row.entry)
  first : ∀ row ∈ pages, row.entry.firstPages = row.firstPages
  xfirst : ∀ row ∈ pages, row.entry.xfirstPages = row.xfirstPages

theorem Faithful.fair {cache : Cache} (h : Faithful cache.rows) : Fair cache.pages where
  near a ha b hb := by
    obtain ⟨r, hr, rfl⟩ := List.mem_map.mp ha
    obtain ⟨r', hr', rfl⟩ := List.mem_map.mp hb
    obtain ⟨hr, hread⟩ := List.mem_filter.mp hr
    obtain ⟨hr', hread'⟩ := List.mem_filter.mp hr'
    exact h.near r hr r' hr' (of_decide_eq_true hread) (of_decide_eq_true hread')
  first row hrow := by
    obtain ⟨hrow, hread⟩ := List.mem_filter.mp hrow
    unfold Entry.firstPages Row.firstPages
    rw [h.first row hrow (of_decide_eq_true hread), h.xfirst row hrow (of_decide_eq_true hread)]
    rfl
  xfirst row hrow := by
    obtain ⟨hrow, hread⟩ := List.mem_filter.mp hrow
    unfold Entry.xfirstPages Row.xfirstPages
    rw [h.xfirst row hrow (of_decide_eq_true hread)]
    rfl

theorem uses_entry {uses : ℕ} (h : uses < 2 ^ 16) (row : Row) : row.entry.uses uses = row.uses uses := by
  unfold Entry.uses Row.uses Row.entry
  simp only
  congr 2
  apply propext
  split <;> omega

theorem Fair.rest {order : Row → Key} {k : ℕ} {rest kept : List Row} (h : Fair pages) (hkeep : Reserves order k pages rest kept) :
    Fair rest where
  near a ha b hb := by
    obtain ⟨r, hr, rfl⟩ := List.mem_map.mp ha
    obtain ⟨r', hr', rfl⟩ := List.mem_map.mp hb
    exact h.near _ (List.mem_map_of_mem (hkeep.mem_rest hr)) _ (List.mem_map_of_mem (hkeep.mem_rest hr'))
  first row hrow := h.first row (hkeep.mem_rest hrow)
  xfirst row hrow := h.xfirst row (hkeep.mem_rest hrow)

/-- The entries that are left after a cut are those of the pages that are left. -/
theorem cut_reserves (hsort : Sorts qsort) {cmp : Entry → Entry → ℤ} {order : Entry → Key} {order' : Row → Key} {k : ℕ}
    (hkey : ByKey cmp order (pages.map Row.entry)) (horder : ∀ row ∈ pages, order row.entry = order' row) (hk : k ≤ pages.length) :
    ∃ rest kept, rest.map Row.entry = cut qsort cmp k (pages.map Row.entry) ∧ Reserves order' k pages rest kept :=
  (reserves_of_sorts hsort hkey (by rwa [List.length_map])).of_map horder

theorem cut_uses (hsort : Sorts qsort) (h : Fair pages) {uses k : ℕ} (huses : uses < 2 ^ 16) (hk : k ≤ pages.length) :
    ∃ rest kept, rest.map Row.entry = cut qsort (cmpUsecntLastuse uses) k (pages.map Row.entry) ∧
      Reserves (Row.uses uses) k pages rest kept :=
  cut_reserves hsort (byKey_uses h.near uses) (fun row _ => uses_entry huses row) hk

/-- The entries that are freed are those of the pages that the policy leaves. -/
theorem evicted_reserved (hsort : Sorts qsort) (h : Fair pages) :
    ∃ rest freed, Reserved (firstReservations pages.length) pages rest ∧ Reserved (reservations rest.length) rest freed ∧
      (evicted qsort (pages.map Row.entry)).Perm (freed.map Row.entry) := by
  obtain ⟨r₁, k₁, h₁, hr₁⟩ := cut_reserves hsort (k := lruFirstPagesPercent * pages.length / 100) (byKey_firstPages h.near)
    h.first (by unfold lruFirstPagesPercent; omega)
  have hn := hr₁.length_rest
  have hf₁ := h.rest hr₁
  obtain ⟨r₂, k₂, h₂, hr₂⟩ := cut_reserves hsort (k := lruXfirstPagesPercent * pages.length / 100) (byKey_xfirstPages hf₁.near)
    hf₁.xfirst (by unfold lruFirstPagesPercent at hn; unfold lruXfirstPagesPercent; omega)
  have hf₂ := hf₁.rest hr₂
  obtain ⟨r₃, k₃, h₃, hr₃⟩ := cut_reserves hsort (k := lruPercent * r₂.length / 100) (byKey_lastuse hf₂.near)
    (fun row _ => uses_entry (by decide) row) (by unfold lruPercent; omega)
  have hm₃ := hr₃.length_rest
  have hf₃ := hf₂.rest hr₃
  unfold lruPercent at hm₃
  obtain ⟨r₄, k₄, h₄, hr₄⟩ := @cut_uses _ _ hsort hf₃ 2 (lru2Percent * r₂.length / 100) (by decide)
    (by unfold lru2Percent; omega)
  have hm₄ := hr₄.length_rest
  have hf₄ := hf₃.rest hr₄
  unfold lru2Percent at hm₄
  obtain ⟨r₅, k₅, h₅, hr₅⟩ := @cut_uses _ _ hsort hf₄ 4 (lru4Percent * r₂.length / 100) (by decide)
    (by unfold lru4Percent; omega)
  have hm₅ := hr₅.length_rest
  have hf₅ := hf₄.rest hr₅
  unfold lru4Percent at hm₅
  obtain ⟨r₆, k₆, h₆, hr₆⟩ := @cut_uses _ _ hsort hf₅ 8 (lru8Percent * r₂.length / 100) (by decide)
    (by unfold lru8Percent; omega)
  have hm₆ := hr₆.length_rest
  have hf₆ := hf₅.rest hr₆
  unfold lru8Percent at hm₆
  obtain ⟨r₇, k₇, h₇, hr₇⟩ := @cut_uses _ _ hsort hf₆ 16 (lru16Percent * r₂.length / 100) (by decide)
    (by unfold lru16Percent; omega)
  refine ⟨r₂, r₇, .next hr₁ (.next hr₂ .done), .next hr₃ (.next hr₄ (.next hr₅ (.next hr₆ (.next hr₇ .done)))), ?_⟩
  unfold evicted
  simp only [List.length_map]
  rw [← h₁, ← h₂, List.length_map, ← h₃]
  unfold cmpUsecntLastuse2 cmpUsecntLastuse4 cmpUsecntLastuse8 cmpUsecntLastuse16
  rw [← h₄, ← h₅, ← h₆, ← h₇]
  exact hsort.perm _ _

/-! ## The pages are freed -/

/-- The rows with the ids of some entries are freed, and each is counted. -/
theorem foldl_free {cache : Cache} :
    entries.foldl Cache.free cache =
      ⟨cache.rows.map fun row => if row.id ∈ entries.map Entry.id then row.freed else row, cache.freeDbPages + entries.length⟩ := by
  induction entries generalizing cache with
  | nil => simp
  | cons e entries ih =>
    rw [List.foldl_cons, ih]
    unfold Cache.free
    simp only [List.map_map, List.map_cons, List.length_cons]
    congr 1
    · refine List.map_congr_left fun row _ => ?_
      by_cases hid : row.id = e.id
      · simp [hid, Row.freed]
      · simp [hid]
    · omega

theorem Reserved.mem {rs : List ((Row → Key) × ℕ)} {freed : List Row} (h : Reserved rs pages freed) {row : Row}
    (hrow : row ∈ freed) : row ∈ pages := by
  induction h with
  | done => exact hrow
  | next hkeep _ ih => exact hkeep.mem_rest (ih hrow)

theorem Table.eq_of_id (h : Table rows) {row row' : Row} (hrow : row ∈ rows) (hrow' : row' ∈ rows) (hid : row.id = row'.id) :
    row = row' := by
  obtain ⟨i, hi, rfl⟩ := List.getElem_of_mem hrow
  obtain ⟨j, hj, rfl⟩ := List.getElem_of_mem hrow'
  have hpairs := List.pairwise_iff_getElem.mp h.ascending
  rcases Nat.lt_trichotomy i j with hlt | rfl | hlt
  · exact absurd hid (Nat.ne_of_lt (hpairs i j hi hj hlt))
  · rfl
  · exact absurd hid.symm (Nat.ne_of_lt (hpairs j i hj hi hlt))

theorem evicted_nil (hsort : Sorts qsort) : evicted qsort [] = [] := by
  obtain ⟨rest, freed, hrest, hfreed, hperm⟩ := @evicted_reserved [] _ hsort ⟨nofun, nofun, nofun⟩
  have : freed = [] := List.eq_nil_iff_forall_not_mem.mpr fun row hrow => nomatch hrest.mem (hfreed.mem hrow)
  rw [this] at hperm
  exact hperm.eq_nil

theorem cleanCache_eq {cache : Cache} (hsort : Sorts qsort) (htable : Table cache.rows) :
    cleanCache qsort cache = (evicted qsort (cache.pages.map Row.entry)).foldl Cache.free cache := by
  unfold cleanCache
  simp only
  split
  next hzero =>
    have hrows : cache.rows = [] := by
      refine List.eq_nil_iff_forall_not_mem.mpr fun row hrow => ?_
      have := htable.positive row hrow
      have := le_maxId hrow
      omega
    have hpages : cache.pages = [] := by rw [Cache.pages, hrows, List.filter_nil]
    rw [hpages, List.map_nil, evicted_nil hsort, List.foldl_nil]
  · rw [readEntries_all htable]
    rfl

theorem entry_id (h : Faithful rows) {row : Row} (hrow : row ∈ rows) : row.entry.id = row.id :=
  u32_of_lt (Nat.lt_trans (h.ids row hrow) (by decide))

theorem comparisons_consistent {cache : Cache} (h : Faithful cache.rows) :
    ∀ cmp ∈ comparisons, Consistent cmp (cache.pages.map Row.entry) := by
  have hnear := h.fair.near
  have hid : ByKey cmpId Entry.id (cache.pages.map Row.entry) := byKey_id fun e he => by
    obtain ⟨row, hrow, rfl⟩ := List.mem_map.mp he
    have hrow := (List.mem_filter.mp hrow).1
    rw [entry_id h hrow]
    exact h.ids row hrow
  intro cmp hcmp
  unfold comparisons at hcmp
  simp only [List.mem_cons, List.not_mem_nil, or_false] at hcmp
  rcases hcmp with rfl | rfl | rfl | rfl | rfl | rfl | rfl | rfl
  · exact (byKey_lastuse hnear).consistent
  · exact (byKey_uses hnear 2).consistent
  · exact (byKey_uses hnear 4).consistent
  · exact (byKey_uses hnear 8).consistent
  · exact (byKey_uses hnear 16).consistent
  · exact hid.consistent
  · exact (byKey_firstPages hnear).consistent
  · exact (byKey_xfirstPages hnear).consistent

/-- Seven pages of a file with times of last use as they are, of which the first page is the oldest. -/
def Cache.seven (pageid : ℕ → ℕ) (lastuse : ℕ → ℤ) : Cache :=
  ⟨(List.range 7).map fun i => ⟨i + 1, some 5, some (pageid i), some 0, lastuse i, 1, .read⟩, 0⟩

/-- The first page of the file is the oldest, and the others are no first pages. -/
def Cache.oldest : Cache := .seven (1000 * ·) (1600000000 + ·)

def Row.oldest : Row := ⟨1, some 5, some 0, some 0, 1600000000, 1, .read⟩

end Pclsync.PageCache.Eviction
