import Pclsync.Delta.Checksums
import Pclsync.Delta.Download
import Pclsync.Lib.Shifting
import Mathlib.NumberTheory.Bertrand

/-! The blocks of a remote file that are found: the chains of equal blocks, and the removal of what is found from the table. -/
namespace Pclsync.Delta.HashChains
open Lib.Files Lib.Machine Lib.Shifting
open Lib.Probing (next_mod exists_offset offset_unique)

/-! ### The code -/

/-- The slot for a block in `psync_net_create_hash`. -/
def slotOf (hash : ChecksumHash) (cs : Checksums) (block : BlockChecksum) : Option ℕ :=
  let o := block.adler % hash.elementcnt
  if hash.elements.getD o 0 ≠ 0 then findSlot hash cs block (maxAdlerColl + 1) o else some o

/-- A round of the loop of `psync_net_create_hash`, with `checksums->next`. -/
def insertChained (cs : Checksums) (table : ChecksumHash × (ℕ → ℕ)) (i : ℕ) : ChecksumHash × (ℕ → ℕ) :=
  match cs.blocks[i]? with
  | none => table
  | some block =>
    match slotOf table.1 cs block with
    | none => table
    | some o =>
      let idx := table.1.elements.getD o 0
      -- a slot that is taken is that of an equal block
      let next := if idx ≠ 0 then Function.update table.2 i idx else table.2
      (⟨table.1.elements.set o (i + 1)⟩, next)

def emptyTable (cs : Checksums) : ChecksumHash := ⟨List.replicate (hashSize cs.blockcnt) 0⟩

/-- `psync_net_create_hash` up to round `n`. -/
def createUpTo (cs : Checksums) (n : ℕ) : ChecksumHash × (ℕ → ℕ) := (List.range n).foldl (insertChained cs) (emptyTable cs, fun _ => 0)

/-- `psync_net_create_hash`, and what it makes of `checksums->next`. -/
def createChained (cs : Checksums) : ChecksumHash × (ℕ → ℕ) := createUpTo cs cs.blockcnt

/-- `checksums->blocks[idx-1].adler` -/
def adlerOf (cs : Checksums) (idx : ℕ) : ℕ := ((cs.blocks[idx - 1]?).map BlockChecksum.adler).getD 0

/-- `checksums->blocks[idx-1].sha1` -/
def sha1Of (cs : Checksums) (idx : ℕ) : Bytes := ((cs.blocks[idx - 1]?).map BlockChecksum.sha1).getD []

/-- The first loop of `psync_net_hash_remove`: the slot of an entry, or nothing at a free one. -/
def slotFor (hash : ChecksumHash) (cs : Checksums) (adler : ℕ) (sha1 : Bytes) : (fuel o : ℕ) → Option (Option ℕ)
  | 0, _ => none
  | fuel + 1, o =>
    let idx := hash.elements.getD o 0
    if idx = 0 then some none
    else if adlerOf cs idx = adler ∧ sha1Of cs idx = sha1 then some (some o)
    else slotFor hash cs adler sha1 fuel (hash.nextSlot o)

/-- The inner loop of `psync_net_hash_remove`: `bp` comes to `zeroidx`, or to `o`. -/
def onPath (hash : ChecksumHash) (zeroidx o : ℕ) : (fuel bp : ℕ) → Option Bool
  | 0, _ => none
  | fuel + 1, bp => if bp = zeroidx then some true else if bp = o then some false else onPath hash zeroidx o fuel (hash.nextSlot bp)

/-- The second loop of `psync_net_hash_remove`. -/
def closeHole (cs : Checksums) : (fuel : ℕ) → (hash : ChecksumHash) → (zeroidx o : ℕ) → Option ChecksumHash
  | 0, _, _, _ => none
  | fuel + 1, hash, zeroidx, o =>
    let o := hash.nextSlot o
    let idx := hash.elements.getD o 0
    if idx = 0 then some hash
    else
      let bp := adlerOf cs idx % hash.elementcnt
      if bp ≠ o then
        match onPath hash zeroidx o hash.elementcnt bp with
        | none => none
        | some true => closeHole cs fuel ⟨(hash.elements.set zeroidx idx).set o 0⟩ o o
        | some false => closeHole cs fuel hash zeroidx o
      else closeHole cs fuel hash zeroidx o

/-- `psync_net_hash_remove`. -/
def hashRemove (hash : ChecksumHash) (cs : Checksums) (adler : ℕ) (sha1 : Bytes) : Option ChecksumHash :=
  match slotFor hash cs adler sha1 hash.elementcnt (adler % hash.elementcnt) with
  | none => none
  | some none => some hash
  | some (some o) => closeHole cs hash.elementcnt ⟨hash.elements.set o 0⟩ o o

/-- The table and `blockactions`. -/
structure Matching where
  hash : ChecksumHash
  blockactions : ℕ → BlockAction

/-- The loop of `psync_net_block_match_found`. -/
def markChain (next : ℕ → ℕ) (action : BlockAction) : (fuel cidx : ℕ) → (ℕ → BlockAction) → Option (ℕ → BlockAction)
  | 0, _, _ => none
  | fuel + 1, cidx, blockactions =>
    let blockactions := Function.update blockactions cidx action
    if next cidx ≠ 0 then markChain next action fuel (next cidx - 1) blockactions else some blockactions

/-- `psync_net_block_match_found`. -/
def blockMatchFound (cs : Checksums) (next : ℕ → ℕ) (m : Matching) (idx fileidx fileoffset : ℕ) : Option Matching :=
  let cidx := idx - 1
  if (m.blockactions cidx).type ≠ .transfer then some m
  else
    (markChain next ⟨fileoffset, fileidx, .copy⟩ cs.blockcnt cidx m.blockactions).bind fun blockactions =>
      (hashRemove m.hash cs (adlerOf cs idx) (sha1Of cs idx)).map fun hash => ⟨hash, blockactions⟩

/-- The calls of `psync_net_block_match_found` on entries that a search found, from the new table on, and the classes they were for. -/
inductive Reachable (cs : Checksums) : List Bytes → Matching → Prop where
  | start {blockactions : ℕ → BlockAction} : (∀ i, (blockactions i).type = .transfer) → Reachable cs [] ⟨(createChained cs).1, blockactions⟩
  | found {matched : List Bytes} {m m' : Matching} {adler idx fileidx fileoffset : ℕ} {sha1 : Bytes} : Reachable cs matched m →
    hashHasAdlerAndSha1 m.hash cs adler sha1 = some idx → idx ≠ 0 →
    blockMatchFound cs (createChained cs).2 m idx fileidx fileoffset = some m' → Reachable cs (sha1 :: matched) m'

/-! ### The table as a function -/

variable {cs : Checksums} {hash hash' : ChecksumHash} {block : BlockChecksum} {next next' : ℕ → ℕ} {i j n o e a idx fuel adler zeroidx : ℕ} {sha1 : Bytes}
  {chain : List ℕ} {table : ℕ → ℕ}

def slots (hash : ChecksumHash) : ℕ → ℕ := fun o => hash.elements.getD o 0

/-- Where the search for an entry starts. -/
def homeOf (cs : Checksums) (size idx : ℕ) : ℕ := adlerOf cs idx % size

theorem slots_set (ho : o < hash.elementcnt) (v : ℕ) :
    slots ⟨hash.elements.set o v⟩ = Function.update (slots hash) o v := by
  funext j
  unfold slots
  by_cases hj : j = o
  · rw [hj, Function.update_self, List.getD_eq_getElem?_getD, List.getElem?_set_self ho, Option.getD_some]
  · rw [Function.update_of_ne hj, List.getD_eq_getElem?_getD, List.getElem?_set_ne (Ne.symm hj), List.getD_eq_getElem?_getD]

theorem onPath_eq : onPath hash zeroidx o fuel a = onWay hash.elementcnt zeroidx o fuel a := by
  induction fuel generalizing a with
  | zero => rfl
  | succ fuel ih =>
    rw [onPath, onWay, ih]
    rfl

theorem elementcnt_set {v : ℕ} : ChecksumHash.elementcnt ⟨hash.elements.set o v⟩ = hash.elementcnt := List.length_set

theorem closeHole_succ : closeHole cs (fuel + 1) hash zeroidx o =
    if slots hash (hash.nextSlot o) = 0 then some hash
    else if homeOf cs hash.elementcnt (slots hash (hash.nextSlot o)) ≠ hash.nextSlot o then
      match onPath hash zeroidx (hash.nextSlot o) hash.elementcnt (homeOf cs hash.elementcnt (slots hash (hash.nextSlot o))) with
      | none => none
      | some true => closeHole cs fuel ⟨(hash.elements.set zeroidx (slots hash (hash.nextSlot o))).set (hash.nextSlot o) 0⟩ (hash.nextSlot o)
          (hash.nextSlot o)
      | some false => closeHole cs fuel hash zeroidx (hash.nextSlot o)
    else closeHole cs fuel hash zeroidx (hash.nextSlot o) := rfl

theorem nextSlot_lt (hpos : 0 < hash.elementcnt) : hash.nextSlot o < hash.elementcnt := by
  unfold ChecksumHash.nextSlot
  split_ifs <;> omega

theorem closeHole_eq (hz : zeroidx < hash.elementcnt) (h : shiftBack hash.elementcnt (homeOf cs hash.elementcnt) fuel (slots hash) zeroidx o =
    some table) : ∃ hash', closeHole cs fuel hash zeroidx o = some hash' ∧ slots hash' = table ∧ hash'.elementcnt = hash.elementcnt := by
  induction fuel generalizing hash zeroidx o with
  | zero => cases h
  | succ fuel ih =>
    have hlt : hash.nextSlot o < hash.elementcnt := nextSlot_lt (by omega)
    have hnext : Lib.Probing.next hash.elementcnt o = hash.nextSlot o := rfl
    rw [shiftBack, hnext] at h
    rw [closeHole_succ, onPath_eq]
    split_ifs at h ⊢ with hidx hhome
    · exact ⟨hash, rfl, Option.some.inj h, rfl⟩
    · cases hway : onWay hash.elementcnt zeroidx (hash.nextSlot o) hash.elementcnt
        (homeOf cs hash.elementcnt (slots hash (hash.nextSlot o))) with
      | none =>
        rw [hway] at h
        cases h
      | some on =>
        rw [hway] at h
        cases on with
        | false => exact ih hz h
        | true =>
          have hcnt : ChecksumHash.elementcnt ⟨(hash.elements.set zeroidx (slots hash (hash.nextSlot o))).set (hash.nextSlot o) 0⟩ =
              hash.elementcnt := elementcnt_set.trans elementcnt_set
          have hslots : slots ⟨(hash.elements.set zeroidx (slots hash (hash.nextSlot o))).set (hash.nextSlot o) 0⟩ =
              Function.update (Function.update (slots hash) zeroidx (slots hash (hash.nextSlot o))) (hash.nextSlot o) 0 := by
            rw [← slots_set hz]
            exact slots_set (hlt.trans_eq elementcnt_set.symm) 0
          have hspec := @ih ⟨(hash.elements.set zeroidx (slots hash (hash.nextSlot o))).set (hash.nextSlot o) 0⟩ _ _
            (hlt.trans_eq hcnt.symm) (by rw [hcnt, hslots]; exact h)
          rw [hcnt] at hspec
          exact hspec
    · exact ih hz h

/-! ### Searches -/

/-- A slot's block passes. -/
def Passes (cs : Checksums) (pass : BlockChecksum → Bool) (idx : ℕ) : Prop := (cs.blocks[idx - 1]?).any pass = true

variable {pass : BlockChecksum → Bool}

theorem nextSlot_mod (hpos : 0 < hash.elementcnt) : hash.nextSlot (a % hash.elementcnt) = (a + 1) % hash.elementcnt := next_mod hpos

theorem probe_spec (hpos : 0 < hash.elementcnt) (h : probe hash cs pass fuel (a % hash.elementcnt) = some idx) :
    ∃ e o, Sought hash.elementcnt (slots hash) (Passes cs pass) a e o ∧ slots hash o = idx := by
  induction fuel generalizing a with
  | zero => cases h
  | succ fuel ih =>
    rw [probe, nextSlot_mod hpos] at h
    split_ifs at h with hzero hpass
    · exact ⟨0, _, .here (Or.inl hzero), hzero.trans (Option.some.inj h)⟩
    · exact ⟨0, _, .here (Or.inr hpass), Option.some.inj h⟩
    · obtain ⟨e, o, hsought, ho⟩ := ih h
      exact ⟨e + 1, o, hsought.later hzero hpass, ho⟩

theorem slotFor_spec (hpos : 0 < hash.elementcnt) :
    match slotFor hash cs adler sha1 fuel (a % hash.elementcnt) with
    | none => ∀ e < fuel, slots hash ((a + e) % hash.elementcnt) ≠ 0
    | some none => ∃ e o, Sought hash.elementcnt (slots hash) (fun idx => adlerOf cs idx = adler ∧ sha1Of cs idx = sha1) a e o ∧ slots hash o = 0
    | some (some o) => ∃ e, Sought hash.elementcnt (slots hash) (fun idx => adlerOf cs idx = adler ∧ sha1Of cs idx = sha1) a e o ∧
        slots hash o ≠ 0 ∧ adlerOf cs (slots hash o) = adler ∧ sha1Of cs (slots hash o) = sha1 := by
  induction fuel generalizing a with
  | zero => exact nofun
  | succ fuel ih =>
    rw [slotFor, nextSlot_mod hpos]
    by_cases hzero : hash.elements.getD (a % hash.elementcnt) 0 = 0
    · rw [if_pos hzero]
      exact ⟨0, _, .here (Or.inl hzero), hzero⟩
    · rw [if_neg hzero]
      by_cases hmatch : adlerOf cs (hash.elements.getD (a % hash.elementcnt) 0) = adler ∧ sha1Of cs (hash.elements.getD (a % hash.elementcnt) 0) = sha1
      · rw [if_pos hmatch]
        exact ⟨0, .here (Or.inr hmatch), hzero, hmatch⟩
      · rw [if_neg hmatch]
        have hrest := ih (a := a + 1)
        cases hslot : slotFor hash cs adler sha1 fuel ((a + 1) % hash.elementcnt) with
        | none =>
          rw [hslot] at hrest
          intro e he
          cases e with
          | zero => exact hzero
          | succ e =>
            rw [← Nat.add_assoc, Nat.add_right_comm]
            exact hrest e (Nat.lt_of_succ_lt_succ he)
        | some found =>
          rw [hslot] at hrest
          cases found with
          | none =>
            obtain ⟨e, o, hsought, ho⟩ := hrest
            exact ⟨e + 1, o, hsought.later hzero hmatch, ho⟩
          | some o =>
            obtain ⟨e, hsought, ho⟩ := hrest
            exact ⟨e + 1, hsought.later hzero hmatch, ho⟩

/-- The blocks with the sha1 of a block. -/
def Same (cs : Checksums) (block : BlockChecksum) (idx : ℕ) : Prop := Passes cs (fun other => block.sha1 = other.sha1) idx

theorem findSlot_spec (hpos : 0 < hash.elementcnt) {left : ℕ} (hne : slots hash (a % hash.elementcnt) ≠ 0) :
    match findSlot hash cs block left (a % hash.elementcnt) with
    | none => ∀ e < left, slots hash ((a + e) % hash.elementcnt) ≠ 0 ∧ ¬Same cs block (slots hash ((a + e) % hash.elementcnt))
    | some o => ∃ e < left, Sought hash.elementcnt (slots hash) (Same cs block) a e o := by
  induction left generalizing a with
  | zero => exact nofun
  | succ left ih =>
    rw [findSlot, nextSlot_mod hpos]
    by_cases hsame : (cs.blocks[hash.elements.getD (a % hash.elementcnt) 0 - 1]?).any fun other => block.sha1 = other.sha1
    · rw [if_pos hsame]
      exact ⟨0, Nat.succ_pos _, .here (Or.inr hsame)⟩
    · rw [if_neg hsame]
      have hfirst : slots hash ((a + 0) % hash.elementcnt) ≠ 0 ∧ ¬Same cs block (slots hash ((a + 0) % hash.elementcnt)) := ⟨hne, hsame⟩
      by_cases hlast : left = 0
      · rw [if_pos hlast]
        intro e he
        obtain rfl : e = 0 := by omega
        exact hfirst
      · rw [if_neg hlast]
        by_cases hfree : hash.elements.getD ((a + 1) % hash.elementcnt) 0 ≠ 0
        · rw [if_pos hfree]
          have hrest := ih hfree
          cases hslot : findSlot hash cs block left ((a + 1) % hash.elementcnt) with
          | none =>
            rw [hslot] at hrest
            intro e he
            cases e with
            | zero => exact hfirst
            | succ e =>
              rw [← Nat.add_assoc, Nat.add_right_comm]
              exact hrest e (Nat.lt_of_succ_lt_succ he)
          | some o =>
            rw [hslot] at hrest
            obtain ⟨e, he, hsought⟩ := hrest
            exact ⟨e + 1, Nat.succ_lt_succ he, hsought.later hne hsame⟩
        · rw [if_neg hfree]
          exact ⟨1, by omega, .later hne hsame (.here (Or.inl (not_not.mp hfree)))⟩

/-- The slot for a block is at most 64 slots from its home, behind taken ones of other blocks. -/
theorem slotOf_spec (hpos : 0 < hash.elementcnt) :
    match slotOf hash cs block with
    | none => ∀ e ≤ maxAdlerColl, slots hash ((block.adler + e) % hash.elementcnt) ≠ 0 ∧
        ¬Same cs block (slots hash ((block.adler + e) % hash.elementcnt))
    | some o => ∃ e ≤ maxAdlerColl, Sought hash.elementcnt (slots hash) (Same cs block) block.adler e o := by
  rw [slotOf]
  by_cases hne : hash.elements.getD (block.adler % hash.elementcnt) 0 ≠ 0
  · simp only [if_pos hne]
    have hspec := @findSlot_spec cs _ block _ hpos (maxAdlerColl + 1) hne
    cases hslot : findSlot hash cs block (maxAdlerColl + 1) (block.adler % hash.elementcnt) with
    | none =>
      rw [hslot] at hspec
      exact fun e he => hspec e (Nat.lt_succ_of_le he)
    | some o =>
      rw [hslot] at hspec
      obtain ⟨e, he, hsought⟩ := hspec
      exact ⟨e, Nat.le_of_lt_succ he, hsought⟩
  · simp only [if_neg hne]
    exact ⟨0, Nat.zero_le _, .here (Or.inl (not_not.mp hne))⟩

/-! ### Classes of equal blocks -/

/-- From an entry on, the blocks in a chain. -/
def Chain (next : ℕ → ℕ) : ℕ → List ℕ → Prop
  | idx, [] => idx = 0
  | idx, i :: chain => idx = i + 1 ∧ Chain next (next i) chain

/-- The first `n` blocks with a sha1, the last of them first. -/
def classOf (cs : Checksums) (sha1 : Bytes) (n : ℕ) : List ℕ := ((List.range n).filter fun i => sha1Of cs (i + 1) = sha1).reverse

/-- Blocks are equal if their sha1 is. -/
def Uniform (cs : Checksums) : Prop := ∀ b ∈ cs.blocks, ∀ b' ∈ cs.blocks, b.sha1 = b'.sha1 → b.adler = b'.adler

/-- A block that is ignored for too many collisions. -/
def Dropped (cs : Checksums) (i : ℕ) : Prop := ∃ block, cs.blocks[i]? = some block ∧ slotOf (createUpTo cs i).1 cs block = none

theorem mem_classOf : i ∈ classOf cs sha1 n ↔ i < n ∧ sha1Of cs (i + 1) = sha1 := by
  simp [classOf]

theorem nodup_classOf : (classOf cs sha1 n).Nodup := List.nodup_reverse.mpr (List.nodup_range.filter _)

theorem length_classOf : (classOf cs sha1 n).length ≤ n := by
  rw [classOf, List.length_reverse]
  exact (List.length_filter_le ..).trans_eq List.length_range

theorem classOf_succ : classOf cs sha1 (n + 1) = if sha1Of cs (n + 1) = sha1 then n :: classOf cs sha1 n else classOf cs sha1 n := by
  rw [classOf, List.range_succ, List.filter_append, List.reverse_append]
  split_ifs with h
  · rw [List.filter_singleton, decide_eq_true h]
    rfl
  · rw [List.filter_singleton, decide_eq_false h]
    rfl

theorem Chain.update (h : Chain next idx chain) (hn : n ∉ chain) (v : ℕ) : Chain (Function.update next n v) idx chain := by
  induction chain generalizing idx with
  | nil => exact h
  | cons i chain ih =>
    obtain ⟨hidx, hrest⟩ := h
    rw [List.mem_cons, not_or] at hn
    refine ⟨hidx, ?_⟩
    rw [Function.update_of_ne (Ne.symm hn.1)]
    exact ih hrest hn.2

theorem block_at (hidx : idx ≠ 0) (hle : idx ≤ cs.blocks.length) :
    ∃ block ∈ cs.blocks, cs.blocks[idx - 1]? = some block ∧ sha1Of cs idx = block.sha1 ∧ adlerOf cs idx = block.adler := by
  have hlt : idx - 1 < cs.blocks.length := by omega
  have hget := List.getElem?_eq_getElem hlt
  refine ⟨cs.blocks[idx - 1], List.getElem_mem hlt, hget, ?_, ?_⟩
  · rw [sha1Of, hget]
    rfl
  · rw [adlerOf, hget]
    rfl

theorem same_iff (hidx : idx ≠ 0) (hle : idx ≤ cs.blocks.length) : Same cs block idx ↔ sha1Of cs idx = block.sha1 := by
  obtain ⟨other, -, hget, hsha1, -⟩ := block_at hidx hle
  rw [Same, Passes, hget, hsha1]
  simp [eq_comm]

theorem Uniform.adler_eq (h : Uniform cs) {idx' : ℕ} (hidx : idx ≠ 0) (hle : idx ≤ cs.blocks.length) (hidx' : idx' ≠ 0)
    (hle' : idx' ≤ cs.blocks.length) (heq : sha1Of cs idx = sha1Of cs idx') : adlerOf cs idx = adlerOf cs idx' := by
  obtain ⟨b, hb, -, hsha1, hadler⟩ := block_at hidx hle
  obtain ⟨b', hb', -, hsha1', hadler'⟩ := block_at hidx' hle'
  rw [hadler, hadler', h b hb b' hb' (by rw [← hsha1, heq, hsha1'])]

/-! ### Building the table -/

variable {size : ℕ}

/-- All slots that a block may have are taken by others. -/
def Full (cs : Checksums) (size : ℕ) (table : ℕ → ℕ) (idx : ℕ) : Prop :=
  ∀ e ≤ maxAdlerColl, table ((adlerOf cs idx + e) % size) ≠ 0 ∧ sha1Of cs (table ((adlerOf cs idx + e) % size)) ≠ sha1Of cs idx

/-- A class has its entry. -/
def HasEntry (cs : Checksums) (size : ℕ) (table : ℕ → ℕ) (sha1 : Bytes) : Prop := ∃ o < size, table o ≠ 0 ∧ sha1Of cs (table o) = sha1

/-- The table and the chains after `n` rounds. -/
structure Created (cs : Checksums) (size n : ℕ) (table next : ℕ → ℕ) : Prop where
  bound : ∀ o, table o ≤ n
  reaches : Reaches size (homeOf cs size) table
  unique : ∀ o < size, ∀ o' < size, table o ≠ 0 → table o' ≠ 0 → sha1Of cs (table o) = sha1Of cs (table o') → o = o'
  near : ∀ idx e, idx ≠ 0 → e < size → table ((homeOf cs size idx + e) % size) = idx → e ≤ maxAdlerColl
  chain : ∀ o < size, table o ≠ 0 → Chain next (table o) (classOf cs (sha1Of cs (table o)) n)
  cover : ∀ i < n, (Dropped cs i → Full cs size table (i + 1)) ∧ (¬Dropped cs i → HasEntry cs size table (sha1Of cs (i + 1)))
  fresh : ∀ i, n ≤ i → next i = 0

theorem created_empty : Created cs size 0 (fun _ => 0) fun _ => 0 where
  bound _ := Nat.le_refl 0
  reaches _ _ hidx _ h := absurd h.symm hidx
  unique _ _ _ _ h := absurd rfl h
  near _ _ hidx _ h := absurd h.symm hidx
  chain _ _ h := absurd rfl h
  cover _ h := absurd h (Nat.not_lt_zero _)
  fresh _ _ := rfl

theorem home_add (size idx e : ℕ) : (homeOf cs size idx + e) % size = (adlerOf cs idx + e) % size := Nat.mod_add_mod ..

/-- A class that has an entry has slots that are not taken by others. -/
theorem Created.not_full (h : Created cs size n table next) (hu : Uniform cs) (hn : n ≤ cs.blocks.length) (hidx : idx ≠ 0)
    (hle : idx ≤ cs.blocks.length) (hentry : HasEntry cs size table (sha1Of cs idx)) : ¬Full cs size table idx := by
  intro hfull
  obtain ⟨o, ho, hne, hsha1⟩ := hentry
  have hadler := hu.adler_eq hne ((h.bound o).trans hn) hidx hle hsha1
  obtain ⟨e, he, hat⟩ := exists_offset (homeOf cs size (table o)) ho
  have hnear := h.near (table o) e hne he (by rw [hat])
  rw [home_add, hadler] at hat
  have hother := (hfull e hnear).2
  rw [hat] at hother
  exact hother hsha1

/-- A round that ignores a block. -/
theorem Created.drop (h : Created cs size n table next) (hu : Uniform cs) (hn : n < cs.blocks.length) (hdropped : Dropped cs n)
    (hfull : Full cs size table (n + 1)) : Created cs size (n + 1) table next where
  bound o := Nat.le_succ_of_le (h.bound o)
  reaches := h.reaches
  unique := h.unique
  near := h.near
  chain o ho hne := by
    rw [classOf_succ, if_neg]
    · exact h.chain o ho hne
    · intro heq
      exact h.not_full hu (Nat.le_of_lt hn) (Nat.succ_ne_zero n) hn ⟨o, ho, hne, heq.symm⟩ hfull
  cover i hi := by
    rcases Nat.lt_succ_iff_lt_or_eq.mp hi with hlt | rfl
    · exact h.cover i hlt
    · exact ⟨fun _ => hfull, fun hnot => absurd hdropped hnot⟩
  fresh i hi := h.fresh i (Nat.le_of_succ_le hi)

/-- The class of a block that gets a free slot is new. -/
theorem Created.new_class (h : Created cs size n table next) (hu : Uniform cs) (hn : n < cs.blocks.length)
    (hs : Sought size table (fun idx => sha1Of cs idx = sha1Of cs (n + 1)) (adlerOf cs (n + 1)) e o) (he : e ≤ maxAdlerColl) (ho : o < size)
    (hfree : table o = 0) : ¬HasEntry cs size table (sha1Of cs (n + 1)) ∧ classOf cs (sha1Of cs (n + 1)) n = [] := by
  have hnone : ¬HasEntry cs size table (sha1Of cs (n + 1)) := by
    rintro ⟨slot, hslot, hne, hsha1⟩
    have hadler := hu.adler_eq hne ((h.bound slot).trans (Nat.le_of_lt hn)) (Nat.succ_ne_zero n) hn hsha1
    refine h.reaches.sought hs ho hslot hne ?_ hsha1 hfree
    rw [homeOf, Nat.mod_mod, hadler]
  refine ⟨hnone, List.eq_nil_iff_forall_not_mem.mpr fun i hi => ?_⟩
  obtain ⟨hin, hsha1⟩ := mem_classOf.mp hi
  obtain ⟨hfull, hentry⟩ := h.cover i hin
  rw [hsha1] at hentry
  have hfull := hfull (not_not.mp fun hnot => hnone (hentry hnot))
  have hadler := hu.adler_eq (Nat.succ_ne_zero i) (Nat.le_of_lt (Nat.lt_of_le_of_lt hin hn)) (Nat.succ_ne_zero n) hn hsha1
  have hat := (hfull e he).1
  rw [hadler, ← hs.slot] at hat
  exact hat hfree

/-- A round that puts a block into a slot, which is free or that of its class. -/
theorem Created.put (h : Created cs size n table next) (hu : Uniform cs) (hn : n < cs.blocks.length) (hdropped : ¬Dropped cs n)
    (hs : Sought size table (fun idx => sha1Of cs idx = sha1Of cs (n + 1)) (adlerOf cs (n + 1)) e o) (he : e ≤ maxAdlerColl) (hesize : e < size)
    (ho : o < size) : Created cs size (n + 1) (Function.update table o (n + 1)) (if table o ≠ 0 then Function.update next n (table o) else next) := by
  have hold : table o ≠ 0 → sha1Of cs (table o) = sha1Of cs (n + 1) := fun hne => hs.stop.resolve_left hne
  have hother : ∀ o' < size, o' ≠ o → table o' ≠ 0 → sha1Of cs (table o') ≠ sha1Of cs (n + 1) := by
    intro o' ho' hneq hne heq
    by_cases hfree : table o = 0
    · exact (h.new_class hu hn hs he ho hfree).1 ⟨o', ho', hne, heq⟩
    · exact hneq (h.unique o' ho' o ho hne hfree (heq.trans (hold hfree).symm))
  have htaken : ∀ j, table j ≠ 0 → Function.update table o (n + 1) j ≠ 0 := by
    intro j hj
    by_cases hjo : j = o
    · rw [hjo, Function.update_self]
      exact Nat.succ_ne_zero n
    · rw [Function.update_of_ne hjo]
      exact hj
  have hfind : ∀ idx e', idx ≠ 0 → e' < size → Function.update table o (n + 1) ((homeOf cs size idx + e') % size) = idx →
      (idx = n + 1 ∧ e' = e) ∨ table ((homeOf cs size idx + e') % size) = idx := by
    intro idx e' hidx he' hat
    by_cases hslot : (homeOf cs size idx + e') % size = o
    · rw [hslot, Function.update_self] at hat
      subst hat
      refine Or.inl ⟨rfl, ?_⟩
      rw [home_add] at hslot
      exact offset_unique he' hesize (hslot.trans hs.slot)
    · rw [Function.update_of_ne hslot] at hat
      exact Or.inr hat
  have hnot : n ∉ classOf cs (sha1Of cs (n + 1)) n := fun hmem => absurd (mem_classOf.mp hmem).1 (Nat.lt_irrefl n)
  refine ⟨fun j => ?_, fun idx e' hidx he' hat e₁ he₁ => ?_, fun j hj k hk hjne hkne heq => ?_, fun idx e' hidx he' hat => ?_, fun j hj hjne => ?_,
    fun i hi => ?_, fun i hi => ?_⟩
  · by_cases hj : j = o
    · rw [hj, Function.update_self]
    · rw [Function.update_of_ne hj]
      exact Nat.le_succ_of_le (h.bound j)
  · apply htaken
    rcases hfind idx e' hidx he' hat with ⟨rfl, rfl⟩ | hat
    · rw [home_add]
      exact (hs.before e₁ he₁).1
    · exact h.reaches idx e' hidx he' hat e₁ he₁
  · by_cases hjo : j = o
    · by_cases hko : k = o
      · rw [hjo, hko]
      · rw [hjo, Function.update_self, Function.update_of_ne hko] at heq
        rw [Function.update_of_ne hko] at hkne
        exact absurd heq.symm (hother k hk hko hkne)
    · rw [Function.update_of_ne hjo] at heq hjne
      by_cases hko : k = o
      · rw [hko, Function.update_self] at heq
        exact absurd heq (hother j hj hjo hjne)
      · rw [Function.update_of_ne hko] at heq hkne
        exact h.unique j hj k hk hjne hkne heq
  · rcases hfind idx e' hidx he' hat with ⟨-, rfl⟩ | hat
    · exact he
    · exact h.near idx e' hidx he' hat
  · by_cases hjo : j = o
    · rw [hjo, Function.update_self, classOf_succ, if_pos rfl]
      refine ⟨rfl, ?_⟩
      split_ifs with hfree
      · rw [Function.update_self]
        have hchain := h.chain o ho hfree
        rw [hold hfree] at hchain
        exact hchain.update hnot _
      · rw [h.fresh n (Nat.le_refl n), (h.new_class hu hn hs he ho (not_not.mp hfree)).2]
        rfl
    · rw [Function.update_of_ne hjo] at hjne ⊢
      rw [classOf_succ, if_neg (Ne.symm (hother j hj hjo hjne))]
      have hchain := h.chain j hj hjne
      split_ifs with hfree
      · exact hchain.update (fun hmem => absurd (mem_classOf.mp hmem).1 (Nat.lt_irrefl n)) _
      · exact hchain
  · rcases Nat.lt_succ_iff_lt_or_eq.mp hi with hlt | rfl
    · obtain ⟨hfull, hentry⟩ := h.cover i hlt
      constructor
      · intro hd e' he'
        obtain ⟨hne, hsha1⟩ := hfull hd e' he'
        refine ⟨htaken _ hne, ?_⟩
        by_cases hslot : (adlerOf cs (i + 1) + e') % size = o
        · rw [hslot, Function.update_self]
          rw [hslot] at hne hsha1
          rw [← hold hne]
          exact hsha1
        · rw [Function.update_of_ne hslot]
          exact hsha1
      · intro hd
        obtain ⟨j, hj, hne, hsha1⟩ := hentry hd
        refine ⟨j, hj, htaken j hne, ?_⟩
        by_cases hjo : j = o
        · rw [hjo] at hne hsha1
          rw [hjo, Function.update_self, ← hold hne, hsha1]
        · rw [Function.update_of_ne hjo, hsha1]
    · refine ⟨fun hd => absurd hd hdropped, fun _ => ⟨o, ho, ?_, ?_⟩⟩
      · rw [Function.update_self]
        exact Nat.succ_ne_zero _
      · rw [Function.update_self]
  · have hfresh := h.fresh i (Nat.le_of_succ_le hi)
    split_ifs
    · rw [Function.update_of_ne (Nat.ne_of_gt hi), hfresh]
    · exact hfresh

theorem insertChained_fst (table : ChecksumHash × (ℕ → ℕ)) (i : ℕ) : (insertChained cs table i).1 = insertBlock cs table.1 i := by
  rw [insertChained, insertBlock]
  cases cs.blocks[i]? with
  | none => rfl
  | some block =>
    simp only [slotOf]
    generalize (if table.1.elements.getD (block.adler % table.1.elementcnt) 0 ≠ 0 then _ else _ : Option ℕ) = slot
    cases slot <;> rfl

theorem createUpTo_succ (cs : Checksums) (n : ℕ) : createUpTo cs (n + 1) = insertChained cs (createUpTo cs n) n := by
  rw [createUpTo, List.range_succ, List.foldl_append]
  rfl

theorem createUpTo_fst (cs : Checksums) (n : ℕ) : (createUpTo cs n).1 = (List.range n).foldl (insertBlock cs) (emptyTable cs) := by
  induction n with
  | zero => rfl
  | succ n ih => rw [createUpTo_succ, insertChained_fst, ih, List.range_succ, List.foldl_append, List.foldl_cons, List.foldl_nil]

theorem createUpTo_hasFree (hn : n ≤ cs.blockcnt) : (createUpTo cs n).1.HasFree := by
  rw [createUpTo_fst]
  exact foldl_hasFree cs hn

theorem elementcnt_createUpTo (cs : Checksums) (n : ℕ) : (createUpTo cs n).1.elementcnt = hashSize cs.blockcnt := by
  rw [createUpTo_fst]
  exact foldl_insertBlock (List.range n) |>.2.trans List.length_replicate

theorem exists_free (h : hash.HasFree) : ∃ o < hash.elementcnt, slots hash o = 0 := by
  obtain ⟨o, ho, hslot⟩ := List.mem_iff_getElem.mp h
  refine ⟨o, ho, ?_⟩
  rw [slots, List.getD_eq_getElem?_getD, List.getElem?_eq_getElem ho, hslot]
  rfl

/-- A search does not pass a free slot. -/
theorem sought_lt {hit : ℕ → Prop} (h : hash.HasFree) (hs : Sought hash.elementcnt (slots hash) hit a e o) : e < hash.elementcnt := by
  obtain ⟨free, hlt, hfree⟩ := exists_free h
  obtain ⟨d, hd, hat⟩ := exists_offset a hlt
  by_contra hge
  have hne := (hs.before d (by omega)).1
  rw [hat] at hne
  exact hne hfree

theorem same_iff_next (hn : n < cs.blocks.length) (hblock : cs.blocks[n]? = some block) {idx : ℕ} (hidx : idx ≠ 0)
    (hle : idx ≤ n) : Same cs block idx ↔ sha1Of cs idx = sha1Of cs (n + 1) := by
  rw [same_iff hidx (hle.trans (Nat.le_of_lt hn)), sha1Of, sha1Of, Nat.add_sub_cancel, hblock]
  rfl

/-- Every round keeps the table in order. -/
theorem created_upTo (hu : Uniform cs) (hlength : cs.blocks.length = cs.blockcnt) (hn : n ≤ cs.blockcnt) :
    Created cs (hashSize cs.blockcnt) n (slots (createUpTo cs n).1) (createUpTo cs n).2 := by
  induction n with
  | zero =>
    have hempty : slots (createUpTo cs 0).1 = fun _ => 0 := by
      funext o
      show (List.replicate (hashSize cs.blockcnt) 0).getD o 0 = 0
      rw [List.getD_eq_getElem?_getD, List.getElem?_replicate]
      split_ifs <;> rfl
    rw [hempty]
    exact created_empty
  | succ n ih =>
    have h := ih (Nat.le_of_succ_le hn)
    have hlt : n < cs.blocks.length := by omega
    have hcnt := elementcnt_createUpTo cs n
    have hfree := @createUpTo_hasFree cs _ (Nat.le_of_succ_le hn)
    rw [createUpTo_succ]
    have hdropped : Dropped cs n ↔ slotOf (createUpTo cs n).1 cs cs.blocks[n] = none := by
      rw [Dropped, List.getElem?_eq_getElem hlt]
      simp
    generalize createUpTo cs n = state at *
    obtain ⟨hash, next⟩ := state
    have hblock : cs.blocks[n]? = some cs.blocks[n] := List.getElem?_eq_getElem hlt
    have hpos : 0 < hash.elementcnt := by
      rw [hcnt]
      exact Nat.zero_lt_of_lt (hashSize_gt cs.blockcnt)
    have hadler : cs.blocks[n].adler = adlerOf cs (n + 1) := by
      rw [adlerOf, Nat.add_sub_cancel, hblock]
      rfl
    have hspec := @slotOf_spec cs _ cs.blocks[n] hpos
    rw [insertChained, hblock]
    simp only at h hfree hcnt hdropped ⊢
    cases hslot : slotOf hash cs cs.blocks[n] with
    | none =>
      rw [hslot] at hspec
      refine h.drop hu hlt (hdropped.mpr hslot) fun e he => ?_
      have hfull := hspec e he
      rw [hadler, hcnt] at hfull
      refine ⟨hfull.1, fun heq => hfull.2 ?_⟩
      exact (same_iff_next hlt hblock hfull.1 (h.bound _)).mpr heq
    | some o =>
      rw [hslot] at hspec
      obtain ⟨e, he, hs⟩ := hspec
      have hesize := sought_lt hfree hs
      rw [hadler, hcnt] at hs
      rw [hcnt] at hesize
      have ho : o < hashSize cs.blockcnt := by
        rw [hs.slot]
        exact Nat.mod_lt _ (hcnt ▸ hpos)
      have hs' : Sought (hashSize cs.blockcnt) (slots hash) (fun idx => sha1Of cs idx = sha1Of cs (n + 1)) (adlerOf cs (n + 1)) e o := by
        refine ⟨hs.slot, fun e' he' => ?_, ?_⟩
        · obtain ⟨hne, hnot⟩ := hs.before e' he'
          exact ⟨hne, fun heq => hnot ((same_iff_next hlt hblock hne (h.bound _)).mpr heq)⟩
        · by_cases hzero : slots hash o = 0
          · exact Or.inl hzero
          · exact Or.inr ((same_iff_next hlt hblock hzero (h.bound _)).mp (hs.stop.resolve_left hzero))
      have hput := h.put hu hlt (fun hd => by rw [hdropped.mp hd] at hslot; cases hslot) hs' he hesize ho
      rw [slots_set (hcnt ▸ ho)]
      exact hput

/-! ### Removing what is found -/

/-- No two slots have blocks with one sha1. -/
def Unique (cs : Checksums) (size : ℕ) (table : ℕ → ℕ) : Prop :=
  ∀ o < size, ∀ o' < size, table o ≠ 0 → table o' ≠ 0 → sha1Of cs (table o) = sha1Of cs (table o') → o = o'

theorem hasFree_of_slot (ho : o < hash.elementcnt) (h : slots hash o = 0) : hash.HasFree := by
  rw [slots, List.getD_eq_getElem?_getD, List.getElem?_eq_getElem ho] at h
  exact List.mem_iff_getElem.mpr ⟨o, ho, h⟩

theorem homeOf_lt (hpos : 0 < size) (idx : ℕ) : homeOf cs size idx < size := Nat.mod_lt _ hpos

/-- Where some slot is free, an entry is removed, and the others can be found. -/
theorem hashRemove_spec (h : Reaches hash.elementcnt (homeOf cs hash.elementcnt) (slots hash)) (hfree : hash.HasFree)
    (hunique : Unique cs hash.elementcnt (slots hash)) (ho : o < hash.elementcnt) (hne : slots hash o ≠ 0) :
    ∃ (hash' : ChecksumHash) (σ : Equiv.Perm ℕ), hashRemove hash cs (adlerOf cs (slots hash o)) (sha1Of cs (slots hash o)) = some hash' ∧ hash'.elementcnt = hash.elementcnt ∧
      Reaches hash.elementcnt (homeOf cs hash.elementcnt) (slots hash') ∧ slots hash' = Function.update (slots hash) o 0 ∘ σ ∧
      Permutes hash.elementcnt σ := by
  have hpos := Nat.zero_lt_of_lt ho
  obtain ⟨free, hlt, hzero⟩ := exists_free hfree
  have hspec := @slotFor_spec cs _ (adlerOf cs (slots hash o)) hash.elementcnt (adlerOf cs (slots hash o))
    (sha1Of cs (slots hash o)) hpos
  have hhome : homeOf cs hash.elementcnt (slots hash o) % hash.elementcnt = adlerOf cs (slots hash o) % hash.elementcnt := Nat.mod_mod _ _
  have hslot : slotFor hash cs (adlerOf cs (slots hash o)) (sha1Of cs (slots hash o)) hash.elementcnt
      (adlerOf cs (slots hash o) % hash.elementcnt) = some (some o) := by
    cases hfor : slotFor hash cs (adlerOf cs (slots hash o)) (sha1Of cs (slots hash o)) hash.elementcnt
      (adlerOf cs (slots hash o) % hash.elementcnt) with
    | none =>
      rw [hfor] at hspec
      obtain ⟨d, hd, hat⟩ := exists_offset (adlerOf cs (slots hash o)) hlt
      have htaken := hspec d hd
      rw [hat] at htaken
      exact absurd hzero htaken
    | some found =>
      rw [hfor] at hspec
      cases found with
      | none =>
        obtain ⟨e, slot, hs, hslot⟩ := hspec
        have hlt' : slot < hash.elementcnt := hs.slot ▸ Nat.mod_lt _ hpos
        exact absurd hslot (h.sought hs hlt' ho hne hhome ⟨rfl, rfl⟩)
      | some slot =>
        obtain ⟨e, hs, hsne, -, hsha1⟩ := hspec
        have hlt' : slot < hash.elementcnt := hs.slot ▸ Nat.mod_lt _ hpos
        rw [hunique slot hlt' o ho hsne hne hsha1]
  have hneq : free ≠ o := fun heq => hne (heq ▸ hzero)
  obtain ⟨table', σ, hshift, hreaches, htable, hσ⟩ := removed_reaches h (homeOf_lt hpos) ho hneq hlt hzero
  have hcnt : ChecksumHash.elementcnt ⟨hash.elements.set o 0⟩ = hash.elementcnt := elementcnt_set
  obtain ⟨hash', hclose, hslots, hcnt'⟩ := @closeHole_eq cs ⟨hash.elements.set o 0⟩ _ _ _ _ (ho.trans_eq hcnt.symm)
    (by rw [hcnt, slots_set ho]; exact hshift)
  refine ⟨hash', σ, ?_, hcnt'.trans hcnt, hslots ▸ hreaches, hslots.trans htable, hσ⟩
  rw [hashRemove, hslot]
  exact hclose

/-- The blocks of a chain are marked, and no other. -/
theorem markChain_spec {action : BlockAction} {blockactions : ℕ → BlockAction} (h : Chain next idx chain) (hidx : idx ≠ 0)
    (hfuel : chain.length ≤ fuel) : ∃ blockactions', markChain next action fuel (idx - 1) blockactions = some blockactions' ∧
      (∀ i ∈ chain, blockactions' i = action) ∧ ∀ i, i ∉ chain → blockactions' i = blockactions i := by
  induction chain generalizing idx fuel blockactions with
  | nil => exact absurd h hidx
  | cons i chain ih =>
    obtain ⟨rfl, hrest⟩ := h
    obtain ⟨fuel, rfl⟩ := Nat.exists_eq_succ_of_ne_zero (Nat.ne_of_gt (Nat.lt_of_lt_of_le (Nat.succ_pos _) hfuel))
    rw [markChain, Nat.add_sub_cancel]
    by_cases hnext : next i ≠ 0
    · rw [if_pos hnext]
      obtain ⟨blockactions', hmark, hin, hout⟩ := @ih _ _ (Function.update blockactions i action) hrest hnext
        (Nat.le_of_succ_le_succ hfuel)
      refine ⟨blockactions', hmark, fun j hj => ?_, fun j hj => ?_⟩
      · rcases List.mem_cons.mp hj with rfl | hj
        · by_cases hmem : j ∈ chain
          · exact hin j hmem
          · rw [hout j hmem, Function.update_self]
        · exact hin j hj
      · rw [List.mem_cons, not_or] at hj
        rw [hout j hj.2, Function.update_of_ne hj.1]
    · rw [if_neg hnext]
      have hnil : chain = [] := by
        cases chain with
        | nil => rfl
        | cons j chain =>
          rw [not_not.mp hnext] at hrest
          exact absurd hrest.1.symm (Nat.succ_ne_zero j)
      subst hnil
      refine ⟨_, rfl, fun j hj => ?_, fun j hj => ?_⟩
      · rw [List.mem_singleton.mp hj, Function.update_self]
      · rw [Function.update_of_ne fun heq => hj (List.mem_singleton.mpr heq)]

/-- The table while blocks are found: the entries of the new one, but those of the classes that were. -/
structure Live (cs : Checksums) (matched : List Bytes) (m : Matching) : Prop where
  size : m.hash.elementcnt = hashSize cs.blockcnt
  free : m.hash.HasFree
  reaches : Reaches (hashSize cs.blockcnt) (homeOf cs (hashSize cs.blockcnt)) (slots m.hash)
  unique : Unique cs (hashSize cs.blockcnt) (slots m.hash)
  created : ∀ o < hashSize cs.blockcnt, slots m.hash o ≠ 0 → ∃ o' < hashSize cs.blockcnt, slots (createChained cs).1 o' = slots m.hash o
  unmatched : ∀ o < hashSize cs.blockcnt, slots m.hash o ≠ 0 → sha1Of cs (slots m.hash o) ∉ matched
  kept : ∀ o' < hashSize cs.blockcnt, slots (createChained cs).1 o' ≠ 0 → sha1Of cs (slots (createChained cs).1 o') ∉ matched →
    ∃ o < hashSize cs.blockcnt, slots m.hash o = slots (createChained cs).1 o'
  transfer : ∀ i, sha1Of cs (i + 1) ∉ matched → (m.blockactions i).type = .transfer

theorem passes_iff (hidx : idx ≠ 0) (hle : idx ≤ cs.blocks.length) :
    Passes cs (fun block => block.adler = adler ∧ block.sha1 = sha1) idx ↔ adlerOf cs idx = adler ∧ sha1Of cs idx = sha1 := by
  obtain ⟨block, -, hget, hsha1, hadler⟩ := block_at hidx hle
  rw [Passes, hget, hsha1, hadler]
  simp

variable {matched : List Bytes} {m : Matching} {fileidx fileoffset : ℕ}

theorem live_start (hu : Uniform cs) (hlength : cs.blocks.length = cs.blockcnt) {blockactions : ℕ → BlockAction}
    (htransfer : ∀ i, (blockactions i).type = .transfer) : Live cs [] ⟨(createChained cs).1, blockactions⟩ := by
  have h := created_upTo hu hlength (Nat.le_refl _)
  exact ⟨elementcnt_createUpTo cs _, createUpTo_hasFree (Nat.le_refl _), h.reaches, h.unique, fun o ho _ => ⟨o, ho, rfl⟩,
    fun _ _ _ => List.not_mem_nil, fun o ho _ _ => ⟨o, ho, rfl⟩, fun i _ => htransfer i⟩

theorem Live.bound (h : Live cs matched m) (hu : Uniform cs) (hlength : cs.blocks.length = cs.blockcnt) (ho : o < hashSize cs.blockcnt) :
    slots m.hash o ≤ cs.blocks.length := by
  by_cases hne : slots m.hash o = 0
  · rw [hne]
    exact Nat.zero_le _
  · obtain ⟨o', -, heq⟩ := h.created o ho hne
    rw [← heq, hlength]
    exact (created_upTo hu hlength (Nat.le_refl _)).bound o'

theorem passes_adler {pass : BlockChecksum → Bool} (hadler : ∀ block, pass block = true → block.adler = adler) (h : Passes cs pass idx) :
    adlerOf cs idx = adler := by
  obtain ⟨block, hget, hpass⟩ := (Option.any_eq_true _ _).mp h
  rw [adlerOf, hget]
  exact hadler block hpass

/-- A search for blocks that have an adler comes to its end, with an entry that passes or, if there is none, at a free slot. -/
theorem Live.search (h : Live cs matched m) (pass : BlockChecksum → Bool) (adler : ℕ)
    (hadler : ∀ block, pass block = true → block.adler = adler) :
    ∃ idx, probe m.hash cs pass m.hash.elementcnt (adler % m.hash.elementcnt) = some idx ∧
      (idx ≠ 0 → ∃ o < hashSize cs.blockcnt, slots m.hash o = idx ∧ Passes cs pass idx) ∧
      ∀ o < hashSize cs.blockcnt, slots m.hash o ≠ 0 → Passes cs pass (slots m.hash o) → idx ≠ 0 := by
  have hpos : 0 < m.hash.elementcnt := by
    rw [h.size]
    exact Nat.zero_lt_of_lt (hashSize_gt cs.blockcnt)
  obtain ⟨idx, hidx⟩ := Option.isSome_iff_exists.mp (@probe_total _ cs pass _ h.free (Nat.mod_lt adler hpos))
  obtain ⟨e, o, hs, ho⟩ := probe_spec hpos hidx
  have hlt : o < m.hash.elementcnt := hs.slot ▸ Nat.mod_lt _ hpos
  refine ⟨idx, hidx, fun hne => ⟨o, h.size ▸ hlt, ho, ?_⟩, fun slot hslot hne hpass => ?_⟩
  · rw [← ho] at hne ⊢
    exact hs.stop.resolve_left hne
  · rw [h.size] at hs hlt
    rw [← ho]
    refine h.reaches.sought hs hlt hslot hne ?_ hpass
    rw [homeOf, Nat.mod_mod, passes_adler hadler hpass]

/-- What a search for a block finds is marked, and removed from the table. -/
theorem Live.found (h : Live cs matched m) (hu : Uniform cs) (hlength : cs.blocks.length = cs.blockcnt) (ho : o < hashSize cs.blockcnt)
    (hne : slots m.hash o ≠ 0) (fileidx fileoffset : ℕ) :
    ∃ m', blockMatchFound cs (createChained cs).2 m (slots m.hash o) fileidx fileoffset = some m' ∧
      Live cs (sha1Of cs (slots m.hash o) :: matched) m' := by
  have hcreated := created_upTo hu hlength (Nat.le_refl _)
  obtain ⟨o', ho', heq⟩ := h.created o ho hne
  have hchain := hcreated.chain o' ho' (fun hzero => hne (heq.symm.trans hzero))
  rw [show slots (createUpTo cs cs.blockcnt).1 o' = slots m.hash o from heq] at hchain
  obtain ⟨blockactions, hmark, -, hout⟩ := @markChain_spec _ _ _ _ ⟨fileoffset, fileidx, .copy⟩ m.blockactions hchain hne
    (length_classOf (n := cs.blockcnt))
  have hunmatched := h.unmatched o ho hne
  have hat : slots m.hash o - 1 + 1 = slots m.hash o := Nat.succ_pred_eq_of_ne_zero hne
  have htransfer := h.transfer (slots m.hash o - 1) (by rw [hat]; exact hunmatched)
  obtain ⟨hash', σ, hremove, hcnt, hreaches, hslots, hσ⟩ := @hashRemove_spec cs m.hash o (h.size.symm ▸ h.reaches) h.free
    (h.size.symm ▸ h.unique) (h.size.symm ▸ ho) hne
  rw [h.size] at hreaches hσ
  refine ⟨⟨hash', blockactions⟩, ?_, ?_⟩
  · rw [blockMatchFound, if_neg (not_not.mpr htransfer), createChained, hmark, Option.bind_some, hremove, Option.map_some]
  · have hslot : ∀ j, slots hash' j = Function.update (slots m.hash) o 0 (σ j) := fun j => congrFun hslots j
    have hold : ∀ j, slots hash' j ≠ 0 → σ j ≠ o ∧ slots hash' j = slots m.hash (σ j) := by
      intro j hj
      rw [hslot] at hj ⊢
      by_cases hjo : σ j = o
      · rw [hjo, Function.update_self] at hj
        exact absurd rfl hj
      · exact ⟨hjo, Function.update_of_ne hjo ..⟩
    have hback : ∀ j < hashSize cs.blockcnt, σ.symm j < hashSize cs.blockcnt := by
      intro j hj
      rw [← hσ, Equiv.apply_symm_apply]
      exact hj
    refine ⟨hcnt.trans h.size, ?_, hreaches, ?_, ?_, ?_, ?_, ?_⟩
    · refine hasFree_of_slot (o := σ.symm o) ((hback o ho).trans_eq (hcnt.trans h.size).symm) ?_
      rw [hslot, Equiv.apply_symm_apply, Function.update_self]
    · intro j hj k hk hjne hkne heq
      obtain ⟨-, hj'⟩ := hold j hjne
      obtain ⟨-, hk'⟩ := hold k hkne
      rw [hj'] at hjne heq
      rw [hk'] at hkne heq
      exact σ.injective (h.unique _ ((hσ j).mpr hj) _ ((hσ k).mpr hk) hjne hkne heq)
    · intro j hj hjne
      obtain ⟨-, hj'⟩ := hold j hjne
      rw [hj'] at hjne ⊢
      exact h.created _ ((hσ j).mpr hj) hjne
    · intro j hj hjne
      obtain ⟨hjo, hj'⟩ := hold j hjne
      rw [hj'] at hjne ⊢
      rw [List.mem_cons, not_or]
      exact ⟨fun heq => hjo (h.unique _ ((hσ j).mpr hj) o ho hjne hne heq), h.unmatched _ ((hσ j).mpr hj) hjne⟩
    · intro j hj hjne hnot
      rw [List.mem_cons, not_or] at hnot
      obtain ⟨k, hk, hkeq⟩ := h.kept j hj hjne hnot.2
      refine ⟨σ.symm k, hback k hk, ?_⟩
      have hko : k ≠ o := fun hko => hnot.1 (by rw [← hkeq, hko])
      rw [hslot, Equiv.apply_symm_apply, Function.update_of_ne hko, hkeq]
    · intro i hi
      rw [List.mem_cons, not_or] at hi
      show (blockactions i).type = .transfer
      rw [hout i fun hmem => hi.1 (mem_classOf.mp hmem).2]
      exact h.transfer i hi.2

/-- A class that is found is one that was not ignored, and not found before. -/
theorem Live.lookup (h : Live cs matched m) (hu : Uniform cs) (hlength : cs.blocks.length = cs.blockcnt) (pass : BlockChecksum → Bool) (adler : ℕ)
    (hadler : ∀ block, pass block = true → block.adler = adler) :
    ∃ idx, probe m.hash cs pass m.hash.elementcnt (adler % m.hash.elementcnt) = some idx ∧
      (idx ≠ 0 → ∃ o < hashSize cs.blockcnt, slots m.hash o = idx ∧ Passes cs pass idx) ∧
      (idx ≠ 0 ↔ ∃ i block, cs.blocks[i]? = some block ∧ pass block = true ∧ ¬Dropped cs i ∧ block.sha1 ∉ matched) := by
  have hcreated := created_upTo hu hlength (Nat.le_refl _)
  obtain ⟨idx, hidx, hentry, hfound⟩ := h.search pass adler hadler
  refine ⟨idx, hidx, hentry, fun hne => ?_, ?_⟩
  · obtain ⟨o, ho, rfl, hpass⟩ := hentry hne
    have hbound := h.bound hu hlength ho
    obtain ⟨block, -, hget, hsha1, -⟩ := block_at hne hbound
    have hat : slots m.hash o - 1 + 1 = slots m.hash o := Nat.succ_pred_eq_of_ne_zero hne
    refine ⟨slots m.hash o - 1, block, hget, ?_, fun hdropped => ?_, ?_⟩
    · rw [Passes, hget] at hpass
      exact hpass
    · have hfull := (hcreated.cover (slots m.hash o - 1) (by omega)).1 hdropped
      rw [hat] at hfull
      obtain ⟨o', ho', heq⟩ := h.created o ho hne
      refine hcreated.not_full hu (Nat.le_of_eq hlength.symm) hne hbound ⟨o', ho', ?_, ?_⟩ hfull
      · exact fun hzero => hne (heq.symm.trans hzero)
      · exact congrArg (sha1Of cs) heq
    · rw [← hsha1]
      exact h.unmatched o ho hne
  · rintro ⟨i, block, hget, hpass, hdropped, hnot⟩
    obtain ⟨hi, hblock⟩ := List.getElem?_eq_some_iff.mp hget
    have hsha1 : sha1Of cs (i + 1) = block.sha1 := by
      rw [sha1Of, Nat.add_sub_cancel, hget]
      rfl
    obtain ⟨o', ho', hne', heq⟩ := (hcreated.cover i (by omega)).2 hdropped
    obtain ⟨o, ho, hkept⟩ := h.kept o' ho' hne' (by rw [show sha1Of cs (slots (createChained cs).1 o') = _ from heq, hsha1]; exact hnot)
    have hne : slots m.hash o ≠ 0 := fun hzero => hne' (hkept.symm.trans hzero)
    obtain ⟨other, hmem, hother, hsha1', -⟩ := block_at hne (h.bound hu hlength ho)
    -- the entry of the class is an equal block
    have hsame : other.sha1 = block.sha1 := by
      rw [← hsha1', hkept, ← hsha1]
      exact heq
    have hadler' := hu other hmem block (hblock ▸ List.getElem_mem hi) hsame
    have hequal : other = block := by
      cases other
      cases block
      simp only at hsame hadler'
      rw [hsame, hadler']
    refine hfound o ho hne ?_
    rw [Passes, hother, hequal]
    exact hpass

/-- In every run the table is in order. -/
theorem Reachable.live (h : Reachable cs matched m) (hu : Uniform cs) (hlength : cs.blocks.length = cs.blockcnt) : Live cs matched m := by
  induction h with
  | start htransfer => exact live_start hu hlength htransfer
  | @found matched m m' adler idx fileidx fileoffset sha1 _ hlookup hne hmatch ih =>
    obtain ⟨idx', hlookup', hentry, -⟩ := ih.search (fun block => block.adler = adler ∧ block.sha1 = sha1) adler
      fun block hpass => (of_decide_eq_true hpass).1
    obtain rfl : idx = idx' := Option.some.inj (hlookup.symm.trans hlookup')
    obtain ⟨o, ho, rfl, hpass⟩ := hentry hne
    obtain ⟨m'', hmatch', hlive⟩ := ih.found hu hlength ho hne fileidx fileoffset
    obtain rfl : m' = m'' := Option.some.inj (hmatch.symm.trans hmatch')
    rw [((passes_iff hne (ih.bound hu hlength ho)).mp hpass).2] at hlive
    exact hlive

theorem hashSize_lt {blockcnt : ℕ} (h : blockcnt < 2 ^ 28) : hashSize blockcnt < 2 ^ 32 := by
  obtain ⟨p, hp, hlt, hle⟩ := Nat.exists_prime_lt_and_le_two_mul ((blockcnt + 1) / 2 * 6 + 5) (Nat.succ_ne_zero _)
  have h2 : ¬2 ∣ p := fun hdvd => by have := (Nat.prime_dvd_prime_iff_eq Nat.prime_two hp).mp hdvd; omega
  have h3 : ¬3 ∣ p := fun hdvd => by have := (Nat.prime_dvd_prime_iff_eq Nat.prime_three hp).mp hdvd; omega
  have htried : Tried ((blockcnt + 1) / 2 * 6 + 1) p := by
    refine ⟨by omega, by omega, decide_eq_true fun i hlt' hge _ _ hmod => ?_⟩
    rcases (Nat.dvd_prime hp).mp (Nat.dvd_of_mod_eq_zero hmod) with rfl | rfl
    · omega
    · exact Nat.lt_irrefl _ hlt'
  have hmin := Nat.find_min' (tried_exists ((blockcnt + 1) / 2 * 6 + 1)) htried
  rw [hashSize]
  omega

/-- **The table of checksums stays searchable.** If equal sha1s have equal adlers: in every round of
building it and in every run of blocks found there is a free slot; a search finds exactly the
classes that were not ignored and not found; what it finds is at the head of a chain of all
blocks of its class, and can be marked and removed. -/
theorem checksum_hash_searchable (cs : Checksums) (hlength : cs.blocks.length = cs.blockcnt) (hcnt : cs.blockcnt < 2 ^ 28) (hu : Uniform cs) :
    (∀ n ≤ cs.blockcnt, (createUpTo cs n).1.HasFree) ∧ (createChained cs).1.elementcnt < 2 ^ 32 ∧
    ∀ matched m, Reachable cs matched m → m.hash.HasFree ∧ m.hash.elementcnt = (createChained cs).1.elementcnt ∧
      (∀ adler, ∃ b, hashHasAdler m.hash cs adler = some b ∧
        (b = true ↔ ∃ i block, cs.blocks[i]? = some block ∧ block.adler = adler ∧ ¬Dropped cs i ∧ block.sha1 ∉ matched)) ∧
      ∀ adler sha1, ∃ idx, hashHasAdlerAndSha1 m.hash cs adler sha1 = some idx ∧
        (idx ≠ 0 ↔ ∃ i block, cs.blocks[i]? = some block ∧ (block.adler = adler ∧ block.sha1 = sha1) ∧ ¬Dropped cs i ∧ sha1 ∉ matched) ∧
        (idx ≠ 0 → (∃ chain, Chain (createChained cs).2 idx chain ∧ chain.Nodup ∧
            ∀ i, i ∈ chain ↔ ∃ block, cs.blocks[i]? = some block ∧ block.sha1 = sha1) ∧
          ∀ fileidx fileoffset, (blockMatchFound cs (createChained cs).2 m idx fileidx fileoffset).isSome) := by
  refine ⟨fun n hn => createUpTo_hasFree hn, (elementcnt_createUpTo cs _).trans_lt (hashSize_lt hcnt), fun matched m hreach => ?_⟩
  have h := hreach.live hu hlength
  refine ⟨h.free, h.size.trans (elementcnt_createUpTo cs _).symm, fun adler => ?_, fun adler sha1 => ?_⟩
  · obtain ⟨idx, hidx, -, hiff⟩ := h.lookup hu hlength (fun block => block.adler = adler) adler fun block hpass => of_decide_eq_true hpass
    refine ⟨decide (idx ≠ 0), ?_, ?_⟩
    · rw [hashHasAdler, hidx]
      rfl
    · rw [decide_eq_true_eq, hiff]
      simp only [decide_eq_true_eq]
  · obtain ⟨idx, hidx, hentry, hiff⟩ := h.lookup hu hlength (fun block => block.adler = adler ∧ block.sha1 = sha1) adler
      fun block hpass => (of_decide_eq_true hpass).1
    refine ⟨idx, hidx, ?_, fun hne => ?_⟩
    · rw [hiff]
      simp only [decide_eq_true_eq]
      refine exists_congr fun i => exists_congr fun block => and_congr_right fun _ => and_congr_right fun hmatch => ?_
      rw [hmatch.2]
    · obtain ⟨o, ho, rfl, hpass⟩ := hentry hne
      have hsha1 := ((passes_iff hne (h.bound hu hlength ho)).mp hpass).2
      constructor
      · obtain ⟨o', ho', heq⟩ := h.created o ho hne
        have hchain := (created_upTo hu hlength (Nat.le_refl _)).chain o' ho' fun hzero => hne (heq.symm.trans hzero)
        rw [show slots (createUpTo cs cs.blockcnt).1 o' = slots m.hash o from heq, hsha1] at hchain
        refine ⟨_, hchain, nodup_classOf, fun i => ?_⟩
        rw [mem_classOf, sha1Of, Nat.add_sub_cancel, ← hlength]
        constructor
        · rintro ⟨hi, hsame⟩
          rw [List.getElem?_eq_getElem hi] at hsame ⊢
          exact ⟨_, rfl, hsame⟩
        · rintro ⟨block, hget, hsame⟩
          rw [hget]
          exact ⟨(List.getElem?_eq_some_iff.mp hget).1, hsame⟩
      · intro fileidx fileoffset
        obtain ⟨m', hmatch, -⟩ := h.found hu hlength ho hne fileidx fileoffset
        rw [hmatch]
        rfl

/-- Two blocks of a file of 4096 bytes with one sha1. -/
def sameSha1 (adler adler' : ℕ) : Checksums := ⟨4096, 2048, 2, [⟨List.replicate 20 0, adler⟩, ⟨List.replicate 20 0, adler'⟩]⟩

theorem emptyTable_sameSha1 (adler adler' : ℕ) : emptyTable (sameSha1 adler adler') = ⟨List.replicate 7 0⟩ := by
  rw [emptyTable, show (sameSha1 adler adler').blockcnt = 2 from rfl, hashSize_two]

/-- The second block takes the slot over, where a search for the adler of the first does not find
it. -/
theorem other_adler_not_found :
    ¬∀ cs : Checksums, cs.blocks.length = cs.blockcnt → cs.blockcnt < 2 ^ 28 → ∀ matched m, Reachable cs matched m → ∀ adler sha1,
      ∃ idx, hashHasAdlerAndSha1 m.hash cs adler sha1 = some idx ∧
        (idx ≠ 0 ↔ ∃ i block, cs.blocks[i]? = some block ∧ (block.adler = adler ∧ block.sha1 = sha1) ∧ ¬Dropped cs i ∧ sha1 ∉ matched) := by
  intro h
  have hcreated : (createChained (sameSha1 1 8)).1 = ⟨[0, 2, 0, 0, 0, 0, 0]⟩ := by
    rw [createChained, createUpTo, emptyTable_sameSha1]
    decide
  obtain ⟨idx, hidx, hiff⟩ := h (sameSha1 1 8) rfl (by decide) [] ⟨(createChained (sameSha1 1 8)).1, fun _ => ⟨0, 0, .transfer⟩⟩
    (.start fun _ => rfl) 1 (List.replicate 20 0)
  rw [hcreated, show hashHasAdlerAndSha1 ⟨[0, 2, 0, 0, 0, 0, 0]⟩ (sameSha1 1 8) 1 (List.replicate 20 0) = some 0 by decide] at hidx
  refine hiff.mpr ⟨0, ⟨List.replicate 20 0, 1⟩, rfl, ⟨rfl, rfl⟩, ?_, List.not_mem_nil⟩ (Option.some.inj hidx).symm
  rintro ⟨block, hblock, hslot⟩
  rw [show createUpTo (sameSha1 1 8) 0 = (emptyTable (sameSha1 1 8), fun _ => 0) from rfl, emptyTable_sameSha1, ← Option.some.inj hblock] at hslot
  exact absurd hslot (by decide)

theorem checksum_hash_searchable_two :
    let cs := sameSha1 1 1
    (∀ n ≤ cs.blockcnt, (createUpTo cs n).1.HasFree) ∧ (createChained cs).1.elementcnt < 2 ^ 32 ∧
    ∀ matched m, Reachable cs matched m → m.hash.HasFree ∧ m.hash.elementcnt = (createChained cs).1.elementcnt ∧
      (∀ adler, ∃ b, hashHasAdler m.hash cs adler = some b ∧
        (b = true ↔ ∃ i block, cs.blocks[i]? = some block ∧ block.adler = adler ∧ ¬Dropped cs i ∧ block.sha1 ∉ matched)) ∧
      ∀ adler sha1, ∃ idx, hashHasAdlerAndSha1 m.hash cs adler sha1 = some idx ∧
        (idx ≠ 0 ↔ ∃ i block, cs.blocks[i]? = some block ∧ (block.adler = adler ∧ block.sha1 = sha1) ∧ ¬Dropped cs i ∧ sha1 ∉ matched) ∧
        (idx ≠ 0 → (∃ chain, Chain (createChained cs).2 idx chain ∧ chain.Nodup ∧
            ∀ i, i ∈ chain ↔ ∃ block, cs.blocks[i]? = some block ∧ block.sha1 = sha1) ∧
          ∀ fileidx fileoffset, (blockMatchFound cs (createChained cs).2 m idx fileidx fileoffset).isSome) :=
  checksum_hash_searchable _ rfl (by decide) (by unfold Uniform; decide)

end Pclsync.Delta.HashChains
