import Pclsync.Lib.Lexicographic
import Mathlib.Data.List.GetD
import Mathlib.Tactic.Common

/-! The words of a password, looked up in the sorted table of `ppassworddict.h`.

`find_in_dict` halves the table by what the text is on the letters of a word alone, and
goes on from the first word that agrees. -/
namespace Pclsync.Password
open Lib.Lexicographic

/-- A word of `passworddict`. -/
structure Word where
  letters : List UInt8
  short : letters.length ≤ 8
  nonzero : 0 ∉ letters

/-- Its row. -/
def Word.bytes (w : Word) : List UInt8 := w.letters ++ List.replicate (8 - w.letters.length) 0

def byteAt (s : List UInt8) (k : ℕ) : ℕ := (s.getD k 0).toNat

/-- `memcmp`, which has to have all the bytes. -/
def memcmp (a b : List UInt8) (n : ℕ) : Option Ordering :=
  if n ≤ a.length ∧ n ≤ b.length then some (compareUpTo n (byteAt a) (byteAt b)) else none

/-- The loop that takes a length down to the letters of a row. -/
def unpadded (row : List UInt8) : ℕ → ℕ
  | 0 => 0
  | l + 1 => if byteAt row l = 0 then unpadded row l else l + 1

/-- The rows behind one that agrees on `l` bytes; where there is none, the read is behind the table. -/
def scan (pwd : List UInt8) (len : ℕ) : List Word → ℕ → Option ℕ
  | [], l => if l < 8 ∧ l ≤ len then none else some l
  | w :: rest, l =>
    if l < 8 ∧ l ≤ len then do
      if (← memcmp pwd w.bytes (l + 1)) = .eq then
        let hi := unpadded w.bytes len
        if (← memcmp pwd w.bytes hi) = .eq then scan pwd len rest hi else some l
      else some l
    else some l

def search (passworddict : List Word) (pwd : List UInt8) (len : ℕ) : ℕ → ℕ → ℕ → Option ℕ
  | 0, _, _ => none
  | rounds + 1, lo, hi =>
    if lo < hi then do
      let med := (lo + hi) / 2
      let w ← passworddict[med]?
      let l := unpadded w.bytes len
      match ← memcmp pwd w.bytes l with
      | .lt => search passworddict pwd len rounds lo med
      | .gt => search passworddict pwd len rounds (med + 1) hi
      | .eq => scan pwd len (passworddict.drop (med + 1)) l
    else some 0

/-- `find_in_dict` of the text that `pwd` starts with, in rounds that the table has rows for; `none` is a read out of bounds. -/
def findInDict (passworddict : List Word) (pwd : List UInt8) (len : ℕ) : Option ℕ :=
  if len > 8 then search passworddict pwd 8 (passworddict.length + 1) 0 passworddict.length
  else if len ≤ 3 then some 0
  else search passworddict pwd len (passworddict.length + 1) 0 passworddict.length

/-! ### What a text and a word have in common -/

/-- The bytes on which a word is compared. -/
def overlap (text : List UInt8) (w : Word) : ℕ := min (min text.length 8) w.letters.length

/-- How a text compares to a word. -/
def side (text : List UInt8) (w : Word) : Ordering := compareUpTo (overlap text w) (byteAt text) (byteAt w.bytes)

/-- The greatest overlap with a word that agrees on it. -/
def longest (dict : List Word) (text : List UInt8) : ℕ := ((dict.filter fun w => side text w = .eq).map (overlap text)).foldr max 0

/-- Byte-wise, with the zeros. -/
def Sorted (dict : List Word) : Prop := dict.Pairwise fun v w => compareUpTo 8 (byteAt v.bytes) (byteAt w.bytes) ≠ .gt

/-- Before which word the text stands. -/
def place (dict : List Word) (text : List UInt8) : ℕ := dict.findIdx fun w => side text w = .lt

/-- The word agrees, and on one byte more than the word before it does. -/
def Continues (text : List UInt8) (v w : Word) : Prop :=
  overlap text v < min text.length 8 ∧ (∀ k < overlap text v + 1, byteAt text k = byteAt w.bytes k) ∧ side text w = .eq

/-- The words up to the one at `j` continue one another. -/
def Runs (text : List UInt8) (words : List Word) (j : ℕ) (w : Word) : Prop :=
  words[j]? = some w ∧ ∀ k < j, ∀ u v, words[k]? = some u → words[k + 1]? = some v → Continues text u v

/-- The word has 8 letters, or is shorter than the text and there is another one behind it that does not continue it. -/
def Stops (text : List UInt8) (w : Word) (next : Option Word) : Prop :=
  overlap text w = 8 ∨ overlap text w < text.length ∧ ∃ v, next = some v ∧ ¬ Continues text w v

/-- The first word that agrees of those that a bisection towards the place of the text looks at starts a run of words that
continue one another, up to one of the longest overlap. -/
def Recognised (dict : List Word) (text : List UInt8) : Prop :=
  match (probes (place dict text) 0 dict.length).find? fun i => (dict[i]?).map (side text) = some .eq with
  | none => longest dict text = 0
  | some i => ∃ j w, Runs text (dict.drop i) j w ∧ Stops text w (dict.drop i)[j + 1]? ∧ longest dict text = overlap text w

variable {dict rest : List Word} {text : List UInt8} {v w : Word} {l k n : ℕ}

theorem Word.length_bytes (w : Word) : w.bytes.length = 8 := by
  have hshort := w.short
  rw [Word.bytes, List.length_append, List.length_replicate]
  omega

theorem Word.byteAt_letter (hk : k < w.letters.length) : byteAt w.bytes k ≠ 0 := by
  rw [byteAt, Word.bytes, List.getD_append _ _ _ _ hk, List.getD_eq_getElem _ _ hk]
  intro hzero
  have hletter : w.letters[k] = 0 := UInt8.toNat_inj.mp hzero
  exact w.nonzero (hletter ▸ List.getElem_mem hk)

theorem Word.byteAt_pad (hk : w.letters.length ≤ k) : byteAt w.bytes k = 0 := by
  rw [byteAt, Word.bytes, List.getD_append_right _ _ _ _ hk]
  by_cases hpad : k - w.letters.length < 8 - w.letters.length
  · rw [List.getD_replicate _ hpad]
    rfl
  · rw [List.getD_eq_default]
    · rfl
    · rw [List.length_replicate]
      omega

theorem unpadded_bytes (w : Word) (l : ℕ) : unpadded w.bytes l = min l w.letters.length := by
  induction l with
  | zero => rw [unpadded, Nat.zero_min]
  | succ l ih =>
    rw [unpadded]
    split_ifs with hzero
    · have hlength : w.letters.length ≤ l := not_lt.mp fun hlt => w.byteAt_letter hlt hzero
      rw [ih]
      omega
    · have hlength : l < w.letters.length := not_le.mp fun hle => hzero (w.byteAt_pad hle)
      omega

theorem memcmp_bytes (hn : n ≤ text.length) (h8 : n ≤ 8) : memcmp text w.bytes n = some (compareUpTo n (byteAt text) (byteAt w.bytes)) := by
  rw [memcmp, if_pos ⟨hn, by rwa [w.length_bytes]⟩]

/-! ### The order of the words -/

/-- A text that stands before a word stands before all behind it. -/
theorem side_lt_mono (hle : compareUpTo 8 (byteAt v.bytes) (byteAt w.bytes) ≠ .gt) (hv : side text v = .lt) : side text w = .lt := by
  obtain ⟨k, hk, hbelow⟩ := compareUpTo_lt.mp hv
  have hoverlap : k < min text.length 8 := lt_of_lt_of_le hk (min_le_left _ _)
  have hfirst : ∃ k' ≤ k, Precedes (byteAt text) (byteAt w.bytes) k' := by
    cases hcmp : compareUpTo 8 (byteAt v.bytes) (byteAt w.bytes) with
    | gt => exact absurd hcmp hle
    | eq =>
      have hagree := compareUpTo_eq.mp hcmp
      refine ⟨k, le_refl k, fun j hj => (hbelow.1 j hj).trans (hagree j ?_), hagree k ?_ ▸ hbelow.2⟩ <;> omega
    | lt =>
      obtain ⟨k', -, hless⟩ := compareUpTo_lt.mp hcmp
      exact ⟨min k k', min_le_left _ _, hbelow.trans hless⟩
  obtain ⟨k', hk', hless⟩ := hfirst
  -- the byte of the word is above one of the text, so that it is a letter
  have hletter : k' < w.letters.length := by
    by_contra hpad
    have hlt := hless.2
    rw [w.byteAt_pad (not_lt.mp hpad)] at hlt
    exact absurd hlt (by simp)
  exact compareUpTo_lt.mpr ⟨k', lt_min (by omega) hletter, hless⟩

theorem place_le {i : ℕ} (hsorted : Sorted dict) (hi : dict[i]? = some w) : place dict text ≤ i ↔ side text w = .lt := by
  obtain ⟨hlen, rfl⟩ := List.getElem?_eq_some_iff.mp hi
  constructor
  · intro hle
    have hplace : place dict text < dict.length := lt_of_le_of_lt hle hlen
    have hfirst : side text dict[place dict text] = .lt := of_decide_eq_true (List.findIdx_getElem (w := hplace))
    rcases Nat.eq_or_lt_of_le hle with heq | hlt
    · simpa only [heq] using hfirst
    · exact side_lt_mono (List.pairwise_iff_getElem.mp hsorted _ _ hplace hlen hlt) hfirst
  · intro hside
    by_contra hlt
    exact of_decide_eq_false (List.not_of_lt_findIdx (not_le.mp hlt)) hside

/-! ### The two loops -/

theorem overlap_le (text : List UInt8) (w : Word) : overlap text w ≤ min text.length 8 := min_le_left _ _

theorem runs_zero : Runs text (v :: rest) 0 w ↔ w = v := by
  constructor
  · exact fun hruns => (Option.some.inj hruns.1).symm
  · rintro rfl
    exact ⟨rfl, fun k hk => (nomatch hk)⟩

theorem runs_succ {j : ℕ} {u : Word} : Runs text (v :: w :: rest) (j + 1) u ↔ Continues text v w ∧ Runs text (w :: rest) j u := by
  constructor
  · rintro ⟨hat, hsteps⟩
    exact ⟨hsteps 0 (Nat.succ_pos j) v w rfl rfl, hat, fun k hk => hsteps (k + 1) (Nat.succ_lt_succ hk)⟩
  · rintro ⟨hfirst, hat, hsteps⟩
    refine ⟨hat, fun k hk a b ha hb => ?_⟩
    cases k with
    | zero =>
      obtain rfl := Option.some.inj ha
      obtain rfl := Option.some.inj hb
      exact hfirst
    | succ k => exact hsteps k (Nat.lt_of_succ_lt_succ hk) a b ha hb

/-- What the scan does at the next word. -/
theorem scan_cons {r : ℕ} (v w : Word) (rest : List Word) : scan text (min text.length 8) (w :: rest) (overlap text v) = some r ↔
    (Stops text v (some w) ∧ r = overlap text v) ∨ (Continues text v w ∧ scan text (min text.length 8) rest (overlap text w) = some r) := by
  have hle := overlap_le text v
  rw [scan]
  by_cases hfull : overlap text v = 8
  · have hends : ¬ Continues text v w := fun hcontinues => absurd hcontinues.1 (by omega)
    rw [if_neg (by omega)]
    exact ⟨fun hr => .inl ⟨.inl hfull, (Option.some.inj hr).symm⟩, fun hr => by rw [(hr.resolve_right fun h => hends h.1).2]⟩
  rw [if_pos (by omega)]
  by_cases hwhole : overlap text v < text.length
  · have hlt : overlap text v < min text.length 8 := by omega
    have hone : memcmp text w.bytes (overlap text v + 1) = _ := memcmp_bytes (by omega) (by omega)
    have hle' := overlap_le text w
    have hall : memcmp text w.bytes (overlap text w) = some (side text w) := memcmp_bytes (by omega) (by omega)
    have hunpadded : unpadded w.bytes (min text.length 8) = overlap text w := unpadded_bytes w _
    have hstops : Stops text v (some w) ↔ ¬ Continues text v w := by
      constructor
      · rintro (h8 | ⟨-, u, hu, hends⟩)
        · exact absurd h8 hfull
        · rwa [Option.some.inj hu]
      · exact fun hends => .inr ⟨hwhole, w, rfl, hends⟩
    have hcontinues : Continues text v w ↔
        compareUpTo (overlap text v + 1) (byteAt text) (byteAt w.bytes) = .eq ∧ side text w = .eq := by
      rw [compareUpTo_eq]
      exact ⟨fun h => h.2, fun h => ⟨hlt, h⟩⟩
    rw [hstops]
    simp only [hone, hunpadded, hall, Option.bind_eq_bind, Option.bind_some]
    split_ifs with hagree hside
    · have hyes := hcontinues.mpr ⟨hagree, hside⟩
      exact ⟨fun hr => .inr ⟨hyes, hr⟩, fun hr => (hr.resolve_left fun h => h.1 hyes).2⟩
    · have hno : ¬ Continues text v w := fun h => hside (hcontinues.mp h).2
      exact ⟨fun hr => .inl ⟨hno, (Option.some.inj hr).symm⟩, fun hr => by rw [(hr.resolve_right fun h => hno h.1).2]⟩
    · have hno : ¬ Continues text v w := fun h => hagree (hcontinues.mp h).1
      exact ⟨fun hr => .inl ⟨hno, (Option.some.inj hr).symm⟩, fun hr => by rw [(hr.resolve_right fun h => hno h.1).2]⟩
  · -- the text ends with the word, and the byte behind it is read
    have hread : memcmp text w.bytes (overlap text v + 1) = none := if_neg (by omega)
    rw [hread]
    constructor
    · exact nofun
    · rintro (⟨h8 | ⟨hlt, -⟩, -⟩ | ⟨hcontinues, -⟩)
      · exact absurd h8 hfull
      · exact absurd hlt hwhole
      · exact absurd hcontinues.1 (by omega)

/-- The scan from a word that agrees. -/
theorem scan_eq_some {r : ℕ} (rest : List Word) (v : Word) : scan text (min text.length 8) rest (overlap text v) = some r ↔
    ∃ j w, Runs text (v :: rest) j w ∧ Stops text w (v :: rest)[j + 1]? ∧ r = overlap text w := by
  induction rest generalizing v with
  | nil =>
    have hle := overlap_le text v
    rw [scan]
    constructor
    · intro hscan
      split_ifs at hscan with hlt
      exact ⟨0, v, runs_zero.mpr rfl, .inl (by omega), (Option.some.inj hscan).symm⟩
    · rintro ⟨j, w, ⟨hat, -⟩, hstops, rfl⟩
      obtain rfl : j = 0 := by
        have hj : j < [v].length := (List.getElem?_eq_some_iff.mp hat).1
        exact Nat.lt_one_iff.mp hj
      obtain rfl := Option.some.inj hat
      rcases hstops with hfull | ⟨-, u, hnone, -⟩
      · rw [if_neg (by omega)]
      · cases hnone
  | cons w rest ih =>
    rw [scan_cons]
    constructor
    · rintro (⟨hstops, hr⟩ | ⟨hcontinues, hscan⟩)
      · exact ⟨0, v, runs_zero.mpr rfl, hstops, hr⟩
      · obtain ⟨j, u, hruns, hstops, hr⟩ := (ih w).mp hscan
        exact ⟨j + 1, u, runs_succ.mpr ⟨hcontinues, hruns⟩, hstops, hr⟩
    · rintro ⟨_ | j, u, hruns, hstops, hr⟩
      · obtain rfl := runs_zero.mp hruns
        exact .inl ⟨hstops, hr⟩
      · obtain ⟨hcontinues, hruns⟩ := runs_succ.mp hruns
        exact .inr ⟨hcontinues, (ih w).mpr ⟨j, u, hruns, hstops, hr⟩⟩

/-- The bisection, from where the place of the text is between `lo` and `hi`. -/
theorem search_eq {rounds lo hi : ℕ} (hsorted : Sorted dict) (hrounds : hi - lo < rounds) (hhi : hi ≤ dict.length) :
    search dict text (min text.length 8) rounds lo hi =
      match (probes (place dict text) lo hi).find? fun i => (dict[i]?).map (side text) = some .eq with
      | none => some 0
      | some i => (dict[i]?).bind fun w => scan text (min text.length 8) (dict.drop (i + 1)) (overlap text w) := by
  induction rounds generalizing lo hi with
  | zero => exact absurd hrounds (Nat.not_lt_zero _)
  | succ rounds ih =>
    rw [search]
    by_cases hlt : lo < hi
    · have hmed : (lo + hi) / 2 < dict.length := by omega
      obtain ⟨w, hw⟩ : ∃ w, dict[(lo + hi) / 2]? = some w := ⟨_, List.getElem?_eq_getElem hmed⟩
      have hle := overlap_le text w
      have hunpadded : unpadded w.bytes (min text.length 8) = overlap text w := unpadded_bytes w _
      have hcmp : memcmp text w.bytes (overlap text w) = some (side text w) := memcmp_bytes (by omega) (by omega)
      have hplace := @place_le _ text _ _ hsorted hw
      rw [if_pos hlt, probes_of_lt hlt, List.find?_cons]
      simp only [hw, Option.bind_eq_bind, Option.bind_some, hunpadded, hcmp, Option.map_some, Option.some.injEq]
      cases hside : side text w with
      | lt =>
        rw [if_pos (hplace.mpr hside)]
        exact ih (by omega) (by omega)
      | gt =>
        rw [if_neg (fun hle => nomatch hside.symm.trans (hplace.mp hle))]
        exact ih (by omega) (by omega)
      | eq => simp only [decide_true, hw, Option.bind_some]
    · rw [if_neg hlt, probes_of_le (not_lt.mp hlt)]
      rfl

/-- A text is looked up without a read out of bounds and with the greatest overlap exactly where it is recognised. -/
theorem find_in_dict_iff (dict : List Word) (text : List UInt8) (hsorted : Sorted dict) (hlen : 4 ≤ text.length) :
    findInDict dict text text.length = some (longest dict text) ↔ Recognised dict text := by
  have hsearch : findInDict dict text text.length = search dict text (min text.length 8) (dict.length + 1) 0 dict.length := by
    rw [findInDict]
    split_ifs with hlong
    · rw [min_eq_right (by omega)]
    · omega
    · rw [min_eq_left (by omega)]
  rw [hsearch, search_eq hsorted (by omega) (le_refl _), Recognised]
  cases hfind : (probes (place dict text) 0 dict.length).find? fun i => (dict[i]?).map (side text) = some .eq with
  | none => exact ⟨fun h => (Option.some.inj h).symm, fun h => congrArg some h.symm⟩
  | some i =>
    have hagrees := List.find?_some hfind
    obtain ⟨v, hv, -⟩ := Option.map_eq_some_iff.mp (of_decide_eq_true hagrees)
    obtain ⟨hi, rfl⟩ := List.getElem?_eq_some_iff.mp hv
    have hdrop : dict.drop i = dict[i] :: dict.drop (i + 1) := List.drop_eq_getElem_cons hi
    simp only [hv, Option.bind_some, hdrop]
    exact scan_eq_some _ _

/-- Some words behind each other in the table: rampage, ramrod, rams, ramses, ramsey. -/
def ramWords : List Word := [
  ⟨[0x72, 0x61, 0x6d, 0x70, 0x61, 0x67, 0x65], by decide, by decide⟩,
  ⟨[0x72, 0x61, 0x6d, 0x72, 0x6f, 0x64], by decide, by decide⟩,
  ⟨[0x72, 0x61, 0x6d, 0x73], by decide, by decide⟩,
  ⟨[0x72, 0x61, 0x6d, 0x73, 0x65, 0x73], by decide, by decide⟩,
  ⟨[0x72, 0x61, 0x6d, 0x73, 0x65, 0x79], by decide, by decide⟩]

/-- The text `ramrods`. -/
theorem find_in_dict_ramrods : findInDict ramWords [0x72, 0x61, 0x6d, 0x72, 0x6f, 0x64, 0x73] 7 =
    some (longest ramWords [0x72, 0x61, 0x6d, 0x72, 0x6f, 0x64, 0x73]) ↔ Recognised ramWords [0x72, 0x61, 0x6d, 0x72, 0x6f, 0x64, 0x73] :=
  find_in_dict_iff ramWords [0x72, 0x61, 0x6d, 0x72, 0x6f, 0x64, 0x73] (by unfold Sorted; decide) (by decide)

/-- Of `ramsey` with two more bytes only `rams` is found. -/
theorem ramsey_as_rams : Sorted ramWords ∧ findInDict ramWords [0x72, 0x61, 0x6d, 0x73, 0x65, 0x79, 0x51, 0x39] 8 = some 4 ∧
    longest ramWords [0x72, 0x61, 0x6d, 0x73, 0x65, 0x79, 0x51, 0x39] = 6 :=
  ⟨by unfold Sorted; decide, by decide, by decide⟩

/-- The text `rams` is read one byte too far. -/
example : findInDict ramWords [0x72, 0x61, 0x6d, 0x73] 4 = none := by decide

end Pclsync.Password
