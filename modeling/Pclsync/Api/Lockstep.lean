import Pclsync.Api.Result
import Pclsync.Lib.Transition

/-! The two passes of the binary API reader agree.

`do_parse_result` does not know the length of its input, of the result block or of
the table of strings: it relies on `calc_ret_len` having walked the same bytes.
`Matches` relates a cursor of the first pass to a builder of the second, and
`passes_lockstep` keeps it from value to value: where the size pass succeeds, so
does the build pass, over the same bytes and inside what the size pass counted. -/
namespace Pclsync.Api
open Lib.Machine Lib.Fallible

variable {buf : List UInt8}

/-! ### The size pass moves forward inside its input -/

/-- `*data` and `*datalen` are two views of one position in an input of `n` bytes. -/
structure Cursor.In (n : ℕ) (c : Cursor) : Prop where
  ends : c.data + c.datalen = n
  small : n < 2 ^ 64

theorem need_ok {c : Cursor} {cnt : ℕ} {u : Unit} : c.need cnt = .ok u ↔ cnt ≤ c.datalen := by
  simp only [Cursor.need]
  split
  · simp only [reduceCtorEq, false_iff]
    omega
  · simp only [true_iff]
    omega

@[simp] theorem skip_data (c : Cursor) (l : ℕ) : (c.skip l).data = c.data + l := rfl
@[simp] theorem skip_strcnt (c : Cursor) (l : ℕ) : (c.skip l).strcnt = c.strcnt := rfl

theorem Cursor.In.skip {n l : ℕ} {c : Cursor} (h : c.In n) (hl : l ≤ c.datalen) : (c.skip l).In n := by
  have := h.ends
  have := h.small
  refine ⟨?_, h.small⟩
  show c.data + l + sub64 c.datalen l = n
  rw [sub64_of_le hl (by omega)]
  omega

theorem byteAt_ok {position type : ℕ} (h : byteAt buf position = .ok type) :
    position < buf.length := by
  simp only [byteAt] at h
  split at h
  · rename_i b hb
    exact (List.getElem?_eq_some_iff.mp hb).1
  · cases h

theorem byteAt_of_lt {position : ℕ} (h : position < buf.length) :
    byteAt buf position = .ok buf[position].toNat := by
  simp [byteAt, h]

/-- A word inside the input is read. -/
theorem loadWord_of_le {position l : ℕ} (h : position + l ≤ buf.length) :
    ∃ w, loadWord buf position l = .ok w := by
  induction l generalizing position with
  | zero => exact ⟨0, rfl⟩
  | succ l ih =>
    obtain ⟨w, hw⟩ : ∃ w, loadWord buf (position + 1) l = .ok w := ih (by omega)
    refine ⟨buf[position].toNat + 256 * w, ?_⟩
    rw [loadWord, byteAt_of_lt (by omega), ok_bind, hw]
    rfl

/-- The size pass moved on inside its input. -/
structure Cursor.Moved (buf : List UInt8) (c c' : Cursor) : Prop where
  isin : c'.In buf.length
  data : c.data ≤ c'.data
  strcnt : c.strcnt ≤ c'.strcnt

theorem Cursor.Moved.trans {a b c : Cursor} (h : a.Moved buf b) (h' : b.Moved buf c) : a.Moved buf c :=
  ⟨h'.isin, le_trans h.data h'.data, le_trans h.strcnt h'.strcnt⟩

theorem Cursor.In.here {c : Cursor} (h : c.In buf.length) : c.Moved buf c := ⟨h, le_refl _, le_refl _⟩

theorem Cursor.In.moved {c : Cursor} {l : ℕ} (h : c.In buf.length) (hl : l ≤ c.datalen) :
    c.Moved buf (c.skip l) :=
  ⟨h.skip hl, Nat.le_add_right _ _, le_refl _⟩

/-- What the size pass leaves of a string's length, and that the build pass reads the same. -/
theorem calcStrLen_ok {type len : ℕ} {c c' : Cursor} (hin : c.In buf.length)
    (h : calcStrLen buf type c = .ok (len, c')) :
    c'.In buf.length ∧ c.data ≤ c'.data ∧ c'.strcnt = c.strcnt ∧
      ∀ b : Builder, b.indata = c.data → parseStrLen buf type b = .ok (len, { b with indata := c'.data }) := by
  simp only [calcStrLen] at h
  split at h
  · rename_i hshort
    cases h
    refine ⟨hin, le_refl _, rfl, fun b hb => ?_⟩
    rw [parseStrLen, if_pos hshort, ← hb]
  · rename_i hlong
    obtain ⟨_, hneed, h⟩ := bind_eq_ok.mp h
    obtain ⟨w, hw, h⟩ := bind_eq_ok.mp h
    cases h
    rw [need_ok] at hneed
    refine ⟨hin.skip hneed, Nat.le_add_right _ _, rfl, fun b hb => ?_⟩
    rw [parseStrLen, if_neg hlong, hb]
    simp only [hw, ok_bind, pure_eq_ok]
    rw [skip_data]

theorem calcRstrId_ok {type id : ℕ} {c c' : Cursor} (hin : c.In buf.length)
    (h : calcRstrId buf type c = .ok (id, c')) :
    c'.In buf.length ∧ c.data ≤ c'.data ∧ c'.strcnt = c.strcnt ∧
      ∀ b : Builder, b.indata = c.data → parseRstrId buf type b = .ok (id, { b with indata := c'.data }) := by
  simp only [calcRstrId] at h
  split at h
  · rename_i hlong
    obtain ⟨_, hneed, h⟩ := bind_eq_ok.mp h
    obtain ⟨w, hw, h⟩ := bind_eq_ok.mp h
    cases h
    rw [need_ok] at hneed
    refine ⟨hin.skip hneed, Nat.le_add_right _ _, rfl, fun b hb => ?_⟩
    rw [parseRstrId, if_pos hlong, hb]
    simp only [hw, ok_bind, pure_eq_ok]
    rw [skip_data]
  · rename_i hshort
    simp only [Except.ok.injEq, Prod.mk.injEq] at h
    obtain ⟨rfl, rfl⟩ := h
    refine ⟨hin, le_refl _, rfl, fun b hb => ?_⟩
    rw [parseRstrId, if_neg hshort, ← hb]

/-- A scalar moves the size pass on. -/
theorem calcScalar_moved {type r : ℕ} {c c' : Cursor} (hin : c.In buf.length)
    (h : calcScalar buf type c = .ok (r, c')) : c.Moved buf c' := by
  simp only [calcScalar] at h
  split at h
  · obtain ⟨⟨len, c₁⟩, hlen, h⟩ := bind_eq_ok.mp h
    obtain ⟨_, hneed, h⟩ := bind_eq_ok.mp h
    cases h
    obtain ⟨hin₁, hdata, hcount, -⟩ := calcStrLen_ok hin hlen
    have hskip := hin₁.skip (need_ok.mp hneed)
    refine ⟨⟨hskip.ends, hskip.small⟩, le_trans hdata (Nat.le_add_right _ _), ?_⟩
    show c.strcnt ≤ c₁.strcnt + 1
    omega
  split at h
  · obtain ⟨⟨id, c₁⟩, hid, h⟩ := bind_eq_ok.mp h
    obtain ⟨hin₁, hdata, hcount, -⟩ := calcRstrId_ok hin hid
    simp only at h
    split at h
    · cases h
      exact ⟨hin₁, hdata, Nat.le_of_eq hcount.symm⟩
    · cases h
  split at h
  · obtain ⟨_, hneed, h⟩ := bind_eq_ok.mp h
    cases h
    exact hin.moved (need_ok.mp hneed)
  split at h
  · cases h
    exact hin.here
  split at h
  · cases h
    exact hin.here
  split at h
  · obtain ⟨_, hneed, h⟩ := bind_eq_ok.mp h
    cases h
    exact hin.moved (need_ok.mp hneed)
  · cases h

/-! ### Results without `NULL` -/

/-- No position of the tree is `NULL`. -/
inductive Whole : Binresult → Prop where
  | str {s} : Whole (.str s)
  | num {n} : Whole (.num n)
  | bool {b} : Whole (.bool b)
  | data {n} : Whole (.data n)
  | array {es} : (∀ e ∈ es, Whole e) → Whole (.array es)
  | hash {ps} : (∀ p ∈ ps, Whole p.2) → Whole (.hash ps)

/-- The key of a hash entry can be looked at. -/
theorem Whole.key {t : Binresult} (h : Whole t) : ∃ k, t.key = .ok k := by
  cases h <;> exact ⟨_, rfl⟩

/-- The builder stands where the cursor does and has stored the strings it counted. -/
structure Matches (c : Cursor) (b : Builder) : Prop where
  indata : b.indata = c.data
  strings : b.strings.length = c.strcnt
  whole : ∀ s ∈ b.strings, Whole s

/-- A builder that only moved its pointers, with a cursor that counted no string. -/
theorem Matches.moved {c : Cursor} {b : Builder} (h : Matches c b) (c' : Cursor) (hstr : c'.strcnt = c.strcnt)
    (o : ℕ) : Matches c' { b with indata := c'.data, odata := o } :=
  ⟨rfl, h.strings.trans hstr.symm, h.whole⟩

section Lockstep
variable {retlen strcnt : ℕ}

theorem push_ok {b : Builder} (ret : Binresult) (h : b.strings.length < strcnt) :
    b.push strcnt ret = .ok { b with strings := b.strings ++ [ret] } := by
  rw [Builder.push, if_pos h]

theorem store_ok {offset len : ℕ} (h : offset + len ≤ retlen) : store retlen offset len = .ok () := by
  rw [store, if_pos h]

theorem alignedLen_gt (len : ℕ) : len + 1 ≤ alignedLen len := by
  simp only [alignedLen, alignBytes]
  omega

/-- The build pass turned `b` into a whole result, moved to `c'` and stayed below `bound`. -/
def Builds (c' : Cursor) (bound : ℕ) (res : Except Fault (Binresult × Builder)) : Prop :=
  ∃ t b, res = .ok (t, b) ∧ Whole t ∧ Matches c' b ∧ b.odata ≤ bound

/-- A string is built from the bytes it was counted by. -/
theorem str_lockstep {type r : ℕ} {c c' : Cursor} {b : Builder} (htype : IsStr type) (hin : c.In buf.length)
    (h : calcScalar buf type c = .ok (r, c')) (hm : Matches c b) (hret : b.odata + r ≤ retlen)
    (hstr : c'.strcnt ≤ strcnt) :
    Builds c' (b.odata + r) (parseScalar buf retlen strcnt type b) := by
  simp only [calcScalar, if_pos htype] at h
  obtain ⟨⟨len, c₁⟩, hlen, h⟩ := bind_eq_ok.mp h
  obtain ⟨_, hneed, h⟩ := bind_eq_ok.mp h
  cases h
  simp only [need_ok] at hneed hret hstr ⊢
  obtain ⟨hin₁, hdata, hcount, hparse⟩ := calcStrLen_ok hin hlen
  have hend := hin₁.ends
  have haligned := alignedLen_gt len
  have hroom : b.strings.length < strcnt := by
    rw [hm.strings, ← hcount]
    exact hstr
  refine ⟨.str ((buf.drop c₁.data).take len),
    ⟨c₁.data + len, b.odata + strOffset + alignedLen len,
      b.strings ++ [.str ((buf.drop c₁.data).take len)]⟩, ?_, .str, ⟨rfl, ?_, ?_⟩, ?_⟩
  · have hbytes : loadBytes buf c₁.data len = .ok ((buf.drop c₁.data).take len) := by
      rw [loadBytes, if_pos (by omega)]
    have hheader : store retlen b.odata strOffset = .ok () := store_ok (by omega)
    have hbody : store retlen (b.odata + strOffset) (len + 1) = .ok () := store_ok (by omega)
    rw [parseScalar, if_pos htype, hparse b hm.indata]
    simp only [ok_bind, hheader, hbytes]
    rw [push_ok (b := ⟨c₁.data, b.odata, b.strings⟩) _ hroom]
    simp only [ok_bind, hbody, pure_eq_ok]
  · show (b.strings ++ [_]).length = c₁.strcnt + 1
    rw [List.length_append, hm.strings, hcount]
    rfl
  · intro s hs
    rcases List.mem_append.mp hs with hs | hs
    · exact hm.whole s hs
    · rw [List.mem_singleton.mp hs]
      exact .str
  · show b.odata + strOffset + alignedLen len ≤ b.odata + (strOffset + alignedLen len)
    omega

/-- A reused string was stored before. -/
theorem rstr_lockstep {type r : ℕ} {c c' : Cursor} {b : Builder} (hnot : ¬IsStr type) (htype : IsRstr type)
    (hin : c.In buf.length) (h : calcScalar buf type c = .ok (r, c')) (hm : Matches c b) :
    Builds c' (b.odata + r) (parseScalar buf retlen strcnt type b) := by
  simp only [calcScalar, if_neg hnot, if_pos htype] at h
  obtain ⟨⟨id, c₁⟩, hid, h⟩ := bind_eq_ok.mp h
  obtain ⟨hin₁, hdata, hcount, hparse⟩ := calcRstrId_ok hin hid
  simp only at h
  split at h
  · rename_i hlt
    cases h
    have hstored : id < b.strings.length := by
      rw [hm.strings, ← hcount]
      exact hlt
    refine ⟨b.strings[id], { b with indata := c'.data }, ?_,
      hm.whole _ (List.getElem_mem hstored), hm.moved c' hcount b.odata, le_refl _⟩
    rw [parseScalar, if_neg hnot, if_pos htype, hparse b hm.indata]
    simp only [ok_bind, List.getElem?_eq_getElem hstored, pure_eq_ok]
  · cases h

/-- A number or a date is built from a word that both passes read at one place. -/
theorem word_lockstep {l : ℕ} {c : Cursor} {b : Builder} {build : ℕ → Binresult}
    (hbuild : ∀ n, Whole (build n)) (hin : c.In buf.length) (hneed : l ≤ c.datalen) (hm : Matches c b)
    (hret : b.odata + sizeofBinresult ≤ retlen) :
    Builds (c.skip l) (b.odata + sizeofBinresult) (do
      store retlen b.odata sizeofBinresult
      let num ← loadWord buf b.indata l
      return (build num, { b with odata := b.odata + sizeofBinresult, indata := b.indata + l })) := by
  have hend := hin.ends
  obtain ⟨w, hw⟩ : ∃ w, loadWord buf c.data l = .ok w := loadWord_of_le (by omega)
  refine ⟨build w, { b with indata := (c.skip l).data, odata := b.odata + sizeofBinresult }, ?_, hbuild w,
    hm.moved (c.skip l) rfl _, le_refl _⟩
  rw [store_ok hret, hm.indata]
  simp only [ok_bind, hw, pure_eq_ok]
  rw [skip_data]

/-- A value the type byte holds is built without a store. -/
theorem constant_lockstep {c : Cursor} {b : Builder} {t : Binresult} (ht : Whole t)
    (hm : Matches c b) : Builds c (b.odata + 0) (.ok (t, b)) :=
  ⟨t, b, rfl, ht, hm, Nat.le_refl _⟩

/-- A scalar the size pass accepts is built over the same bytes, inside its size. -/
theorem scalar_lockstep {type r : ℕ} {c c' : Cursor} {b : Builder} (hin : c.In buf.length)
    (h : calcScalar buf type c = .ok (r, c')) (hm : Matches c b) (hret : b.odata + r ≤ retlen)
    (hstr : c'.strcnt ≤ strcnt) :
    Builds c' (b.odata + r) (parseScalar buf retlen strcnt type b) := by
  by_cases hs : IsStr type
  · exact str_lockstep hs hin h hm hret hstr
  by_cases hr : IsRstr type
  · exact rstr_lockstep hs hr hin h hm
  rw [calcScalar, if_neg hs, if_neg hr] at h
  rw [parseScalar, if_neg hs, if_neg hr]
  split at h
  · rename_i hnum
    obtain ⟨_, hneed, h⟩ := bind_eq_ok.mp h
    cases h
    rw [if_pos hnum]
    exact word_lockstep (fun _ => .num) hin (need_ok.mp hneed) hm hret
  rename_i hnum
  rw [if_neg hnum]
  split at h
  · rename_i hsmall
    cases h
    rw [if_pos hsmall]
    exact constant_lockstep .num hm
  rename_i hsmall
  rw [if_neg hsmall]
  split at h
  · rename_i hbool
    cases h
    split
    · exact constant_lockstep .bool hm
    · rename_i htrue
      rw [if_pos (hbool.resolve_right htrue)]
      exact constant_lockstep .bool hm
  rename_i hbool
  rw [if_neg fun h => hbool (.inr h), if_neg fun h => hbool (.inl h)]
  split at h
  · rename_i hdata
    obtain ⟨_, hneed, h⟩ := bind_eq_ok.mp h
    cases h
    rw [if_pos hdata]
    exact word_lockstep (fun _ => .data) hin (need_ok.mp hneed) hm hret
  · cases h

/-! ### Values, arrays and hashes -/

theorem Cursor.In.peeked {c : Cursor} {type : ℕ} (h : c.In buf.length) (hb : byteAt buf c.data = .ok type) :
    1 ≤ c.datalen := by
  have := byteAt_ok hb
  have := h.ends
  omega

/-- What the size pass does with a recursion of `fuel`: it moves on over every value, and
its loops never lose what they counted. -/
structure Moves (buf : List UInt8) (fuel : ℕ) : Prop where
  value {c r c'} (hin : c.In buf.length) (h : calcRetLen buf fuel c = .ok (r, c')) :
    c.Moved buf c' ∧ c.data < c'.data
  array {c ret cnt ret' c'} (hin : c.In buf.length) (hcnt : cnt ≤ c.data)
    (h : calcArray buf fuel c ret cnt = .ok (ret', c')) :
    c.Moved buf c' ∧ c.data < c'.data ∧ ret + sizeofPointer * cnt ≤ ret'
  hash {c ret cnt ret' c'} (hin : c.In buf.length) (hcnt : cnt ≤ c.data)
    (h : calcHash buf fuel c ret cnt = .ok (ret', c')) :
    c.Moved buf c' ∧ c.data < c'.data ∧ ret + sizeofHashpair * cnt ≤ ret'

/-- The count of a loop is below the position, so it does not wrap. -/
theorem count_succ (hbuf : buf.length < 2 ^ 32) {c c' : Cursor} {cnt : ℕ} (hcnt : cnt ≤ c.data)
    (hlt : c.data < c'.data) (hin : c'.In buf.length) : u32 (cnt + 1) = cnt + 1 ∧ cnt + 1 ≤ c'.data := by
  have := hin.ends
  exact ⟨u32_of_lt (by omega), by omega⟩

theorem moves_value {fuel : ℕ} (ih : Moves buf fuel) {c c' : Cursor} {r : ℕ} (hin : c.In buf.length)
    (h : calcRetLen buf (fuel + 1) c = .ok (r, c')) : c.Moved buf c' ∧ c.data < c'.data := by
  rw [calcRetLen] at h
  obtain ⟨_, hneed, h⟩ := bind_eq_ok.mp h
  obtain ⟨type, htype, h⟩ := bind_eq_ok.mp h
  have hm := hin.moved (need_ok.mp hneed)
  have hpast : (c.skip 1).data = c.data + 1 := rfl
  have hrest : (c.skip 1).Moved buf c' := by
    split at h
    · exact (ih.array hm.isin (Nat.zero_le _) h).1
    split at h
    · exact (ih.hash hm.isin (Nat.zero_le _) h).1
    · exact calcScalar_moved hm.isin h
  have := hrest.data
  exact ⟨hm.trans hrest, by omega⟩

theorem moves_array (hbuf : buf.length < 2 ^ 32) {fuel : ℕ} (ih : Moves buf fuel) {c c' : Cursor}
    {ret cnt ret' : ℕ} (hin : c.In buf.length) (hcnt : cnt ≤ c.data)
    (h : calcArray buf (fuel + 1) c ret cnt = .ok (ret', c')) :
    c.Moved buf c' ∧ c.data < c'.data ∧ ret + sizeofPointer * cnt ≤ ret' := by
  rw [calcArray] at h
  obtain ⟨type, htype, h⟩ := bind_eq_ok.mp h
  split at h
  · cases h
    exact ⟨hin.moved (hin.peeked htype), Nat.lt_succ_self _, le_refl _⟩
  · obtain ⟨⟨r, c₁⟩, hvalue, h⟩ := bind_eq_ok.mp h
    obtain ⟨_, hneed, h⟩ := bind_eq_ok.mp h
    obtain ⟨hm₁, hlt₁⟩ := ih.value hin hvalue
    obtain ⟨hwrap, hcnt₁⟩ := count_succ hbuf hcnt hlt₁ hm₁.isin
    simp only [hwrap] at h
    obtain ⟨hm, hlt, hret⟩ := ih.array hm₁.isin hcnt₁ h
    rw [Nat.mul_succ] at hret
    exact ⟨hm₁.trans hm, lt_trans hlt₁ hlt, by omega⟩

theorem moves_hash (hbuf : buf.length < 2 ^ 32) {fuel : ℕ} (ih : Moves buf fuel) {c c' : Cursor}
    {ret cnt ret' : ℕ} (hin : c.In buf.length) (hcnt : cnt ≤ c.data)
    (h : calcHash buf (fuel + 1) c ret cnt = .ok (ret', c')) :
    c.Moved buf c' ∧ c.data < c'.data ∧ ret + sizeofHashpair * cnt ≤ ret' := by
  rw [calcHash] at h
  obtain ⟨type, htype, h⟩ := bind_eq_ok.mp h
  split at h
  · cases h
    exact ⟨hin.moved (hin.peeked htype), Nat.lt_succ_self _, le_refl _⟩
  · obtain ⟨⟨r, c₁⟩, hkey, h⟩ := bind_eq_ok.mp h
    obtain ⟨⟨r', c₂⟩, hvalue, h⟩ := bind_eq_ok.mp h
    obtain ⟨_, hneed, h⟩ := bind_eq_ok.mp h
    obtain ⟨hm₁, hlt₁⟩ := ih.value hin hkey
    obtain ⟨hm₂, hlt₂⟩ := ih.value hm₁.isin hvalue
    obtain ⟨hwrap, hcnt₂⟩ := count_succ hbuf hcnt (lt_trans hlt₁ hlt₂) hm₂.isin
    simp only [hwrap] at h
    obtain ⟨hm, hlt, hret⟩ := ih.hash hm₂.isin hcnt₂ h
    rw [Nat.mul_succ] at hret
    exact ⟨(hm₁.trans hm₂).trans hm, by omega, by omega⟩

theorem calc_moves (hbuf : buf.length < 2 ^ 32) (fuel : ℕ) : Moves buf fuel := by
  induction fuel with
  | zero =>
    refine ⟨fun _ h => ?_, fun _ _ h => ?_, fun _ _ h => ?_⟩
    · rw [calcRetLen] at h
      cases h
    · rw [calcArray] at h
      cases h
    · rw [calcHash] at h
      cases h
  | succ fuel ih => exact ⟨moves_value ih, moves_array hbuf ih, moves_hash hbuf ih⟩

/-- What the build pass does with a recursion of `fuel`: where the size pass goes, it goes,
and what is in use of the block stays below what the size pass counted from `base`. -/
structure Lockstep (buf : List UInt8) (retlen strcnt fuel : ℕ) : Prop where
  value {c r c' b} (hin : c.In buf.length) (h : calcRetLen buf fuel c = .ok (r, c')) (hm : Matches c b)
    (hret : b.odata + r ≤ retlen) (hstr : c'.strcnt ≤ strcnt) :
    Builds c' (b.odata + r) (doParseResult buf retlen strcnt fuel b)
  array {c ret cnt ret' c' b es base} (hin : c.In buf.length) (hcnt : cnt ≤ c.data)
    (h : calcArray buf fuel c ret cnt = .ok (ret', c')) (hm : Matches c b) (hes : es.length = cnt)
    (hwhole : ∀ e ∈ es, Whole e) (ho : b.odata ≤ base + ret) (hret : base + ret' ≤ retlen)
    (hstr : c'.strcnt ≤ strcnt) :
    ∃ es' b', doParseArray buf retlen strcnt fuel b es = .ok (es', b') ∧ (∀ e ∈ es', Whole e) ∧
      Matches c' b' ∧ b'.odata + sizeofPointer * es'.length ≤ base + ret'
  hash {c ret cnt ret' c' b ps base} (hin : c.In buf.length) (hcnt : cnt ≤ c.data)
    (h : calcHash buf fuel c ret cnt = .ok (ret', c')) (hm : Matches c b) (hps : ps.length ≤ cnt)
    (hwhole : ∀ p ∈ ps, Whole p.2) (ho : b.odata ≤ base + ret) (hret : base + ret' ≤ retlen)
    (hstr : c'.strcnt ≤ strcnt) :
    ∃ ps' b', doParseHash buf retlen strcnt fuel b ps = .ok (ps', b') ∧ (∀ p ∈ ps', Whole p.2) ∧
      Matches c' b' ∧ b'.odata + sizeofHashpair * ps'.length ≤ base + ret'

/-- A value is built in lockstep once the loops are. -/
theorem lockstep_value {fuel : ℕ} (hbuf : buf.length < 2 ^ 32) (ih : Lockstep buf retlen strcnt fuel)
    {c c' : Cursor} {r : ℕ} {b : Builder} (hin : c.In buf.length)
    (h : calcRetLen buf (fuel + 1) c = .ok (r, c')) (hm : Matches c b) (hret : b.odata + r ≤ retlen)
    (hstr : c'.strcnt ≤ strcnt) :
    Builds c' (b.odata + r) (doParseResult buf retlen strcnt (fuel + 1) b) := by
  rw [calcRetLen] at h
  obtain ⟨_, hneed, h⟩ := bind_eq_ok.mp h
  obtain ⟨type, htype, h⟩ := bind_eq_ok.mp h
  have hin₁ := hin.skip (need_ok.mp hneed)
  have hm₁ := hm.moved (c.skip 1) rfl
  rw [doParseResult, hm.indata, htype, ok_bind]
  split at h
  · rename_i harray
    have hgrow := ((calc_moves hbuf fuel).array hin₁ (Nat.zero_le _) h).2.2
    obtain ⟨es, b', hes, hwhole, hm', ho⟩ := ih.array hin₁ (Nat.zero_le _) h (hm₁ (b.odata + sizeofBinresult))
      List.length_nil (by simp) (le_refl _) hret hstr
    have hheader : store retlen b.odata sizeofBinresult = .ok () := store_ok (by omega)
    have hbody : store retlen b'.odata (sizeofPointer * es.length) = .ok () := store_ok (by omega)
    refine ⟨.array es, { b' with odata := b'.odata + sizeofPointer * es.length }, ?_, .array hwhole,
      ⟨hm'.indata, hm'.strings, hm'.whole⟩, ho⟩
    rw [if_pos harray, hheader, ok_bind]
    rw [skip_data] at hes
    simp only [hes, ok_bind, hbody, pure_eq_ok]
  rename_i harray
  rw [if_neg harray]
  split at h
  · rename_i hhash
    have hgrow := ((calc_moves hbuf fuel).hash hin₁ (Nat.zero_le _) h).2.2
    obtain ⟨ps, b', hps, hwhole, hm', ho⟩ := ih.hash hin₁ (Nat.zero_le _) h (hm₁ (b.odata + sizeofBinresult))
      (le_of_eq List.length_nil) (by simp) (le_refl _) hret hstr
    have hheader : store retlen b.odata sizeofBinresult = .ok () := store_ok (by omega)
    have hbody : store retlen b'.odata (sizeofHashpair * ps.length) = .ok () := store_ok (by omega)
    refine ⟨.hash ps, { b' with odata := b'.odata + sizeofHashpair * ps.length }, ?_, .hash hwhole,
      ⟨hm'.indata, hm'.strings, hm'.whole⟩, ho⟩
    rw [if_pos hhash, hheader, ok_bind]
    rw [skip_data] at hps
    simp only [hps, ok_bind, hbody, pure_eq_ok]
  · rename_i hhash
    rw [if_neg hhash]
    exact scalar_lockstep hin₁ h (hm₁ b.odata) hret hstr

/-- One more element: what the rest of the loop needs is inside what it counts. -/
theorem lockstep_array {fuel : ℕ} (hbuf : buf.length < 2 ^ 32) (ih : Lockstep buf retlen strcnt fuel)
    {c c' : Cursor} {ret cnt ret' base : ℕ} {b : Builder} {es : List Binresult} (hin : c.In buf.length)
    (hcnt : cnt ≤ c.data) (h : calcArray buf (fuel + 1) c ret cnt = .ok (ret', c')) (hm : Matches c b)
    (hes : es.length = cnt) (hwhole : ∀ e ∈ es, Whole e) (ho : b.odata ≤ base + ret)
    (hret : base + ret' ≤ retlen) (hstr : c'.strcnt ≤ strcnt) :
    ∃ es' b', doParseArray buf retlen strcnt (fuel + 1) b es = .ok (es', b') ∧ (∀ e ∈ es', Whole e) ∧
      Matches c' b' ∧ b'.odata + sizeofPointer * es'.length ≤ base + ret' := by
  rw [calcArray] at h
  obtain ⟨type, htype, h⟩ := bind_eq_ok.mp h
  rw [doParseArray, hm.indata, htype, ok_bind]
  split at h
  · rename_i hend
    cases h
    refine ⟨es, { b with indata := c.data + 1 }, if_pos hend, hwhole, hm.moved (c.skip 1) rfl b.odata, ?_⟩
    rw [hes]
    show b.odata + _ ≤ _
    omega
  rename_i hend
  rw [if_neg hend]
  obtain ⟨⟨r, c₁⟩, hvalue, h⟩ := bind_eq_ok.mp h
  obtain ⟨_, hneed, h⟩ := bind_eq_ok.mp h
  have moves := calc_moves hbuf fuel
  obtain ⟨hm₁, hlt₁⟩ := moves.value hin hvalue
  obtain ⟨hwrap, hcnt₁⟩ := count_succ hbuf hcnt hlt₁ hm₁.isin
  simp only [hwrap] at h
  obtain ⟨hrest, -, hgrow⟩ := moves.array hm₁.isin hcnt₁ h
  obtain ⟨t, b₁, ht, htwhole, hb₁, ho₁⟩ := ih.value hin hvalue hm (by omega) (le_trans hrest.strcnt hstr)
  rw [ht, ok_bind]
  refine ih.array hm₁.isin hcnt₁ h hb₁ ?_ ?_ (by omega) hret hstr
  · rw [List.length_append, hes]
    rfl
  · intro e he
    rcases List.mem_append.mp he with he | he
    · exact hwhole e he
    · rwa [List.mem_singleton.mp he]

/-- One more pair: the size pass counts it also where its key is no string. -/
theorem lockstep_hash {fuel : ℕ} (hbuf : buf.length < 2 ^ 32) (ih : Lockstep buf retlen strcnt fuel)
    {c c' : Cursor} {ret cnt ret' base : ℕ} {b : Builder} {ps : List (List UInt8 × Binresult)}
    (hin : c.In buf.length) (hcnt : cnt ≤ c.data)
    (h : calcHash buf (fuel + 1) c ret cnt = .ok (ret', c')) (hm : Matches c b)
    (hps : ps.length ≤ cnt) (hwhole : ∀ p ∈ ps, Whole p.2) (ho : b.odata ≤ base + ret)
    (hret : base + ret' ≤ retlen) (hstr : c'.strcnt ≤ strcnt) :
    ∃ ps' b', doParseHash buf retlen strcnt (fuel + 1) b ps = .ok (ps', b') ∧ (∀ p ∈ ps', Whole p.2) ∧
      Matches c' b' ∧ b'.odata + sizeofHashpair * ps'.length ≤ base + ret' := by
  rw [calcHash] at h
  obtain ⟨type, htype, h⟩ := bind_eq_ok.mp h
  rw [doParseHash, hm.indata, htype, ok_bind]
  split at h
  · rename_i hend
    cases h
    refine ⟨ps, { b with indata := c.data + 1 }, if_pos hend, hwhole, hm.moved (c.skip 1) rfl b.odata, ?_⟩
    have := Nat.mul_le_mul_left sizeofHashpair hps
    show b.odata + _ ≤ _
    omega
  rename_i hend
  rw [if_neg hend]
  obtain ⟨⟨r, c₁⟩, hkey, h⟩ := bind_eq_ok.mp h
  obtain ⟨⟨r', c₂⟩, hvalue, h⟩ := bind_eq_ok.mp h
  obtain ⟨_, hneed, h⟩ := bind_eq_ok.mp h
  have moves := calc_moves hbuf fuel
  obtain ⟨hm₁, hlt₁⟩ := moves.value hin hkey
  obtain ⟨hm₂, hlt₂⟩ := moves.value hm₁.isin hvalue
  obtain ⟨hwrap, hcnt₂⟩ := count_succ hbuf hcnt (lt_trans hlt₁ hlt₂) hm₂.isin
  simp only [hwrap] at h
  obtain ⟨hrest, -, hgrow⟩ := moves.hash hm₂.isin hcnt₂ h
  have hstr₂ := le_trans hrest.strcnt hstr
  obtain ⟨k, b₁, hk, hkwhole, hb₁, ho₁⟩ := ih.value hin hkey hm (by omega) (le_trans hm₂.strcnt hstr₂)
  obtain ⟨t, b₂, ht, htwhole, hb₂, ho₂⟩ := ih.value hm₁.isin hvalue hb₁ (by omega) hstr₂
  obtain ⟨key, hkey'⟩ := hkwhole.key
  simp only [hk, ok_bind, ht, hkey']
  cases key with
  | none => exact ih.hash hm₂.isin hcnt₂ h hb₂ (by omega) hwhole (by omega) hret hstr
  | some s =>
    refine ih.hash hm₂.isin hcnt₂ h hb₂ ?_ ?_ (by omega) hret hstr
    · rw [List.length_append]
      exact Nat.succ_le_succ hps
    · intro p hp
      rcases List.mem_append.mp hp with hp | hp
      · exact hwhole p hp
      · rwa [List.mem_singleton.mp hp]

theorem lockstep (hbuf : buf.length < 2 ^ 32) (fuel : ℕ) : Lockstep buf retlen strcnt fuel := by
  induction fuel with
  | zero =>
    refine ⟨fun _ h => ?_, fun _ _ h => ?_, fun _ _ h => ?_⟩
    · rw [calcRetLen] at h
      cases h
    · rw [calcArray] at h
      cases h
    · rw [calcHash] at h
      cases h
  | succ fuel ih => exact ⟨lockstep_value hbuf ih, lockstep_array hbuf ih, lockstep_hash hbuf ih⟩

end Lockstep

/-- The build pass, started in the blocks the size pass counted. -/
theorem buildPass_builds (hbuf : buf.length < 2 ^ 32) {retlen : ℕ} {c : Cursor}
    (h : sizePass buf = .ok (retlen, c)) : Builds c retlen (buildPass buf retlen c.strcnt) := by
  have hin : Cursor.In buf.length ⟨0, buf.length, 0⟩ := ⟨Nat.zero_add _, by omega⟩
  have hm : Matches ⟨0, buf.length, 0⟩ ⟨0, 0, []⟩ := ⟨rfl, rfl, by simp⟩
  have hbuild := (lockstep hbuf (enoughFuel buf)).value hin h hm (le_of_eq (Nat.zero_add _)) (le_refl _)
  rwa [Nat.zero_add] at hbuild

/-- **The two passes agree.** Where the size pass accepts a message, the build pass runs
without a fault in blocks of the sizes it counted: it consumes as many bytes, stays in
the result block, stores each counted string once and leaves no `NULL` in its tree. -/
theorem passes_agree (buf : List UInt8) (hbuf : buf.length < 2 ^ 32) {retlen : ℕ} {c : Cursor}
    (h : sizePass buf = .ok (retlen, c)) :
    ∃ t b, buildPass buf retlen c.strcnt = .ok (t, b) ∧ b.indata = c.data ∧ b.odata ≤ retlen ∧
      b.strings.length = c.strcnt ∧ Whole t := by
  obtain ⟨t, b, ht, hwhole, hb, ho⟩ := buildPass_builds hbuf h
  exact ⟨t, b, ht, hb.indata, ho, hb.strings, hwhole⟩

/-- A hash with a reused string for a key and a number for another one. -/
theorem passes_agree_hash :
    let buf : List UInt8 := [16, 101, 97, 150, 201, 19, 255]
    ∃ t b, buildPass buf 64 1 = .ok (t, b) ∧ b.indata = 7 ∧ b.odata ≤ 64 ∧ b.strings.length = 1 ∧ Whole t :=
  passes_agree _ (by decide) (c := ⟨7, 0, 1⟩) rfl

end Pclsync.Api
