import Pclsync.Api.Lockstep

/-! Which messages the size pass reads past.

`calc_ret_len` checks the length before every byte it consumes, but the loops over
arrays and hashes look at the next byte before they do. The messages this matters
for are given by a grammar of their own: `Spells` says which bytes a value takes and
`Awaits` where the type byte of a value is due. The size pass leaves its input exactly
on the messages that end in the type byte of an array or a hash where one is due. -/
namespace Pclsync.Api
open Lib.Machine Lib.Fallible

/-! ### The format -/

/-- Little-endian words. -/
def word : List UInt8 → ℕ
  | [] => 0
  | b :: bs => b.toNat + 256 * word bs

/-- The scalar of type byte `t` takes `body` after it; there were `n` strings before it
and there are `m` after it. -/
inductive Scalar (n : ℕ) (t : UInt8) : List UInt8 → ℕ → Prop where
  | shortStr {s} (lo : 100 ≤ t.toNat) (hi : t.toNat < 150) (len : s.length = t.toNat - 100) :
      Scalar n t s (n + 1)
  | longStr {w s} (hi : t.toNat ≤ 3) (width : w.length = t.toNat + 1) (len : s.length = word w) :
      Scalar n t (w ++ s) (n + 1)
  | shortRstr (lo : 150 ≤ t.toNat) (hi : t.toNat < 200) (stored : t.toNat - 150 < n) : Scalar n t [] n
  | longRstr {w} (lo : 4 ≤ t.toNat) (hi : t.toNat ≤ 7) (width : w.length = t.toNat - 3) (stored : word w < n) :
      Scalar n t w n
  | num {w} (lo : 8 ≤ t.toNat) (hi : t.toNat ≤ 15) (width : w.length = t.toNat - 7) : Scalar n t w n
  | smallNum (lo : 200 ≤ t.toNat) (hi : t.toNat < 220) : Scalar n t [] n
  | bool (h : t = 18 ∨ t = 19) : Scalar n t [] n
  | data {w} (h : t = 20) (width : w.length = 8) : Scalar n t w n

inductive Kind where
  | value
  | elements
  | pairs

/-- The bytes of a value, of the elements of an array and of the pairs of a hash. -/
inductive Spells : Kind → ℕ → List UInt8 → ℕ → Prop where
  | scalar {n t body m} : Scalar n t body m → Spells .value n (t :: body) m
  | array {n bs m} : Spells .elements n bs m → Spells .value n (17 :: (bs ++ [255])) m
  | hash {n bs m} : Spells .pairs n bs m → Spells .value n (16 :: (bs ++ [255])) m
  | noElement {n} : Spells .elements n [] n
  | element {n b k bs m} : Spells .value n b k → Spells .elements k bs m → Spells .elements n (b ++ bs) m
  | noPair {n} : Spells .pairs n [] n
  | pair {n key j b k bs m} : Spells .value n key j → Spells .value j b k → Spells .pairs k bs m →
      Spells .pairs n (key ++ (b ++ bs)) m

/-- After these bytes of a value the type byte of a value, of it or inside it, is due. -/
inductive Awaits : ℕ → List UInt8 → Prop where
  | here {n} : Awaits n []
  | element {n bs m pre} : Spells .elements n bs m → Awaits m pre → Awaits n (17 :: (bs ++ pre))
  | key {n bs m pre} : Spells .pairs n bs m → Awaits m pre → Awaits n (16 :: (bs ++ pre))
  | value {n bs k key m pre} : Spells .pairs n bs k → Spells .value k key m → Awaits m pre →
      Awaits n (16 :: (bs ++ (key ++ pre)))

/-- The message breaks off right after the type byte of an array or a hash. -/
def BreaksOff (n : ℕ) (bytes : List UInt8) : Prop :=
  ∃ pre t, bytes = pre ++ [t] ∧ (t = 16 ∨ t = 17) ∧ Awaits n pre

/-! ### Cursors on the bytes that are left -/

variable {buf : List UInt8}

/-- The bytes from the cursor on are `rest`. -/
structure Cursor.At (buf : List UInt8) (c : Cursor) (rest : List UInt8) : Prop where
  isin : c.In buf.length
  drop : buf.drop c.data = rest

theorem Cursor.At.datalen {c : Cursor} {rest : List UInt8} (h : c.At buf rest) : c.datalen = rest.length := by
  have := h.isin.ends
  rw [← h.drop, List.length_drop]
  omega

theorem Cursor.At.skip {c : Cursor} {s rest : List UInt8} (h : c.At buf (s ++ rest)) {l : ℕ} (hl : s.length = l) :
    (c.skip l).At buf rest := by
  have := h.datalen
  rw [List.length_append] at this
  refine ⟨h.isin.skip (by omega), ?_⟩
  rw [skip_data, ← List.drop_drop, h.drop, ← hl, List.drop_left]

theorem Cursor.At.byte {c : Cursor} {t : UInt8} {rest : List UInt8} (h : c.At buf (t :: rest)) :
    byteAt buf c.data = .ok t.toNat := by
  have : buf[c.data]? = some t := by
    rw [← List.head?_drop, h.drop]
    rfl
  rw [byteAt, this]

theorem Cursor.At.byte_nil {c : Cursor} (h : c.At buf []) : byteAt buf c.data = .error (.overread buf.length) := by
  have := h.isin.ends
  have : c.datalen = 0 := h.datalen
  have hdata : c.data = buf.length := by omega
  rw [byteAt, hdata, List.getElem?_eq_none (le_refl _)]

theorem loadWord_at {s rest : List UInt8} {position : ℕ} (h : buf.drop position = s ++ rest) :
    loadWord buf position s.length = .ok (word s) := by
  induction s generalizing position with
  | nil => rfl
  | cons t s ih =>
    have hhead : buf[position]? = some t := by
      rw [← List.head?_drop, h]
      rfl
    have htail : buf.drop (position + 1) = s ++ rest := by
      rw [← List.drop_drop, h]
      rfl
    rw [List.length_cons, loadWord, byteAt, hhead, ih htail]
    rfl

/-- What a successful `_NEED_DATA` allows to split off. -/
theorem Cursor.At.split {c : Cursor} {rest : List UInt8} (h : c.At buf rest) {l : ℕ} (hl : l ≤ c.datalen) :
    ∃ s rest', s.length = l ∧ rest = s ++ rest' := by
  rw [h.datalen] at hl
  exact ⟨rest.take l, rest.drop l, List.length_take_of_le hl, (List.take_append_drop l rest).symm⟩

/-- The size pass went from `rest` over bytes that `spells` allows. -/
def Walks (buf rest : List UInt8) (spells : List UInt8 → ℕ → Prop) (c' : Cursor) : Prop :=
  ∃ s rest', rest = s ++ rest' ∧ c'.At buf rest' ∧ spells s c'.strcnt

/-! ### Scalars -/

/-- `_NEED_DATA` stops the pass or the bytes are there. -/
theorem need_cases {c : Cursor} {rest : List UInt8} (h : c.At buf rest) (l : ℕ) :
    c.need l = .error .failed ∨ c.need l = .ok () ∧ ∃ s rest', s.length = l ∧ rest = s ++ rest' := by
  by_cases hl : l ≤ c.datalen
  · exact .inr ⟨need_ok.mpr hl, h.split hl⟩
  · exact .inl (if_pos (by omega))

theorem loadWord_at' {c : Cursor} {s rest : List UInt8} {l : ℕ} (h : c.At buf (s ++ rest)) (hl : s.length = l) :
    loadWord buf c.data l = .ok (word s) := by
  rw [← hl]
  exact loadWord_at h.drop

theorem calcStrLen_cases {t : UInt8} {c : Cursor} {rest : List UInt8} (h : c.At buf rest) (ht : IsStr t.toNat) :
    calcStrLen buf t.toNat c = .error .failed ∨
      ∃ len c' w rest', calcStrLen buf t.toNat c = .ok (len, c') ∧ rest = w ++ rest' ∧ c'.At buf rest' ∧
        c'.strcnt = c.strcnt ∧ ∀ s, s.length = len → Scalar c.strcnt t (w ++ s) (c.strcnt + 1) := by
  rw [calcStrLen]
  split
  · rename_i hshort
    exact .inr ⟨_, c, [], rest, rfl, rfl, h, rfl, fun s hs => .shortStr hshort.1 hshort.2 hs⟩
  · rename_i hshort
    have hlong := ht.resolve_left hshort
    rcases need_cases h (t.toNat - rparamStr1 + 1) with hneed | ⟨hneed, w, rest', hw, rfl⟩
    · exact .inl (by simp only [hneed, error_bind])
    · refine .inr ⟨word w, c.skip _, w, rest', ?_, rfl, h.skip hw, rfl,
        fun s hs => .longStr hlong.2 hw hs⟩
      simp only [hneed, ok_bind, loadWord_at' h hw, pure_eq_ok]

theorem calcRstrId_cases {t : UInt8} {c : Cursor} {rest : List UInt8} (h : c.At buf rest) (ht : IsRstr t.toNat) :
    calcRstrId buf t.toNat c = .error .failed ∨
      ∃ id c' w rest', calcRstrId buf t.toNat c = .ok (id, c') ∧ rest = w ++ rest' ∧ c'.At buf rest' ∧
        c'.strcnt = c.strcnt ∧ (id < c.strcnt → Scalar c.strcnt t w c.strcnt) := by
  rw [calcRstrId]
  split
  · rename_i hlong
    rcases need_cases h (t.toNat - rparamRstr1 + 1) with hneed | ⟨hneed, w, rest', hw, rfl⟩
    · exact .inl (by simp only [hneed, error_bind])
    · have hwidth : w.length = t.toNat - 3 := by
        have := hlong.1
        simp only [rparamRstr1] at this hw
        omega
      refine .inr ⟨word w, c.skip _, w, rest', ?_, rfl, h.skip hw, rfl, .longRstr hlong.1 hlong.2 hwidth⟩
      simp only [hneed, ok_bind, loadWord_at' h hw, pure_eq_ok]
  · rename_i hlong
    have hshort := ht.resolve_left hlong
    exact .inr ⟨_, c, [], rest, rfl, rfl, h, rfl, .shortRstr hshort.1 hshort.2⟩

theorem skip_cases {t : UInt8} {c : Cursor} {rest : List UInt8} (h : c.At buf rest) (r l : ℕ)
    (hs : ∀ s, s.length = l → Scalar c.strcnt t s c.strcnt) :
    (c.need l >>= fun _ => pure (r, c.skip l)) = .error Fault.failed ∨
      ∃ r' c', (c.need l >>= fun _ => pure (r, c.skip l)) = .ok (r', c') ∧
        Walks buf rest (Scalar c.strcnt t) c' := by
  rcases need_cases h l with hneed | ⟨hneed, s, rest', hl, rfl⟩
  · exact .inl (by rw [hneed, error_bind])
  · refine .inr ⟨r, c.skip l, ?_, s, rest', rfl, h.skip hl, hs s hl⟩
    rw [hneed, ok_bind, pure_eq_ok]

/-- A scalar stops at a failed check, or it spells the bytes it went over. -/
theorem calcScalar_cases {t : UInt8} {c : Cursor} {rest : List UInt8} (h : c.At buf rest) :
    calcScalar buf t.toNat c = .error .failed ∨
      ∃ r c', calcScalar buf t.toNat c = .ok (r, c') ∧ Walks buf rest (Scalar c.strcnt t) c' := by
  rw [calcScalar]
  split
  · rename_i ht
    rcases calcStrLen_cases h ht with hlen | ⟨len, c₁, w, rest₁, hlen, rfl, h₁, hcnt, hs⟩
    · exact .inl (by rw [hlen, error_bind])
    rw [hlen, ok_bind]
    rcases need_cases h₁ len with hneed | ⟨hneed, s, rest', hl, rfl⟩
    · exact .inl (by simp only [hneed, error_bind])
    have h' := h₁.skip hl
    refine .inr ⟨strOffset + alignedLen len, { c₁.skip len with strcnt := c₁.strcnt + 1 }, ?_, w ++ s, rest', ?_,
      ⟨⟨h'.isin.ends, h'.isin.small⟩, h'.drop⟩, ?_⟩
    · simp only [hneed, ok_bind, pure_eq_ok]
    · rw [List.append_assoc]
    · rw [hcnt]
      exact hs s hl
  split
  · rename_i ht
    rcases calcRstrId_cases h ht with hid | ⟨id, c₁, w, rest₁, hid, rfl, h₁, hcnt, hs⟩
    · exact .inl (by rw [hid, error_bind])
    simp only [hid, ok_bind]
    split
    · rename_i hlt
      rw [hcnt] at hlt
      exact .inr ⟨0, c₁, rfl, w, rest₁, rfl, h₁, hcnt ▸ hs hlt⟩
    · exact .inl rfl
  split
  · rename_i ht
    refine skip_cases h _ _ fun s hs => .num ht.1 ht.2 ?_
    have := ht.1
    simp only [rparamNum1] at this hs
    omega
  split
  · rename_i ht
    exact .inr ⟨0, c, rfl, [], rest, rfl, h, .smallNum ht.1 ht.2⟩
  split
  · rename_i ht
    exact .inr ⟨0, c, rfl, [], rest, rfl, h, .bool (ht.imp UInt8.toNat_inj.mp UInt8.toNat_inj.mp)⟩
  split
  · rename_i ht
    exact skip_cases h _ _ fun s hs => .data (UInt8.toNat_inj.mp ht) hs
  · exact .inl rfl

theorem need_of_at {c : Cursor} {s rest : List UInt8} (h : c.At buf (s ++ rest)) {l : ℕ} (hl : s.length = l) :
    c.need l = .ok () := by
  have := h.datalen
  rw [List.length_append] at this
  exact need_ok.mpr (by omega)

/-- A counted string of `len` bytes takes the size pass over them. -/
theorem str_runs {t : UInt8} {len : ℕ} {s rest : List UInt8} {c c₁ : Cursor} (ht : IsStr t.toNat)
    (hlen : calcStrLen buf t.toNat c = .ok (len, c₁)) (h : c₁.At buf (s ++ rest)) (hs : s.length = len) :
    ∃ r c', calcScalar buf t.toNat c = .ok (r, c') ∧ c'.At buf rest ∧ c'.strcnt = c₁.strcnt + 1 := by
  have h' := h.skip hs
  refine ⟨strOffset + alignedLen len, { c₁.skip len with strcnt := c₁.strcnt + 1 }, ?_,
    ⟨⟨h'.isin.ends, h'.isin.small⟩, h'.drop⟩, rfl⟩
  rw [calcScalar, if_pos ht, hlen]
  simp only [ok_bind, need_of_at h hs, pure_eq_ok]

/-- A stored id takes the size pass over it. -/
theorem rstr_runs {t : UInt8} {id : ℕ} {rest : List UInt8} {c c₁ : Cursor} (hnot : ¬IsStr t.toNat)
    (ht : IsRstr t.toNat) (hid : calcRstrId buf t.toNat c = .ok (id, c₁)) (hlt : id < c₁.strcnt)
    (h : c₁.At buf rest) :
    ∃ r c', calcScalar buf t.toNat c = .ok (r, c') ∧ c'.At buf rest ∧ c'.strcnt = c₁.strcnt := by
  refine ⟨0, c₁, ?_, h, rfl⟩
  rw [calcScalar, if_neg hnot, if_pos ht, hid]
  simp only [ok_bind, if_pos hlt, pure_eq_ok]

theorem not_isStr {type : ℕ} (lo : 4 ≤ type) (hi : type < 100 ∨ 150 ≤ type) : ¬IsStr type := by
  simp only [IsStr, rparamShortStrBase, vshortStrLen, rparamStr1, rparamStr4]
  omega

theorem not_isRstr {type : ℕ} (lo : 8 ≤ type) (hi : type < 150 ∨ 200 ≤ type) : ¬IsRstr type := by
  simp only [IsRstr, rparamShortRstrBase, vshortRstrCnt, rparamRstr1, rparamRstr4]
  omega

/-- The bytes of a scalar take the size pass over them. -/
theorem calcScalar_runs {n m : ℕ} {t : UInt8} {body rest : List UInt8} {c : Cursor} (hs : Scalar n t body m)
    (h : c.At buf (body ++ rest)) (hn : c.strcnt = n) :
    ∃ r c', calcScalar buf t.toNat c = .ok (r, c') ∧ c'.At buf rest ∧ c'.strcnt = m := by
  subst hn
  cases hs with
  | shortStr lo hi len =>
    exact str_runs (.inl ⟨lo, hi⟩) (if_pos ⟨lo, hi⟩) h len
  | @longStr w s hi width len =>
    have hshort : ¬(rparamShortStrBase ≤ t.toNat ∧ t.toNat < rparamShortStrBase + vshortStrLen) := by
      simp only [rparamShortStrBase]
      omega
    rw [List.append_assoc] at h
    have hlen : calcStrLen buf t.toNat c = .ok (word w, c.skip (t.toNat + 1)) := by
      rw [calcStrLen, if_neg hshort]
      simp only [rparamStr1, Nat.sub_zero, need_of_at h width, loadWord_at' h width, ok_bind, pure_eq_ok]
    have hrun := str_runs (.inr ⟨Nat.zero_le _, hi⟩) hlen (h.skip width) len
    exact hrun
  | shortRstr lo hi stored =>
    have hid : calcRstrId buf t.toNat c = .ok (t.toNat - 150, c) := by
      rw [calcRstrId, if_neg]
      · rfl
      · simp only [rparamRstr4]
        omega
    exact rstr_runs (not_isStr (by omega) (.inr lo)) (.inr ⟨lo, hi⟩) hid stored h
  | longRstr lo hi width stored =>
    have hwidth : body.length = t.toNat - rparamRstr1 + 1 := by
      simp only [rparamRstr1]
      omega
    have hid : calcRstrId buf t.toNat c = .ok (word body, c.skip (t.toNat - rparamRstr1 + 1)) := by
      rw [calcRstrId, if_pos ⟨lo, hi⟩]
      simp only [need_of_at h hwidth, loadWord_at' h hwidth, ok_bind, pure_eq_ok]
    have hrun := rstr_runs (not_isStr lo (.inl (by omega))) (.inl ⟨lo, hi⟩) hid stored (h.skip hwidth)
    exact hrun
  | num lo hi width =>
    have hwidth : body.length = t.toNat - rparamNum1 + 1 := by
      simp only [rparamNum1]
      omega
    refine ⟨sizeofBinresult, c.skip _, ?_, h.skip hwidth, rfl⟩
    rw [calcScalar, if_neg (not_isStr (by omega) (by omega)), if_neg (not_isRstr lo (by omega)), if_pos ⟨lo, hi⟩]
    simp only [need_of_at h hwidth, ok_bind, pure_eq_ok]
  | smallNum lo hi =>
    refine ⟨0, c, ?_, h, rfl⟩
    rw [calcScalar, if_neg (not_isStr (by omega) (by omega)), if_neg (not_isRstr (by omega) (by omega)), if_neg,
      if_pos ⟨lo, hi⟩, pure_eq_ok]
    simp only [rparamNum8]
    omega
  | bool ht =>
    refine ⟨0, c, ?_, h, rfl⟩
    rcases ht with rfl | rfl
    · rfl
    · rfl
  | data ht width =>
    subst ht
    refine ⟨sizeofBinresult, c.skip 8, ?_, h.skip width, rfl⟩
    show (c.need 8 >>= fun _ => pure (sizeofBinresult, c.skip 8)) = _
    rw [need_of_at h width, ok_bind, pure_eq_ok]

/-! ### What the size pass does with any bytes -/

theorem Spells.ne_nil {n m : ℕ} {s : List UInt8} (h : Spells .value n s m) : s ≠ [] := by
  cases h <;> exact List.cons_ne_nil _ _

theorem Spells.length_pos {n m : ℕ} {s : List UInt8} (h : Spells .value n s m) : 0 < s.length :=
  List.length_pos_iff.mpr h.ne_nil

/-- A run that stops at a failed check, or goes as `walks` says, or leaves an input for
which `breaks` holds right at its end. -/
def Outcome (buf : List UInt8) (walks : Cursor → Prop) (breaks : Prop) : Except Fault (ℕ × Cursor) → Prop
  | .ok (_, c) => walks c
  | .error .failed => True
  | .error (.overread position) => position = buf.length ∧ breaks
  | .error _ => False

theorem Outcome.bind {walks walks' : Cursor → Prop} {breaks breaks' : Prop} {x : Except Fault (ℕ × Cursor)}
    {f : ℕ × Cursor → Except Fault (ℕ × Cursor)} (h : Outcome buf walks breaks x)
    (hok : ∀ r c, walks c → Outcome buf walks' breaks' (f (r, c))) (hbreaks : breaks → breaks') :
    Outcome buf walks' breaks' (x >>= f) := by
  match x, h with
  | .ok (r, c), h => exact hok r c h
  | .error .failed, _ => trivial
  | .error (.overread _), h => exact ⟨h.1, hbreaks h.2⟩

theorem Outcome.mono {walks walks' : Cursor → Prop} {breaks breaks' : Prop} {x : Except Fault (ℕ × Cursor)}
    (h : Outcome buf walks breaks x) (hwalks : ∀ c, walks c → walks' c) (hbreaks : breaks → breaks') :
    Outcome buf walks' breaks' x := by
  match x, h with
  | .ok (r, c), h => exact hwalks c h
  | .error .failed, _ => trivial
  | .error (.overread _), h => exact ⟨h.1, hbreaks h.2⟩

/-- What a loop goes over: what it repeats, and the end byte. -/
def Enclosed (kind : Kind) (n : ℕ) (s : List UInt8) (m : ℕ) : Prop :=
  ∃ bs, s = bs ++ [255] ∧ Spells kind n bs m

/-- The bytes break off among the elements of an array. -/
def BreaksInElements (n : ℕ) (rest : List UInt8) : Prop :=
  rest = [] ∨ ∃ bs m tail, Spells .elements n bs m ∧ rest = bs ++ tail ∧ BreaksOff m tail

/-- The bytes break off among the pairs of a hash, in a key or in a value. -/
def BreaksInPairs (n : ℕ) (rest : List UInt8) : Prop :=
  rest = [] ∨ (∃ bs m tail, Spells .pairs n bs m ∧ rest = bs ++ tail ∧ BreaksOff m tail) ∨
    ∃ bs k key m tail, Spells .pairs n bs k ∧ Spells .value k key m ∧ rest = bs ++ (key ++ tail) ∧
      BreaksOff m tail

theorem BreaksInElements.breaksOff {n : ℕ} {rest : List UInt8} (h : BreaksInElements n rest) :
    BreaksOff n (17 :: rest) := by
  rcases h with rfl | ⟨bs, m, _, hbs, rfl, pre, t, rfl, ht, hpre⟩
  · exact ⟨[], 17, rfl, .inr rfl, .here⟩
  · exact ⟨17 :: (bs ++ pre), t, by simp, ht, .element hbs hpre⟩

theorem BreaksInPairs.breaksOff {n : ℕ} {rest : List UInt8} (h : BreaksInPairs n rest) :
    BreaksOff n (16 :: rest) := by
  rcases h with rfl | ⟨bs, m, _, hbs, rfl, pre, t, rfl, ht, hpre⟩ |
    ⟨bs, k, key, m, _, hbs, hkey, rfl, pre, t, rfl, ht, hpre⟩
  · exact ⟨[], 16, rfl, .inl rfl, .here⟩
  · exact ⟨16 :: (bs ++ pre), t, by simp, ht, .key hbs hpre⟩
  · exact ⟨16 :: (bs ++ (key ++ pre)), t, by simp, ht, .value hbs hkey hpre⟩

/-- The outcomes of a recursion of `fuel` that is enough for the bytes left. -/
structure Outcomes (buf : List UInt8) (fuel : ℕ) : Prop where
  value {c rest} (h : c.At buf rest) (hfuel : 2 * rest.length + 1 ≤ fuel) :
    Outcome buf (Walks buf rest (Spells .value c.strcnt)) (BreaksOff c.strcnt rest) (calcRetLen buf fuel c)
  array {c rest ret cnt} (h : c.At buf rest) (hfuel : 2 * rest.length + 2 ≤ fuel) :
    Outcome buf (Walks buf rest (Enclosed .elements c.strcnt)) (BreaksInElements c.strcnt rest)
      (calcArray buf fuel c ret cnt)
  hash {c rest ret cnt} (h : c.At buf rest) (hfuel : 2 * rest.length + 2 ≤ fuel) :
    Outcome buf (Walks buf rest (Enclosed .pairs c.strcnt)) (BreaksInPairs c.strcnt rest)
      (calcHash buf fuel c ret cnt)

theorem outcomes_value {fuel : ℕ} (ih : Outcomes buf fuel) {c : Cursor} {rest : List UInt8} (h : c.At buf rest)
    (hfuel : 2 * rest.length + 1 ≤ fuel + 1) :
    Outcome buf (Walks buf rest (Spells .value c.strcnt)) (BreaksOff c.strcnt rest)
      (calcRetLen buf (fuel + 1) c) := by
  rw [calcRetLen]
  rcases need_cases h 1 with hneed | ⟨hneed, s, rest₁, hs, rfl⟩
  · rw [hneed]
    trivial
  obtain ⟨t, rfl⟩ := List.length_eq_one_iff.mp hs
  have h₁ := h.skip hs
  rw [List.singleton_append] at h hfuel ⊢
  rw [List.length_cons] at hfuel
  rw [hneed, ok_bind, h.byte, ok_bind]
  split
  · rename_i ht
    obtain rfl : t = 17 := UInt8.toNat_inj.mp ht
    refine (ih.array h₁ (by omega)).mono ?_ BreaksInElements.breaksOff
    rintro c' ⟨_, rest', rfl, h', bs, rfl, hbs⟩
    exact ⟨17 :: (bs ++ [255]), rest', rfl, h', .array hbs⟩
  split
  · rename_i ht
    obtain rfl : t = 16 := UInt8.toNat_inj.mp ht
    refine (ih.hash h₁ (by omega)).mono ?_ BreaksInPairs.breaksOff
    rintro c' ⟨_, rest', rfl, h', bs, rfl, hbs⟩
    exact ⟨16 :: (bs ++ [255]), rest', rfl, h', .hash hbs⟩
  · rcases calcScalar_cases (t := t) h₁ with hfail | ⟨r, c', hok, body, rest', rfl, h', hbody⟩
    · rw [hfail]
      trivial
    · rw [hok]
      exact ⟨t :: body, rest', rfl, h', .scalar hbody⟩

theorem outcomes_array {fuel : ℕ} (ih : Outcomes buf fuel) {c : Cursor} {rest : List UInt8} {ret cnt : ℕ}
    (h : c.At buf rest) (hfuel : 2 * rest.length + 2 ≤ fuel + 1) :
    Outcome buf (Walks buf rest (Enclosed .elements c.strcnt)) (BreaksInElements c.strcnt rest)
      (calcArray buf (fuel + 1) c ret cnt) := by
  rw [calcArray]
  cases rest with
  | nil =>
    rw [h.byte_nil]
    exact ⟨rfl, .inl rfl⟩
  | cons t rest₁ =>
    rw [h.byte, ok_bind]
    split
    · rename_i ht
      obtain rfl : t = 255 := UInt8.toNat_inj.mp ht
      exact ⟨[255], rest₁, rfl, h.skip (s := [255]) rfl, [], rfl, .noElement⟩
    refine (ih.value h (by omega)).bind ?_ fun hbreaks => .inr ⟨[], _, _, .noElement, rfl, hbreaks⟩
    rintro r c₁ ⟨s, rest', hrest, h', hs⟩
    have hlen := congrArg List.length hrest
    rw [List.length_append] at hlen
    have := hs.length_pos
    rcases need_cases h' 1 with hneed | ⟨hneed, -⟩
    · simp only [hneed, error_bind]
      trivial
    simp only [hneed, ok_bind]
    rw [hrest]
    refine (ih.array h' (by omega)).mono ?_ ?_
    · rintro c' ⟨_, rest'', rfl, h'', bs, rfl, hbs⟩
      exact ⟨s ++ (bs ++ [255]), rest'', by simp, h'', s ++ bs, by simp, .element hs hbs⟩
    · rintro (rfl | ⟨bs, m, tail, hbs, rfl, htail⟩)
      · have := need_ok.mp hneed
        rw [h'.datalen] at this
        exact absurd this (by decide)
      · exact .inr ⟨s ++ bs, m, tail, .element hs hbs, by simp, htail⟩

theorem outcomes_hash {fuel : ℕ} (ih : Outcomes buf fuel) {c : Cursor} {rest : List UInt8} {ret cnt : ℕ}
    (h : c.At buf rest) (hfuel : 2 * rest.length + 2 ≤ fuel + 1) :
    Outcome buf (Walks buf rest (Enclosed .pairs c.strcnt)) (BreaksInPairs c.strcnt rest)
      (calcHash buf (fuel + 1) c ret cnt) := by
  rw [calcHash]
  cases rest with
  | nil =>
    rw [h.byte_nil]
    exact ⟨rfl, .inl rfl⟩
  | cons t rest₁ =>
    rw [h.byte, ok_bind]
    split
    · rename_i ht
      obtain rfl : t = 255 := UInt8.toNat_inj.mp ht
      exact ⟨[255], rest₁, rfl, h.skip (s := [255]) rfl, [], rfl, .noPair⟩
    refine (ih.value h (by omega)).bind ?_ fun hbreaks => .inr (.inl ⟨[], _, _, .noPair, rfl, hbreaks⟩)
    rintro r c₁ ⟨key, restKey, hrest, hk, hkey⟩
    rw [hrest, List.length_append] at hfuel
    rw [hrest]
    have := hkey.length_pos
    refine (ih.value hk (by omega)).bind ?_ fun hbreaks =>
      .inr (.inr ⟨[], _, key, _, restKey, .noPair, hkey, rfl, hbreaks⟩)
    rintro r' c₂ ⟨s, rest', rfl, h', hs⟩
    rw [List.length_append] at hfuel
    rcases need_cases h' 1 with hneed | ⟨hneed, -⟩
    · simp only [hneed, error_bind]
      trivial
    simp only [hneed, ok_bind]
    refine (ih.hash h' (by omega)).mono ?_ ?_
    · rintro c' ⟨_, rest'', rfl, h'', bs, rfl, hbs⟩
      exact ⟨key ++ (s ++ (bs ++ [255])), rest'', by simp, h'', key ++ (s ++ bs), by simp, .pair hkey hs hbs⟩
    · rintro (rfl | ⟨bs, m, tail, hbs, rfl, htail⟩ | ⟨bs, k, key', m, tail, hbs, hkey', rfl, htail⟩)
      · have := need_ok.mp hneed
        rw [h'.datalen] at this
        exact absurd this (by decide)
      · exact .inr (.inl ⟨key ++ (s ++ bs), m, tail, .pair hkey hs hbs, by simp, htail⟩)
      · exact .inr (.inr ⟨key ++ (s ++ bs), k, key', m, tail, .pair hkey hs hbs, hkey', by simp, htail⟩)

theorem calc_outcomes (buf : List UInt8) (fuel : ℕ) : Outcomes buf fuel := by
  induction fuel with
  | zero => exact ⟨fun _ h => by omega, fun _ h => by omega, fun _ h => by omega⟩
  | succ fuel ih => exact ⟨outcomes_value ih, outcomes_array ih, outcomes_hash ih⟩

/-! ### Where the bytes of the format take the size pass -/

/-- A loop on `bytes ++ rest` gets to `rest`, with enough fuel left for it. -/
def Reaches (buf : List UInt8) (loop : ℕ → Cursor → ℕ → ℕ → Except Fault (ℕ × Cursor))
    (n : ℕ) (bytes : List UInt8) (m : ℕ) : Prop :=
  ∀ (c : Cursor) (rest : List UInt8) (fuel ret cnt : ℕ), c.At buf (bytes ++ rest) → c.strcnt = n →
    2 * (bytes ++ rest).length + 2 ≤ fuel → rest ≠ [] →
    ∃ fuel' c' ret' cnt', loop fuel c ret cnt = loop fuel' c' ret' cnt' ∧ c'.At buf rest ∧ c'.strcnt = m ∧
      2 * rest.length + 2 ≤ fuel'

/-- What the size pass does on the bytes of each kind. -/
def Runs (buf : List UInt8) : Kind → ℕ → List UInt8 → ℕ → Prop
  | .value, n, bytes, m => ∀ (c : Cursor) (rest : List UInt8) (fuel : ℕ), c.At buf (bytes ++ rest) →
      c.strcnt = n → 2 * (bytes ++ rest).length + 1 ≤ fuel →
      ∃ r c', calcRetLen buf fuel c = .ok (r, c') ∧ c'.At buf rest ∧ c'.strcnt = m
  | .elements, n, bytes, m => Reaches buf (calcArray buf) n bytes m
  | .pairs, n, bytes, m => Reaches buf (calcHash buf) n bytes m

theorem reaches_nil {loop : ℕ → Cursor → ℕ → ℕ → Except Fault (ℕ × Cursor)} {n : ℕ} :
    Reaches buf loop n [] n :=
  fun c _ fuel ret cnt h hn hfuel _ => ⟨fuel, c, ret, cnt, rfl, h, hn, hfuel⟩

theorem Scalar.type_ne {n m : ℕ} {t : UInt8} {body : List UInt8} (h : Scalar n t body m) :
    t.toNat ≠ rparamHash ∧ t.toNat ≠ rparamArray ∧ t.toNat ≠ rparamEnd := by
  simp only [rparamHash, rparamArray, rparamEnd]
  cases h with
  | bool h => rcases h with rfl | rfl <;> decide
  | data h => subst h; decide
  | _ => omega

theorem Spells.head_ne {n m : ℕ} {s : List UInt8} (h : Spells .value n s m) :
    ∃ t s', s = t :: s' ∧ t.toNat ≠ rparamEnd := by
  cases h with
  | scalar h => exact ⟨_, _, rfl, h.type_ne.2.2⟩
  | array h => exact ⟨17, _, rfl, by decide⟩
  | hash h => exact ⟨16, _, rfl, by decide⟩

/-- The type byte of a value, read. -/
theorem calcRetLen_at {fuel : ℕ} {c : Cursor} {t : UInt8} {rest : List UInt8} (h : c.At buf (t :: rest)) :
    calcRetLen buf (fuel + 1) c =
      if t.toNat = rparamArray then calcArray buf fuel (c.skip 1) sizeofBinresult 0
      else if t.toNat = rparamHash then calcHash buf fuel (c.skip 1) sizeofBinresult 0
      else calcScalar buf t.toNat (c.skip 1) := by
  have hneed : c.need 1 = .ok () := need_of_at (s := [t]) h rfl
  rw [calcRetLen, hneed, ok_bind, h.byte, ok_bind]

theorem runs_element {n k m : ℕ} {b bs : List UInt8} (hb : Spells .value n b k) (hvalue : Runs buf .value n b k)
    (hrest : Runs buf .elements k bs m) : Runs buf .elements n (b ++ bs) m := by
  intro c rest fuel ret cnt h hn hfuel hne
  obtain ⟨t, b', rfl, ht⟩ := hb.head_ne
  obtain ⟨fuel, rfl⟩ : ∃ f, fuel = f + 1 := ⟨fuel - 1, by omega⟩
  rw [List.append_assoc] at h hfuel
  obtain ⟨r, c₁, hrun, h₁, hk⟩ := hvalue c (bs ++ rest) fuel h hn (by omega)
  rw [List.length_append, List.length_cons] at hfuel
  obtain ⟨fuel', c', ret', cnt', hloop, h', hm, hfuel'⟩ :=
    hrest c₁ rest fuel (ret + r) (u32 (cnt + 1)) h₁ hk (by omega) hne
  refine ⟨fuel', c', ret', cnt', ?_, h', hm, hfuel'⟩
  have hneed : c₁.need 1 = .ok () := by
    rw [need_ok, h₁.datalen, List.length_append]
    exact le_trans (List.length_pos_iff.mpr hne) (Nat.le_add_left _ _)
  rw [calcArray, h.byte, ok_bind, if_neg ht, hrun]
  simp only [ok_bind, hneed]
  exact hloop

theorem runs_pair {n j k m : ℕ} {key b bs : List UInt8} (hkey : Spells .value n key j)
    (hkeyRuns : Runs buf .value n key j) (hvalue : Runs buf .value j b k)
    (hrest : Runs buf .pairs k bs m) : Runs buf .pairs n (key ++ (b ++ bs)) m := by
  intro c rest fuel ret cnt h hn hfuel hne
  obtain ⟨t, key', rfl, ht⟩ := hkey.head_ne
  obtain ⟨fuel, rfl⟩ : ∃ f, fuel = f + 1 := ⟨fuel - 1, by omega⟩
  rw [List.append_assoc, List.append_assoc] at h hfuel
  obtain ⟨r, c₁, hrun, h₁, hj⟩ := hkeyRuns c (b ++ (bs ++ rest)) fuel h hn (by omega)
  rw [List.length_append, List.length_cons] at hfuel
  obtain ⟨r', c₂, hrun', h₂, hk⟩ := hvalue c₁ (bs ++ rest) fuel h₁ hj (by omega)
  rw [List.length_append] at hfuel
  obtain ⟨fuel', c', ret', cnt', hloop, h', hm, hfuel'⟩ :=
    hrest c₂ rest fuel (ret + r + r') (u32 (cnt + 1)) h₂ hk (by omega) hne
  refine ⟨fuel', c', ret', cnt', ?_, h', hm, hfuel'⟩
  have hneed : c₂.need 1 = .ok () := by
    rw [need_ok, h₂.datalen, List.length_append]
    exact le_trans (List.length_pos_iff.mpr hne) (Nat.le_add_left _ _)
  rw [calcHash, h.byte, ok_bind, if_neg ht, hrun]
  simp only [ok_bind, hrun', hneed]
  exact hloop

/-- A loop that reaches the end byte returns. -/
theorem runs_array {n m : ℕ} {bs : List UInt8} (hbs : Runs buf .elements n bs m) :
    Runs buf .value n (17 :: (bs ++ [255])) m := by
  intro c rest fuel h hn hfuel
  obtain ⟨fuel, rfl⟩ : ∃ f, fuel = f + 1 := ⟨fuel - 1, by omega⟩
  rw [List.cons_append, List.append_assoc] at h hfuel
  rw [List.length_cons] at hfuel
  obtain ⟨fuel', c', ret', cnt', hloop, h', hm, hfuel'⟩ :=
    hbs (c.skip 1) ([255] ++ rest) fuel sizeofBinresult 0 (h.skip (s := [17]) rfl) hn (by omega) (by simp)
  obtain ⟨fuel', rfl⟩ : ∃ f, fuel' = f + 1 := ⟨fuel' - 1, by omega⟩
  refine ⟨ret' + sizeofPointer * cnt', c'.skip 1, ?_, h'.skip rfl, hm⟩
  rw [calcRetLen_at h, if_pos (by rfl), hloop, calcArray, Cursor.At.byte h', ok_bind]
  rfl

theorem runs_hash {n m : ℕ} {bs : List UInt8} (hbs : Runs buf .pairs n bs m) :
    Runs buf .value n (16 :: (bs ++ [255])) m := by
  intro c rest fuel h hn hfuel
  obtain ⟨fuel, rfl⟩ : ∃ f, fuel = f + 1 := ⟨fuel - 1, by omega⟩
  rw [List.cons_append, List.append_assoc] at h hfuel
  rw [List.length_cons] at hfuel
  obtain ⟨fuel', c', ret', cnt', hloop, h', hm, hfuel'⟩ :=
    hbs (c.skip 1) ([255] ++ rest) fuel sizeofBinresult 0 (h.skip (s := [16]) rfl) hn (by omega) (by simp)
  obtain ⟨fuel', rfl⟩ : ∃ f, fuel' = f + 1 := ⟨fuel' - 1, by omega⟩
  refine ⟨ret' + sizeofHashpair * cnt', c'.skip 1, ?_, h'.skip rfl, hm⟩
  rw [calcRetLen_at h, if_neg (by decide), if_pos (by rfl), hloop, calcHash, Cursor.At.byte h', ok_bind]
  rfl

/-- The size pass goes over whatever the grammar spells. -/
theorem spells_runs {kind : Kind} {n m : ℕ} {bytes : List UInt8} (h : Spells kind n bytes m) :
    Runs buf kind n bytes m := by
  induction h with
  | scalar hs =>
    intro c rest fuel h hn hfuel
    obtain ⟨fuel, rfl⟩ : ∃ f, fuel = f + 1 := ⟨fuel - 1, by omega⟩
    rw [List.cons_append] at h
    rw [calcRetLen_at h, if_neg hs.type_ne.2.1, if_neg hs.type_ne.1]
    exact calcScalar_runs hs (h.skip (s := [_]) rfl) hn
  | array _ ih => exact runs_array ih
  | hash _ ih => exact runs_hash ih
  | noElement => exact reaches_nil
  | element hb _ ihb ihbs => exact runs_element hb ihb ihbs
  | noPair => exact reaches_nil
  | pair hkey _ _ ihkey ihb ihbs => exact runs_pair hkey ihkey ihb ihbs

/-- Where a type byte is due, the next byte does not end a loop. -/
theorem Awaits.head_ne {n : ℕ} {pre : List UInt8} {t : UInt8} (h : Awaits n pre) (ht : t = 16 ∨ t = 17) :
    ∃ t' s, pre ++ [t] = t' :: s ∧ t'.toNat ≠ rparamEnd := by
  cases h with
  | here => exact ⟨t, [], rfl, by rcases ht with rfl | rfl <;> decide⟩
  | element _ _ => exact ⟨17, _, rfl, by decide⟩
  | key _ _ => exact ⟨16, _, rfl, by decide⟩
  | value _ _ _ => exact ⟨16, _, rfl, by decide⟩

theorem calcArray_error {fuel ret cnt : ℕ} {c : Cursor} {t : UInt8} {rest : List UInt8} {f : Fault}
    (h : c.At buf (t :: rest)) (ht : t.toNat ≠ rparamEnd) (hvalue : calcRetLen buf fuel c = .error f) :
    calcArray buf (fuel + 1) c ret cnt = .error f := by
  rw [calcArray, h.byte, ok_bind, if_neg ht, hvalue, error_bind]

theorem calcHash_error {fuel ret cnt : ℕ} {c : Cursor} {t : UInt8} {rest : List UInt8} {f : Fault}
    (h : c.At buf (t :: rest)) (ht : t.toNat ≠ rparamEnd)
    (hvalue : calcRetLen buf fuel c = .error f ∨
      ∃ r c₁, calcRetLen buf fuel c = .ok (r, c₁) ∧ calcRetLen buf fuel c₁ = .error f) :
    calcHash buf (fuel + 1) c ret cnt = .error f := by
  rw [calcHash, h.byte, ok_bind, if_neg ht]
  rcases hvalue with hkey | ⟨r, c₁, hkey, hvalue⟩
  · rw [hkey, error_bind]
  · simp only [hkey, ok_bind, hvalue, error_bind]

/-- A message that breaks off is read past: the loop looks at the byte after its end. -/
theorem awaits_overread {n : ℕ} {pre : List UInt8} {t : UInt8} (hpre : Awaits n pre) (ht : t = 16 ∨ t = 17)
    {c : Cursor} {fuel : ℕ} (h : c.At buf (pre ++ [t])) (hn : c.strcnt = n)
    (hfuel : 2 * (pre ++ [t]).length + 1 ≤ fuel) :
    calcRetLen buf fuel c = .error (.overread buf.length) := by
  induction hpre generalizing c fuel with
  | here =>
    obtain ⟨fuel, rfl⟩ : ∃ f, fuel = f + 2 := ⟨fuel - 2, by simp at hfuel; omega⟩
    have h₁ : (c.skip 1).At buf [] := h.skip (s := [t]) rfl
    rw [List.nil_append] at h
    rw [calcRetLen_at h]
    rcases ht with rfl | rfl
    · rw [if_neg (by decide), if_pos (by rfl), calcHash, h₁.byte_nil, error_bind]
    · rw [if_pos (by rfl), calcArray, h₁.byte_nil, error_bind]
  | @element n bs m pre hbs hpre ih =>
    obtain ⟨fuel, rfl⟩ : ∃ f, fuel = f + 1 := ⟨fuel - 1, by omega⟩
    rw [List.cons_append, List.append_assoc] at h hfuel
    rw [List.length_cons] at hfuel
    obtain ⟨fuel', c', ret', cnt', hloop, h', hm, hfuel'⟩ :=
      spells_runs hbs (c.skip 1) (pre ++ [t]) fuel sizeofBinresult 0 (h.skip (s := [17]) rfl) hn (by omega) (by simp)
    obtain ⟨fuel', rfl⟩ : ∃ f, fuel' = f + 1 := ⟨fuel' - 1, by omega⟩
    obtain ⟨t', s, hhead, ht'⟩ := hpre.head_ne ht
    rw [calcRetLen_at h, if_pos (by rfl), hloop]
    exact calcArray_error (hhead ▸ h') ht' (ih h' hm (by omega))
  | @key n bs m pre hbs hpre ih =>
    obtain ⟨fuel, rfl⟩ : ∃ f, fuel = f + 1 := ⟨fuel - 1, by omega⟩
    rw [List.cons_append, List.append_assoc] at h hfuel
    rw [List.length_cons] at hfuel
    obtain ⟨fuel', c', ret', cnt', hloop, h', hm, hfuel'⟩ :=
      spells_runs hbs (c.skip 1) (pre ++ [t]) fuel sizeofBinresult 0 (h.skip (s := [16]) rfl) hn (by omega) (by simp)
    obtain ⟨fuel', rfl⟩ : ∃ f, fuel' = f + 1 := ⟨fuel' - 1, by omega⟩
    obtain ⟨t', s, hhead, ht'⟩ := hpre.head_ne ht
    rw [calcRetLen_at h, if_neg (by decide), if_pos (by rfl), hloop]
    exact calcHash_error (hhead ▸ h') ht' (.inl (ih h' hm (by omega)))
  | @value n bs k key m pre hbs hkey hpre ih =>
    obtain ⟨fuel, rfl⟩ : ∃ f, fuel = f + 1 := ⟨fuel - 1, by omega⟩
    rw [List.cons_append, List.append_assoc, List.append_assoc] at h hfuel
    rw [List.length_cons] at hfuel
    obtain ⟨fuel', c', ret', cnt', hloop, h', hm, hfuel'⟩ :=
      spells_runs hbs (c.skip 1) (key ++ (pre ++ [t])) fuel sizeofBinresult 0 (h.skip (s := [16]) rfl) hn
        (by omega) (by simp)
    obtain ⟨fuel', rfl⟩ : ∃ f, fuel' = f + 1 := ⟨fuel' - 1, by omega⟩
    obtain ⟨r, c₁, hrun, h₁, hj⟩ := spells_runs hkey c' (pre ++ [t]) fuel' h' hm (by omega)
    have hlen := hkey.length_pos
    rw [List.length_append] at hfuel'
    obtain ⟨t', s, rfl, ht'⟩ := hkey.head_ne
    rw [calcRetLen_at h, if_neg (by decide), if_pos (by rfl), hloop]
    exact calcHash_error h' ht' (.inr ⟨r, c₁, hrun, ih h₁ hj (by omega)⟩)

/-! ### Whole messages -/

/-- The size pass stays in its input: it fails, or it consumed no more than there is. -/
def Bounded (buf : List UInt8) : Except Fault (ℕ × Cursor) → Prop
  | .ok (_, c) => c.data ≤ buf.length
  | .error fault => fault = .failed

theorem start_at {buf : List UInt8} (hbuf : buf.length < 2 ^ 64) : Cursor.At buf ⟨0, buf.length, 0⟩ buf :=
  ⟨⟨Nat.zero_add _, hbuf⟩, rfl⟩

theorem sizePass_outcome (hbuf : buf.length < 2 ^ 64) :
    Outcome buf (Walks buf buf (Spells .value 0)) (BreaksOff 0 buf) (sizePass buf) :=
  (calc_outcomes buf (enoughFuel buf)).value (start_at hbuf) (le_refl _)

/-- **The size pass stays in its input exactly when the message does not break off** right
after the type byte of an array or a hash. -/
theorem size_pass_bounded_iff (buf : List UInt8) (hbuf : buf.length < 2 ^ 64) :
    Bounded buf (sizePass buf) ↔ ¬BreaksOff 0 buf := by
  constructor
  · rintro hbounded ⟨pre, t, rfl, ht, hawaits⟩
    have hover : sizePass (pre ++ [t]) = .error (.overread (pre ++ [t]).length) :=
      awaits_overread hawaits ht (start_at hbuf) rfl (le_refl _)
    rw [hover] at hbounded
    cases hbounded
  · intro hwhole
    have h := sizePass_outcome hbuf
    match hpass : sizePass buf, h with
    | .ok (r, c), ⟨s, rest, _, h', _⟩ => exact Nat.le.intro h'.isin.ends
    | .error .failed, _ => exact rfl
    | .error (.overread _), h => exact absurd h.2 hwhole

theorem size_pass_bounded_iff_empty_hash :
    Bounded [16, 255] (sizePass [16, 255]) ↔ ¬BreaksOff 0 [16, 255] :=
  size_pass_bounded_iff _ (by decide)

/-- One byte, the type of an array: its loop looks at the byte after the message. -/
theorem size_pass_unbounded_array : ¬Bounded [17] (sizePass [17]) := by
  have hpass : sizePass [17] = .error (.overread 1) := by rfl
  rw [hpass]
  exact Fault.noConfusion

end Pclsync.Api
