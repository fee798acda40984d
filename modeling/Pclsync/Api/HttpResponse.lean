import Pclsync.Lib.Machine
import Mathlib.Data.List.GetD
import Mathlib.Data.List.TakeDrop

/-! The header of a response (`psync_http_next_request` in `pnetlibs.c`), read from a socket
in packets of any sizes. -/
namespace Pclsync.Api.Http
open Lib.Machine

/-- `PSYNC_HTTP_RESP_BUFFER`. -/
def respBuffer : ℕ := 4000

/-- The buffer and what may stand in it, at any index. -/
abbrev Mem := ℕ → UInt8

def Mem.put (mem : Mem) (i : ℕ) (c : UInt8) : Mem := fun j => if j = i then c else mem j

/-- `len` bytes written to the place `i`. -/
def Mem.write (mem : Mem) (i : ℕ) (bytes : List UInt8) : Mem := fun j =>
  if i ≤ j ∧ j < i + bytes.length then bytes.getD (j - i) 0 else mem j

def lf : UInt8 := 10
def cr : UInt8 := 13
def colon : UInt8 := 58

def isspace (c : UInt8) : Bool := c = 32 || (9 ≤ c && c ≤ 13)
def isdigit (c : UInt8) : Bool := 48 ≤ c && c ≤ 57
def tolower (c : UInt8) : UInt8 := if 65 ≤ c && c ≤ 90 then c + 32 else c

/-- `while (p(*ptr)) ptr++`, for at most `n` bytes. -/
def skipWhile (p : UInt8 → Bool) (mem : Mem) : ℕ → ℕ → ℕ
  | 0, ptr => ptr
  | n + 1, ptr => if p (mem ptr) then skipWhile p mem n (ptr + 1) else ptr

/-- The digits from `ptr` on, with the arithmetic of the type of the result. -/
def ato (wrap : ℕ → ℕ) (mem : Mem) : ℕ → ℕ → ℕ → ℕ
  | 0, _, n => n
  | fuel + 1, ptr, n => if isdigit (mem ptr) then ato wrap mem fuel (ptr + 1) (wrap (n * 10 + ((mem ptr).toNat - 48))) else n

/-- `memcmp(mem+ptr, text, strlen(text))==0`. -/
def matches' (mem : Mem) (ptr : ℕ) (text : List Char) : Bool :=
  (List.range text.length).all fun i => mem (ptr + i) = UInt8.ofNat (text.getD i ' ').toNat

/-- What the scanner of the header keeps between two bytes. -/
structure Scan where
  mem : Mem
  ptr : ℕ
  lch : UInt8
  isval : Bool
  key : ℕ
  val : ℕ
  clen : ℤ
  keepalive : ℕ

inductive Scanned where
  /-- `goto ex`. -/
  | ends (s : Scan)
  | more (s : Scan)

/-- What a complete line of the header says. -/
def Scan.note (s : Scan) : Scan :=
  if matches' s.mem s.key "content-length".toList then { s with clen := s64 (ato u64 s.mem respBuffer s.val 0) }
  else if matches' s.mem s.key "keep-alive".toList && matches' s.mem s.val "timeout=".toList then
    { s with keepalive := ato u32 s.mem respBuffer (s.val + 8) 0 }
  else s

/-- The body of the loop, up to `ptr++`. -/
def Scan.step (s : Scan) : Scanned :=
  let ch := s.mem s.ptr
  if ch = cr then .more { s with mem := s.mem.put s.ptr 0, ptr := s.ptr + 1 }
  else if ch = lf then
    if s.lch = lf then .ends { s with ptr := s.ptr + 1 }
    else
      let s := ({ s with mem := s.mem.put s.ptr 0 } : Scan).note
      .more { s with key := s.ptr + 1, isval := false, lch := ch, ptr := s.ptr + 1 }
  else if ch = colon ∧ s.isval = false then
    let mem := s.mem.put s.ptr 0
    -- no further than to the end of the buffer, behind which anything may stand
    let ptr := skipWhile isspace mem (respBuffer - (s.ptr + 1)) (s.ptr + 1)
    .more { s with mem := mem.put ptr (tolower (mem ptr)), val := ptr, isval := true, lch := ch, ptr := ptr + 1 }
  else .more { s with mem := s.mem.put s.ptr (tolower ch), lch := ch, ptr := s.ptr + 1 }

theorem skipWhile_le (p : UInt8 → Bool) (mem : Mem) (n ptr : ℕ) : ptr ≤ skipWhile p mem n ptr := by
  induction n generalizing ptr with
  | zero => exact Nat.le_refl _
  | succ n ih =>
    rw [skipWhile]
    split_ifs
    · exact Nat.le_trans (Nat.le_succ ptr) (ih (ptr + 1))
    · exact Nat.le_refl _

theorem note_ptr (s : Scan) : s.note.ptr = s.ptr := by
  rw [Scan.note]
  split_ifs <;> rfl

theorem step_ptr {s s' : Scan} (h : s.step = .more s') : s.ptr < s'.ptr := by
  simp only [Scan.step] at h
  split_ifs at h
  · cases h
    exact Nat.lt_succ_self _
  · cases h
    simp only [note_ptr]
    exact Nat.lt_succ_self _
  · cases h
    exact Nat.lt_succ_of_le (Nat.le_trans (Nat.le_succ _) (skipWhile_le ..))
  · cases h
    exact Nat.lt_succ_self _

/-- `for (; ptr<end; ptr++)`. -/
def scanTo (fin : ℕ) (s : Scan) : Scanned :=
  if s.ptr < fin then
    match _h : s.step with
    | .ends s => .ends s
    | .more s' => scanTo fin s'
  else .more s
termination_by fin - s.ptr
decreasing_by
  have := step_ptr _h
  omega

/-- `psync_socket_read` of at most `num` bytes; `none` when no more come. -/
def socketRead (packets : List (List UInt8)) (num : ℕ) : Option (List UInt8 × List (List UInt8)) :=
  match packets with
  | [] => none
  | packet :: packets =>
    if packet.take num = [] then none
    else if packet.length ≤ num then some (packet, packets) else some (packet.take num, packet.drop num :: packets)

/-- What the caller gets: an error or a status, or the header with the bytes that follow, in
the buffer and on the socket. -/
inductive Response where
  | failed (ret : ℤ)
  | ready (contentlength : ℤ) (keepalive : ℕ) (body : List UInt8)
deriving DecidableEq, Repr

/-- `mem[from]` up to `mem[to-1]`. -/
def Mem.slice (mem : Mem) (lo hi : ℕ) : List UInt8 := (List.range (hi - lo)).map fun i => mem (lo + i)

theorem socketRead_length {packets packets' : List (List UInt8)} {bytes : List UInt8} {num : ℕ}
    (h : socketRead packets num = some (bytes, packets')) : 0 < bytes.length ∧ bytes.length ≤ num := by
  cases packets with
  | nil => cases h
  | cons packet packets =>
    simp only [socketRead] at h
    split_ifs at h with hnil hle
    · cases h
      rw [List.take_of_length_le hle] at hnil
      exact ⟨List.length_pos_iff.mpr hnil, hle⟩
    · cases h
      refine ⟨List.length_pos_iff.mpr hnil, ?_⟩
      rw [List.length_take]
      exact Nat.min_le_left ..

/-- The loop over the reads, with `room` bytes left in the buffer. -/
def readHeader (s : Scan) (room : ℕ) (packets : List (List UInt8)) : Response :=
  match scanTo (respBuffer - room) s with
  | .ends s => .ready s.clen s.keepalive (s.mem.slice s.ptr (respBuffer - room) ++ packets.flatten)
  | .more s =>
    if room = 0 then .failed (-1)
    else match h : socketRead packets room with
      | none => .failed (-1)
      | some (bytes, packets) =>
        readHeader { s with mem := s.mem.write (respBuffer - room) bytes } (room - bytes.length) packets
termination_by room
decreasing_by
  have := socketRead_length h
  omega

/-- The status line: what is returned at once, or where the header begins. -/
def statusLine (mem : Mem) : ℤ ⊕ ℕ :=
  let ptr := skipWhile (fun c => c ≠ 0 && !isspace c) mem respBuffer 0
  let ptr := skipWhile (fun c => c ≠ 0 && isspace c) mem respBuffer ptr
  if isdigit (mem ptr) = false then .inl (-1)
  else
    let rl := ato id mem respBuffer ptr 0
    if rl / 10 ≠ 20 then if rl = 0 then .inl (-1) else .inl rl
    else
      let ptr := skipWhile (fun c => c ≠ 0 && c ≠ lf) mem respBuffer ptr
      if mem ptr = 0 then .inl (-1) else .inr (ptr + 1)

/-- The scanner at the first line of the header. -/
def Scan.start (mem : Mem) (ptr : ℕ) : Scan := ⟨mem, ptr, 0, false, ptr, ptr, -1, 0⟩

/-- `psync_http_next_request`, with a buffer that holds anything before. -/
def psyncHttpNextRequest (junk : Mem) (packets : List (List UInt8)) : Response :=
  match socketRead packets (respBuffer - 1) with
  | none => .failed (-1)
  | some (bytes, packets) =>
    let mem := (junk.write 0 bytes).put bytes.length 0
    match statusLine mem with
    | .inl ret => .failed ret
    | .inr ptr => readHeader (Scan.start mem ptr) (respBuffer - bytes.length) packets

/-! ### Streams -/

/-- A stream in memory. -/
def memOf (stream : List UInt8) : Mem := fun i => stream.getD i 0

/-- What follows the first empty line, of a text that begins a line or does not. -/
def afterEmptyLine (blank : Bool) : List UInt8 → Option (List UInt8)
  | [] => none
  | c :: cs =>
    if c = cr then afterEmptyLine blank cs
    else if c = lf then if blank then some cs else afterEmptyLine true cs
    else afterEmptyLine false cs

/-- Where a byte of the header stands: in a line before its first colon, in the white space
behind it, or further on. -/
inductive Field where
  | key
  | gap
  | value
deriving DecidableEq, Repr

def Field.next : Field → UInt8 → Field
  | .key, c => if c = colon then .gap else .key
  | .gap, c => if isspace c then .gap else .value
  | .value, c => if c = lf then .key else .value

/-- The field of the byte at `i`, in a header that begins at `start`. -/
def fieldAt (stream : List UInt8) (start i : ℕ) : Field := ((stream.drop start).take (i - start)).foldl Field.next .key

/-! ### Scanning memory -/

variable {mem mem' : Mem} {p : UInt8 → Bool} {n ptr q lim : ℕ}

theorem skipWhile_holds {i : ℕ} (hlo : ptr ≤ i) (hhi : i < skipWhile p mem n ptr) : p (mem i) = true := by
  induction n generalizing ptr with
  | zero => exact absurd hlo (Nat.not_le.mpr hhi)
  | succ n ih =>
    rw [skipWhile] at hhi
    split_ifs at hhi with hp
    · rcases Nat.eq_or_lt_of_le hlo with rfl | hlt
      · exact hp
      · exact ih hlt hhi
    · exact absurd hlo (Nat.not_le.mpr hhi)

theorem skipWhile_stops (h : skipWhile p mem n ptr < ptr + n) : p (mem (skipWhile p mem n ptr)) = false := by
  induction n generalizing ptr with
  | zero => exact absurd h (Nat.lt_irrefl _)
  | succ n ih =>
    rw [skipWhile] at h ⊢
    split_ifs at h ⊢ with hp
    · apply ih
      omega
    · simpa using hp

/-- It stops no later than at a byte that it does not skip. -/
theorem skipWhile_le_of (hq : p (mem q) = false) (hle : ptr ≤ q) : skipWhile p mem n ptr ≤ q := by
  by_contra hgt
  rw [skipWhile_holds hle (Nat.lt_of_not_le hgt)] at hq
  cases hq

/-- Where it stops depends on the bytes up to there. -/
theorem skipWhile_congr (h : ∀ i < lim, mem i = mem' i) (hstop : skipWhile p mem n ptr < lim) :
    skipWhile p mem' n ptr = skipWhile p mem n ptr := by
  induction n generalizing ptr with
  | zero => rfl
  | succ n ih =>
    have hptr := h ptr (Nat.lt_of_le_of_lt (skipWhile_le p mem (n + 1) ptr) hstop)
    rw [skipWhile] at hstop ⊢
    rw [skipWhile]
    rw [← hptr]
    split_ifs at hstop ⊢ with hp
    · exact ih hstop
    · rfl

/-- Digits end at the latest at a byte that is none. -/
theorem ato_congr (wrap : ℕ → ℕ) (h : ∀ i ≤ q, mem i = mem' i) (hq : isdigit (mem q) = false) (fuel : ℕ) {val : ℕ} (hval : val ≤ q) (k : ℕ) :
    ato wrap mem fuel val k = ato wrap mem' fuel val k := by
  induction fuel generalizing val k with
  | zero => rfl
  | succ fuel ih =>
    rw [ato, ato, ← h val hval]
    split_ifs with hdigit
    · apply ih
      rcases Nat.eq_or_lt_of_le hval with rfl | hlt
      · rw [hq] at hdigit
        cases hdigit
      · exact hlt
    · rfl

theorem chars_ne_zero {cs : List Char} (h : (cs.all fun c => UInt8.ofNat c.toNat != 0) = true) :
    ∀ c ∈ cs, UInt8.ofNat c.toNat ≠ 0 := fun c hc => bne_iff_ne.mp (List.all_eq_true.mp h c hc)

/-- A text with no zero is compared up to the first zero of the memory. -/
theorem matches_congr {text : List Char} (h : ∀ i ≤ q, mem i = mem' i) (hq : mem q = 0) (htext : ∀ c ∈ text, UInt8.ofNat c.toNat ≠ 0) {key : ℕ}
    (hkey : key ≤ q) : matches' mem key text = matches' mem' key text := by
  have hall : ∀ mem : Mem, mem q = 0 → matches' mem key text = true → key + text.length ≤ q := by
    intro mem hq hmatch
    by_contra hlong
    have hi : q - key < text.length := by omega
    have hbyte := List.all_eq_true.mp hmatch (q - key) (List.mem_range.mpr hi)
    rw [Nat.add_sub_cancel' hkey, hq, decide_eq_true_eq, List.getD_eq_getElem _ _ hi] at hbyte
    exact htext _ (List.getElem_mem hi) hbyte.symm
  have hiff : key + text.length ≤ q → matches' mem key text = matches' mem' key text := by
    intro hshort
    rw [matches', matches', Bool.eq_iff_iff, List.all_eq_true, List.all_eq_true]
    refine forall₂_congr fun i hi => ?_
    rw [h (key + i) (by have := List.mem_range.mp hi; omega)]
  by_cases hshort : key + text.length ≤ q
  · exact hiff hshort
  · rw [Bool.eq_iff_iff]
    exact ⟨fun hmatch => absurd (hall mem hq hmatch) hshort, fun hmatch => absurd (hall mem' (by rw [← h q (Nat.le_refl q), hq]) hmatch) hshort⟩

/-! ### The bytes that were read -/

variable {s s' t t' u : Scan} {e e' : ℕ}

/-- Alike, as far as the memory below `e` shows. -/
structure Agree (e : ℕ) (s t : Scan) : Prop where
  rest : s = { t with mem := s.mem }
  mem : ∀ i < e, s.mem i = t.mem i

/-- The pointers into the line are behind the scanner. -/
structure Placed (t : Scan) : Prop where
  key : t.key ≤ t.ptr
  val : t.val ≤ t.ptr

def Scanned.Agree (e : ℕ) : Scanned → Scanned → Prop
  | .ends s, .ends t => Http.Agree e s t
  | .more s, .more t => Http.Agree e s t
  | _, _ => False

theorem note_mem (s : Scan) : s.note.mem = s.mem := by
  rw [Scan.note]
  split_ifs <;> rfl

theorem agree_with (h : ∀ i < e, mem i = t.mem i) : Agree e { t with mem := mem } t := ⟨rfl, h⟩

theorem note_val (s : Scan) : s.note.val = s.val := by
  rw [Scan.note]
  split_ifs <;> rfl

theorem note_agree (h : Agree e s t) (hlt : t.ptr < e) (hzero : t.mem t.ptr = 0) (hplaced : Placed t) : Agree e s.note t.note := by
  obtain ⟨hrest, hmem⟩ := h
  generalize s.mem = mem at hrest hmem
  subst hrest
  have hle : ∀ i ≤ t.ptr, t.mem i = mem i := fun i hi => (hmem i (Nat.lt_of_le_of_lt hi hlt)).symm
  have hdigit : isdigit (t.mem t.ptr) = false := by
    rw [hzero]
    rfl
  have hlength := @matches_congr _ _ _ "content-length".toList hle hzero (chars_ne_zero rfl) _ hplaced.key
  have halive := @matches_congr _ _ _ "keep-alive".toList hle hzero (chars_ne_zero rfl) _ hplaced.key
  have htimeout := @matches_congr _ _ _ "timeout=".toList hle hzero (chars_ne_zero rfl) _ hplaced.val
  have hclen := ato_congr u64 hle hdigit respBuffer hplaced.val 0
  simp only [Scan.note, ← hlength, ← halive, ← htimeout, ← hclen]
  generalize s64 _ = clen
  split_ifs with h1 h2
  · exact agree_with (t := { t with clen := clen }) hmem
  · have hval : t.val + 8 ≤ t.ptr := by
      by_contra hlong
      have hi : t.ptr - t.val < "timeout=".toList.length := by
        have := hplaced.val
        show _ < 8
        omega
      rw [Bool.and_eq_true] at h2
      have hbyte := List.all_eq_true.mp h2.2 (t.ptr - t.val) (List.mem_range.mpr hi)
      rw [Nat.add_sub_cancel' hplaced.val, hzero, decide_eq_true_eq, List.getD_eq_getElem _ _ hi] at hbyte
      have hnot : ∀ c ∈ "timeout=".toList, UInt8.ofNat c.toNat ≠ 0 := chars_ne_zero rfl
      exact hnot _ (List.getElem_mem hi) hbyte.symm
    rw [← ato_congr u32 hle hdigit respBuffer hval 0]
    generalize ato u32 _ _ _ _ = keepalive
    exact agree_with (t := { t with keepalive := keepalive }) hmem
  · exact agree_with hmem

theorem put_agree (hmem : ∀ i < e, mem i = mem' i) (i : ℕ) (c : UInt8) : ∀ j < e, mem.put i c j = mem'.put i c j := by
  intro j hj
  rw [Mem.put, Mem.put, hmem j hj]

/-- Where the bytes that a step looks at were read, it is the same step. -/
theorem step_agree (h : Agree e s t) (hlt : t.ptr < e) (hplaced : Placed t) (hin : ∀ t', t.step = .more t' → t'.ptr ≤ e) :
    s.step.Agree e t.step := by
  obtain ⟨hrest, hmem⟩ := h
  generalize hsmem : s.mem = mem at hrest hmem
  have hch : s.mem s.ptr = t.mem t.ptr := by
    rw [hrest]
    exact hmem _ hlt
  subst hrest
  have hch : mem t.ptr = t.mem t.ptr := hch
  simp only [Scan.step, hch] at hin ⊢
  split_ifs at hin ⊢ with hcr hlf hblank hcolon
  · exact ⟨rfl, put_agree hmem t.ptr 0⟩
  · exact ⟨rfl, hmem⟩
  · have hnote := note_agree (s := { t with mem := mem.put t.ptr 0 }) (t := { t with mem := t.mem.put t.ptr 0 })
      ⟨rfl, put_agree hmem t.ptr 0⟩ hlt (if_pos rfl) ⟨hplaced.key, hplaced.val⟩
    refine ⟨?_, hnote.mem⟩
    rw [hnote.rest]
  · have hput := put_agree hmem t.ptr 0
    have hstop := Nat.lt_of_succ_le (hin _ rfl)
    have hskip := skipWhile_congr (fun i hi => (hput i hi).symm) hstop
    simp only [hskip]
    refine ⟨by simp only [hput _ hstop], ?_⟩
    simp only [hput _ hstop]
    exact put_agree hput _ _
  · exact ⟨rfl, put_agree hmem t.ptr _⟩

/-! ### The whole stream in memory -/

variable {stream body : List UInt8} {start i j : ℕ}

theorem afterEmptyLine_split {blank : Bool} {text : List UInt8} (h : afterEmptyLine blank text = some body) :
    ∃ pre, text = pre ++ lf :: body := by
  induction text generalizing blank with
  | nil => cases h
  | cons c cs ih =>
    have hrest : ∀ blank', afterEmptyLine blank' cs = some body → ∃ pre, c :: cs = pre ++ lf :: body := by
      intro blank' h
      obtain ⟨pre, rfl⟩ := ih h
      exact ⟨c :: pre, rfl⟩
    rw [afterEmptyLine] at h
    split_ifs at h with hcr hlf hblank
    · exact hrest _ h
    · cases h
      exact ⟨[], by rw [hlf, List.nil_append]⟩
    · exact hrest _ h
    · exact hrest _ h

theorem drop_eq (h : i < stream.length) : stream.drop i = memOf stream i :: stream.drop (i + 1) := by
  rw [memOf, List.getD_eq_getElem _ _ h, List.drop_eq_getElem_cons h]

theorem fieldAt_start : fieldAt stream start start = .key := by
  rw [fieldAt, Nat.sub_self, List.take_zero]
  rfl

theorem fieldAt_succ (hlo : start ≤ i) (hhi : i < stream.length) :
    fieldAt stream start (i + 1) = (fieldAt stream start i).next (memOf stream i) := by
  have hlt : i - start < (stream.drop start).length := by
    rw [List.length_drop]
    omega
  have hbyte : (stream.drop start)[i - start] = memOf stream i := by
    rw [memOf, List.getD_eq_getElem _ _ hhi, List.getElem_drop]
    congr 1
    omega
  rw [fieldAt, Nat.succ_sub hlo, List.take_succ_eq_append_getElem hlt, List.foldl_append, hbyte]
  rfl

/-- No line of the header, which ends at `fin`, has only white space behind its first colon. -/
def Valued (stream : List UInt8) (start fin : ℕ) : Prop :=
  ∀ i, start ≤ i → i < fin → memOf stream i = lf → fieldAt stream start i ≠ .gap

/-- White space that follows a first colon. -/
theorem gap_run (hlo : start ≤ i) (hij : i ≤ j) (hj : j ≤ stream.length) (hgap : fieldAt stream start i = .gap)
    (hspace : ∀ k, i ≤ k → k < j → isspace (memOf stream k) = true) : fieldAt stream start j = .gap := by
  induction j, hij using Nat.le_induction with
  | base => exact hgap
  | succ k hik ih =>
    have hk := ih (Nat.le_of_succ_le hj) fun m him hmk => hspace m him (Nat.lt_succ_of_lt hmk)
    rw [fieldAt_succ (Nat.le_trans hlo hik) hj, hk, Field.next, if_pos (hspace k hik (Nat.lt_succ_self k))]

/-- Without a line feed, nothing ends. -/
theorem after_run (hij : i ≤ j) (hj : j ≤ stream.length) (hlf : ∀ k, i ≤ k → k < j → memOf stream k ≠ lf) :
    afterEmptyLine false (stream.drop i) = afterEmptyLine false (stream.drop j) := by
  induction j, hij using Nat.le_induction with
  | base => rfl
  | succ k hik ih =>
    rw [ih (Nat.le_of_succ_le hj) fun m him hmk => hlf m him (Nat.lt_succ_of_lt hmk), drop_eq hj, afterEmptyLine]
    rw [if_neg (hlf k hik (Nat.lt_succ_self k))]
    split_ifs <;> rfl

/-- The scanner on the stream: what it has not come to is as it was. -/
structure Tracks (stream : List UInt8) (start : ℕ) (body : List UInt8) (t : Scan) : Prop where
  fresh : ∀ i, t.ptr ≤ i → t.mem i = memOf stream i
  placed : Placed t
  lo : start ≤ t.ptr
  field : fieldAt stream start t.ptr = if t.isval then .value else .key
  after : afterEmptyLine (t.lch = lf) (stream.drop t.ptr) = some body

/-- The header ends with a line feed, which is not behind it. -/
theorem Tracks.ends (h : Tracks stream start body t) :
    t.ptr < stream.length - body.length ∧ stream.length - body.length ≤ stream.length ∧ memOf stream (stream.length - body.length - 1) = lf := by
  obtain ⟨pre, hpre⟩ := afterEmptyLine_split h.after
  have hlength := congrArg List.length hpre
  rw [List.length_drop, List.length_append, List.length_cons] at hlength
  refine ⟨by omega, Nat.sub_le _ _, ?_⟩
  have hat : stream.length - body.length - 1 = t.ptr + pre.length := by omega
  have hbyte : (stream.drop t.ptr).getD pre.length 0 = lf := by
    rw [hpre, List.getD_append_right _ _ _ _ (Nat.le_refl _), Nat.sub_self]
    rfl
  rw [hat, memOf, ← hbyte]
  simp only [List.getD_eq_getElem?_getD, List.getElem?_drop]

/-- Most bytes are of the field that the one before is of. -/
theorem field_next {isval : Bool} {c : UInt8} (hlf : c ≠ lf) (hcolon : ¬(c = colon ∧ isval = false)) :
    (if isval then Field.value else Field.key).next c = if isval then .value else .key := by
  cases isval with
  | false =>
    have hcolon : c ≠ colon := fun h => hcolon ⟨h, rfl⟩
    exact if_neg hcolon
  | true => exact if_neg hlf

theorem field_lf {isval : Bool} : (if isval then Field.value else Field.key).next lf = .key := by cases isval <;> rfl

/-- The gap behind a first colon ends in the header, and no line does in it. -/
theorem gap_ends (h : Tracks stream start body t) (hvalued : Valued stream start (stream.length - body.length))
    (hfits : stream.length - body.length ≤ respBuffer) (hcolon : memOf stream t.ptr = colon) (hkey : t.isval = false)
    (hq : q = skipWhile isspace (t.mem.put t.ptr 0) (respBuffer - (t.ptr + 1)) (t.ptr + 1)) :
    t.ptr < q ∧ q < stream.length - body.length ∧ isspace (memOf stream q) = false ∧
      ∀ k, t.ptr < k → k ≤ q → fieldAt stream start k = .gap ∧ (k < q → memOf stream k ≠ lf) := by
  obtain ⟨hlt, hle, hlast⟩ := h.ends
  have hfresh : ∀ i, t.ptr + 1 ≤ i → t.mem.put t.ptr 0 i = memOf stream i := by
    intro i hi
    rw [Mem.put, if_neg (Nat.ne_of_gt hi)]
    exact h.fresh i (Nat.le_of_succ_le hi)
  have hnext : fieldAt stream start (t.ptr + 1) = .gap := by
    rw [fieldAt_succ h.lo (Nat.lt_of_lt_of_le hlt hle), h.field, hkey, hcolon]
    rfl
  have hspace : ∀ k, t.ptr + 1 ≤ k → k < q → isspace (memOf stream k) = true := by
    intro k hk hkq
    rw [← hfresh k hk]
    exact skipWhile_holds hk (hq ▸ hkq)
  have hgap : ∀ k, t.ptr < k → k ≤ q → k ≤ stream.length → fieldAt stream start k = .gap := fun k hk hkq hkl =>
    gap_run (Nat.le_succ_of_le h.lo) hk hkl hnext fun m hm hmk => hspace m hm (Nat.lt_of_lt_of_le hmk hkq)
  -- the last line feed of the header is none of the white space
  have hinside : q < stream.length - body.length - 1 := by
    by_contra hout
    have hptr : t.ptr ≠ stream.length - body.length - 1 := by
      intro heq
      rw [← heq, hcolon] at hlast
      exact absurd hlast (by decide)
    exact hvalued _ (by have := h.lo; omega) (by omega) hlast (hgap _ (by omega) (by omega) (by omega))
  have hgt : t.ptr < q := by
    rw [hq]
    exact skipWhile_le ..
  refine ⟨hgt, by omega, ?_, fun k hk hkq => ⟨hgap k hk hkq (by omega), fun hkq' hlf => ?_⟩⟩
  · rw [← hfresh q hgt, hq]
    apply skipWhile_stops
    rw [← hq]
    omega
  · exact hvalued k (by have := h.lo; omega) (by omega) hlf (hgap k hk hkq (by omega))

/-- One step, from a byte that is not in a gap to the next such byte. -/
theorem track_step (h : Tracks stream start body t) (hvalued : Valued stream start (stream.length - body.length))
    (hfits : stream.length - body.length ≤ respBuffer) :
    (∃ u, t.step = .ends u ∧ u.ptr = t.ptr + 1 ∧ u.mem = t.mem ∧ stream.drop u.ptr = body) ∨
    (∃ t', t.step = .more t' ∧ Tracks stream start body t' ∧ ∀ k, t.ptr < k → k < t'.ptr → fieldAt stream start k = .gap) := by
  obtain ⟨hlt, hle, hlast⟩ := h.ends
  have hlength := Nat.lt_of_lt_of_le hlt hle
  have hch := h.fresh t.ptr (Nat.le_refl _)
  have hafter := h.after
  have hfield := fieldAt_succ h.lo hlength
  rw [drop_eq hlength, afterEmptyLine] at hafter
  rw [h.field] at hfield
  have hfresh : ∀ c i, t.ptr + 1 ≤ i → t.mem.put t.ptr c i = memOf stream i := by
    intro c i hi
    rw [Mem.put, if_neg (by omega)]
    exact h.fresh i (by omega)
  have hplaced := h.placed
  have hnone : ∀ k, t.ptr < k → k < t.ptr + 1 → fieldAt stream start k = .gap := fun k hk hk' => by omega
  simp only [Scan.step, hch]
  split_ifs with hcr hlf hblank hcolon
  · right
    refine ⟨_, rfl, ⟨hfresh 0, ⟨Nat.le_succ_of_le hplaced.key, Nat.le_succ_of_le hplaced.val⟩, Nat.le_succ_of_le h.lo, ?_, ?_⟩, hnone⟩
    · rw [hcr] at hfield
      exact hfield.trans (field_next (by decide) fun hcolon => absurd hcolon.1 (by decide))
    · rw [if_pos hcr] at hafter
      exact hafter
  · left
    refine ⟨_, rfl, rfl, rfl, ?_⟩
    rw [if_neg hcr, if_pos hlf, if_pos (decide_eq_true hblank)] at hafter
    exact Option.some.inj hafter
  · right
    refine ⟨_, rfl, ⟨?_, ⟨Nat.le_refl _, ?_⟩, ?_, ?_, ?_⟩, ?_⟩
    · simp only [note_mem, note_ptr]
      exact hfresh 0
    · simp only [note_ptr, note_val]
      exact Nat.le_succ_of_le hplaced.val
    · rw [note_ptr]
      exact Nat.le_succ_of_le h.lo
    · rw [hlf] at hfield
      rw [note_ptr]
      exact hfield.trans field_lf
    · rw [if_neg hcr, if_pos hlf, if_neg (by simpa using hblank)] at hafter
      simp only [note_ptr, hlf]
      exact hafter
    · rw [note_ptr]
      exact hnone
  · right
    obtain ⟨hgt, hq, hstop, hgap⟩ := gap_ends h hvalued hfits hcolon.1 hcolon.2 rfl
    generalize skipWhile isspace (t.mem.put t.ptr 0) (respBuffer - (t.ptr + 1)) (t.ptr + 1) = q at *
    have hq' := Nat.lt_of_lt_of_le hq hle
    have hqcr : memOf stream q ≠ cr := fun heq => by rw [heq] at hstop; cases hstop
    have hqlf : memOf stream q ≠ lf := fun heq => by rw [heq] at hstop; cases hstop
    refine ⟨_, rfl, ⟨?_, ⟨?_, Nat.le_succ q⟩, ?_, ?_, ?_⟩, ?_⟩
    · intro i hi
      show Mem.put _ q _ i = _
      rw [Mem.put, if_neg (Nat.ne_of_gt hi)]
      exact hfresh 0 i (Nat.le_trans hgt (Nat.le_of_succ_le hi))
    · exact Nat.le_trans hplaced.key (Nat.le_succ_of_le (Nat.le_of_lt hgt))
    · exact Nat.le_trans h.lo (Nat.le_succ_of_le (Nat.le_of_lt hgt))
    · show fieldAt stream start (q + 1) = .value
      rw [fieldAt_succ (Nat.le_trans h.lo (Nat.le_of_lt hgt)) hq', (hgap q hgt (Nat.le_refl q)).1, Field.next, hstop]
      rfl
    · rw [if_neg hcr, if_neg hlf] at hafter
      rw [after_run hgt (Nat.le_of_lt hq') fun k hk hkq => (hgap k hk (Nat.le_of_lt hkq)).2 hkq, drop_eq hq', afterEmptyLine, if_neg hqcr,
        if_neg hqlf] at hafter
      simp only [hlf, decide_false]
      exact hafter
    · intro k hk hkq
      exact (hgap k hk (Nat.le_of_lt_succ hkq)).1
  · right
    refine ⟨_, rfl, ⟨hfresh _, ⟨Nat.le_succ_of_le hplaced.key, Nat.le_succ_of_le hplaced.val⟩, Nat.le_succ_of_le h.lo, ?_, ?_⟩, hnone⟩
    · exact hfield.trans (field_next hlf hcolon)
    · rw [if_neg hcr, if_neg hlf] at hafter
      simp only [hlf, decide_false]
      exact hafter

/-! ### Reads -/

theorem scanTo_done (h : e ≤ s.ptr) : scanTo e s = .more s := by
  rw [scanTo, if_neg (Nat.not_lt.mpr h)]

theorem scanTo_ends (hlt : s.ptr < e) (h : s.step = .ends u) : scanTo e s = .ends u := by
  rw [scanTo, if_pos hlt]
  split
  · next heq =>
    rw [h] at heq
    cases heq
    rfl
  · next heq =>
    rw [h] at heq
    cases heq

theorem scanTo_more (hlt : s.ptr < e) (h : s.step = .more s') : scanTo e s = scanTo e s' := by
  rw [scanTo, if_pos hlt]
  split
  · next heq =>
    rw [h] at heq
    cases heq
  · next heq =>
    rw [h] at heq
    cases heq
    rfl

/-- Scanning goes on where it was left. -/
theorem scanTo_trans (s : Scan) (hle : e ≤ e') :
    (∀ u, scanTo e s = .ends u → scanTo e' s = .ends u) ∧ ∀ s', scanTo e s = .more s' → scanTo e' s = scanTo e' s' := by
  by_cases hlt : s.ptr < e
  · have hlt' := Nat.lt_of_lt_of_le hlt hle
    cases hstep : s.step with
    | ends u =>
      rw [scanTo_ends hlt hstep, scanTo_ends hlt' hstep]
      exact ⟨fun _ h => h, fun _ h => by cases h⟩
    | more s₁ =>
      rw [scanTo_more hlt hstep, scanTo_more hlt' hstep]
      exact scanTo_trans s₁ hle
  · rw [scanTo_done (Nat.le_of_not_lt hlt)]
    refine ⟨nofun, fun s' h => ?_⟩
    rw [Scanned.more.inj h]
termination_by e - s.ptr
decreasing_by
  have := step_ptr hstep
  omega

/-- Where the bytes end that were read so far: not in a gap. -/
def NoGap (stream : List UInt8) (start fin e : ℕ) : Prop := e < fin → fieldAt stream start e ≠ .gap

/-- What is scanned of the bytes read is what is scanned of them in the whole stream. -/
theorem scan_agree {s t : Scan} (h : Tracks stream start body t) (hvalued : Valued stream start (stream.length - body.length))
    (hfits : stream.length - body.length ≤ respBuffer) (hagree : Agree e s t) (hle : t.ptr ≤ e)
    (hend : NoGap stream start (stream.length - body.length) e) :
    (∃ u' u, scanTo e s = .ends u' ∧ scanTo e t = .ends u ∧ Agree e u' u ∧ u.ptr ≤ e ∧ (∀ i, u.ptr ≤ i → u.mem i = memOf stream i) ∧
      stream.drop u.ptr = body) ∨
    (∃ s' t', scanTo e s = .more s' ∧ scanTo e t = .more t' ∧ Agree e s' t' ∧ Tracks stream start body t' ∧ t'.ptr = e) := by
  have hptr : s.ptr = t.ptr := by rw [hagree.rest]
  rcases Nat.eq_or_lt_of_le hle with heq | hlt
  · right
    exact ⟨s, t, scanTo_done (Nat.le_of_eq (hptr ▸ heq.symm)), scanTo_done (Nat.le_of_eq heq.symm), hagree, h, heq⟩
  · have hlt' : s.ptr < e := hptr ▸ hlt
    rcases track_step h hvalued hfits with ⟨u, hstep, huptr, humem, hbody⟩ | ⟨t', hstep, htracks, hgap⟩
    · left
      have hsame := step_agree hagree hlt h.placed fun t' ht' => by rw [hstep] at ht'; cases ht'
      rw [hstep] at hsame
      cases hstep' : s.step with
      | ends u' =>
        rw [hstep'] at hsame
        refine ⟨u', u, scanTo_ends hlt' hstep', scanTo_ends hlt hstep, hsame, huptr ▸ hlt, ?_, hbody⟩
        intro i hi
        rw [humem]
        exact h.fresh i (by omega)
      | more s' =>
        rw [hstep'] at hsame
        exact hsame.elim
    · have hin : t'.ptr ≤ e := by
        by_contra hout
        have hlast := htracks.ends.1
        exact hend (by omega) (hgap e hlt (Nat.lt_of_not_le hout))
      have hsame := step_agree hagree hlt h.placed fun t'' ht'' => by rw [hstep] at ht''; cases ht''; exact hin
      rw [hstep] at hsame
      cases hstep' : s.step with
      | ends u' =>
        rw [hstep'] at hsame
        exact hsame.elim
      | more s' =>
        rw [hstep'] at hsame
        rw [scanTo_more hlt' hstep', scanTo_more hlt hstep]
        exact scan_agree htracks hvalued hfits hsame hin hend
termination_by e - t.ptr
decreasing_by
  have := step_ptr hstep
  omega

/-- The scanner of the whole stream finds the empty line. -/
theorem scan_ends (h : Tracks stream start body t) (hvalued : Valued stream start (stream.length - body.length))
    (hfits : stream.length - body.length ≤ respBuffer) : ∃ u, scanTo (stream.length - body.length) t = .ends u := by
  have hlt := h.ends.1
  rcases scan_agree h hvalued hfits ⟨rfl, fun _ _ => rfl⟩ (Nat.le_of_lt hlt) (fun hlt => absurd hlt (Nat.lt_irrefl _)) with
    ⟨u', _, hends, _⟩ | ⟨s', t', _, _, _, htracks, hptr⟩
  · exact ⟨u', hends⟩
  · have := htracks.ends.1
    omega

theorem socketRead_cons {packet : List UInt8} {packets : List (List UInt8)} {num : ℕ} (hne : packet ≠ []) (hnum : 0 < num) :
    socketRead (packet :: packets) num =
      if packet.length ≤ num then some (packet, packets) else some (packet.take num, packet.drop num :: packets) := by
  rw [socketRead, if_neg]
  rw [List.take_eq_nil_iff]
  exact fun h => h.elim (Nat.ne_of_gt hnum) hne

/-- The loop goes on with the bytes of a read. -/
theorem readHeader_next {packets packets' : List (List UInt8)} {bytes : List UInt8} {room : ℕ} (hs : scanTo (respBuffer - room) s = .more s')
    (hroom : 0 < room) (hread : socketRead packets room = some (bytes, packets')) :
    readHeader s room packets = readHeader { s' with mem := s'.mem.write (respBuffer - room) bytes } (room - bytes.length) packets' := by
  rw [readHeader, hs]
  simp only [if_neg (Nat.ne_of_gt hroom)]
  split
  · next heq =>
    rw [hread] at heq
    cases heq
  · next heq =>
    rw [hread] at heq
    cases heq
    rfl

/-- The bytes behind the scanner, in the buffer and on the socket. -/
theorem slice_append (hle : i ≤ e) (he : e ≤ stream.length) (hmem : ∀ k, i ≤ k → k < e → mem k = memOf stream k) :
    mem.slice i e ++ stream.drop e = stream.drop i := by
  induction e, hle using Nat.le_induction with
  | base => rw [Mem.slice, Nat.sub_self, List.range_zero, List.map_nil, List.nil_append]
  | succ e hie ih =>
    have hslice : mem.slice i (e + 1) = mem.slice i e ++ [mem e] := by
      rw [Mem.slice, Nat.succ_sub hie, List.range_succ, List.map_append, List.map_singleton, Nat.add_sub_cancel' hie]
      rfl
    rw [hslice, List.append_assoc, List.singleton_append, hmem e hie (Nat.lt_succ_self e), ← drop_eq he,
      ih (Nat.le_of_succ_le he) fun k hk hke => hmem k hk (Nat.lt_succ_of_lt hke)]

/-- A read puts the next bytes of the stream into the buffer. -/
theorem write_agree {bytes rest : List UInt8} (hagree : Agree e s t) (hfresh : ∀ i, e ≤ i → t.mem i = memOf stream i)
    (hdrop : stream.drop e = bytes ++ rest) : Agree (e + bytes.length) { s with mem := s.mem.write e bytes } t := by
  obtain ⟨hrest, hmem⟩ := hagree
  refine ⟨by rw [hrest], fun i hi => ?_⟩
  show (if e ≤ i ∧ i < e + bytes.length then bytes.getD (i - e) 0 else s.mem i) = _
  split_ifs with hin
  · have hbyte : (stream.drop e).getD (i - e) 0 = bytes.getD (i - e) 0 := by
      rw [hdrop, List.getD_append _ _ _ _ (by omega)]
    rw [hfresh i hin.1, memOf, ← hbyte]
    simp only [List.getD_eq_getElem?_getD, List.getElem?_drop, Nat.add_sub_cancel' hin.1]
  · exact hmem i (by omega)

/-- However the stream is cut, if no read ends in a gap: the header found is that of the whole
stream. -/
theorem readHeader_spec {s t : Scan} {e : ℕ} {packets : List (List UInt8)} (h : Tracks stream start body t)
    (hvalued : Valued stream start (stream.length - body.length)) (hfits : stream.length - body.length ≤ respBuffer) (hagree : Agree e s t)
    (hle : t.ptr ≤ e) (he : e ≤ respBuffer) (hstream : e ≤ stream.length) (hflat : packets.flatten = stream.drop e)
    (hne : ∀ packet ∈ packets, packet ≠ []) (hcuts : ∀ k, NoGap stream start (stream.length - body.length) (e + (packets.take k).flatten.length))
    (hu : scanTo (stream.length - body.length) t = .ends u) :
    readHeader s (respBuffer - e) packets = .ready u.clen u.keepalive body := by
  have hroom : respBuffer - (respBuffer - e) = e := Nat.sub_sub_self he
  rcases scan_agree h hvalued hfits hagree hle (hcuts 0) with ⟨u', u₁, hs, ht, hsame, huptr, hfresh, hbody⟩ | ⟨s', t', hs, ht, hsame, htracks, hptr⟩
  · have heq : u₁ = u := by
      rcases Nat.le_total e (stream.length - body.length) with hshort | hlong
      · have hends := (scanTo_trans t hshort).1 u₁ ht
        rw [hu] at hends
        exact (Scanned.ends.inj hends).symm
      · have hends := (scanTo_trans t hlong).1 u hu
        rw [ht] at hends
        exact Scanned.ends.inj hends
    subst heq
    have hslice : u'.mem.slice u'.ptr e ++ packets.flatten = body := by
      have hptr : u'.ptr = u₁.ptr := by rw [hsame.rest]
      rw [hflat, hptr, slice_append huptr hstream fun k hk hke => (hsame.mem k hke).trans (hfresh k hk), hbody]
    rw [readHeader, hroom, hs]
    simp only [hslice]
    rw [hsame.rest]
  · have hmore := htracks.ends
    rw [hptr] at hmore
    have hlt : e < respBuffer := Nat.lt_of_lt_of_le hmore.1 hfits
    have hfresh : ∀ i, e ≤ i → t'.mem i = memOf stream i := fun i hi => htracks.fresh i (hptr ▸ hi)
    have hu' : scanTo (stream.length - body.length) t' = .ends u := by
      rw [← (scanTo_trans t (Nat.le_of_lt hmore.1)).2 t' ht]
      exact hu
    cases packets with
    | nil =>
      have hlength := congrArg List.length hflat
      rw [List.flatten_nil, List.length_nil, List.length_drop] at hlength
      omega
    | cons packet packets =>
      obtain ⟨hpacket, hpackets⟩ := List.forall_mem_cons.mp hne
      have hpos := List.length_pos_iff.mpr hpacket
      have hread := @socketRead_cons _ packets _ hpacket (Nat.sub_pos_of_lt hlt)
      have htotal := congrArg List.length hflat
      rw [List.flatten_cons, List.length_append, List.length_drop] at htotal
      have hnext : ∀ {bytes packets'}, socketRead (packet :: packets) (respBuffer - e) = some (bytes, packets') →
          readHeader s (respBuffer - e) (packet :: packets) =
            readHeader { s' with mem := s'.mem.write e bytes } (respBuffer - (e + bytes.length)) packets' := by
        intro bytes packets' hread
        rw [readHeader_next (hroom ▸ hs) (Nat.sub_pos_of_lt hlt) hread, hroom, Nat.sub_sub]
      rw [List.flatten_cons] at hflat
      by_cases hfit : packet.length ≤ respBuffer - e
      · rw [if_pos hfit] at hread
        rw [hnext hread]
        refine readHeader_spec htracks hvalued hfits (write_agree hsame hfresh hflat.symm) (by omega) (by omega) (by omega) ?_ hpackets ?_ hu'
        · rw [← List.drop_drop, ← hflat, List.drop_left]
        · intro k
          have hcut := hcuts (k + 1)
          rw [List.take_succ_cons, List.flatten_cons, List.length_append, ← Nat.add_assoc] at hcut
          exact hcut
      · have hfit := Nat.lt_of_not_le hfit
        have htake : (packet.take (respBuffer - e)).length = respBuffer - e := List.length_take_of_le (Nat.le_of_lt hfit)
        have hsplit : stream.drop e = packet.take (respBuffer - e) ++ (packet.drop (respBuffer - e) ++ packets.flatten) := by
          rw [← List.append_assoc, List.take_append_drop, hflat]
        rw [if_neg (Nat.not_le.mpr hfit)] at hread
        rw [hnext hread]
        have hdrop : packet.drop (respBuffer - e) ≠ [] := fun hnil => Nat.not_le.mpr hfit (List.drop_eq_nil_iff.mp hnil)
        refine readHeader_spec htracks hvalued hfits (write_agree hsame hfresh hsplit) (by omega) (by omega) (by omega) ?_
          (List.forall_mem_cons.mpr ⟨hdrop, hpackets⟩) ?_ hu'
        · rw [← List.drop_drop, hsplit, List.drop_left, List.flatten_cons]
        · -- the buffer is full, and the header is in it
          intro k hk
          omega
termination_by respBuffer - e
decreasing_by
  all_goals omega

/-! ### The status line -/

variable {line rest : List UInt8} {packets : List (List UInt8)} {junk : Mem}

/-- Something stands behind the first word of the status line. -/
def HasStatus (line : List UInt8) : Prop := ∃ i j, i < j ∧ j < line.length ∧ isspace (memOf line i) = true ∧ isspace (memOf line j) = false

theorem memOf_append_left (h : i < line.length) : memOf (line ++ rest) i = memOf line i := List.getD_append _ _ _ _ h

theorem memOf_middle {c : UInt8} : memOf (line ++ c :: rest) line.length = c := by
  rw [memOf, List.getD_append_right _ _ _ _ (Nat.le_refl _), Nat.sub_self]
  rfl

/-- The status line alone decides what it says. -/
theorem statusLine_congr (hlf : lf ∉ line) (hstatus : HasStatus line) (hfits : line.length < respBuffer)
    (hmem : ∀ i ≤ line.length, mem i = memOf (line ++ [lf]) i) :
    statusLine mem = statusLine (memOf (line ++ [lf])) ∧ ∀ ptr, statusLine mem = .inr ptr → ptr = line.length + 1 := by
  obtain ⟨i, j, hij, hj, hspace, hword⟩ := hstatus
  rw [← @memOf_append_left _ _ [lf] (Nat.lt_trans hij hj), ← hmem i (Nat.le_of_lt (Nat.lt_trans hij hj))] at hspace
  rw [← @memOf_append_left _ _ [lf] hj, ← hmem j (Nat.le_of_lt hj)] at hword
  have hend : mem line.length = lf := (hmem _ (Nat.le_refl _)).trans memOf_middle
  have hlim : ∀ i < line.length + 1, mem i = memOf (line ++ [lf]) i := fun i hi => hmem i (Nat.le_of_lt_succ hi)
  have hfirst : skipWhile (fun c => c ≠ 0 && !isspace c) mem respBuffer 0 ≤ i :=
    skipWhile_le_of (by simp [hspace]) (Nat.zero_le i)
  have hfirst' := skipWhile_congr hlim (Nat.lt_succ_of_le (Nat.le_trans hfirst (Nat.le_of_lt (Nat.lt_trans hij hj))))
  generalize hq₁ : skipWhile (fun c => c ≠ 0 && !isspace c) mem respBuffer 0 = q₁ at hfirst hfirst'
  have hsecond : skipWhile (fun c => c ≠ 0 && isspace c) mem respBuffer q₁ ≤ j :=
    skipWhile_le_of (by simp [hword]) (Nat.le_trans hfirst (Nat.le_of_lt hij))
  have hsecond' := skipWhile_congr hlim (Nat.lt_succ_of_le (Nat.le_trans hsecond (Nat.le_of_lt hj)))
  generalize hq₂ : skipWhile (fun c => c ≠ 0 && isspace c) mem respBuffer q₁ = q₂ at hsecond hsecond'
  have hq₂le := Nat.le_trans hsecond (Nat.le_of_lt hj)
  have hato := ato_congr id hmem (by rw [hend]; rfl) respBuffer hq₂le 0
  have hthird : skipWhile (fun c => c ≠ 0 && c ≠ lf) mem respBuffer q₂ ≤ line.length := skipWhile_le_of (by simp [hend]) hq₂le
  have hthird' := skipWhile_congr hlim (Nat.lt_succ_of_le hthird)
  have hstops := skipWhile_stops (Nat.lt_of_le_of_lt hthird (Nat.lt_of_lt_of_le hfits (Nat.le_add_left _ q₂)))
  generalize hq₃ : skipWhile (fun c => c ≠ 0 && c ≠ lf) mem respBuffer q₂ = q₃ at hthird hthird' hstops
  constructor
  · simp only [statusLine, hq₁, hq₂, hq₃, hfirst', hsecond', hthird', ← hmem q₂ hq₂le, ← hmem q₃ hthird, hato]
  · intro ptr hptr
    simp only [statusLine, hq₁, hq₂, hq₃] at hptr
    split_ifs at hptr with _ _ _ hzero
    rw [← Sum.inr.inj hptr]
    congr 1
    by_contra hne
    have hlt := Nat.lt_of_le_of_ne hthird hne
    have hthere : mem q₃ = lf := by simpa [hzero] using hstops
    rw [hmem q₃ hthird, memOf_append_left hlt, memOf, List.getD_eq_getElem _ _ hlt] at hthere
    exact hlf (hthere ▸ List.getElem_mem hlt)

/-! ### Splits -/

/-- A way to split a stream, the whole status line in the first read. -/
structure Splits (line stream : List UInt8) (packets : List (List UInt8)) : Prop where
  flatten : packets.flatten = stream
  read : ∀ packet ∈ packets, packet ≠ []
  first : ∃ packet packets', packets = packet :: packets' ∧ line.length < packet.length

/-- The first line of the header is empty. -/
def FirstEmpty (rest : List UInt8) : Prop := ∃ k tail, rest = List.replicate k cr ++ lf :: tail

theorem afterEmptyLine_false (h : ¬FirstEmpty rest) : afterEmptyLine false rest = afterEmptyLine true rest := by
  induction rest with
  | nil => rfl
  | cons c cs ih =>
    rw [afterEmptyLine, afterEmptyLine]
    by_cases hcr : c = cr
    · rw [if_pos hcr, if_pos hcr]
      apply ih
      rintro ⟨k, tail, rfl⟩
      exact h ⟨k + 1, tail, by rw [hcr, List.replicate_succ, List.cons_append]⟩
    · have hlf : c ≠ lf := fun hlf => h ⟨0, cs, by rw [hlf]; rfl⟩
      simp only [if_neg hcr, if_neg hlf]

theorem afterEmptyLine_first {k : ℕ} {tail : List UInt8} : afterEmptyLine true (List.replicate k cr ++ lf :: tail) = some tail := by
  induction k with
  | zero => rfl
  | succ k ih =>
    rw [List.replicate_succ, List.cons_append, afterEmptyLine, if_pos rfl, ih]

/-- The first read. -/
theorem request_eq {packet : List UInt8} (hne : packet ≠ []) :
    ∃ bytes packets', psyncHttpNextRequest junk (packet :: packets) =
        (match statusLine ((junk.write 0 bytes).put bytes.length 0) with
        | .inl ret => .failed ret
        | .inr ptr => readHeader (Scan.start ((junk.write 0 bytes).put bytes.length 0) ptr) (respBuffer - bytes.length) packets') ∧
      bytes ++ packets'.flatten = packet ++ packets.flatten ∧
      ((bytes = packet ∧ packets' = packets ∧ packet.length < respBuffer) ∨
        (respBuffer ≤ packet.length ∧ bytes.length = respBuffer - 1 ∧ packets' = packet.drop (respBuffer - 1) :: packets)) := by
  have hread := @socketRead_cons _ packets _ hne (show 0 < respBuffer - 1 by decide)
  by_cases hfit : packet.length ≤ respBuffer - 1
  · rw [if_pos hfit] at hread
    refine ⟨packet, packets, ?_, rfl, Or.inl ⟨rfl, rfl, Nat.lt_of_le_of_lt hfit (by decide)⟩⟩
    rw [psyncHttpNextRequest, hread]
  · rw [if_neg hfit] at hread
    have hlength : (packet.take (respBuffer - 1)).length = respBuffer - 1 := List.length_take_of_le (Nat.le_of_not_le hfit)
    refine ⟨packet.take (respBuffer - 1), packet.drop (respBuffer - 1) :: packets, ?_, ?_, Or.inr ⟨?_, hlength, rfl⟩⟩
    · rw [psyncHttpNextRequest, hread]
    · rw [List.flatten_cons, ← List.append_assoc, List.take_append_drop]
    · rw [respBuffer] at *
      omega

/-- What was read first is the stream so far. -/
theorem first_mem {bytes : List UInt8} (hdrop : stream = bytes ++ rest) :
    ∀ i < bytes.length, ((junk.write 0 bytes).put bytes.length 0) i = memOf stream i := by
  intro i hi
  rw [Mem.put, if_neg (Nat.ne_of_lt hi), Mem.write, if_pos ⟨Nat.zero_le i, by omega⟩, Nat.sub_zero, hdrop, memOf_append_left hi]
  rfl

/-- A response whose status line and header fit. -/
structure Answer (line rest body : List UInt8) : Prop where
  oneLine : lf ∉ line
  status : HasStatus line
  header : afterEmptyLine true rest = some body
  fits : line.length + 1 + (rest.length - body.length) ≤ respBuffer

theorem Answer.lengths (h : Answer line rest body) : body.length < rest.length ∧
    (line ++ lf :: rest).length - body.length = line.length + 1 + (rest.length - body.length) := by
  obtain ⟨pre, hpre⟩ := afterEmptyLine_split h.header
  have hlength := congrArg List.length hpre
  rw [List.length_append, List.length_cons] at hlength
  rw [List.length_append, List.length_cons]
  omega

/-- The header ends with a line feed. -/
theorem Answer.header_eq (h : Answer line rest body) :
    ∃ pre, rest.take (rest.length - body.length) = pre ++ [lf] ∧ rest.drop (rest.length - body.length) = body := by
  obtain ⟨pre, hpre⟩ := afterEmptyLine_split h.header
  have hpre : rest = (pre ++ [lf]) ++ body := by rw [hpre, List.append_assoc, List.singleton_append]
  have hlength : rest.length - body.length = (pre ++ [lf]).length := by rw [hpre, List.length_append, Nat.add_sub_cancel]
  rw [hlength, hpre]
  exact ⟨pre, List.take_left, List.drop_left⟩

/-- What the status line says, in any split. -/
theorem Answer.statusLine (h : Answer line rest body) {bytes tail : List UInt8} (hlong : line.length < bytes.length)
    (hbytes : line ++ lf :: rest = bytes ++ tail) :
    statusLine ((junk.write 0 bytes).put bytes.length 0) = Http.statusLine (memOf (line ++ [lf])) ∧
      ∀ ptr, Http.statusLine (memOf (line ++ [lf])) = .inr ptr → ptr = line.length + 1 := by
  have hfits := h.fits
  have hmem : ∀ i ≤ line.length, ((junk.write 0 bytes).put bytes.length 0) i = memOf (line ++ [lf]) i := by
    intro i hi
    rw [first_mem hbytes i (Nat.lt_of_le_of_lt hi hlong)]
    show memOf (line ++ ([lf] ++ rest)) i = _
    rw [← List.append_assoc, memOf_append_left]
    rw [List.length_append, List.length_singleton]
    exact Nat.lt_succ_of_le hi
  obtain ⟨heq, hptr⟩ := statusLine_congr h.oneLine h.status (by omega) hmem
  exact ⟨heq, fun ptr hok => hptr ptr (heq.trans hok)⟩

/-- After the first read, which has the whole status line. -/
theorem Answer.first_read (h : Answer line rest body) (hsplits : Splits line (line ++ lf :: rest) packets) (junk : Mem) :
    ∃ bytes packets', line.length < bytes.length ∧ bytes.length ≤ respBuffer ∧ line ++ lf :: rest = bytes ++ packets'.flatten ∧
      psyncHttpNextRequest junk packets =
        (match Http.statusLine (memOf (line ++ [lf])) with
        | .inl ret => .failed ret
        | .inr _ => readHeader (Scan.start ((junk.write 0 bytes).put bytes.length 0) (line.length + 1)) (respBuffer - bytes.length) packets') ∧
      (packets = bytes :: packets' ∨
        ∃ packet packets₀, packets = packet :: packets₀ ∧ respBuffer ≤ packet.length ∧ bytes.length = respBuffer - 1 ∧
          packets' = packet.drop (respBuffer - 1) :: packets₀) := by
  obtain ⟨hflat, hread, packet, packets, rfl, hlong⟩ := hsplits
  obtain ⟨bytes, packets', heq, hbytes, hhow⟩ := @request_eq packets junk _ (List.forall_mem_cons.mp hread).1
  have hwhole := (hbytes.trans hflat).symm
  have hlt := h.lengths.1
  have hfits := h.fits
  have hlengths : line.length < bytes.length ∧ bytes.length ≤ respBuffer := by
    rcases hhow with ⟨rfl, -, hshort⟩ | ⟨-, hlength, -⟩
    · exact ⟨hlong, Nat.le_of_lt hshort⟩
    · rw [hlength, respBuffer] at *
      omega
  obtain ⟨hstatus, hptr⟩ := @Answer.statusLine _ _ _ junk h _ _ hlengths.1 hwhole
  refine ⟨bytes, packets', hlengths.1, hlengths.2, hwhole, ?_, ?_⟩
  · rw [heq, hstatus]
    cases hline : Http.statusLine (memOf (line ++ [lf])) with
    | inl ret => rfl
    | inr ptr => rw [hptr ptr hline]
  · rcases hhow with ⟨rfl, rfl, -⟩ | hbig
    · exact Or.inl rfl
    · exact Or.inr ⟨packet, packets, rfl, hbig⟩

/-- Where the first read is all of a packet. -/
theorem Answer.started (h : Answer line rest body) {packet : List UInt8} (hsplits : Splits line (line ++ lf :: rest) (packet :: packets))
    (hshort : packet.length < respBuffer) {ptr : ℕ} (hok : Http.statusLine (memOf (line ++ [lf])) = .inr ptr) (junk : Mem) :
    psyncHttpNextRequest junk (packet :: packets) =
      readHeader (Scan.start ((junk.write 0 packet).put packet.length 0) (line.length + 1)) (respBuffer - packet.length) packets := by
  obtain ⟨bytes, packets', -, -, -, heq, hhow⟩ := h.first_read hsplits junk
  rcases hhow with hhow | ⟨packet', packets₀, hhow, hbig, -⟩
  · obtain ⟨rfl, rfl⟩ := List.cons.inj hhow
    rw [heq, hok]
  · rw [← (List.cons.inj hhow).1] at hbig
    exact absurd hbig (Nat.not_le.mpr hshort)

/-- No read ends in a gap. -/
def GapFree (line rest body : List UInt8) (packets : List (List UInt8)) : Prop :=
  ∀ k, NoGap (line ++ lf :: rest) (line.length + 1) ((line ++ lf :: rest).length - body.length) (packets.take k).flatten.length

/-- The header that the whole stream has is found in each split that no gap is cut by. -/
theorem next_request_gap_free (h : Answer line rest body) (hfirst : ¬FirstEmpty rest)
    (hvalued : Valued (line ++ lf :: rest) (line.length + 1) ((line ++ lf :: rest).length - body.length)) :
    ∃ r, (∀ junk packets, Splits line (line ++ lf :: rest) packets → GapFree line rest body packets → psyncHttpNextRequest junk packets = r) ∧
      ∀ ptr, statusLine (memOf (line ++ [lf])) = .inr ptr → ∃ clen keepalive, r = .ready clen keepalive body := by
  generalize hstream : line ++ lf :: rest = stream at hvalued
  obtain ⟨hbody, hfin⟩ := h.lengths
  rw [hstream] at hfin
  have hfits := h.fits
  rw [← hfin] at hfits
  have hdrop : stream.drop (line.length + 1) = rest := by
    rw [← hstream, ← List.drop_drop, List.drop_left, List.drop_one, List.tail_cons]
  have htracks : Tracks stream (line.length + 1) body (Scan.start (memOf stream) (line.length + 1)) := by
    refine ⟨fun _ _ => rfl, ⟨Nat.le_refl _, Nat.le_refl _⟩, Nat.le_refl _, fieldAt_start, ?_⟩
    show afterEmptyLine false (stream.drop (line.length + 1)) = some body
    rw [hdrop, afterEmptyLine_false hfirst, h.header]
  obtain ⟨u, hu⟩ := scan_ends htracks hvalued hfits
  refine ⟨match statusLine (memOf (line ++ [lf])) with
    | .inl ret => .failed ret
    | .inr _ => .ready u.clen u.keepalive body, ?_, ?_⟩
  · intro junk packets hsplits hgaps
    obtain ⟨bytes, packets', hlong, hfull, hwhole, heq, hhow⟩ := h.first_read (hstream ▸ hsplits) junk
    rw [heq]
    rw [hstream] at hwhole
    cases hline : statusLine (memOf (line ++ [lf])) with
    | inl ret => rfl
    | inr ptr =>
      refine readHeader_spec (t := Scan.start (memOf stream) (line.length + 1)) htracks hvalued hfits ⟨rfl, first_mem hwhole⟩
        hlong hfull ?_ ?_ ?_ ?_ hu
      · rw [hwhole, List.length_append]
        exact Nat.le_add_right ..
      · rw [hwhole, List.drop_left]
      · rcases hhow with rfl | ⟨packet, packets₀, rfl, hbig, hlength, rfl⟩
        · exact (List.forall_mem_cons.mp hsplits.read).2
        · refine List.forall_mem_cons.mpr ⟨fun hnil => ?_, (List.forall_mem_cons.mp hsplits.read).2⟩
          have hle := List.drop_eq_nil_iff.mp hnil
          rw [respBuffer] at *
          omega
      · rw [GapFree, hstream] at hgaps
        rcases hhow with rfl | ⟨packet, packets₀, rfl, hbig, hlength, rfl⟩
        · intro k
          have hgap := hgaps (k + 1)
          rw [List.take_succ_cons, List.flatten_cons, List.length_append] at hgap
          exact hgap
        · intro k
          cases k with
          | zero =>
            -- only the last line feed of the header can be missing
            intro hlt
            have hlast : stream.length - body.length - 1 = bytes.length := by
              rw [List.take_zero, List.flatten_nil, List.length_nil] at hlt
              rw [hlength, respBuffer] at *
              omega
            have hend := htracks.ends.2.2
            rw [hlast] at hend
            exact hvalued _ hlong hlt hend
          | succ k =>
            have hgap := hgaps (k + 1)
            rw [List.take_succ_cons, List.flatten_cons, List.length_append] at hgap ⊢
            have hsum : bytes.length + ((packet.drop (respBuffer - 1)).length + (packets₀.take k).flatten.length) =
                packet.length + (packets₀.take k).flatten.length := by
              rw [hlength, List.length_drop, respBuffer] at *
              omega
            rw [hsum]
            exact hgap
  · intro ptr hptr
    rw [hptr]
    exact ⟨_, _, rfl⟩

/-! ### Reads that go wrong -/

theorem step_ends (h : s.step = .ends u) : u.ptr = s.ptr + 1 := by
  simp only [Scan.step] at h
  split_ifs at h
  cases h
  rfl

theorem scanTo_ptr (s : Scan) : (∀ u, scanTo e s = .ends u → s.ptr < u.ptr ∧ u.ptr ≤ e) ∧ ∀ s', scanTo e s = .more s' → s.ptr ≤ s'.ptr := by
  by_cases hlt : s.ptr < e
  · cases hstep : s.step with
    | ends u =>
      rw [scanTo_ends hlt hstep]
      refine ⟨fun u' h => ?_, nofun⟩
      rw [← Scanned.ends.inj h, step_ends hstep]
      exact ⟨Nat.lt_succ_self _, hlt⟩
    | more s₁ =>
      rw [scanTo_more hlt hstep]
      have hptr := step_ptr hstep
      obtain ⟨hends, hmore⟩ := scanTo_ptr s₁
      exact ⟨fun u h => ⟨Nat.lt_trans hptr (hends u h).1, (hends u h).2⟩, fun s' h => Nat.le_trans (Nat.le_of_lt hptr) (hmore s' h)⟩
  · rw [scanTo_done (Nat.le_of_not_lt hlt)]
    refine ⟨nofun, fun s' h => ?_⟩
    rw [Scanned.more.inj h]
termination_by e - s.ptr
decreasing_by
  have := step_ptr hstep
  omega

theorem socketRead_flatten {packets' : List (List UInt8)} {bytes : List UInt8} {num : ℕ} (h : socketRead packets num = some (bytes, packets')) :
    bytes ++ packets'.flatten = packets.flatten := by
  cases packets with
  | nil => cases h
  | cons packet packets =>
    simp only [socketRead] at h
    split_ifs at h with hnil hle
    · cases h
      rfl
    · cases h
      rw [List.flatten_cons, List.flatten_cons, ← List.append_assoc, List.take_append_drop]

theorem readHeader_congr {room : ℕ} (h : scanTo (respBuffer - room) s = scanTo (respBuffer - room) s') :
    readHeader s room packets = readHeader s' room packets := by
  rw [readHeader.eq_def s, readHeader.eq_def s', h]

/-- The body is behind what was scanned. -/
theorem ready_body {clen : ℤ} {keepalive : ℕ} (s : Scan) (room : ℕ) (packets : List (List UInt8)) (hroom : room ≤ respBuffer)
    (h : readHeader s room packets = .ready clen keepalive body) : s.ptr + body.length < respBuffer - room + packets.flatten.length := by
  cases hscan : scanTo (respBuffer - room) s with
  | ends u =>
    rw [readHeader, hscan] at h
    obtain ⟨hlt, hle⟩ := (scanTo_ptr s).1 u hscan
    cases h
    rw [List.length_append, Mem.slice, List.length_map, List.length_range]
    omega
  | more s' =>
    have hptr := (scanTo_ptr s).2 s' hscan
    by_cases hzero : room = 0
    · rw [readHeader, hscan] at h
      simp only [if_pos hzero] at h
      cases h
    · cases hread : socketRead packets room with
      | none =>
        rw [readHeader, hscan] at h
        simp only [if_neg hzero] at h
        split at h
        · cases h
        · next heq =>
          rw [hread] at heq
          cases heq
      | some read =>
        obtain ⟨bytes, packets'⟩ := read
        have hbytes := socketRead_length hread
        have hflat := congrArg List.length (socketRead_flatten hread)
        rw [List.length_append] at hflat
        rw [readHeader_next hscan (Nat.pos_of_ne_zero hzero) hread] at h
        have hrest := ready_body _ (room - bytes.length) packets' (Nat.le_trans (Nat.sub_le _ _) hroom) h
        have hrest : s'.ptr + body.length < _ := hrest
        omega
termination_by room

/-- A scanner that is behind the buffer never gets on. -/
theorem readHeader_past (s : Scan) (room : ℕ) (packets : List (List UInt8)) (hptr : respBuffer ≤ s.ptr) :
    readHeader s room packets = .failed (-1) := by
  have hscan : scanTo (respBuffer - room) s = .more s := scanTo_done (Nat.le_trans (Nat.sub_le _ _) hptr)
  by_cases hzero : room = 0
  · rw [readHeader, hscan]
    simp only [if_pos hzero]
  · cases hread : socketRead packets room with
    | none =>
      rw [readHeader, hscan]
      simp only [if_neg hzero]
      split
      · rfl
      · next heq =>
        rw [hread] at heq
        cases heq
    | some read =>
      obtain ⟨bytes, packets'⟩ := read
      have hbytes := socketRead_length hread
      rw [readHeader_next hscan (Nat.pos_of_ne_zero hzero) hread]
      exact readHeader_past _ (room - bytes.length) packets' hptr
termination_by room

theorem skipWhile_all (h : ∀ i, ptr ≤ i → p (mem i) = true) : skipWhile p mem n ptr = ptr + n := by
  induction n generalizing ptr with
  | zero => rfl
  | succ n ih =>
    rw [skipWhile, if_pos (h ptr (Nat.le_refl ptr)), ih fun i hi => h i (Nat.le_of_succ_le hi), Nat.succ_add_eq_add_succ]

/-- Carriage returns change nothing. -/
theorem scan_returns {fin : ℕ} (s : Scan) (hfin : fin ≤ e) (hle : s.ptr ≤ fin) (hcr : ∀ i, s.ptr ≤ i → i < fin → s.mem i = cr) :
    ∃ s', scanTo e s = scanTo e s' ∧ s'.ptr = fin ∧ s'.lch = s.lch := by
  rcases Nat.eq_or_lt_of_le hle with heq | hlt
  · exact ⟨s, rfl, heq, rfl⟩
  · have hstep : s.step = .more { s with mem := s.mem.put s.ptr 0, ptr := s.ptr + 1 } := by
      rw [Scan.step]
      exact if_pos (hcr s.ptr (Nat.le_refl _) hlt)
    have hrest : ∀ i, s.ptr + 1 ≤ i → i < fin → s.mem.put s.ptr 0 i = cr := by
      intro i hi hif
      rw [Mem.put, if_neg (Nat.ne_of_gt hi)]
      exact hcr i (Nat.le_of_succ_le hi) hif
    obtain ⟨s', hscan, hptr, hlch⟩ := scan_returns { s with mem := s.mem.put s.ptr 0, ptr := s.ptr + 1 } hfin hlt hrest
    exact ⟨s', (scanTo_more (Nat.lt_of_lt_of_le hlt hfin) hstep).trans hscan, hptr, hlch⟩
termination_by fin - s.ptr

theorem step_key (hkey : s.isval = false) (hcolon : s.mem s.ptr ≠ colon) :
    (∃ u, s.step = .ends u) ∨
    ∃ s', s.step = .more s' ∧ s'.ptr = s.ptr + 1 ∧ s'.isval = false ∧ ∀ i, s.ptr + 1 ≤ i → s'.mem i = s.mem i := by
  have hput : ∀ c i, s.ptr + 1 ≤ i → s.mem.put s.ptr c i = s.mem i := fun c i hi => if_neg (Nat.ne_of_gt hi)
  simp only [Scan.step]
  split_ifs with hcr hlf hblank hfirst
  · exact Or.inr ⟨_, rfl, rfl, hkey, hput 0⟩
  · exact Or.inl ⟨_, rfl⟩
  · refine Or.inr ⟨_, rfl, ?_, rfl, ?_⟩
    · simp only [note_ptr]
    · simp only [note_mem]
      exact hput 0
  · exact absurd hfirst.1 hcolon
  · exact Or.inr ⟨_, rfl, rfl, hkey, hput _⟩

/-- Up to the first colon, the scanner goes byte by byte. -/
theorem scan_keys {fin : ℕ} (s : Scan) (hfin : fin ≤ e) (hle : s.ptr ≤ fin) (hkey : s.isval = false)
    (hcolon : ∀ i, s.ptr ≤ i → i < fin → s.mem i ≠ colon) :
    (∃ u, scanTo e s = .ends u ∧ u.ptr ≤ fin) ∨
    ∃ s', scanTo e s = scanTo e s' ∧ s'.ptr = fin ∧ s'.isval = false ∧ ∀ i, fin ≤ i → s'.mem i = s.mem i := by
  rcases Nat.eq_or_lt_of_le hle with heq | hlt
  · exact Or.inr ⟨s, rfl, heq, hkey, fun _ _ => rfl⟩
  · have hlt' := Nat.lt_of_lt_of_le hlt hfin
    rcases step_key hkey (hcolon s.ptr (Nat.le_refl _) hlt) with ⟨u, hstep⟩ | ⟨s₁, hstep, hptr, hkey₁, hmem⟩
    · exact Or.inl ⟨u, scanTo_ends hlt' hstep, (step_ends hstep).symm ▸ hlt⟩
    · rw [scanTo_more hlt' hstep]
      have hcolon₁ : ∀ i, s₁.ptr ≤ i → i < fin → s₁.mem i ≠ colon := by
        intro i hi hif
        rw [hptr] at hi
        rw [hmem i hi]
        exact hcolon i (Nat.le_of_succ_le hi) hif
      rcases scan_keys s₁ hfin (hptr ▸ hlt) hkey₁ hcolon₁ with hends | ⟨s', hscan, hptr', hkey', hmem'⟩
      · exact Or.inl hends
      · exact Or.inr ⟨s', hscan, hptr', hkey', fun i hi => (hmem' i hi).trans (hmem i (Nat.le_trans hlt hi))⟩
termination_by fin - s.ptr

/-- A line that is not empty is noted. -/
theorem step_line (hlf : s.mem s.ptr = lf) (hlch : s.lch ≠ lf) : ∃ s', s.step = .more s' ∧ s'.ptr = s.ptr + 1 := by
  simp only [Scan.step, hlf]
  rw [if_neg (by decide), if_pos trivial, if_neg hlch]
  exact ⟨_, rfl, by rw [note_ptr]⟩

theorem memOf_after {c : UInt8} (i : ℕ) : memOf (line ++ c :: rest) (line.length + 1 + i) = memOf rest i := by
  rw [memOf, List.getD_append_right _ _ _ _ (by omega), show line.length + 1 + i - line.length = i + 1 by omega, List.getD_cons_succ]
  rfl

/-- A read of a text that begins with a byte begins with it. -/
theorem socketRead_head {c : UInt8} {cs : List UInt8} {num : ℕ} (hnum : 0 < num) :
    ∃ bytes packets', socketRead [c :: cs] num = some (c :: bytes, packets') := by
  have hread := @socketRead_cons _ [] _ (List.cons_ne_nil c cs) hnum
  split_ifs at hread with hfit
  · exact ⟨cs, [], hread⟩
  · obtain ⟨k, rfl⟩ := Nat.exists_eq_succ_of_ne_zero (Nat.ne_of_gt hnum)
    rw [List.take_succ_cons] at hread
    exact ⟨_, _, hread⟩

/-- An empty line at the beginning of the header does not end it. -/
theorem first_empty_missed (h : Answer line rest body) (hfirst : FirstEmpty rest) {ptr : ℕ}
    (hok : statusLine (memOf (line ++ [lf])) = .inr ptr) :
    ∃ packets, Splits line (line ++ lf :: rest) packets ∧ ∀ junk clen keepalive, psyncHttpNextRequest junk packets ≠ .ready clen keepalive body := by
  obtain ⟨k, tail, rfl⟩ := hfirst
  have htail := h.header
  rw [afterEmptyLine_first, Option.some.injEq] at htail
  subst htail
  have hfits := h.fits
  rw [List.length_append, List.length_replicate, List.length_cons] at hfits
  have hstream : line ++ lf :: (List.replicate k cr ++ lf :: tail) = (line ++ lf :: List.replicate k cr) ++ lf :: tail := by
    rw [List.append_assoc, List.cons_append]
  have hlength : (line ++ lf :: List.replicate k cr).length = line.length + 1 + k := by
    rw [List.length_append, List.length_cons, List.length_replicate]
    omega
  have hne : line ++ lf :: List.replicate k cr ≠ [] := List.append_ne_nil_of_right_ne_nil _ (List.cons_ne_nil _ _)
  have hsplits : Splits line (line ++ lf :: (List.replicate k cr ++ lf :: tail)) [line ++ lf :: List.replicate k cr, lf :: tail] := by
    refine ⟨?_, ?_, ⟨_, _, rfl, by omega⟩⟩
    · rw [hstream, List.flatten_cons, List.flatten_singleton]
    · exact List.forall_mem_cons.mpr ⟨hne, List.forall_mem_singleton.mpr (List.cons_ne_nil _ _)⟩
  refine ⟨_, hsplits, ?_⟩
  · intro junk clen keepalive hready
    rw [h.started hsplits (by omega) hok, hlength] at hready
    have hmem := @first_mem _ _ junk _ (List.append_nil (line ++ lf :: List.replicate k cr)).symm
    rw [hlength] at hmem
    generalize (junk.write 0 (line ++ lf :: List.replicate k cr)).put (line.length + 1 + k) 0 = mem at hready hmem
    have hroom : respBuffer - (respBuffer - (line.length + 1 + k)) = line.length + 1 + k := Nat.sub_sub_self (by omega)
    have hcr : ∀ i, line.length + 1 ≤ i → i < line.length + 1 + k → mem i = cr := by
      intro i hi hik
      obtain ⟨m, rfl⟩ := Nat.exists_eq_add_of_le hi
      have hm : m < (List.replicate k cr).length := by
        rw [List.length_replicate]
        omega
      rw [hmem _ hik, memOf_after, memOf, List.getD_eq_getElem _ _ hm, List.getElem_replicate]
    obtain ⟨s', hscan, hptr', hlch⟩ := scan_returns (e := line.length + 1 + k) (Scan.start mem (line.length + 1)) (Nat.le_refl _)
      (Nat.le_add_right _ k) hcr
    rw [scanTo_done (s := s') (Nat.le_of_eq hptr'.symm)] at hscan
    obtain ⟨bytes, packets', hread⟩ := @socketRead_head lf tail (respBuffer - (line.length + 1 + k)) (by omega)
    have hflat := congrArg List.length (socketRead_flatten hread)
    rw [List.flatten_singleton, List.length_append, List.length_cons, List.length_cons] at hflat
    rw [readHeader_next (hroom.symm ▸ hscan) (by omega) hread, hroom, List.length_cons] at hready
    have hshort := (socketRead_length hread).2
    rw [List.length_cons] at hshort
    -- the line feed follows no other, as the one of the status line is forgotten
    obtain ⟨s₃, hstep, hptr₃⟩ := step_line (s := { s' with mem := s'.mem.write (line.length + 1 + k) (lf :: bytes) })
      (by
        show s'.mem.write (line.length + 1 + k) (lf :: bytes) s'.ptr = lf
        rw [hptr', Mem.write, if_pos ⟨Nat.le_refl _, by rw [List.length_cons]; omega⟩, Nat.sub_self, List.getD_cons_zero])
      (by
        show s'.lch ≠ lf
        rw [hlch]
        show (0 : UInt8) ≠ lf
        decide)
    have hptr₃ : s₃.ptr = line.length + 1 + k + 1 := hptr₃.trans (by rw [hptr'])
    rw [readHeader_congr (scanTo_more (by show s'.ptr < _; omega) hstep)] at hready
    have hbody := ready_body s₃ _ packets' (Nat.le_trans (Nat.sub_le _ _) (Nat.sub_le _ _)) hready
    omega

/-- A read that ends behind a first colon, if only white space stands in the buffer, takes the
scanner out of it. -/
theorem colon_missed (h : Answer line rest body) (hcolon : colon ∈ rest.take (rest.length - body.length)) {ptr : ℕ}
    (hok : statusLine (memOf (line ++ [lf])) = .inr ptr) :
    ∃ packets, Splits line (line ++ lf :: rest) packets ∧
      ∀ clen keepalive, psyncHttpNextRequest (fun _ => 32) packets ≠ .ready clen keepalive body := by
  obtain ⟨a, c, hheader, ha⟩ := List.eq_append_cons_of_mem hcolon
  obtain ⟨pre, hlast, hbody⟩ := h.header_eq
  have hfits := h.fits
  have hc : c ≠ [] := by
    rintro rfl
    rw [hlast] at hheader
    exact absurd (List.singleton_inj.mp (List.append_inj' hheader rfl).2) (by decide)
  have hrest : rest = a ++ colon :: (c ++ body) := by
    calc rest = rest.take (rest.length - body.length) ++ rest.drop (rest.length - body.length) := (List.take_append_drop ..).symm
      _ = (a ++ colon :: c) ++ body := by rw [hheader, hbody]
      _ = a ++ colon :: (c ++ body) := by rw [List.append_assoc, List.cons_append]
  have hlength := congrArg List.length hrest
  rw [List.length_append, List.length_cons, List.length_append] at hlength
  have hcpos := List.length_pos_iff.mpr hc
  have hsplits : Splits line (line ++ lf :: rest) [line ++ [lf], a ++ [colon], c ++ body] := by
    refine ⟨?_, ?_, ⟨_, _, rfl, ?_⟩⟩
    · rw [hrest]
      simp
    · simp [hc]
    · rw [List.length_append]
      exact Nat.lt_succ_self _
  refine ⟨_, hsplits, fun clen keepalive hready => ?_⟩
  have hfirst : (line ++ [lf]).length = line.length + 1 := by rw [List.length_append, List.length_singleton]
  have hkeys : (a ++ [colon]).length = a.length + 1 := by rw [List.length_append, List.length_singleton]
  rw [h.started hsplits (by omega) hok, hfirst] at hready
  have hroom : respBuffer - (respBuffer - (line.length + 1)) = line.length + 1 := Nat.sub_sub_self (by omega)
  have hread := @socketRead_cons (a ++ [colon]) [c ++ body] (respBuffer - (line.length + 1)) (by simp) (by omega)
  rw [if_pos (by omega)] at hread
  generalize hmem : (Mem.write (fun _ => 32) 0 (line ++ [lf])).put (line.length + 1) 0 = mem at hready
  have hspaces : ∀ i, line.length + 1 < i → mem i = 32 := by
    intro i hi
    rw [← hmem, Mem.put, if_neg (Nat.ne_of_gt hi), Mem.write, if_neg (by omega)]
  have hstart : scanTo (respBuffer - (respBuffer - (line.length + 1))) (Scan.start mem (line.length + 1)) = .more (Scan.start mem (line.length + 1)) :=
    scanTo_done (Nat.le_of_eq hroom)
  rw [readHeader_next hstart (by omega) hread, hroom, Nat.sub_sub, hkeys] at hready
  have hroom : respBuffer - (respBuffer - (line.length + 1 + (a.length + 1))) = line.length + 1 + (a.length + 1) := Nat.sub_sub_self (by omega)
  generalize hs : ({ Scan.start mem (line.length + 1) with mem := (Scan.start mem (line.length + 1)).mem.write (line.length + 1) (a ++ [colon]) } : Scan) = s at hready
  have hptr : s.ptr = line.length + 1 := by
    rw [← hs]
    rfl
  have hsmem : s.mem = mem.write (line.length + 1) (a ++ [colon]) := by
    rw [← hs]
    rfl
  have hwritten : ∀ i, i < a.length + 1 → s.mem (line.length + 1 + i) = (a ++ [colon]).getD i 0 := by
    intro i hi
    rw [hsmem, Mem.write, if_pos ⟨by omega, by omega⟩, Nat.add_sub_cancel_left]
  have hnocolon : ∀ i, s.ptr ≤ i → i < line.length + 1 + a.length → s.mem i ≠ colon := by
    intro i hi hia heq
    rw [hptr] at hi
    obtain ⟨m, rfl⟩ := Nat.exists_eq_add_of_le hi
    have hm : m < a.length := by omega
    rw [hwritten m (by omega), List.getD_append _ _ _ _ hm, List.getD_eq_getElem _ _ hm] at heq
    exact ha (heq ▸ List.getElem_mem hm)
  have hisval : s.isval = false := by
    rw [← hs]
    rfl
  rcases scan_keys (e := line.length + 1 + (a.length + 1)) s (by omega) (by omega) hisval hnocolon with
    ⟨u, hends, hu⟩ | ⟨s', hscan, hptr', hkey', hmem'⟩
  · rw [readHeader, hroom, hends] at hready
    have hbody := congrArg List.length (Response.ready.inj hready).2.2
    rw [List.length_append, List.flatten_singleton, List.length_append] at hbody
    omega
  · have hch : s'.mem s'.ptr = colon := by
      rw [hptr', hmem' _ (Nat.le_refl _), hwritten a.length (Nat.lt_succ_self _), List.getD_append_right _ _ _ _ (Nat.le_refl _), Nat.sub_self]
      rfl
    have hspace : ∀ i, s'.ptr + 1 ≤ i → isspace (s'.mem.put s'.ptr 0 i) = true := by
      intro i hi
      rw [hptr'] at hi
      rw [Mem.put, if_neg (by omega), hmem' i (by omega), hsmem, Mem.write, if_neg (by omega), hspaces i (by omega)]
      rfl
    have hskip : skipWhile isspace (s'.mem.put s'.ptr 0) (respBuffer - (s'.ptr + 1)) (s'.ptr + 1) = respBuffer := by
      rw [skipWhile_all hspace]
      omega
    obtain ⟨s₃, hstep, hptr₃⟩ : ∃ s₃, s'.step = .more s₃ ∧ s₃.ptr = respBuffer + 1 := by
      rw [Scan.step, hch]
      simp only
      rw [if_neg (by decide), if_neg (by decide), if_pos ⟨trivial, hkey'⟩, hskip]
      exact ⟨_, rfl, rfl⟩
    rw [@readHeader_congr _ s₃ _ _ (by rw [hroom, hscan]; exact scanTo_more (by omega) hstep), readHeader_past _ _ _ (by omega)] at hready
    cases hready

/-! ### Independence of the packets -/

theorem foldl_key {text : List UInt8} (h : colon ∉ text) : text.foldl Field.next .key = .key := by
  induction text with
  | nil => rfl
  | cons c cs ih =>
    have hc : c ≠ colon := fun heq => h (heq ▸ List.mem_cons_self)
    rw [List.foldl_cons, Field.next, if_neg hc]
    exact ih fun hmem => h (List.mem_cons_of_mem _ hmem)

/-- A header without a colon has no gaps. -/
theorem fieldAt_no_colon (h : Answer line rest body) (hcolon : colon ∉ rest.take (rest.length - body.length)) {i : ℕ}
    (hi : i ≤ (line ++ lf :: rest).length - body.length) : fieldAt (line ++ lf :: rest) (line.length + 1) i = .key := by
  have hdrop : (line ++ lf :: rest).drop (line.length + 1) = rest := by
    rw [← List.drop_drop, List.drop_left, List.drop_one, List.tail_cons]
  rw [h.lengths.2] at hi
  rw [fieldAt, hdrop]
  apply foldl_key
  intro hmem
  apply hcolon
  have hshort : (i - (line.length + 1)) ≤ rest.length - body.length := by omega
  rw [← Nat.min_eq_left hshort, ← List.take_take] at hmem
  exact List.mem_of_mem_take hmem

/-- A response that is refused is refused by its status line. -/
theorem refused (h : Answer line rest body) (hsplits : Splits line (line ++ lf :: rest) packets) {ret : ℤ}
    (hret : statusLine (memOf (line ++ [lf])) = .inl ret) (junk : Mem) : psyncHttpNextRequest junk packets = .failed ret := by
  obtain ⟨bytes, packets', -, -, -, heq, -⟩ := h.first_read hsplits junk
  rw [heq, hret]

def ascii (text : String) : List UInt8 := text.toList.map fun c => UInt8.ofNat c.toNat

end Pclsync.Api.Http
