import Mathlib.Tactic.Ring
import Mathlib.Data.List.Basic
import Pclsync.Lib.Transition

/-! Buffered writes to a socket. After `psync_socket_set_write_buffered` what is written goes to a chain of buffers,
which `psync_socket_try_write_buffer` empties as far as the network takes it; when the chain is empty it is gone,
and writes go to the network again. -/
namespace Pclsync.Api.WriteBuffer
open Lib.Transition

/-- `psync_socket_buffer`, with what was copied to it: `woffset` is where that ends. -/
structure Buffer where
  size : ℕ
  roffset : ℕ
  buff : List UInt8
deriving DecidableEq, Repr

def Buffer.woffset (b : Buffer) : ℕ := b.buff.length

/-- What is still to be written. -/
def Buffer.pending (b : Buffer) : List UInt8 := b.buff.drop b.roffset

/-- `memcpy(b->buff+b->woffset, data, n); b->woffset+=n` -/
def Buffer.copy (b : Buffer) (data : List UInt8) : Buffer := { b with buff := b.buff ++ data }

def firstSockWriteBuffSize : ℕ := 2700
def secondSockWriteBuffSize : ℕ := 64 * 1024

/-- How one call of `psync_ssl_write` or `psync_write_socket` ends. It takes no more than it is given. -/
inductive Answer where
  | wrote (n : ℕ)
  | again
  | fail

/-- What `psync_socket_try_write_buffer` returns, the chain after it and what the network took. `write i` is the
answer to the `i`-th call. -/
def tryWriteBuffer (write : ℕ → Answer) : ℕ → ℤ → List Buffer → ℤ × List Buffer × List UInt8
  | _, wrt, [] => (wrt, [], [])
  | i, wrt, b :: rest =>
    if b.roffset = b.woffset then tryWriteBuffer write i wrt rest
    else
      match write i with
      | .again => (wrt, b :: rest, [])
      | .fail => (if wrt = 0 then -1 else wrt, b :: rest, [])
      | .wrote n =>
        let cw := min n (b.woffset - b.roffset)
        let sent := b.pending.take cw
        if b.roffset + cw ≠ b.woffset then (wrt + cw, { b with roffset := b.roffset + cw } :: rest, sent)
        else
          -- the next turn finds the buffer empty and frees it
          let res := tryWriteBuffer write (i + 1) (wrt + cw) rest
          (res.1, res.2.1, sent ++ res.2.2)

/-- The loop of `psync_socket_write_to_buf` from the last buffer on. -/
def fill (b : Buffer) (data : List UInt8) : List Buffer :=
  let wr := b.size - b.woffset
  if wr = 0 then
    let next : Buffer := ⟨secondSockWriteBuffSize, 0, data.take secondSockWriteBuffSize⟩
    if data.length ≤ secondSockWriteBuffSize then [b, next] else b :: fill next (data.drop secondSockWriteBuffSize)
  else if data.length ≤ wr then [b.copy data]
  else fill (b.copy (data.take wr)) (data.drop wr)
termination_by data.length
decreasing_by
  · simp only [List.length_drop, secondSockWriteBuffSize] at *
    omega
  · simp only [List.length_drop]
    omega

def writeToBuf (data : List UInt8) : List Buffer → List Buffer
  | [] => []
  | [b] => if data.length ≤ b.size - b.woffset then [b.copy data] else fill b data
  | b :: c :: rest => b :: writeToBuf data (c :: rest)

/-- `psync_socket_writeall` without buffers: what it returns and what the network took. It waits after `again`,
and gives up when that takes too long, which `waits i` says of the `i`-th call. -/
def writeallLoop (ssl : Bool) (write : ℕ → Answer) (waits : ℕ → Bool) : ℕ → ℕ → ℕ → List UInt8 → Option (ℤ × List UInt8)
  | 0, _, _, _ => none
  | fuel + 1, i, br, data =>
    if data = [] then some (br, [])
    else
      match write i with
      | .again => if waits i then writeallLoop ssl write waits fuel (i + 1) br data else some (-1, [])
      | .fail => some (-1, [])
      | .wrote n =>
        let r := min n data.length
        if ssl ∧ r = 0 then some (br, [])
        else (writeallLoop ssl write waits fuel (i + 1) (br + r) (data.drop r)).map fun res => (res.1, data.take r ++ res.2)

structure Socket where
  ssl : Bool
  buffer : List Buffer
  /-- What the network took. -/
  wire : List UInt8
  /-- What was accepted from the callers. -/
  accepted : List UInt8

def Socket.pending (s : Socket) : List UInt8 := s.buffer.flatMap Buffer.pending

inductive Call where
  | setWriteBuffered
  | tryWriteBuffer (write : ℕ → Answer)
  /-- `psync_socket_write` -/
  | write (data : List UInt8) (answer : Answer)
  /-- `psync_socket_writeall`, with fuel for its loop -/
  | writeall (data : List UInt8) (write : ℕ → Answer) (waits : ℕ → Bool) (fuel : ℕ)

/-- What a call returns, and the socket after it. -/
def Socket.run (s : Socket) : Call → Option (ℤ × Socket)
  | .setWriteBuffered => if s.buffer = [] then some (0, { s with buffer := [⟨firstSockWriteBuffSize, 0, []⟩] }) else some (0, s)
  | .tryWriteBuffer write =>
    let res := WriteBuffer.tryWriteBuffer write 0 0 s.buffer
    some (res.1, { s with buffer := res.2.1, wire := s.wire ++ res.2.2 })
  | .write data answer =>
    if s.buffer ≠ [] then some (data.length, { s with buffer := writeToBuf data s.buffer, accepted := s.accepted ++ data })
    else
      match answer with
      | .again => some (0, s)
      | .fail => some (-1, s)
      | .wrote n => some ((min n data.length : ℕ), { s with wire := s.wire ++ data.take n, accepted := s.accepted ++ data.take n })
  | .writeall data write waits fuel =>
    if s.buffer ≠ [] then some (data.length, { s with buffer := writeToBuf data s.buffer, accepted := s.accepted ++ data })
    else
      (writeallLoop s.ssl write waits fuel 0 0 data).map fun res =>
        (res.1, { s with wire := s.wire ++ res.2, accepted := s.accepted ++ res.2 })

def step (s : Socket) (c : Call) (s' : Socket) : Prop := ∃ ret, s.run c = some (ret, s')

/-- What the caller wants written. -/
def Call.data : Call → List UInt8
  | .write data _ | .writeall data _ _ _ => data
  | .setWriteBuffered | .tryWriteBuffer _ => []

/-! ### The chain -/

/-- The offsets are in order, and the copies were inside the buffer. -/
def Buffer.Valid (b : Buffer) : Prop := b.roffset ≤ b.woffset ∧ b.woffset ≤ b.size

variable {b : Buffer} {data : List UInt8} {chain : List Buffer} {s s' : Socket}

theorem Buffer.pending_copy (h : b.roffset ≤ b.woffset) : (b.copy data).pending = b.pending ++ data :=
  List.drop_append_of_le_length h

theorem Buffer.Valid.copy (h : b.Valid) (hfits : data.length ≤ b.size - b.woffset) : (b.copy data).Valid := by
  have hlength : (b.copy data).woffset = b.woffset + data.length := List.length_append
  have hsize : (b.copy data).size = b.size := rfl
  have hroffset : (b.copy data).roffset = b.roffset := rfl
  obtain ⟨hr, hw⟩ := h
  exact ⟨by omega, by omega⟩

theorem fill_spec (h : b.Valid) :
    (fill b data).flatMap Buffer.pending = b.pending ++ data ∧ ∀ b' ∈ fill b data, b'.Valid := by
  fun_induction fill b data with
  | case1 b data wr hfull next hlast =>
    have hnext : next.pending = data := List.take_of_length_le hlast
    have hvalid : next.Valid := ⟨Nat.zero_le _, List.length_take_le ..⟩
    exact ⟨by simp [hnext], by simp [h, hvalid]⟩
  | case2 b data wr hfull next hmore ih =>
    have hvalid : next.Valid := ⟨Nat.zero_le _, List.length_take_le ..⟩
    have hnext : next.pending = data.take secondSockWriteBuffSize := rfl
    obtain ⟨hpending, hall⟩ := ih hvalid
    exact ⟨by rw [List.flatMap_cons, hpending, hnext, List.take_append_drop], by simpa [h] using hall⟩
  | case3 b data wr hroom hlast =>
    exact ⟨by simp [Buffer.pending_copy h.1], by simpa using h.copy hlast⟩
  | case4 b data wr hroom hmore ih =>
    obtain ⟨hpending, hall⟩ := ih (h.copy (List.length_take_le ..))
    rw [Buffer.pending_copy h.1, List.append_assoc, List.take_append_drop] at hpending
    exact ⟨hpending, hall⟩

theorem writeToBuf_spec (hvalid : ∀ b ∈ chain, b.Valid) (hne : chain ≠ []) :
    (writeToBuf data chain).flatMap Buffer.pending = chain.flatMap Buffer.pending ++ data ∧ ∀ b ∈ writeToBuf data chain, b.Valid := by
  induction chain with
  | nil => exact absurd rfl hne
  | cons b rest ih =>
    obtain ⟨hb, hrest⟩ := List.forall_mem_cons.mp hvalid
    cases rest with
    | nil =>
      rw [writeToBuf]
      split_ifs with hfits
      · exact ⟨by simp [Buffer.pending_copy hb.1], by simpa using hb.copy hfits⟩
      · simpa using fill_spec hb
    | cons c rest =>
      obtain ⟨hpending, hall⟩ := ih hrest (List.cons_ne_nil _ _)
      rw [writeToBuf]
      exact ⟨by rw [List.flatMap_cons, hpending]; simp, List.forall_mem_cons.mpr ⟨hb, hall⟩⟩

/-- What the network took is what is missing from the chain. -/
theorem tryWriteBuffer_spec (write : ℕ → Answer) (i : ℕ) (wrt : ℤ) (hvalid : ∀ b ∈ chain, b.Valid) :
    (tryWriteBuffer write i wrt chain).2.2 ++ (tryWriteBuffer write i wrt chain).2.1.flatMap Buffer.pending =
        chain.flatMap Buffer.pending ∧ ∀ b ∈ (tryWriteBuffer write i wrt chain).2.1, b.Valid := by
  induction chain generalizing i wrt with
  | nil => exact ⟨rfl, by simp [tryWriteBuffer]⟩
  | cons b rest ih =>
    obtain ⟨hb, hrest⟩ := List.forall_mem_cons.mp hvalid
    have hlength : b.pending.length = b.woffset - b.roffset := List.length_drop
    rw [tryWriteBuffer]
    by_cases hempty : b.roffset = b.woffset
    · have hnone : b.pending = [] := List.eq_nil_of_length_eq_zero (by omega)
      rw [if_pos hempty, List.flatMap_cons, hnone]
      exact ih i wrt hrest
    · rw [if_neg hempty]
      cases write i with
      | again => exact ⟨rfl, hvalid⟩
      | fail => exact ⟨rfl, hvalid⟩
      | wrote n =>
        dsimp only
        have hle : b.roffset + min n (b.woffset - b.roffset) ≤ b.woffset := by
          have := hb.1
          omega
        by_cases hall : b.roffset + min n (b.woffset - b.roffset) = b.woffset
        · have hnone : b.pending.take (min n (b.woffset - b.roffset)) = b.pending := List.take_of_length_le (by omega)
          obtain ⟨hpending, hvalid'⟩ := ih (i + 1) (wrt + (min n (b.woffset - b.roffset) : ℕ)) hrest
          rw [if_neg (not_not.mpr hall)]
          exact ⟨by rw [hnone, List.append_assoc, hpending, List.flatMap_cons], hvalid'⟩
        · rw [if_pos hall]
          refine ⟨?_, List.forall_mem_cons.mpr ⟨⟨hle, hb.2⟩, hrest⟩⟩
          have hdrop : Buffer.pending { b with roffset := b.roffset + min n (b.woffset - b.roffset) } =
              b.pending.drop (min n (b.woffset - b.roffset)) := List.drop_drop.symm
          rw [List.flatMap_cons, hdrop, ← List.append_assoc, List.take_append_drop, List.flatMap_cons]

/-- What the network took is a beginning, and as long as the result says. -/
theorem writeallLoop_spec {ssl : Bool} {write : ℕ → Answer} {waits : ℕ → Bool} {fuel i br : ℕ} {ret : ℤ} {sent : List UInt8}
    (h : writeallLoop ssl write waits fuel i br data = some (ret, sent)) :
    ∃ n ≤ data.length, sent = data.take n ∧ (ret = br + n ∨ ret = -1) := by
  induction fuel generalizing i br data sent with
  | zero => cases h
  | succ fuel ih =>
    rw [writeallLoop] at h
    by_cases hdone : data = []
    · rw [if_pos hdone] at h
      cases h
      exact ⟨0, Nat.zero_le _, rfl, .inl (by simp)⟩
    · rw [if_neg hdone] at h
      cases hw : write i with
      | again =>
        rw [hw] at h
        dsimp only at h
        split_ifs at h with hwaits
        · exact ih h
        · cases h
          exact ⟨0, Nat.zero_le _, rfl, .inr rfl⟩
      | fail =>
        rw [hw] at h
        cases h
        exact ⟨0, Nat.zero_le _, rfl, .inr rfl⟩
      | wrote n =>
        rw [hw] at h
        dsimp only at h
        split_ifs at h with hnone
        · cases h
          exact ⟨0, Nat.zero_le _, rfl, .inl (by simp)⟩
        · obtain ⟨⟨ret', sent'⟩, hrun, heq⟩ := Option.map_eq_some_iff.mp h
          cases heq
          obtain ⟨m, hm, rfl, hret⟩ := ih hrun
          rw [List.length_drop] at hm
          refine ⟨min n data.length + m, by omega, List.take_add.symm, hret.imp_left fun hret => ?_⟩
          rw [hret]
          push_cast
          ring

/-! ### The socket -/

structure Sound (s : Socket) : Prop where
  valid : ∀ b ∈ s.buffer, b.Valid
  order : s.wire ++ s.pending = s.accepted

/-- With a chain the data goes to its end. -/
theorem Sound.buffered (h : Sound s) (hne : s.buffer ≠ []) :
    Sound { s with buffer := writeToBuf data s.buffer, accepted := s.accepted ++ data } := by
  obtain ⟨hpending, hvalid⟩ := writeToBuf_spec h.valid hne
  refine ⟨hvalid, ?_⟩
  show s.wire ++ (writeToBuf data s.buffer).flatMap Buffer.pending = _
  rw [hpending, ← List.append_assoc, ← h.order]
  rfl

/-- Without a chain all that was accepted is on the wire. -/
theorem Sound.direct (h : Sound s) (hnone : s.buffer = []) :
    Sound { s with wire := s.wire ++ data, accepted := s.accepted ++ data } := by
  have hpending : s.pending = [] := by rw [Socket.pending, hnone]; rfl
  have horder := h.order
  rw [hpending, List.append_nil] at horder
  refine ⟨h.valid, ?_⟩
  show s.wire ++ data ++ s.pending = _
  rw [hpending, List.append_nil, horder]

theorem Sound.run {c : Call} {ret : ℤ} (h : Sound s) (hrun : s.run c = some (ret, s')) :
    Sound s' ∧ ∃ n ≤ c.data.length, s'.accepted = s.accepted ++ c.data.take n ∧ (c.data ≠ [] → ret = n ∨ ret = -1) := by
  cases c with
  | setWriteBuffered =>
    refine ⟨?_, 0, le_rfl, ?_, fun hne => absurd rfl hne⟩
    all_goals simp only [Socket.run] at hrun; split_ifs at hrun with hnone <;> cases hrun
    · refine ⟨by simp [Buffer.Valid, Buffer.woffset], ?_⟩
      have hpending : s.pending = [] := by rw [Socket.pending, hnone]; rfl
      rw [← h.order, hpending]
      rfl
    · exact h
    all_goals exact (List.append_nil _).symm
  | tryWriteBuffer write =>
    cases hrun
    obtain ⟨hpending, hvalid⟩ := tryWriteBuffer_spec write 0 0 h.valid
    refine ⟨⟨hvalid, ?_⟩, 0, le_rfl, (List.append_nil _).symm, fun hne => absurd rfl hne⟩
    show (s.wire ++ _) ++ List.flatMap Buffer.pending _ = _
    rw [List.append_assoc, hpending]
    exact h.order
  | write data answer =>
    simp only [Socket.run] at hrun
    split_ifs at hrun with hchain
    · cases hrun
      exact ⟨h.buffered hchain, data.length, le_rfl, by rw [Call.data, List.take_length], fun _ => .inl rfl⟩
    · cases answer with
      | again =>
        cases hrun
        exact ⟨h, 0, Nat.zero_le _, (List.append_nil _).symm, fun _ => .inl rfl⟩
      | fail =>
        cases hrun
        exact ⟨h, 0, Nat.zero_le _, (List.append_nil _).symm, fun _ => .inr rfl⟩
      | wrote n =>
        cases hrun
        refine ⟨h.direct (not_not.mp hchain), min n data.length, Nat.min_le_right .., ?_, fun _ => .inl rfl⟩
        rw [Call.data, List.take_eq_take_min]
  | writeall data write waits fuel =>
    simp only [Socket.run] at hrun
    split_ifs at hrun with hchain
    · cases hrun
      exact ⟨h.buffered hchain, data.length, le_rfl, by rw [Call.data, List.take_length], fun _ => .inl rfl⟩
    · obtain ⟨⟨ret', sent⟩, hloop, heq⟩ := Option.map_eq_some_iff.mp hrun
      cases heq
      obtain ⟨n, hn, rfl, hret⟩ := writeallLoop_spec hloop
      exact ⟨h.direct (not_not.mp hchain), n, hn, rfl, fun _ => by simpa using hret⟩

/-- **Nothing that was accepted is lost, doubled or overtaken**: what the network took, and after it what is in the
buffers, is all that was accepted, in the order of the calls; and a call accepts as many bytes as it returns, or
returns `-1`. -/
theorem written_in_order (ssl : Bool) (s : Socket) (h : Reachable (fun s => s = ⟨ssl, [], [], []⟩) step s) (c : Call) (ret : ℤ)
    (s' : Socket) (hrun : s.run c = some (ret, s')) : s'.wire ++ s'.pending = s'.accepted ∧
      ∃ n ≤ c.data.length, s'.accepted = s.accepted ++ c.data.take n ∧ (c.data ≠ [] → ret = n ∨ ret = -1) := by
  have hs : Sound s := h.invariant (fun s hs => by rw [hs]; exact ⟨by simp, rfl⟩) fun _ _ _ hs hstep => (hs.run hstep.choose_spec).1
  exact (hs.run hrun).imp_left Sound.order

/-- The network takes two of three bytes, a fourth is written, and the network takes the rest. -/
theorem written_in_order_four : ∃ s : Socket, s.accepted = [1, 2, 3, 4] ∧ s.wire ++ s.pending = s.accepted ∧ s.wire = [1, 2, 3, 4] := by
  have h : Reachable (fun s => s = ⟨false, [], [], []⟩) step ⟨false, [], [], []⟩ := .start rfl
  have h := h.next (a := .setWriteBuffered) ⟨_, rfl⟩
  have h := h.next (a := .write [1, 2, 3] .fail) ⟨_, rfl⟩
  have h := h.next (a := .tryWriteBuffer fun _ => .wrote 2) ⟨_, rfl⟩
  have h := h.next (a := .writeall [4] (fun _ => .fail) (fun _ => false) 0) ⟨_, rfl⟩
  exact ⟨_, rfl, (written_in_order false _ h (.tryWriteBuffer fun _ => .wrote 2) _ _ rfl).1, rfl⟩

end Pclsync.Api.WriteBuffer
