import Mathlib.Data.List.Basic
import Mathlib.Tactic.Ring

/-! Messages behind their lengths, little-endian in four bytes, and a reader that takes them in pieces. -/
namespace Pclsync.Lib.Framing

/-- The low bytes of a number. -/
def bytesOf : ℕ → ℕ → List UInt8
  | 0, _ => []
  | width + 1, n => UInt8.ofNat n :: bytesOf width (n / 256)

def value : List UInt8 → ℕ
  | [] => 0
  | b :: bs => b.toNat + 256 * value bs

def frame (body : List UInt8) : List UInt8 := bytesOf 4 body.length ++ body

/-- What was read of a message: of its length, or its length and what was read of its body. -/
structure Reader where
  size : Option ℕ
  held : List UInt8
deriving DecidableEq, Repr

inductive Piece where
  | more (r : Reader)
  | whole (body : List UInt8)
deriving DecidableEq, Repr

namespace Reader

def init : Reader := ⟨none, []⟩

/-- How many bytes it asks for. -/
def wants (r : Reader) : ℕ := r.size.getD 4 - r.held.length

/-- It takes some bytes. -/
def take (r : Reader) (bs : List UInt8) : Piece :=
  match r.size with
  | none => if (r.held ++ bs).length = 4 then .more ⟨some (value (r.held ++ bs)), []⟩ else .more ⟨none, r.held ++ bs⟩
  | some n => if (r.held ++ bs).length = n then .whole (r.held ++ bs) else .more ⟨some n, r.held ++ bs⟩

/-- What it was given since the last message. -/
def taken (r : Reader) : List UInt8 :=
  match r.size with
  | none => r.held
  | some n => bytesOf 4 n ++ r.held

/-- Its length is one of four bytes, and something is missing. -/
def Valid (r : Reader) : Prop :=
  match r.size with
  | none => r.held.length < 4
  | some n => n < 2 ^ 32 ∧ r.held.length ≤ n

end Reader

variable {r : Reader} {bs body rest : List UInt8} {width n : ℕ}

theorem length_bytesOf : (bytesOf width n).length = width := by
  induction width generalizing n with
  | zero => rfl
  | succ width ih =>
    unfold bytesOf
    rw [List.length_cons, ih]

theorem value_bytesOf (h : n < 256 ^ width) : value (bytesOf width n) = n := by
  induction width generalizing n with
  | zero => exact (Nat.lt_one_iff.mp h).symm
  | succ width ih =>
    unfold bytesOf value
    rw [ih (Nat.div_lt_of_lt_mul (by rwa [Nat.pow_succ, Nat.mul_comm] at h)), UInt8.toNat_ofNat']
    exact Nat.mod_add_div n 256

theorem bytesOf_value : bytesOf bs.length (value bs) = bs := by
  induction bs with
  | nil => rfl
  | cons b bs ih =>
    have hb : b.toNat < 256 := b.toNat_lt
    unfold value
    rw [List.length_cons]
    unfold bytesOf
    rw [show (b.toNat + 256 * value bs) / 256 = value bs by omega, ih]
    congr 1
    apply UInt8.toNat_inj.mp
    rw [UInt8.toNat_ofNat']
    omega

theorem value_lt : value bs < 256 ^ bs.length := by
  induction bs with
  | nil => exact Nat.one_pos
  | cons b bs ih =>
    have hb : b.toNat < 256 := b.toNat_lt
    unfold value
    rw [List.length_cons, Nat.pow_succ]
    omega

/-- The length of a frame. -/
theorem value_frame (h : body.length < 2 ^ 32) : value ((frame body ++ rest).take 4) = body.length := by
  unfold frame
  rw [List.append_assoc, List.take_append_of_le_length (Nat.le_of_eq length_bytesOf.symm),
    List.take_of_length_le (Nat.le_of_eq length_bytesOf), value_bytesOf h]

/-- And its body. -/
theorem body_frame : ((frame body ++ rest).drop 4).take body.length = body := by
  unfold frame
  rw [List.append_assoc, List.drop_append_of_le_length (Nat.le_of_eq length_bytesOf.symm),
    List.drop_of_length_le (Nat.le_of_eq length_bytesOf), List.nil_append, List.take_left']
  rfl

theorem rest_frame : (frame body ++ rest).drop (4 + body.length) = rest := by
  unfold frame
  rw [← List.drop_drop, List.append_assoc, List.drop_append_of_le_length (Nat.le_of_eq length_bytesOf.symm),
    List.drop_of_length_le (Nat.le_of_eq length_bytesOf), List.nil_append, List.drop_left' rfl]

theorem init_valid : Reader.init.Valid := Nat.succ_pos 3

theorem taken_init : Reader.init.taken = [] := rfl

/-- While a message is not whole nothing is lost of it. -/
theorem take_more {r' : Reader} (h : r.Valid) (hle : bs.length ≤ r.wants) (htake : r.take bs = .more r') :
    r'.Valid ∧ r'.taken = r.taken ++ bs := by
  unfold Reader.take at htake
  unfold Reader.Valid at h
  unfold Reader.wants at hle
  unfold Reader.taken
  split at htake
  next hsize =>
    rw [hsize] at h hle
    simp only [Option.getD_none] at hle
    split at htake
    next hfour =>
      cases htake
      refine ⟨⟨?_, Nat.zero_le _⟩, ?_⟩
      · have := @value_lt (r.held ++ bs)
        rwa [hfour] at this
      · simp only
        rw [List.append_nil]
        have := @bytesOf_value (r.held ++ bs)
        rwa [hfour] at this
    next hfewer =>
      cases htake
      refine ⟨?_, ?_⟩
      · unfold Reader.Valid
        simp only
        rw [List.length_append] at hfewer ⊢
        omega
      · simp only
  next n hsize =>
    rw [hsize] at h hle
    simp only [Option.getD_some] at hle
    split at htake
    · cases htake
    next hfewer =>
      cases htake
      refine ⟨⟨h.1, ?_⟩, ?_⟩
      · rw [List.length_append]
        omega
      · simp only
        rw [List.append_assoc]

/-- And when it is, it is the one that was sent. -/
theorem take_whole {message : List UInt8} (h : r.Valid) (hsmall : body.length < 2 ^ 32)
    (hstream : r.taken ++ (bs ++ rest) = frame body ++ rest') (htake : r.take bs = .whole message) :
    message = body ∧ rest = rest' := by
  unfold Reader.take at htake
  unfold Reader.Valid at h
  split at htake
  · split at htake <;> cases htake
  next n hsize =>
    rw [hsize] at h
    split at htake
    next hlength =>
      cases htake
      unfold Reader.taken frame at hstream
      rw [hsize] at hstream
      simp only at hstream
      rw [List.append_assoc, List.append_assoc] at hstream
      obtain ⟨hhead, htail⟩ := List.append_inj hstream (by rw [length_bytesOf, length_bytesOf])
      have hn : n = body.length := by
        rw [← @value_bytesOf 4 _ h.1, hhead, value_bytesOf hsmall]
      rw [← List.append_assoc] at htail
      exact List.append_inj htail (hlength.trans hn)
    · cases htake

end Pclsync.Lib.Framing
