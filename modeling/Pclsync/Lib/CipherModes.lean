import Mathlib.Data.List.Basic
import Mathlib.Tactic.Common

/-! Texts coded with a stream of keys, one key to a place. -/
namespace Pclsync.Lib.Keystream

variable {α κ : Type} (op : α → κ → α) (keys : ℕ → κ)

/-- A text coded from a place on. -/
def code (off : ℕ) : List α → List α
  | [] => []
  | a :: text => op a (keys off) :: code (off + 1) text

variable {op keys} {off : ℕ} {text rest : List α}

@[simp] theorem length_code : (code op keys off text).length = text.length := by
  induction text generalizing off with
  | nil => rfl
  | cons a text ih => rw [code, List.length_cons, ih, List.length_cons]

/-- The rest of a text is coded from where the text before it ends. -/
theorem code_append : code op keys off (text ++ rest) = code op keys off text ++ code op keys (off + text.length) rest := by
  induction text generalizing off with
  | nil => rfl
  | cons a text ih => rw [List.cons_append, code, ih, code, List.length_cons, List.cons_append, Nat.add_assoc, Nat.add_comm 1]

/-- A key that undoes itself makes coding its own inverse. -/
theorem code_code (hop : ∀ a k, op (op a k) k = a) : code op keys off (code op keys off text) = text := by
  induction text generalizing off with
  | nil => rfl
  | cons a text ih => rw [code, code, hop, ih]

theorem getElem?_code {i : ℕ} : (code op keys off text)[i]? = text[i]?.map fun a => op a (keys (off + i)) := by
  induction text generalizing off i with
  | nil => rfl
  | cons a text ih =>
    cases i with
    | zero => rfl
    | succ i => rw [code, List.getElem?_cons_succ, List.getElem?_cons_succ, ih, Nat.add_assoc, Nat.add_comm 1]

/-- A text combined with as many keys as it is long. -/
theorem zipWith_eq_code {ks : List κ} (hlength : text.length ≤ ks.length) (hks : ∀ i (hi : i < ks.length), i < text.length → ks[i] = keys (off + i)) :
    List.zipWith op text ks = code op keys off text := by
  induction text generalizing off ks with
  | nil => rfl
  | cons a text ih =>
    cases ks with
    | nil => exact absurd hlength (by simp)
    | cons k ks =>
      have hk : k = keys off := hks 0 (by simp) (by simp)
      have hrest : List.zipWith op text ks = code op keys (off + 1) text := by
        refine ih (Nat.le_of_succ_le_succ hlength) fun i hi hlt => ?_
        rw [Nat.add_assoc, Nat.add_comm 1]
        exact hks (i + 1) (Nat.succ_lt_succ hi) (Nat.succ_lt_succ hlt)
      rw [List.zipWith_cons_cons, hk, hrest, code]

end Pclsync.Lib.Keystream

/-! Cipher block chaining: each block is combined with the encoded block before it. -/
namespace Pclsync.Lib.Chaining

variable {B : Type}

/-- A block cipher and a way to combine two blocks. -/
structure Mode (B : Type) where
  Block : B → Prop
  xor : B → B → B
  encode : B → B
  decode : B → B
  block_xor : ∀ {a b}, Block a → Block b → Block (xor a b)
  block_encode : ∀ {b}, Block b → Block (encode b)
  decode_encode : ∀ {b}, Block b → decode (encode b) = b
  xor_xor : ∀ {a b}, Block a → Block b → xor (xor a b) b = a

variable (m : Mode B)

def chain (prev : B) : List B → List B
  | [] => []
  | b :: bs => m.encode (m.xor b prev) :: chain (m.encode (m.xor b prev)) bs

def unchain (prev : B) : List B → List B
  | [] => []
  | c :: cs => m.xor (m.decode c) prev :: unchain c cs

variable {m} {prev : B} {bs cs : List B}

/-- The block to go on with. -/
def last (prev : B) (cs : List B) : B := cs.getLastD prev

theorem last_cons {c : B} : last prev (c :: cs) = last c cs := List.getLastD_cons ..

theorem last_append : last prev (bs ++ cs) = last (last prev bs) cs := by
  induction bs generalizing prev with
  | nil => rfl
  | cons b bs ih => rw [List.cons_append, last_cons, last_cons, ih]

theorem unchain_append : unchain m prev (bs ++ cs) = unchain m prev bs ++ unchain m (last prev bs) cs := by
  induction bs generalizing prev with
  | nil => rfl
  | cons b bs ih => simp only [List.cons_append, unchain, ih, last_cons]

theorem length_chain : (chain m prev bs).length = bs.length := by
  induction bs generalizing prev with
  | nil => rfl
  | cons b bs ih => simp only [chain, List.length_cons, ih]

theorem chain_blocks (hprev : m.Block prev) (hbs : ∀ b ∈ bs, m.Block b) : ∀ c ∈ chain m prev bs, m.Block c := by
  induction bs generalizing prev with
  | nil => nofun
  | cons b bs ih =>
    obtain ⟨hb, hbs⟩ := List.forall_mem_cons.mp hbs
    have hc := m.block_encode (m.block_xor hb hprev)
    exact List.forall_mem_cons.mpr ⟨hc, ih hc hbs⟩

theorem block_last (hprev : m.Block prev) (hcs : ∀ c ∈ cs, m.Block c) : m.Block (last prev cs) := by
  induction cs generalizing prev with
  | nil => exact hprev
  | cons c cs ih =>
    obtain ⟨hc, hcs⟩ := List.forall_mem_cons.mp hcs
    rw [last_cons]
    exact ih hc hcs

/-- Decoding a chain gives the blocks back. -/
theorem unchain_chain (hprev : m.Block prev) (hbs : ∀ b ∈ bs, m.Block b) : unchain m prev (chain m prev bs) = bs := by
  induction bs generalizing prev with
  | nil => rfl
  | cons b bs ih =>
    obtain ⟨hb, hbs⟩ := List.forall_mem_cons.mp hbs
    have hxor := m.block_xor hb hprev
    rw [chain, unchain, m.decode_encode hxor, m.xor_xor hb hprev, ih (m.block_encode hxor) hbs]

/-- Where decoding is the inverse both ways, so is taking a chain apart. -/
theorem chain_unchain (hback : ∀ c, m.Block c → m.Block (m.decode c) ∧ m.encode (m.decode c) = c) (hprev : m.Block prev)
    (hcs : ∀ c ∈ cs, m.Block c) : (∀ b ∈ unchain m prev cs, m.Block b) ∧ chain m prev (unchain m prev cs) = cs := by
  induction cs generalizing prev with
  | nil => exact ⟨nofun, rfl⟩
  | cons c cs ih =>
    obtain ⟨hc, hcs⟩ := List.forall_mem_cons.mp hcs
    obtain ⟨hdecode, hencode⟩ := hback c hc
    obtain ⟨hblocks, hchain⟩ := ih hc hcs
    constructor
    · exact List.forall_mem_cons.mpr ⟨m.block_xor hdecode hprev, hblocks⟩
    · rw [unchain, chain, m.xor_xor hdecode hprev, hencode, hchain]

theorem length_unchain : (unchain m prev cs).length = cs.length := by
  induction cs generalizing prev with
  | nil => rfl
  | cons c cs ih => simp only [unchain, List.length_cons, ih]

end Pclsync.Lib.Chaining
