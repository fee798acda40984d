import Pclsync.Lib.Buffers
import Pclsync.Lib.Files

/-! The commands that `do_prepare_command` of `papi.c` makes, and how they are read back. -/
namespace Pclsync.Api.Command
open Lib.Buffers Lib.Files

/-! ### Parameters -/

/-- The union of `binparam`, with the string that `opts` is the length of. -/
inductive Value where
  | str (s : Bytes)
  | num (n : UInt64)
  | bool (n : UInt64)
deriving DecidableEq

/-- `binparam` -/
structure BinParam where
  paramname : Bytes
  value : Value
deriving DecidableEq

/-- `PARAM_STR`, `PARAM_NUM` and `PARAM_BOOL`. -/
def BinParam.paramtype (p : BinParam) : ℕ :=
  match p.value with
  | .str _ => 0
  | .num _ => 1
  | .bool _ => 2

/-- What is sent of a parameter: a number that is a truth value is sent as its lowest bit. -/
def BinParam.sent (p : BinParam) : BinParam :=
  match p.value with
  | .bool n => ⟨p.paramname, .bool (n &&& 1)⟩
  | _ => p

/-! ### The code -/

/-- The first loop: how much a parameter adds to `plen`. -/
def BinParam.plen (p : BinParam) : ℕ :=
  match p.value with
  | .str s => p.paramname.length + s.length + 5
  | .num _ => p.paramname.length + 1 + 8
  | .bool _ => p.paramname.length + 2

/-- The memory from `sdata` on, and how far `data` is in it. -/
structure Writer where
  sdata : Buffer UInt8
  data : ℕ

/-- `memcpy` to `data`, which goes on behind it. -/
def Writer.put (w : Writer) (bytes : Bytes) : Writer := ⟨write w.sdata w.data bytes, w.data + bytes.length⟩

/-- The second loop. -/
def Writer.putParam (w : Writer) (p : BinParam) : Writer :=
  let w := (w.put [UInt8.ofNat ((p.paramtype <<< 6) + p.paramname.length)]).put p.paramname
  match p.value with
  | .str s => (w.put (ofNat 4 s.length)).put s
  | .num n => w.put (ofNat 8 n.toNat)
  | .bool n => w.put [(n &&& 1).toUInt8]

structure Prepared where
  sdata : Buffer UInt8
  /-- What was allocated. -/
  size : ℕ
  retlen : ℕ

/-- `do_prepare_command`; a `datalen` of -1 is none. -/
def doPrepareCommand (command : Bytes) (params : List BinParam) (datalen : Int64) (additionalalloc : ℕ) : Option Prepared :=
  let plen := command.length + 2
  let plen := if datalen ≠ -1 then plen + 8 else plen
  let plen := params.foldl (fun plen p => plen + p.plen) plen
  if plen > 0xffff then none
  else
    let w := Writer.put ⟨untouched, 0⟩ (ofNat 2 plen)
    let w :=
      if datalen ≠ -1 then (w.put [UInt8.ofNat (command.length ||| 0x80)]).put (ofNat 8 datalen.toUInt64.toNat)
      else w.put [UInt8.ofNat command.length]
    let w := w.put command
    let w := w.put [UInt8.ofNat params.length]
    some ⟨(params.foldl Writer.putParam w).sdata, plen + 2 + additionalalloc, plen + 2⟩

/-! ### The format -/

def BinParam.bytes (p : BinParam) : Bytes :=
  UInt8.ofNat ((p.paramtype <<< 6) + p.paramname.length) :: p.paramname ++
    match p.value with
    | .str s => ofNat 4 s.length ++ s
    | .num n => ofNat 8 n.toNat
    | .bool n => [(n &&& 1).toUInt8]

def head (command : Bytes) (datalen : Int64) : Bytes :=
  if datalen ≠ -1 then UInt8.ofNat (command.length ||| 0x80) :: ofNat 8 datalen.toUInt64.toNat else [UInt8.ofNat command.length]

/-- A command without its length. -/
def body (command : Bytes) (params : List BinParam) (datalen : Int64) : Bytes :=
  head command datalen ++ (command ++ UInt8.ofNat params.length :: params.flatMap BinParam.bytes)

def packet (command : Bytes) (params : List BinParam) (datalen : Int64) : Bytes :=
  ofNat 2 (body command params datalen).length ++ body command params datalen

/-! ### Reading -/

def takeBytes (n : ℕ) (bs : Bytes) : Option (Bytes × Bytes) := if n ≤ bs.length then some (bs.take n, bs.drop n) else none

def readParam : Bytes → Option (BinParam × Bytes)
  | [] => none
  | t :: bs => do
    let (paramname, bs) ← takeBytes (t.toNat % 64) bs
    match t.toNat / 64 with
    | 0 =>
      let (opts, bs) ← takeBytes 4 bs
      let (s, bs) ← takeBytes (toNat opts) bs
      return (⟨paramname, .str s⟩, bs)
    | 1 =>
      let (n, bs) ← takeBytes 8 bs
      return (⟨paramname, .num (UInt64.ofNat (toNat n))⟩, bs)
    | 2 =>
      let (n, bs) ← takeBytes 1 bs
      return (⟨paramname, .bool (UInt64.ofNat (toNat n))⟩, bs)
    | _ => none

def readParams : ℕ → Bytes → Option (List BinParam)
  | 0, bs => if bs = [] then some [] else none
  | cnt + 1, bs => do
    let (p, bs) ← readParam bs
    let params ← readParams cnt bs
    return p :: params

def readDatalen (flag : Bool) (bs : Bytes) : Option (Int64 × Bytes) := do
  if flag then
    let (n, bs) ← takeBytes 8 bs
    return ((UInt64.ofNat (toNat n)).toInt64, bs)
  else return (-1, bs)

/-- A command that was received whole: its name, `datalen` and its parameters. -/
def readCommand (bs : Bytes) : Option (Bytes × Int64 × List BinParam) := do
  let (plen, bs) ← takeBytes 2 bs
  let (bs, rest) ← takeBytes (toNat plen) bs
  if rest ≠ [] then none
  else
    let (cmdlen, bs) ← takeBytes 1 bs
    let (datalen, bs) ← readDatalen (128 ≤ toNat cmdlen) bs
    let (command, bs) ← takeBytes (toNat cmdlen % 128) bs
    let (paramcnt, bs) ← takeBytes 1 bs
    let params ← readParams (toNat paramcnt) bs
    return (command, datalen, params)

variable {command bs bs' rest : Bytes} {params : List BinParam} {datalen : Int64} {p : BinParam} {w : Writer} {n : ℕ}

/-! ### What is written -/

/-- The memory has some bytes, and `data` is behind them. -/
def Writer.Wrote (w : Writer) (bs : Bytes) : Prop := w.data = bs.length ∧ ∀ j, w.sdata j = bs[j]?

theorem wrote_nothing : Writer.Wrote ⟨untouched, 0⟩ [] := ⟨rfl, fun _ => rfl⟩

theorem Writer.Wrote.put (h : w.Wrote bs) (bs' : Bytes) : (w.put bs').Wrote (bs ++ bs') := by
  obtain ⟨hdata, hcells⟩ := h
  refine ⟨by rw [Writer.put, List.length_append, hdata], fun j => ?_⟩
  show write w.sdata w.data bs' j = (bs ++ bs')[j]?
  rw [hdata]
  by_cases hlo : bs.length ≤ j
  · rw [List.getElem?_append_right hlo]
    by_cases hhi : j < bs.length + bs'.length
    · exact write_inside hlo hhi
    · rw [write_outside (.inr (Nat.not_lt.mp hhi)), hcells, List.getElem?_eq_none hlo, List.getElem?_eq_none (by omega)]
  · rw [write_outside (.inl (Nat.not_le.mp hlo)), hcells, List.getElem?_append_left (Nat.not_le.mp hlo)]

theorem Writer.Wrote.putParam (h : w.Wrote bs) (p : BinParam) : (w.putParam p).Wrote (bs ++ p.bytes) := by
  have hname := (h.put [UInt8.ofNat ((p.paramtype <<< 6) + p.paramname.length)]).put p.paramname
  rw [List.append_assoc, List.singleton_append] at hname
  rw [Writer.putParam, BinParam.bytes, ← List.append_assoc]
  split
  · next s _ =>
    rw [← List.append_assoc]
    exact (hname.put _).put s
  · exact hname.put _
  · exact hname.put _

theorem Writer.Wrote.putParams (h : w.Wrote bs) (params : List BinParam) :
    (params.foldl Writer.putParam w).Wrote (bs ++ params.flatMap BinParam.bytes) := by
  induction params generalizing w bs with
  | nil =>
    rw [List.flatMap_nil, List.append_nil]
    exact h
  | cons p params ih =>
    rw [List.flatMap_cons, ← List.append_assoc]
    exact ih (h.putParam p)

/-! ### How much -/

theorem length_bytes : p.bytes.length = p.plen := by
  rw [BinParam.bytes, BinParam.plen, List.cons_append, List.length_cons, List.length_append]
  cases p.value with
  | str s =>
    dsimp only
    rw [List.length_append, length_ofNat]
    omega
  | num n =>
    dsimp only
    rw [length_ofNat, Nat.add_right_comm]
  | bool n => rfl

/-- The first loop counts what the second one writes. -/
theorem foldl_plen (n : ℕ) : params.foldl (fun plen p => plen + p.plen) n = n + (params.flatMap BinParam.bytes).length := by
  induction params generalizing n with
  | nil => rfl
  | cons p params ih =>
    rw [List.foldl_cons, ih, List.flatMap_cons, List.length_append, length_bytes, Nat.add_assoc]

theorem length_body : (body command params datalen).length =
    params.foldl (fun plen p => plen + p.plen) (if datalen ≠ -1 then command.length + 2 + 8 else command.length + 2) := by
  rw [foldl_plen, body, head, List.length_append, List.length_append, List.length_cons]
  split_ifs
  · rw [List.length_cons, length_ofNat]
    omega
  · rw [List.length_singleton]
    omega

/-- The code writes the packet, or there is none. -/
theorem doPrepareCommand_eq {additionalalloc : ℕ} : doPrepareCommand command params datalen additionalalloc =
    if 0xffff < (body command params datalen).length then none
    else some ⟨fun j => (packet command params datalen)[j]?, (body command params datalen).length + 2 + additionalalloc,
      (body command params datalen).length + 2⟩ := by
  rw [doPrepareCommand, ← length_body]
  dsimp only
  split_ifs with hlong hdatalen
  · rfl
  · have hlength := wrote_nothing.put (ofNat 2 (body command params datalen).length)
    have hwrote := ((((hlength.put [UInt8.ofNat (command.length ||| 0x80)]).put (ofNat 8 datalen.toUInt64.toNat)).put command).put
      [UInt8.ofNat params.length]).putParams params
    rw [funext hwrote.2]
    simp only [packet, body, head, if_pos hdatalen, List.nil_append, List.append_assoc, List.cons_append]
  · have hlength := wrote_nothing.put (ofNat 2 (body command params datalen).length)
    have hwrote := (((hlength.put [UInt8.ofNat command.length]).put command).put [UInt8.ofNat params.length]).putParams params
    rw [funext hwrote.2]
    simp only [packet, body, head, if_neg hdatalen, List.nil_append, List.append_assoc, List.cons_append]

/-! ### Reading it back -/

theorem takeBytes_append (h : bs.length = n) : takeBytes n (bs ++ rest) = some (bs, rest) := by
  rw [takeBytes, if_pos (by rw [List.length_append]; omega), List.take_left' h, List.drop_left' h]

theorem ofNat_toNat_word (n : UInt64) : UInt64.ofNat (toNat (ofNat 8 n.toNat)) = n := by
  rw [toNat_ofNat n.toNat_lt, UInt64.ofNat_toNat]

theorem toNat_lowest (n : UInt64) : UInt64.ofNat (toNat [(n &&& 1).toUInt8]) = n &&& 1 := by
  have hbit : (n &&& 1).toNat = n.toNat % 2 := by
    rw [UInt64.toNat_and]
    exact Nat.and_one_is_mod n.toNat
  have hbyte : (n &&& 1).toUInt8.toNat = n.toNat % 2 := by
    rw [UInt64.toNat_toUInt8, hbit]
    omega
  have hvalue : toNat [(n &&& 1).toUInt8] = (n &&& 1).toNat := by
    rw [Lib.Files.toNat, Lib.Files.toNat, hbyte, hbit]
    omega
  rw [hvalue, UInt64.ofNat_toNat]

/-- The type and the length of the name share a byte. -/
theorem type_byte (hname : p.paramname.length < 64) :
    (UInt8.ofNat ((p.paramtype <<< 6) + p.paramname.length)).toNat % 64 = p.paramname.length ∧
      (UInt8.ofNat ((p.paramtype <<< 6) + p.paramname.length)).toNat / 64 = p.paramtype := by
  have htype : p.paramtype < 3 := by
    rw [BinParam.paramtype]
    split <;> decide
  rw [UInt8.toNat_ofNat', Nat.shiftLeft_eq]
  omega

theorem readParam_bytes (hname : p.paramname.length < 64) (hlen : p.plen < 2 ^ 32) :
    readParam (p.bytes ++ rest) = some (p.sent, rest) := by
  obtain ⟨hlow, hhigh⟩ := type_byte hname
  rw [BinParam.bytes, List.cons_append, List.cons_append, List.append_assoc, readParam, hlow, hhigh, takeBytes_append rfl]
  obtain ⟨paramname, value⟩ := p
  cases value with
  | str s =>
    have hs : s.length < 256 ^ 4 := by
      simp only [BinParam.plen] at hlen
      omega
    simp only [Option.bind_eq_bind, Option.bind_some, BinParam.paramtype, List.append_assoc, takeBytes_append (length_ofNat 4 _),
      toNat_ofNat hs, takeBytes_append rfl, Option.pure_def, BinParam.sent]
  | num n =>
    simp only [Option.bind_eq_bind, Option.bind_some, BinParam.paramtype, takeBytes_append (length_ofNat 8 _), ofNat_toNat_word,
      Option.pure_def, BinParam.sent]
  | bool n =>
    have htake : takeBytes 1 ([(n &&& 1).toUInt8] ++ rest) = some ([(n &&& 1).toUInt8], rest) := takeBytes_append rfl
    simp only [Option.bind_eq_bind, Option.bind_some, BinParam.paramtype, htake, toNat_lowest, Option.pure_def, BinParam.sent]

theorem readParams_flatMap (hnames : ∀ p ∈ params, p.paramname.length < 64) (hlen : (params.flatMap BinParam.bytes).length < 2 ^ 32) :
    readParams params.length (params.flatMap BinParam.bytes) = some (params.map BinParam.sent) := by
  induction params with
  | nil => rfl
  | cons p params ih =>
    obtain ⟨hname, hnames⟩ := List.forall_mem_cons.mp hnames
    rw [List.flatMap_cons, List.length_append, length_bytes] at hlen
    rw [List.flatMap_cons, List.length_cons, readParams, readParam_bytes hname (by omega)]
    simp only [Option.bind_eq_bind, Option.bind_some, ih hnames (by omega), Option.pure_def, List.map_cons]

/-- The flag of `datalen` and the length of the command share a byte. -/
theorem or_flag (h : n < 128) : n ||| 0x80 = n + 128 := by
  rw [Nat.or_comm, Nat.add_comm]
  exact (Nat.two_pow_add_eq_or_of_lt (i := 7) h 1).symm

theorem toNat_byte (h : n < 256) : toNat [UInt8.ofNat n] = n := by
  rw [Lib.Files.toNat, Lib.Files.toNat, UInt8.toNat_ofNat']
  omega

theorem readHead (hcommand : command.length < 128) : ∃ cmdlen, takeBytes 1 (head command datalen ++ rest) = some cmdlen ∧
    toNat cmdlen.1 % 128 = command.length ∧ readDatalen (128 ≤ toNat cmdlen.1) cmdlen.2 = some (datalen, rest) := by
  rw [head]
  split_ifs with hdatalen
  · have hbyte := toNat_byte (n := command.length ||| 0x80) (by rw [or_flag hcommand]; omega)
    rw [or_flag hcommand] at hbyte
    rw [List.cons_append, ← List.singleton_append]
    refine ⟨_, @takeBytes_append [_] _ 1 rfl, ?_, ?_⟩
    · dsimp only
      rw [or_flag hcommand, hbyte]
      omega
    · dsimp only
      rw [or_flag hcommand, hbyte, readDatalen, if_pos (decide_eq_true (Nat.le_add_left _ _)), takeBytes_append (length_ofNat 8 _)]
      simp only [Option.bind_eq_bind, Option.bind_some, ofNat_toNat_word, Option.pure_def]
      rfl
  · have hbyte := toNat_byte (n := command.length) (by omega)
    refine ⟨_, @takeBytes_append [_] _ 1 rfl, ?_, ?_⟩
    · dsimp only
      rw [hbyte, Nat.mod_eq_of_lt hcommand]
    · dsimp only
      rw [hbyte, readDatalen, if_neg (by simpa using hcommand)]
      rw [not_not.mp hdatalen]
      rfl

/-- A packet is read as what it was made of. -/
theorem readCommand_packet (hcommand : command.length < 128) (hcnt : params.length ≤ 255)
    (hnames : ∀ p ∈ params, p.paramname.length < 64) (hlen : (body command params datalen).length ≤ 0xffff) :
    readCommand (packet command params datalen) = some (command, datalen, params.map BinParam.sent) := by
  have hwhole : takeBytes (body command params datalen).length (body command params datalen ++ []) = some (_, []) := takeBytes_append rfl
  rw [List.append_nil] at hwhole
  obtain ⟨cmdlen, hhead, hcmdlen, hdatalen⟩ := @readHead _ (command ++ UInt8.ofNat params.length :: params.flatMap BinParam.bytes)
    datalen hcommand
  have hcnt' : takeBytes 1 ([UInt8.ofNat params.length] ++ params.flatMap BinParam.bytes) = some (_, _) := takeBytes_append rfl
  have hbody : (params.flatMap BinParam.bytes).length ≤ (body command params datalen).length := by
    rw [body, List.length_append, List.length_append, List.length_cons]
    omega
  have hparams := readParams_flatMap hnames (by omega)
  rw [readCommand, packet, takeBytes_append (length_ofNat 2 _)]
  simp only [Option.bind_eq_bind, Option.bind_some, toNat_ofNat (n := 2) (Nat.lt_succ_of_le hlen), hwhole]
  rw [if_neg (not_not.mpr rfl), body, hhead]
  simp only [Option.bind_some, hdatalen, hcmdlen, takeBytes_append rfl]
  rw [← List.singleton_append, hcnt']
  simp only [Option.bind_some, toNat_byte (Nat.lt_succ_of_le hcnt), hparams, Option.pure_def]

end Pclsync.Api.Command
