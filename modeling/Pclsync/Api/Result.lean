import Pclsync.Lib.Machine

/-! The two passes of the binary API reader, from `papi.c`.

A response is parsed twice. `calcRetLen` walks the bytes with their length in
hand and answers how many bytes the result will take and how many strings it has;
`doParseResult` then walks the same bytes without their length and builds the
result in a block of exactly that many bytes, with a table of exactly that many
string pointers. The functions run on a buffer with an end: reading past it,
storing outside of the result block, storing one string too many, using an id
that has no string and dereferencing `NULL` are faults, so that what the code
leaves undefined is seen. -/
namespace Pclsync.Api
open Lib.Machine

/-- How a pass can stop without a result. -/
inductive Fault where
  /-- `return -1`. -/
  | failed
  /-- A read of the input at this position, which is past its end. -/
  | overread (position : ℕ)
  /-- A store in the result block that ends past it. -/
  | overwrite (offset : ℕ)
  /-- A store in `strings` past its last slot. -/
  | stringsFull
  /-- A use of `strings[id]` before it was stored. -/
  | unknownString (id : ℕ)
  | nullDereference
  /-- The bound on the recursion was too small. -/
  | fuel
deriving DecidableEq, Repr

/-! ### Type bytes -/

def rparamStr1 : ℕ := 0
def rparamStr4 : ℕ := 3
def rparamRstr1 : ℕ := 4
def rparamRstr4 : ℕ := 7
def rparamNum1 : ℕ := 8
def rparamNum8 : ℕ := 15
def rparamHash : ℕ := 16
def rparamArray : ℕ := 17
def rparamBfalse : ℕ := 18
def rparamBtrue : ℕ := 19
def rparamData : ℕ := 20
def rparamShortStrBase : ℕ := 100
def rparamShortRstrBase : ℕ := 150
def rparamSmallNumBase : ℕ := 200
def rparamEnd : ℕ := 255
def vshortStrLen : ℕ := 50
def vshortRstrCnt : ℕ := 50
def vsmallNumberNum : ℕ := 20

/-- `ALIGN_BYTES`. -/
def alignBytes : ℕ := 8
/-- `offsetof(binresult, str)`. -/
def strOffset : ℕ := 8
/-- `sizeof(binresult)`. -/
def sizeofBinresult : ℕ := 16
/-- `sizeof(binresult *)`. -/
def sizeofPointer : ℕ := 8
/-- `sizeof(hashpair)`. -/
def sizeofHashpair : ℕ := 16

/-- What a string of `len` bytes and its terminator take, in whole words. -/
def alignedLen (len : ℕ) : ℕ := (len + alignBytes) / alignBytes * alignBytes

/-! ### The input -/

section Input
variable (buf : List UInt8)

def byteAt (position : ℕ) : Except Fault ℕ :=
  match buf[position]? with
  | some b => .ok b.toNat
  | none => .error (.overread position)

/-- `memcpy` of `l` bytes into a zeroed little-endian word. -/
def loadWord (position : ℕ) : ℕ → Except Fault ℕ
  | 0 => .ok 0
  | l + 1 => do
    let low ← byteAt buf position
    let high ← loadWord (position + 1) l
    return low + 256 * high

/-- `memcpy` of `len` bytes. -/
def loadBytes (position len : ℕ) : Except Fault (List UInt8) :=
  if position + len ≤ buf.length then .ok ((buf.drop position).take len)
  else .error (.overread buf.length)

/-! ### The size pass -/

/-- `*data`, `*datalen` and `*strcnt`. -/
structure Cursor where
  data : ℕ
  datalen : ℕ
  strcnt : ℕ
deriving DecidableEq, Repr

/-- `_NEED_DATA`. -/
def Cursor.need (c : Cursor) (cnt : ℕ) : Except Fault Unit :=
  if c.datalen < cnt then .error .failed else .ok ()

def Cursor.skip (c : Cursor) (l : ℕ) : Cursor :=
  { c with data := c.data + l, datalen := sub64 c.datalen l }

/-- The type byte of a string, in both its spellings. -/
def IsStr (type : ℕ) : Prop :=
  (rparamShortStrBase ≤ type ∧ type < rparamShortStrBase + vshortStrLen) ∨
    (rparamStr1 ≤ type ∧ type ≤ rparamStr4)

/-- The type byte of a reused string, in both its spellings. -/
def IsRstr (type : ℕ) : Prop :=
  (rparamRstr1 ≤ type ∧ type ≤ rparamRstr4) ∨
    (rparamShortRstrBase ≤ type ∧ type < rparamShortRstrBase + vshortRstrCnt)

instance (type : ℕ) : Decidable (IsStr type) := inferInstanceAs (Decidable (_ ∨ _))
instance (type : ℕ) : Decidable (IsRstr type) := inferInstanceAs (Decidable (_ ∨ _))

/-- `len` of a string branch: in the type byte or in the bytes after it. -/
def calcStrLen (type : ℕ) (c : Cursor) : Except Fault (ℕ × Cursor) :=
  if rparamShortStrBase ≤ type ∧ type < rparamShortStrBase + vshortStrLen then
    .ok (type - rparamShortStrBase, c)
  else do
    let l := type - rparamStr1 + 1
    c.need l
    let len ← loadWord buf c.data l
    return (len, c.skip l)

/-- `len` of a reused string's branch, its id. -/
def calcRstrId (type : ℕ) (c : Cursor) : Except Fault (ℕ × Cursor) :=
  if rparamRstr1 ≤ type ∧ type ≤ rparamRstr4 then do
    let l := type - rparamRstr1 + 1
    c.need l
    let len ← loadWord buf c.data l
    return (len, c.skip l)
  else .ok (type - rparamShortRstrBase, c)

/-- The branches of `calc_ret_len` that do not recurse. -/
def calcScalar (type : ℕ) (c : Cursor) : Except Fault (ℕ × Cursor) :=
  if IsStr type then do
    let (len, c) ← calcStrLen buf type c
    c.need len
    return (strOffset + alignedLen len, { c.skip len with strcnt := c.strcnt + 1 })
  else if IsRstr type then do
    let (len, c) ← calcRstrId buf type c
    if len < c.strcnt then return (0, c) else throw .failed
  else if rparamNum1 ≤ type ∧ type ≤ rparamNum8 then do
    let len := type - rparamNum1 + 1
    c.need len
    return (sizeofBinresult, c.skip len)
  else if rparamSmallNumBase ≤ type ∧ type < rparamSmallNumBase + vsmallNumberNum then
    return (0, c)
  else if type = rparamBfalse ∨ type = rparamBtrue then
    return (0, c)
  else if type = rparamData then do
    c.need 8
    return (sizeofBinresult, c.skip 8)
  else throw .failed

mutual

/-- `calc_ret_len`: the size of the result, and the cursor after the value. The type
bytes of the branches are disjoint; the two that recurse are taken first. -/
def calcRetLen : ℕ → Cursor → Except Fault (ℕ × Cursor)
  | 0, _ => .error .fuel
  | fuel + 1, c => do
    c.need 1
    let type ← byteAt buf c.data
    if type = rparamArray then calcArray fuel (c.skip 1) sizeofBinresult 0
    else if type = rparamHash then calcHash fuel (c.skip 1) sizeofBinresult 0
    else calcScalar buf type (c.skip 1)

/-- The `while` over the elements of an array, on `ret` and the 32-bit `cnt`. The
first byte is looked at before the length is. -/
def calcArray : ℕ → Cursor → ℕ → ℕ → Except Fault (ℕ × Cursor)
  | 0, _, _, _ => .error .fuel
  | fuel + 1, c, ret, cnt => do
    let type ← byteAt buf c.data
    if type = rparamEnd then return (ret + sizeofPointer * cnt, c.skip 1)
    else
      let (r, c) ← calcRetLen fuel c
      c.need 1
      calcArray fuel c (ret + r) (u32 (cnt + 1))

/-- The `while` over the pairs of a hash. -/
def calcHash : ℕ → Cursor → ℕ → ℕ → Except Fault (ℕ × Cursor)
  | 0, _, _, _ => .error .fuel
  | fuel + 1, c, ret, cnt => do
    let type ← byteAt buf c.data
    if type = rparamEnd then return (ret + sizeofHashpair * cnt, c.skip 1)
    else
      let (r, c) ← calcRetLen fuel c
      let (r', c) ← calcRetLen fuel c
      c.need 1
      calcHash fuel c (ret + r + r') (u32 (cnt + 1))

end

end Input

/-! ### The build pass -/

/-- `binresult`; `null` is the pointer `NULL`. -/
inductive Binresult where
  | null
  | str (str : List UInt8)
  | num (num : ℕ)
  | bool (value : Bool)
  | array (array : List Binresult)
  | hash (hash : List (List UInt8 × Binresult))
  | data (num : ℕ)

/-- `*indata`, `*odata` and the entries of `strings` up to `*nextstrid`. -/
structure Builder where
  indata : ℕ
  odata : ℕ
  strings : List Binresult

section Build
variable (buf : List UInt8) (retlen strcnt : ℕ)

/-- A store of `len` bytes in the result block. -/
def store (offset len : ℕ) : Except Fault Unit :=
  if offset + len ≤ retlen then .ok () else .error (.overwrite offset)

/-- `strings[*nextstrid]=ret; (*nextstrid)++`. -/
def Builder.push (b : Builder) (ret : Binresult) : Except Fault Builder :=
  if b.strings.length < strcnt then .ok { b with strings := b.strings ++ [ret] }
  else .error .stringsFull

/-- `key->type==PARAM_STR`, with the key's bytes. -/
def Binresult.key : Binresult → Except Fault (Option (List UInt8))
  | .null => .error .nullDereference
  | .str s => .ok (some s)
  | _ => .ok none

/-- `len` of a string branch. -/
def parseStrLen (type : ℕ) (b : Builder) : Except Fault (ℕ × Builder) :=
  if rparamShortStrBase ≤ type ∧ type < rparamShortStrBase + vshortStrLen then
    .ok (type - rparamShortStrBase, b)
  else do
    let l := type - rparamStr1 + 1
    let len ← loadWord buf b.indata l
    return (len, { b with indata := b.indata + l })

/-- `id` of a reused string's branch. -/
def parseRstrId (type : ℕ) (b : Builder) : Except Fault (ℕ × Builder) :=
  if rparamRstr1 ≤ type ∧ type ≤ rparamRstr4 then do
    let len := type - rparamRstr1 + 1
    let id ← loadWord buf b.indata len
    return (id, { b with indata := b.indata + len })
  else .ok (type - rparamShortRstrBase, b)

/-- The branches of `do_parse_result` that do not recurse. -/
def parseScalar (type : ℕ) (b : Builder) : Except Fault (Binresult × Builder) :=
  if IsStr type then do
    let (len, b) ← parseStrLen buf type b
    store retlen b.odata strOffset
    let bytes ← loadBytes buf b.indata len
    let ret := Binresult.str bytes
    let b ← b.push strcnt ret
    store retlen (b.odata + strOffset) (len + 1)
    return (ret, { b with
      odata := b.odata + strOffset + alignedLen len
      indata := b.indata + len })
  else if IsRstr type then do
    let (id, b) ← parseRstrId buf type b
    match b.strings[id]? with
    | some s => return (s, b)
    | none => throw (.unknownString id)
  else if rparamNum1 ≤ type ∧ type ≤ rparamNum8 then do
    store retlen b.odata sizeofBinresult
    let len := type - rparamNum1 + 1
    let num ← loadWord buf b.indata len
    return (.num num, { b with odata := b.odata + sizeofBinresult, indata := b.indata + len })
  else if rparamSmallNumBase ≤ type ∧ type < rparamSmallNumBase + vsmallNumberNum then
    return (.num (type - rparamSmallNumBase), b)
  else if type = rparamBtrue then
    return (.bool true, b)
  else if type = rparamBfalse then
    return (.bool false, b)
  else if type = rparamData then do
    store retlen b.odata sizeofBinresult
    let num ← loadWord buf b.indata 8
    return (.data num, { b with odata := b.odata + sizeofBinresult, indata := b.indata + 8 })
  else return (.null, b)

mutual

/-- `do_parse_result`, in a result block of `retlen` bytes and a table of `strcnt` strings. -/
def doParseResult : ℕ → Builder → Except Fault (Binresult × Builder)
  | 0, _ => .error .fuel
  | fuel + 1, b => do
    let type ← byteAt buf b.indata
    let b := { b with indata := b.indata + 1 }
    if type = rparamArray then
      store retlen b.odata sizeofBinresult
      let (elements, b) ← doParseArray fuel { b with odata := b.odata + sizeofBinresult } []
      store retlen b.odata (sizeofPointer * elements.length)
      return (.array elements, { b with odata := b.odata + sizeofPointer * elements.length })
    else if type = rparamHash then
      store retlen b.odata sizeofBinresult
      let (pairs, b) ← doParseHash fuel { b with odata := b.odata + sizeofBinresult } []
      store retlen b.odata (sizeofHashpair * pairs.length)
      return (.hash pairs, { b with odata := b.odata + sizeofHashpair * pairs.length })
    else parseScalar buf retlen strcnt type b

/-- The `while` that fills `arr` with the elements of an array. -/
def doParseArray : ℕ → Builder → List Binresult → Except Fault (List Binresult × Builder)
  | 0, _, _ => .error .fuel
  | fuel + 1, b, arr => do
    let type ← byteAt buf b.indata
    if type = rparamEnd then return (arr, { b with indata := b.indata + 1 })
    else
      let (element, b) ← doParseResult fuel b
      doParseArray fuel b (arr ++ [element])

/-- The `while` that fills `arr` with the pairs of a hash whose key is a string. -/
def doParseHash : ℕ → Builder → List (List UInt8 × Binresult) →
    Except Fault (List (List UInt8 × Binresult) × Builder)
  | 0, _, _ => .error .fuel
  | fuel + 1, b, arr => do
    let type ← byteAt buf b.indata
    if type = rparamEnd then return (arr, { b with indata := b.indata + 1 })
    else
      let (key, b) ← doParseResult fuel b
      let (value, b) ← doParseResult fuel b
      match ← key.key with
      | some s => doParseHash fuel b (arr ++ [(s, value)])
      | none => doParseHash fuel b arr

end

end Build

/-! ### Whole messages -/

/-- A recursion this deep is enough for every message of the length of `buf`. -/
def enoughFuel (buf : List UInt8) : ℕ := 2 * buf.length + 1

/-- The size pass as `parse_result` starts it. -/
def sizePass (buf : List UInt8) : Except Fault (ℕ × Cursor) :=
  calcRetLen buf (enoughFuel buf) ⟨0, buf.length, 0⟩

/-- The build pass as `parse_result` starts it, in the blocks it allocated. -/
def buildPass (buf : List UInt8) (retlen strcnt : ℕ) : Except Fault (Binresult × Builder) :=
  doParseResult buf retlen strcnt (enoughFuel buf) ⟨0, 0, []⟩

/-- `parse_result`. -/
def parseResult (buf : List UInt8) : Except Fault Binresult :=
  match sizePass buf with
  | .error .failed => .ok .null
  | .error fault => .error fault
  | .ok (retlen, c) => (buildPass buf retlen c.strcnt).map Prod.fst

end Pclsync.Api
