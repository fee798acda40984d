import Pclsync.Lib.Machine
import Mathlib.Data.Vector.Basic

/-! Where the bytes of an encrypted file live.

An encrypted file is its plaintext cut into sectors of 4096 bytes, with a tree of
authentication sectors between them: a level-0 authentication sector holds the 32
bytes of each of the 128 data sectors before it, a level-1 sector those of 128
level-0 sectors, and so on; the last sector of every level stands at the end of
the file, followed by one master record. The functions here are the geometry of
`pfscrypto.c`. A function that would write an array out of its bounds or fail an
assertion returns `none`. -/
namespace Pclsync.FsCrypto
open Lib.Machine

/-- `PSYNC_CRYPTO_SECTOR_SIZE`. -/
def sectorSize : ℕ := 4096
/-- `PSYNC_CRYPTO_AUTH_SIZE`. -/
def authSize : ℕ := 32
/-- `PSYNC_CRYPTO_HASH_TREE_SECTORS`. -/
def hashTreeSectors : ℕ := sectorSize / authSize
/-- `PSYNC_CRYPTO_MAX_HASH_TREE_LEVEL`. -/
abbrev maxHashTreeLevel : ℕ := 6
/-- `PSYNC_CRYPTO_MAX_SECTORID`. -/
def maxSectorid : ℕ := 2 ^ 32 - 2

/-- `psync_crypto_offsets_t`. -/
structure Offsets where
  masterauthoff : ℕ
  plainsize : ℕ
  lastauthsectoroff : Vector ℕ maxHashTreeLevel
  lastauthsectorlen : Vector ℕ maxHashTreeLevel
  treelevels : ℕ
  needmasterauth : Bool
deriving Repr, DecidableEq

/-- The record after `memset(offsets, 0, sizeof(psync_crypto_offsets_t))`. -/
def Offsets.zero : Offsets := ⟨0, 0, Vector.replicate _ 0, Vector.replicate _ 0, 0, false⟩

/-- The two array stores made together at a level; the lengths are `uint16_t`. -/
def Offsets.setLast (o : Offsets) (level off len : ℕ) : Option Offsets :=
  if level < maxHashTreeLevel then
    some { o with
      lastauthsectoroff := o.lastauthsectoroff.setIfInBounds level off
      lastauthsectorlen := o.lastauthsectorlen.setIfInBounds level (u16 len) }
  else none

/-- `max_level_size`. -/
def maxLevelSizes : Vector ℕ (maxHashTreeLevel + 1) :=
  #v[0x1000, 0x81000, 0x4081000, 0x204081000, 0x10204081000, 0x810204081000, 0x40810204081000]

def maxLevelSize (level : ℕ) : ℕ := maxLevelSizes[level]?.getD 0

/-- The `while` of `psync_fs_crypto_data_sectorid_by_sectorid`, whose sum is an
`uint32_t`. The first argument bounds the rounds; the id itself is enough. -/
def dataSectoridLoop : ℕ → ℕ → ℕ → ℕ
  | 0, _, sect => sect
  | fuel + 1, sectorid, sect =>
    if sectorid < hashTreeSectors then sect
    else dataSectoridLoop fuel (sectorid / hashTreeSectors) (u32 (sect + sectorid / hashTreeSectors))

/-- `psync_fs_crypto_data_sectorid_by_sectorid`. -/
def dataSectoridBySectorid (sectorid : ℕ) : ℕ := dataSectoridLoop sectorid sectorid sectorid

def dataOffsetLoop : ℕ → ℕ → ℕ → ℕ
  | 0, _, off => off
  | fuel + 1, sectorid, off =>
    if sectorid < hashTreeSectors then off
    else dataOffsetLoop fuel (sectorid / hashTreeSectors)
      (u64 (off + sectorid / hashTreeSectors * sectorSize))

/-- `psync_fs_crypto_data_offset_by_sectorid`. -/
def dataOffsetBySectorid (sectorid : ℕ) : ℕ :=
  dataOffsetLoop sectorid sectorid (u64 (sectorid * sectorSize))

/-- The `while` of `psync_fs_crypto_auth_offset`; the product is made on `uint32_t`. -/
def authOffsetLoop : ℕ → ℕ → ℕ → ℕ
  | 0, _, ret => ret
  | fuel + 1, id, ret =>
    if id < hashTreeSectors then ret
    else authOffsetLoop fuel (id / hashTreeSectors)
      (u64 (ret + u32 (id / hashTreeSectors * sectorSize)))

/-- `psync_fs_crypto_auth_offset`: works for all sectors of auth data except the
last one of each level. -/
def authOffset (level id : ℕ) : ℕ :=
  authOffsetLoop id id (sub64 (u64 (maxLevelSize (level + 1) * u32 (id + 1))) sectorSize)

/-- What a level's last sector holds of a level with `cnt` entries. -/
def lastCount (cnt : ℕ) : ℕ :=
  if cnt % hashTreeSectors = 0 then hashTreeSectors else cnt % hashTreeSectors

/-- The `do … while` of `psync_fs_crypto_offsets_by_plainsize`, with the offset, the
level and the record it leaves. -/
def plainLoop : ℕ → ℕ → ℕ → ℕ → Offsets → Option (ℕ × ℕ × Offsets)
  | 0, _, _, _, _ => none
  | fuel + 1, size, off, level, o =>
    let sz := lastCount size * authSize
    let size' := u64 (size + hashTreeSectors - 1) / hashTreeSectors
    (o.setLast level off sz).bind fun o =>
      if size' > 1 then plainLoop fuel size' (u64 (off + sz)) (level + 1) o
      else some (u64 (off + sz), level + 1, o)

/-- `psync_fs_crypto_offsets_by_plainsize`. -/
def offsetsByPlainsize (size : ℕ) : Option Offsets :=
  let o := { Offsets.zero with plainsize := size, needmasterauth := size > sectorSize }
  if size = 0 then some o
  else
    let last := if size % sectorSize = 0
      then (u32 (u32 (size / sectorSize) + 2 ^ 32 - 1), sectorSize)
      else (u32 (size / sectorSize), size % sectorSize)
    let off := u64 (dataOffsetBySectorid last.1 + last.2)
    (plainLoop (maxHashTreeLevel + 1) (u64 (size + sectorSize - 1) / sectorSize) off 0 o).bind
      fun (off, level, o) => (o.setLast level off authSize).map fun o =>
        { o with masterauthoff := off, treelevels := u8 level }

/-- The `for` that looks for the level whose complete tree holds `size` bytes. -/
def findLevel : ℕ → ℕ → ℕ → Option ℕ
  | 0, _, _ => none
  | fuel + 1, size, level => if size ≤ maxLevelSize level then some level else findLevel fuel size (level + 1)

/-- The `do … while` of `psync_fs_crypto_offsets_by_cryptosize`, which peels the
authentication entries of one level after another off the size. -/
def cryptoLoop : ℕ → ℕ → ℕ → Offsets → Option (ℕ × Offsets)
  | 0, size, _, o => some (size, o)
  | level + 1, size, off, o =>
    let cnt := u64 (size + maxLevelSize level + authSize - 1) / (maxLevelSize level + authSize)
    let size' := sub64 size (u64 (cnt * authSize))
    let off' := sub64 off (lastCount cnt * authSize)
    (o.setLast level off' (lastCount cnt * authSize)).bind (cryptoLoop level size' off')

/-- `psync_fs_crypto_offsets_by_cryptosize`. -/
def offsetsByCryptosize (size : ℕ) : Option Offsets :=
  if size ≤ authSize then some .zero
  else
    let needmasterauth := decide (size > sectorSize + authSize)
    let size := if needmasterauth then size - authSize else size
    (findLevel maxHashTreeLevel size 1).bind fun level =>
      let o := { Offsets.zero with
        needmasterauth := needmasterauth, masterauthoff := size, treelevels := level }
      (o.setLast level size authSize).bind fun o =>
        (cryptoLoop level size size o).map fun (size, o) => { o with plainsize := size }

/-- `psync_fs_crypto_plain_size`. -/
def plainSize (cryptosize : ℕ) : Option ℕ := (offsetsByCryptosize cryptosize).map (·.plainsize)

/-- The length of the file a record describes. -/
def Offsets.filesize (o : Offsets) : ℕ := o.masterauthoff + if o.needmasterauth then authSize else 0

/-- `psync_fs_crypto_crypto_size`. -/
def cryptoSize (plainsize : ℕ) : Option ℕ := (offsetsByPlainsize plainsize).map (·.filesize)

/-- `get_last_sectorid_by_size`. -/
def getLastSectoridBySize (size : ℕ) : ℕ := if size = 0 then 0 else u32 ((size - 1) / sectorSize)

/-- The `for` of `psync_fs_crypto_get_auth_sector_off`, on `sizesecd`, `secd` and `aid`. -/
def authSectorLoop : ℕ → ℕ → ℕ → ℕ → ℕ × ℕ × ℕ
  | 0, sizesecd, secd, aid => (sizesecd, secd, aid)
  | i + 1, sizesecd, secd, _ =>
    authSectorLoop i (sizesecd / hashTreeSectors) (secd / hashTreeSectors) (secd % hashTreeSectors)

/-- `psync_fs_crypto_get_auth_sector_off`: the offset and the size of the level's
authentication sector for a data sector, and the entry in it. -/
def getAuthSectorOff (sectorid level : ℕ) (offsets : Offsets) : Option (ℕ × ℕ × ℕ) :=
  let (sizesecd, secd, aid) := authSectorLoop level
    (getLastSectoridBySize offsets.plainsize / hashTreeSectors) (sectorid / hashTreeSectors)
    (sectorid % hashTreeSectors)
  if secd = sizesecd then
    if level < maxHashTreeLevel then
      some (offsets.lastauthsectoroff[level]?.getD 0, offsets.lastauthsectorlen[level]?.getD 0, aid)
    else none
  else if secd < sizesecd then some (authOffset level secd, sectorSize, aid)
  else none

end Pclsync.FsCrypto
