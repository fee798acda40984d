import Pclsync.Lib.Transition
import Mathlib.Data.Int.Basic
import Mathlib.Data.List.Basic
import Mathlib.Logic.Function.Basic

/-! Keys of encrypted files, from `pcloudcrypto.c`, `pfsupload.c` and `pfstasks.c`: two caches, a table
that other threads write, and the server.

`server` is the key that belongs to a revision of a file. Calls are whole; an element of the cache
goes away when its timer fires, and a key is saved at any time after its call. -/
namespace Pclsync.Crypto.FileKeys
open Lib.Transition

/-! ### Names in the cache -/

def base64Table : List Char := "ABCDEFGHIJKLMNOPQRSTUVWXYZabcdefghijklmnopqrstuvwxyz0123456789-_".toList

/-- The loop of `psync_get_string_id`, lowest digit first. -/
def digitsFrom : ℕ → ℕ → List Char
  | 0, _ => []
  | rounds + 1, id => base64Table.getD (id % 64) 'A' :: if id / 64 = 0 then [] else digitsFrom rounds (id / 64)

def digits (id : ℕ) : List Char := digitsFrom (id + 1) id

/-- `psync_get_string_id`. -/
def stringId (strPrefix : List Char) (id : ℕ) : List Char := strPrefix ++ digits id

/-- `psync_get_string_id2`. -/
def stringId2 (strPrefix : List Char) (id1 id2 : ℕ) : List Char := strPrefix ++ digits id1 ++ '.' :: digits id2

def dkey : List Char := ['D', 'K', 'E', 'Y']

def seen : List Char := ['S', 'E', 'E', 'N']

/-! ### The state -/

/-- A decrypted key, as `sym_key_ver1` shows it. -/
structure SymKey (K : Type) where
  /-- `PSYNC_CRYPTO_SYM_AES256_1024BIT_HMAC`. -/
  ver1 : Bool
  /-- The length is that of `sym_key_ver1`. -/
  sized : Bool
  /-- `PSYNC_CRYPTO_SYM_FLAG_ISDIR`. -/
  isdir : Bool
  real : K

/-- An element of the cache; a key can be `NULL`. -/
inductive Element (K : Type) where
  | symkey (key : Option (SymKey K))
  | encoder (key : K)

/-- A row of `fstask`, less what the keys do not need. -/
inductive Task (B : Type) where
  | creat (text2 : Option B)
  | modify (fileid int1 int2 : ℕ)
  | other

structure State (B K : Type) where
  /-- `crypto_started_un` and `crypto_started_l`. -/
  started : Bool
  /-- Later elements first. -/
  cache : List (List Char × Element K)
  cryptofilekey : ℕ → ℕ → Option B
  /-- The threads of `save_file_key_to_db`. -/
  saves : List (ℕ × ℕ × B)
  fstask : ℕ → Option (Task B)
  /-- The encoders that were returned for a file and its revision, and not released. -/
  held : List (ℕ × ℕ × K)
  /-- The key of a revision. -/
  server : ℕ → ℕ → B
  /-- The keys of the encoders that were returned, with those that were asked for. -/
  past : List (K × Option K)
  /-- What was put in the cache. -/
  added : List (Element K)

inductive Ret (K : Type) where
  | encoder (key : K)
  /-- `PSYNC_CRYPTO_UNLOADED_SECTOR_ENCODER`. -/
  | unloaded
  | error

inductive Found (K : Type) where
  | symkey (key : SymKey K)
  | unloaded
  | error

variable {B K : Type}

/-! ### The cache -/

/-- `psync_cache_get`: the element is taken out. -/
def cacheGet (name : List Char) (cache : List (List Char × Element K)) : Option (Element K) × List (List Char × Element K) :=
  ((cache.find? fun e => e.1 = name).map Prod.snd, cache.eraseP fun e => e.1 = name)

/-- `psync_cache_add`. -/
def State.cacheAdd (s : State B K) (name : List Char) (element : Element K) (maxkeys : ℕ) : State B K :=
  if maxkeys ≤ (s.cache.filter fun e => e.1 = name).length then s
  else { s with cache := (name, element) :: s.cache, added := element :: s.added }

/-! ### Encoders -/

/-- The key of a file, after the checks of `psync_crypto_get_file_encoder_locked`. -/
def SymKey.fileKey (key : SymKey K) : Option K := if key.ver1 ∧ key.sized ∧ ¬key.isdir then some key.real else none

/-- The key of a created file, after the checks of `psync_crypto_get_temp_file_encoder_locked`. -/
def SymKey.createdKey (key : SymKey K) : Option K := if key.ver1 ∧ key.sized then some key.real else none

section
variable (decrypt : B → Option (SymKey K))

/-- `psync_ssl_rsa_decrypt_symmetric_key`. -/
def decrypted (enckey : B) : Found K :=
  match decrypt enckey with
  | some key => .symkey key
  | none => .error

/-- `psync_crypto_download_file_enc_key`: the answer of `crypto_getfilekey` has the key of the revision
that is current, if there is an answer. -/
def State.downloadFileEncKey (s : State B K) (fileid : ℕ) (current : Option ℕ) : Found K × State B K :=
  match current with
  | none => (.error, s)
  | some hash =>
    let enckey := s.server fileid hash
    (decrypted decrypt enckey, { s with saves := (fileid, hash, enckey) :: s.saves })

/-- `psync_crypto_get_file_enc_key`, and the decryption of its answer. -/
def State.getFileEncKey (s : State B K) (fileid hash : ℕ) (nonetwork : Bool) (current : Option ℕ) : Found K × State B K :=
  match s.cryptofilekey fileid hash with
  | some enckey => (decrypted decrypt enckey, s)
  | none => if nonetwork then (.unloaded, s) else s.downloadFileEncKey decrypt fileid current

/-- `psync_crypto_get_file_symkey_locked`. -/
def State.getFileSymkey (s : State B K) (fileid hash : ℕ) (nonetwork : Bool) (current : Option ℕ) : Found K × State B K :=
  let (symkey, cache) := cacheGet (stringId2 dkey fileid hash) s.cache
  let s := { s with cache := cache }
  match symkey with
  | some (.symkey (some key)) => (.symkey key, s)
  | _ => s.getFileEncKey decrypt fileid hash nonetwork current

/-- `psync_crypto_get_file_encoder_locked`. -/
def State.getFileEncoderLocked (s : State B K) (fileid hash : ℕ) (nonetwork : Bool) (current : Option ℕ) : Ret K × State B K :=
  match s.getFileSymkey decrypt fileid hash nonetwork current with
  | (.symkey key, s) =>
    match key.fileKey with
    | some real => (.encoder real, s.cacheAdd (stringId2 dkey fileid hash) (.symkey (some key)) 2)
    | none => (.error, s)
  | (.unloaded, s) => (.unloaded, s)
  | (.error, s) => (.error, s)

/-- `psync_crypto_get_temp_file_encoder_locked`, which takes the hash of a modified file from `int1`. -/
def State.getTempFileEncoderLocked (s : State B K) (taskid : ℕ) (nonetwork : Bool) (current : Option ℕ) : Ret K × State B K :=
  match s.fstask taskid with
  | none => (.error, s)
  | some (.creat text2) =>
    match (text2.bind decrypt).bind SymKey.createdKey with
    | some real => (.encoder real, s)
    | none => (.error, s)
  | some (.modify fileid int1 _) => s.getFileEncoderLocked decrypt fileid int1 nonetwork current
  | some .other => (.error, s)

/-- `psync_cloud_crypto_get_file_encoder`. -/
def State.getFileEncoder (s : State B K) (fileid : ℤ) (hash : ℕ) (nonetwork : Bool) (current : Option ℕ) : Ret K × State B K :=
  if s.started then
    if 0 ≤ fileid then
      let (enc, cache) := cacheGet (stringId2 seen fileid.toNat hash) s.cache
      let s := { s with cache := cache }
      match enc with
      | some (.encoder key) => (.encoder key, s)
      | _ => if 0 < fileid then s.getFileEncoderLocked decrypt fileid.toNat hash nonetwork current else (.error, s)
    else s.getTempFileEncoderLocked decrypt (-fileid).toNat nonetwork current
  else (.error, s)

/-- `psync_cloud_crypto_get_file_encoder_from_binresult`: the result is an answer of `crypto_getfilekey`. -/
def State.getFileEncoderFromBinresult (s : State B K) (fileid hash : ℕ) (current : Option ℕ) : Ret K × State B K :=
  let esym := s.server fileid hash
  let s := { s with saves := (fileid, hash, esym) :: s.saves }
  if s.started then
    let s := s.cacheAdd (stringId2 dkey fileid hash) (.symkey (decrypt esym)) 2
    s.getFileEncoderLocked decrypt fileid hash false current
  else (.error, s)

/-! ### Steps -/

/-- The key of the encoder that is asked for with a file and its revision. -/
def State.belongs (s : State B K) (fileid hash : ℕ) : Option K := (decrypt (s.server fileid hash)).bind SymKey.fileKey

/-- The key of the encoder that is asked for: of a file, or of a task. -/
def State.due (s : State B K) (fileid : ℤ) (hash : ℕ) : Option K :=
  if 0 ≤ fileid then s.belongs decrypt fileid.toNat hash
  else
    match s.fstask (-fileid).toNat with
    | some (.creat text2) => (text2.bind decrypt).bind SymKey.createdKey
    | some (.modify fileid _ int2) => s.belongs decrypt fileid int2
    | _ => none

/-- An encoder is returned. -/
def State.returned (s : State B K) (ret : Ret K) (due : Option K) : State B K :=
  match ret with
  | .encoder key => { s with past := (key, due) :: s.past }
  | _ => s

/-- It is for a file. -/
def State.handOut (s : State B K) (ret : Ret K) (fileid hash : ℕ) : State B K :=
  match ret with
  | .encoder key => { s with held := (fileid, hash, key) :: s.held }
  | _ => s

inductive Action (B K : Type) where
  /-- `current` is the revision that the server answers with, if it is asked and answers. -/
  | getFileEncoder (fileid : ℤ) (hash : ℕ) (nonetwork : Bool) (current : Option ℕ)
  | fromBinresult (fileid hash : ℕ) (current : Option ℕ)
  /-- `psync_cloud_crypto_release_file_encoder` of an encoder that was returned for this file and revision. -/
  | release (fileid hash : ℕ) (key : K)
  /-- `set_key_for_fileid`; the key of the revision that was uploaded, if it can be decoded. -/
  | setKey (fileid hash : ℕ) (enckey : Option B)
  /-- A thread of `save_file_key_task`. -/
  | save (fileid hash : ℕ) (enckey : B)
  /-- `cache_timer`. -/
  | expire (i : ℕ)
  /-- `psync_fstask_add_modified_file`. -/
  | addModified (taskid fileid hash : ℕ)
  | addCreat (taskid : ℕ) (text2 : Option B)
  /-- A file of a task is written: `int1` counts. -/
  | written (taskid : ℕ)
  | removeTask (taskid : ℕ)

def State.setTask (s : State B K) (taskid : ℕ) (task : Option (Task B)) : State B K :=
  { s with fstask := Function.update s.fstask taskid task }

def setKeyAt {α : Type} (table : ℕ → ℕ → α) (fileid hash : ℕ) (a : α) : ℕ → ℕ → α :=
  Function.update table fileid (Function.update (table fileid) hash a)

/-- `set_key_for_fileid`. -/
def State.setKeyForFileid (s : State B K) (fileid hash : ℕ) (enckey : Option B) : State B K :=
  let s := match enckey with
    | some enckey => { s with
        cryptofilekey := setKeyAt s.cryptofilekey fileid hash (some enckey)
        server := setKeyAt s.server fileid hash enckey }
    | none => s
  { s with cache := s.cache.filter fun e => e.1 ≠ stringId dkey fileid }

variable [DecidableEq B] [DecidableEq K]

def run (s : State B K) : Action B K → Option (State B K)
  | .getFileEncoder fileid hash nonetwork current =>
    let (ret, s') := s.getFileEncoder decrypt fileid hash nonetwork current
    let s' := s'.returned ret (s.due decrypt fileid hash)
    some (if 0 < fileid then s'.handOut ret fileid.toNat hash else s')
  | .fromBinresult fileid hash current =>
    let (ret, s') := s.getFileEncoderFromBinresult decrypt fileid hash current
    some ((s'.returned ret (s.belongs decrypt fileid hash)).handOut ret fileid hash)
  | .release fileid hash key =>
    if (fileid, hash, key) ∈ s.held then
      let s := { s with held := s.held.erase (fileid, hash, key) }
      some (if s.started then s.cacheAdd (stringId2 seen fileid hash) (.encoder key) 2 else s)
    else none
  | .setKey fileid hash enckey => some (s.setKeyForFileid fileid hash enckey)
  | .save fileid hash enckey =>
    if (fileid, hash, enckey) ∈ s.saves then
      some { s with
        saves := s.saves.erase (fileid, hash, enckey)
        cryptofilekey := setKeyAt s.cryptofilekey fileid hash (some enckey) }
    else none
  | .expire i => some { s with cache := s.cache.eraseIdx i }
  | .addModified taskid fileid hash =>
    match s.fstask taskid with
    | none => some (s.setTask taskid (some (.modify fileid 0 hash)))
    | some _ => none
  | .addCreat taskid text2 =>
    match s.fstask taskid with
    | none => some (s.setTask taskid (some (.creat text2)))
    | some _ => none
  | .written taskid =>
    match s.fstask taskid with
    | some (.modify fileid int1 int2) => some (s.setTask taskid (some (.modify fileid (int1 + 1) int2)))
    | _ => none
  | .removeTask taskid => some (s.setTask taskid none)

def step (s : State B K) (a : Action B K) (s' : State B K) : Prop := run decrypt s a = some s'

/-- Nothing is cached or on its way, and what is in the table is right. -/
structure Start (s : State B K) : Prop where
  cache : s.cache = []
  saves : s.saves = []
  held : s.held = []
  past : s.past = []
  added : s.added = []
  table : ∀ fileid hash enckey, s.cryptofilekey fileid hash = some enckey → enckey = s.server fileid hash

/-! ### What is asked -/

/-- Every encoder that was returned was the one that was asked for, and no failed decryption was ever cached. -/
def State.Right (s : State B K) : Prop :=
  (∀ r ∈ s.past, r.2 = some r.1) ∧ ∀ e ∈ s.added, e ≠ .symkey none

/-- A look-up of a key goes to the server. -/
def State.Asks (s : State B K) (fileid hash : ℕ) (nonetwork : Bool) : Prop :=
  (∀ e ∈ s.cache, e.1 ≠ stringId2 dkey fileid hash) ∧ s.cryptofilekey fileid hash = none ∧ nonetwork = false

/-- The steps that go wrong. -/
def Bad (s : State B K) : Action B K → Prop
  | .getFileEncoder fileid hash nonetwork current =>
    -- the server is asked, and answers with the key of another revision
    (0 < fileid ∧ (∀ e ∈ s.cache, e.1 ≠ stringId2 seen fileid.toNat hash) ∧ s.Asks fileid.toNat hash nonetwork ∧ ∃ c ∈ current, c ≠ hash) ∨
    -- the task of a modified file has been written another number of times than its hash
    (fileid < 0 ∧ ∃ f int1 int2, s.fstask (-fileid).toNat = some (.modify f int1 int2) ∧
      (int1 ≠ int2 ∨ s.Asks f int1 nonetwork ∧ ∃ c ∈ current, c ≠ int1))
  | .fromBinresult fileid hash _ => s.started = true ∧ decrypt (s.server fileid hash) = none
  | .release fileid hash key => s.started = true ∧ s.belongs decrypt fileid hash ≠ some key
  | .setKey fileid hash (some enckey) =>
    (∃ key, (stringId2 dkey fileid hash, Element.symkey key) ∈ s.cache ∧ key ≠ decrypt enckey) ∨
    ∃ key, (stringId2 seen fileid hash, Element.encoder key) ∈ s.cache ∧ (decrypt enckey).bind SymKey.fileKey ≠ some key
  | .save fileid hash enckey => enckey ≠ s.server fileid hash
  | _ => False

end

end Pclsync.Crypto.FileKeys
