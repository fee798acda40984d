import Mathlib.Data.Int.Notation
import Mathlib.Data.Nat.Notation
import Mathlib.Tactic.Common
import Pclsync.Lib.Transition

/-! The session of crypto, from `pcloudcrypto.c`: starting and stopping it, the look-ups of encoders and
decoders, and what gives these back.

A step is a read or a write of `crypto_started_un`, what a thread does on taking `crypto_lock`, a use of
`crypto_privkey` or an operation of the cache. A look-up has the lock for reading over many steps; who
has it for writing has it for one. -/
namespace Pclsync.Session
open Lib.Transition

/-- The three look-ups. -/
inductive Kind where
  | folderEncoder | folderDecoder | fileEncoder
deriving DecidableEq, Repr

/-- The prefixes of keys in the cache. -/
inductive Tag where
  | dkey | fkey | flde | fldd | seen
deriving DecidableEq, Repr

/-- A key in the cache: a prefix and what `psync_get_string_id` or `psync_get_string_id2` append. -/
structure Key where
  tag : Tag
  id : ℤ
  hash : ℕ
deriving DecidableEq, Repr

/-- An element of the cache; the timer of one that is expiring is called and has not removed it yet. -/
structure Entry where
  key : Key
  expiring : Bool
deriving DecidableEq, Repr

/-- What a look-up returns that is no encoder: an error, or `PSYNC_CRYPTO_UNLOADED_SECTOR_ENCODER`. -/
inductive Error where
  | notStarted | rsaError | folderNotFound | fileNotFound | invalidKey | cantConnect | folderNotEncrypted
  | internalError | unloaded
deriving DecidableEq, Repr

/-- The arguments of a look-up, and of the call that gives back what it has got. -/
structure LookUp where
  kind : Kind
  id : ℤ
  hash : ℕ
deriving DecidableEq, Repr

/-- Where a thread is. A look-up that has the lock knows what it has read of `crypto_started_l`, and the
key of the symmetric key in the cache, if it has one. -/
inductive Call where
  | idle
  /-- `psync_cloud_crypto_start`, with the lock given back. -/
  | started
  /-- `psync_cloud_crypto_stop`, before the lock, and before and after it cleans the cache. -/
  | stopLock | stopClean | stopRefresh
  /-- A look-up before `psync_cache_get` and before the lock. -/
  | getCached (l : LookUp) | getLock (l : LookUp)
  /-- With the lock: before it looks for the symmetric key in the cache, fetches the encrypted one, reads
  it from the task, decrypts it with `crypto_privkey`, checks it, gives it to the cache, and before it
  gives the lock back. -/
  | getSym (l : LookUp) (startedL : Bool) (sym : Key)
  | fetch (l : LookUp) (startedL : Bool) (sym : Key)
  | fetchTask (l : LookUp) (startedL : Bool)
  | decrypt (l : LookUp) (startedL : Bool) (sym : Option Key)
  | check (l : LookUp) (startedL : Bool) (sym : Option Key)
  | addSym (l : LookUp) (startedL : Bool) (sym : Key)
  | unlock (l : LookUp) (startedL : Bool) (res : Option Error)
  /-- The look-up has returned an error or an encoder. -/
  | returned (l : LookUp) (startedL : Option Bool) (res : Option Error)
  /-- A release that has read `crypto_started_un`. -/
  | releaseAdd (l : LookUp)
deriving DecidableEq, Repr

structure State where
  startedUn : Bool
  startedL : Bool
  /-- `crypto_privkey` is not `PSYNC_INVALID_RSA`. -/
  privkey : Bool
  cache : List Entry
  calls : List Call
deriving DecidableEq, Repr

/-- What a task of the file system says about a file or folder that is not created yet. -/
inductive Task where
  | bad (e : Error)
  | enckey
  /-- `PSYNC_FS_TASK_MODIFY`: the key is that of the file before. -/
  | modify (fileid : ℤ) (hash : ℕ)
deriving DecidableEq, Repr

inductive Event where
  /-- `psync_cloud_crypto_start`: the keys can be loaded, decrypted and match, or not. -/
  | start (t : ℕ) (ok : Bool)
  | startUn (t : ℕ)
  | stop (t : ℕ)
  | stopLock (t : ℕ)
  | stopClean (t : ℕ)
  | stopReturn (t : ℕ)
  | lookUp (t : ℕ) (l : LookUp)
  | getCached (t : ℕ)
  | getLock (t : ℕ)
  | getSym (t : ℕ)
  | fetch (t : ℕ) (bad : Option Error)
  | fetchTask (t : ℕ) (task : Task)
  | decrypt (t : ℕ) (bad : Option Error)
  | check (t : ℕ) (ok : Bool)
  | addSym (t : ℕ)
  | unlock (t : ℕ)
  | release (t : ℕ)
  | releaseAdd (t : ℕ)
  /-- The caller drops an error. -/
  | drop (t : ℕ)
  /-- A timer of the cache is called, and removes its element. -/
  | fire (i : ℕ)
  | expire (i : ℕ)
deriving DecidableEq, Repr

/-! ## The cache -/

/-- The key of an encoder. -/
def LookUp.key (l : LookUp) : Key :=
  match l.kind with
  | .folderEncoder => ⟨.flde, l.id, 0⟩
  | .folderDecoder => ⟨.fldd, l.id, 0⟩
  | .fileEncoder => ⟨.seen, l.id, l.hash⟩

/-- The key of a symmetric key. -/
def LookUp.symKey (l : LookUp) : Key :=
  match l.kind with
  | .fileEncoder => ⟨.dkey, l.id, l.hash⟩
  | _ => ⟨.fkey, l.id, 0⟩

/-- `psync_cache_get`: the element is taken out, also when its timer is being called. -/
def cacheGet (cache : List Entry) (key : Key) : Option (List Entry) :=
  if cache.any (·.key = key) then some (cache.eraseP (·.key = key)) else none

/-- `psync_cache_add` with a `maxkeys` of two. -/
def cacheAdd (cache : List Entry) (key : Key) : List Entry :=
  if 2 ≤ cache.countP (·.key = key) then cache else ⟨key, false⟩ :: cache

/-- `psync_cloud_crypto_clean_cache`: `psync_timer_stop` fails for an element that is expiring, which is
left to its timer. -/
def cleanCache (cache : List Entry) : List Entry := cache.filter (·.expiring)

/-! ## The functions -/

/-- A thread has the lock for reading. -/
def Call.reads : Call → Bool
  | .getSym .. | .fetch .. | .fetchTask .. | .decrypt .. | .check .. | .addSym .. | .unlock .. => true
  | _ => false

def State.setCall (s : State) (t : ℕ) (c : Call) : State := { s with calls := s.calls.set t c }

/-- The lock can be had for writing. -/
def State.free (s : State) : Bool := s.calls.all (!·.reads)

/-- What a look-up does once it has the lock. The error of the test before is overwritten. -/
def LookUp.branch (l : LookUp) (startedL : Bool) : Call :=
  if 0 < l.id then .getSym l startedL l.symKey
  else if l.id < 0 then .fetchTask l startedL
  else .unlock l startedL (some .folderNotEncrypted)

/-- What a step does; nothing where the thread is not there. -/
def State.run (s : State) : Event → Option State
  | .start t ok =>
    match s.calls[t]? with
    | some .idle =>
      if s.free then
        -- PSYNC_CRYPTO_START_ALREADY_STARTED, or one of the errors of keys and passwords
        if s.startedL || !ok then some s else some ({ s with startedL := true, privkey := true }.setCall t .started)
      else none
    | _ => none
  | .startUn t =>
    match s.calls[t]? with
    | some .started => some ({ s with startedUn := true }.setCall t .idle)
    | _ => none
  | .stop t =>
    match s.calls[t]? with
    | some .idle => some ({ s with startedUn := false }.setCall t .stopLock)
    | _ => none
  | .stopLock t =>
    match s.calls[t]? with
    | some .stopLock =>
      if s.free then
        if !s.startedL then some (s.setCall t .idle)
        else some ({ s with startedL := false, privkey := false }.setCall t .stopClean)
      else none
    | _ => none
  | .stopClean t =>
    match s.calls[t]? with
    | some .stopClean => some ({ s with cache := cleanCache s.cache }.setCall t .stopRefresh)
    | _ => none
  | .stopReturn t =>
    match s.calls[t]? with
    | some .stopRefresh => some (s.setCall t .idle)
    | _ => none
  | .lookUp t l =>
    match s.calls[t]? with
    | some .idle =>
      if !s.startedUn then some (s.setCall t (.returned l none (some .notStarted)))
      else if 0 ≤ l.id then some (s.setCall t (.getCached l))
      else some (s.setCall t (.getLock l))
    | _ => none
  | .getCached t =>
    match s.calls[t]? with
    | some (.getCached l) =>
      match cacheGet s.cache l.key with
      | some cache => some ({ s with cache := cache }.setCall t (.returned l none none))
      | none => some (s.setCall t (.getLock l))
    | _ => none
  | .getLock t =>
    match s.calls[t]? with
    | some (.getLock l) => some (s.setCall t (l.branch s.startedL))
    | _ => none
  | .getSym t =>
    match s.calls[t]? with
    | some (.getSym l b sym) =>
      match cacheGet s.cache sym with
      | some cache => some ({ s with cache := cache }.setCall t (.check l b (some sym)))
      | none => some (s.setCall t (.fetch l b sym))
    | _ => none
  | .fetch t bad =>
    match s.calls[t]? with
    | some (.fetch l b sym) =>
      match bad with
      | some e => some (s.setCall t (.unlock l b (some e)))
      | none => some (s.setCall t (.decrypt l b (some sym)))
    | _ => none
  | .fetchTask t task =>
    match s.calls[t]? with
    | some (.fetchTask l b) =>
      match task with
      | .bad e => some (s.setCall t (.unlock l b (some e)))
      | .enckey => some (s.setCall t (.decrypt l b none))
      | .modify fileid hash =>
        if l.kind = .fileEncoder then some (s.setCall t (.getSym l b ⟨.dkey, fileid, hash⟩)) else none
    | _ => none
  | .decrypt t bad =>
    match s.calls[t]? with
    | some (.decrypt l b sym) =>
      match bad with
      | some e => some (s.setCall t (.unlock l b (some e)))
      | none => some (s.setCall t (.check l b sym))
    | _ => none
  | .check t ok =>
    match s.calls[t]? with
    | some (.check l b sym) =>
      if !ok then some (s.setCall t (.unlock l b (some .invalidKey)))
      else match sym with
        | some sym => some (s.setCall t (.addSym l b sym))
        | none => some (s.setCall t (.unlock l b none))
    | _ => none
  | .addSym t =>
    match s.calls[t]? with
    | some (.addSym l b sym) => some ({ s with cache := cacheAdd s.cache sym }.setCall t (.unlock l b none))
    | _ => none
  | .unlock t =>
    match s.calls[t]? with
    | some (.unlock l b res) => some (s.setCall t (.returned l (some b) res))
    | _ => none
  | .release t =>
    match s.calls[t]? with
    | some (.returned l _ none) =>
      if s.startedUn && 0 ≤ l.id then some (s.setCall t (.releaseAdd l)) else some (s.setCall t .idle)
    | _ => none
  | .releaseAdd t =>
    match s.calls[t]? with
    | some (.releaseAdd l) => some ({ s with cache := cacheAdd s.cache l.key }.setCall t .idle)
    | _ => none
  | .drop t =>
    match s.calls[t]? with
    | some (.returned _ _ (some _)) => some (s.setCall t .idle)
    | _ => none
  | .fire i =>
    match s.cache[i]? with
    | some e => some { s with cache := s.cache.set i { e with expiring := true } }
    | none => none
  | .expire i =>
    match s.cache[i]? with
    | some e => if e.expiring then some { s with cache := s.cache.eraseIdx i } else none
    | none => none

def step (s : State) (e : Event) (s' : State) : Prop := s.run e = some s'

/-- Nothing is started, and no thread is in a call. -/
def Initial (s : State) : Prop :=
  s.startedUn = false ∧ s.startedL = false ∧ s.privkey = false ∧ s.cache = [] ∧ ∀ c ∈ s.calls, c = .idle

end Pclsync.Session
