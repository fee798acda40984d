import Pclsync.OpenFile.Index

/-! Uploading a modified file, from `pfsupload.c`.

The parts that the index names come from the data file, the rest the server copies from
the old revision. Requests go out without waiting for answers. What the network, the
file system and other threads do at each moment is the environment. -/
namespace Pclsync.OpenFile
open Lib.Machine Lib.Files Lib.Intervals

/-! ### The requests -/

inductive Command where
  /-- `upload_writefromfile`. -/
  | writefromfile (uploadoffset uploadid fileid hash offset count : ℕ)
  /-- `upload_write`, with the bytes that follow it. -/
  | write (uploadoffset uploadid : ℕ) (data : Bytes)
deriving DecidableEq, Repr

/-- What the environment does, by the moment it is asked. -/
structure Env where
  /-- `psync_socket_pendingdata` or `psync_select_in`. -/
  readable : ℕ → Bool
  /-- `get_result`: the `result` of a response. -/
  getResult : ℕ → Option ℕ
  /-- `send_command_no_res` and `do_send_command`. -/
  sends : ℕ → Bool
  seeks : ℕ → Bool
  /-- `psync_file_read`: by how much a read falls short of one that starts with the next
  byte, and `none` for an error. -/
  reads : ℕ → Option ℕ
  /-- `psync_socket_writeall_upload`. -/
  writesAll : ℕ → Bool
  /-- `stop_current_upload`. -/
  stops : ℕ → Bool

/-- The connection: the moment, the requests on it, and how many responses were read. -/
structure Api where
  clock : ℕ
  sent : List Command
  answers : ℕ
deriving DecidableEq, Repr

def Api.tick (api : Api) : Api := { api with clock := api.clock + 1 }

def Api.send (api : Api) (c : Command) : Api := { api.tick with sent := api.sent ++ [c] }

inductive NetResult where
  /-- `PSYNC_NET_OK`. -/
  | ok
  /-- `PSYNC_NET_PERMFAIL`. -/
  | permfail
  /-- `PSYNC_NET_TEMPFAIL`. -/
  | tempfail
deriving DecidableEq, Repr

/-- `psync_handle_api_result`. -/
def handleApiResult (result : ℕ) : NetResult :=
  if result ∈ [2003, 2009, 2005, 2029, 2067, 5002, 2007] then .permfail else .tempfail

/-- `upload_modify_send_copy_from`. -/
def sendCopyFrom (env : Env) (uploadid offset length fileid hash : ℕ) (api : Api) : NetResult × Api :=
  if env.sends api.clock then (.ok, api.send (.writefromfile offset uploadid fileid hash offset length))
  else (.tempfail, api.tick)

/-- `PSYNC_COPY_BUFFER_SIZE`. -/
def copyBufferSize : ℕ := 64 * 1024

/-- `psync_file_read` at a position: nothing is read at the end of the file only. -/
def fileRead (env : Env) (clock : ℕ) (fd : Bytes) (len pos : ℕ) : Option Bytes :=
  (env.reads clock).map fun k => pread fd (min len (k + 1)) pos

/-- The loop of `upload_modify_send_local`, with what it sent. -/
def sendChunks (env : Env) (fd : Bytes) (offset length : ℕ) : ℕ → Bytes → Api → Option (NetResult × Bytes × Api)
  | 0, _, _ => none
  | rounds + 1, data, api =>
    if data.length < length then
      if env.stops api.clock then some (.tempfail, data, api.tick)
      else
        let rd := if length - data.length > copyBufferSize then copyBufferSize else length - data.length
        match fileRead env api.clock fd rd (offset + data.length) with
        | none => some (.tempfail, data, api.tick)
        | some [] => some (.permfail, data, api.tick)
        | some chunk =>
          if env.writesAll api.clock then sendChunks env fd offset length rounds (data ++ chunk) api.tick
          else some (.tempfail, data, api.tick)
    else some (.ok, data, api)

/-- `upload_modify_send_local`. Nothing seeks to an offset that `off_t` does not have. -/
def sendLocal (env : Env) (fuel uploadid offset length : ℕ) (fd : Bytes) (api : Api) : Option (NetResult × Api) :=
  if ¬(offset < 2 ^ 63 ∧ env.seeks api.clock) ∨ ¬env.sends api.clock then some (.tempfail, api.tick)
  else (sendChunks env fd offset length fuel [] api.tick).map fun (ret, data, api) =>
    (ret, api.send (.write offset uploadid data))

/-- `upload_modify_read_req`. -/
def readReq (env : Env) (api : Api) : NetResult × Api :=
  match env.getResult api.clock with
  | none => (.tempfail, api.tick)
  | some result =>
    (if result ≠ 0 then handleApiResult result else .ok, { api.tick with answers := api.answers + 1 })

/-! ### The loop -/

def i64min (a b : ℤ) : ℤ := if a < b then a else b

/-- The variables of the loop; `tree` goes on from `cinterval`. -/
structure Loop where
  coff : ℤ
  reqs : ℕ
  tree : IntervalTree
  api : Api
deriving DecidableEq, Repr

inductive Round where
  | goes (s : Loop)
  /-- `break` at a broken interval tree. -/
  | breaks (s : Loop)
  /-- To `err3`, with a call of `perm_fail_upload_task` or not. -/
  | fails (perm : Bool)
deriving DecidableEq, Repr

/-- The checks at the end of a round. -/
def Round.finish (env : Env) (ret : NetResult) (s : Loop) : Round :=
  if ret ≠ .ok then .fails (ret = .permfail)
  else if env.stops s.api.clock then .fails false
  else .goes { s with api := s.api.tick }

/-- A response is read if there is one. -/
def readIfReady (env : Env) (s : Loop) : Except Bool Loop :=
  if s.reqs ≠ 0 ∧ env.readable s.api.clock then
    match readReq env s.api.tick with
    | (.ok, api) => .ok { s with reqs := s.reqs - 1, api := api }
    | (ret, _) => .error (ret = .permfail)
  else .ok { s with api := s.api.tick }

section
variable (env : Env) (fuel uploadid fileid hash : ℕ) (fd : Bytes)

/-- `psync_file_size`. -/
def fileSize : ℤ := fd.length

/-- A round after the response. -/
def sendNext (s : Loop) : Option Round :=
  match s.tree with
  | (from_, to_) :: rest =>
    if from_ > u64OfS64 s.coff then
      let len := s64 (i64min (s64 from_) (fileSize fd) - s.coff)
      let (ret, api) := sendCopyFrom env uploadid (u64OfS64 s.coff) (u64OfS64 len) fileid hash s.api
      some (.finish env ret { s with reqs := s.reqs + 1, coff := s64 (s.coff + len), api := api })
    else if from_ ≤ u64OfS64 s.coff ∧ to_ > u64OfS64 s.coff then do
      let len := s64 (i64min (s64 to_) (fileSize fd) - s.coff)
      let (ret, api) ← sendLocal env fuel uploadid (u64OfS64 s.coff) (u64OfS64 len) fd s.api
      some (.finish env ret ⟨s64 to_, s.reqs + 1, rest, api⟩)
    else some (.breaks s)
  | [] =>
    let (ret, api) :=
      sendCopyFrom env uploadid (u64OfS64 s.coff) (u64OfS64 (fileSize fd - s.coff)) fileid hash s.api
    some (.finish env ret { s with reqs := s.reqs + 1, coff := fileSize fd, api := api })

def uploadLoop : ℕ → Loop → Option (Except Bool Loop)
  | 0, _ => none
  | rounds + 1, s =>
    if s.coff < fileSize fd then
      match readIfReady env s with
      | .error perm => some (.error perm)
      | .ok s => do
        match ← sendNext env fuel uploadid fileid hash fd s with
        | .goes s => uploadLoop rounds s
        | .breaks s => some (.ok s)
        | .fails perm => some (.error perm)
    else some (.ok s)

end

/-- The responses that are left. -/
def readRest (env : Env) : ℕ → Api → Except Bool Api
  | 0, api => .ok api
  | reqs + 1, api =>
    match readReq env api with
    | (.ok, api) => readRest env reqs api
    | (ret, _) => .error (ret = .permfail)

/-! ### The whole upload -/

/-- How a cache file opens. -/
inductive Opening where
  | opens
  /-- `P_NOENT`. -/
  | missing
  | fails
deriving DecidableEq, Repr

/-- What the calls outside the loop answer. -/
structure Calls where
  openIndex : Opening
  /-- The index file was read. -/
  indexReads : Bool
  apipoolGet : Bool
  cleanUploads : Bool
  /-- `upload_create`: the result and the upload id. -/
  create : Option (ℕ × ℕ)
  openData : Opening
  dataSize : Bool
  /-- `psync_fs_get_file_writeid`. -/
  fileWriteid : ℤ

inductive Exit where
  /-- `large_upload_save` is called. -/
  | save (uploadid : ℕ) (api : Api)
  /-- A return, after `perm_fail_upload_task` or not. -/
  | returned (ret : ℤ) (perm : Bool)
deriving DecidableEq, Repr

/-- `upload_modify` for these contents of the index file and of the data file. -/
def uploadModify (calls : Calls) (env : Env) (fuel fileid hash writeid : ℕ) (index fd : Bytes) : Option Exit :=
  match calls.openIndex with
  | .missing => some (.returned 0 true)
  | .fails => some (.returned (-1) false)
  | .opens =>
    if ¬calls.indexReads then some (.returned (-1) false)
    else do
      let (cnt, tree) ← loadIntervalTree index index.length []
      if cnt = -1 ∨ ¬calls.apipoolGet ∨ ¬calls.cleanUploads then some (.returned (-1) false)
      else match calls.create with
      | none => some (.returned (-1) false)
      | some (result, uploadid) =>
        if result ≠ 0 then some (.returned (if handleApiResult result = .tempfail then -1 else 0) false)
        else match calls.openData with
        | .missing => some (.returned 0 true)
        | .fails => some (.returned (-1) false)
        | .opens =>
          if ¬calls.dataSize then some (.returned (-1) false)
          else do
            match ← uploadLoop env fuel uploadid fileid hash fd fuel ⟨0, 0, tree, ⟨0, [], 0⟩⟩ with
            | .error perm => some (.returned (-1) perm)
            | .ok s =>
              match readRest env s.reqs s.api with
              | .error perm => some (.returned (-1) perm)
              | .ok api =>
                if u64OfS64 calls.fileWriteid ≠ writeid then some (.returned (-1) false)
                else some (.save uploadid api)

/-! ### What the requests assemble -/

def Command.uploadoffset : Command → ℕ
  | .writefromfile off .. => off
  | .write off .. => off

def Command.count : Command → ℕ
  | .writefromfile _ _ _ _ _ count => count
  | .write _ _ data => data.length

/-- The requests write from `a` to `b`, one where the one before it ended. -/
def Chained : ℕ → ℕ → List Command → Prop
  | a, b, [] => a = b
  | a, b, c :: cs => c.uploadoffset = a ∧ Chained (a + c.count) b cs

/-- A request takes its bytes from where they are: the data file has the ones in `real`,
the old revision the others. -/
def Command.Right (uploadid fileid hash : ℕ) (fd : Bytes) (real : Set ℕ) : Command → Prop
  | .writefromfile uploadoffset id file revision off count =>
    id = uploadid ∧ file = fileid ∧ revision = hash ∧ off = uploadoffset ∧
      ∀ x, off ≤ x → x < off + count → x ∉ real
  | .write uploadoffset id data =>
    id = uploadid ∧ data = pread fd data.length uploadoffset ∧
      ∀ x, uploadoffset ≤ x → x < uploadoffset + data.length → x ∈ real

theorem Chained.concat {a b d : ℕ} {cs : List Command} {c : Command} (h : Chained a b cs) (hc : c.uploadoffset = b)
    (hd : b + c.count = d) : Chained a d (cs ++ [c]) := by
  induction cs generalizing a with
  | nil =>
    obtain rfl : a = b := h
    exact ⟨hc, hd⟩
  | cons c' cs ih => exact ⟨h.1, ih h.2⟩

/-! ### One request -/

variable {env : Env} {uploadid fileid hash : ℕ} {fd : Bytes}

theorem pread_self {len off : ℕ} : pread fd (pread fd len off).length off = pread fd len off := by
  rw [pread, pread, List.length_take, ← List.take_eq_take_min]

/-- What the loop sends is the file from its offset on. -/
theorem sendChunks_ok {offset length fuel : ℕ} {data data' : Bytes} {api api' : Api}
    (hdata : data = pread fd data.length offset) (hlength : data.length ≤ length)
    (h : sendChunks env fd offset length fuel data api = some (.ok, data', api')) :
    data' = pread fd length offset ∧ data'.length = length ∧ api'.sent = api.sent ∧ api'.answers = api.answers := by
  induction fuel generalizing data api with
  | zero => cases h
  | succ fuel ih =>
    rw [sendChunks] at h
    by_cases hmore : data.length < length
    · rw [if_pos hmore] at h
      by_cases hstop : env.stops api.clock
      · rw [if_pos hstop] at h
        cases h
      rw [if_neg hstop] at h
      generalize hrd : (if length - data.length > copyBufferSize then copyBufferSize else length - data.length) = rd at h
      have hrdle : rd ≤ length - data.length := by
        rw [← hrd]
        split_ifs with hbig
        · exact Nat.le_of_lt hbig
        · exact le_rfl
      cases hread : fileRead env api.clock fd rd (offset + data.length) with
      | none => simp only [hread, Option.some.injEq, Prod.mk.injEq, reduceCtorEq, false_and] at h
      | some chunk =>
        obtain ⟨k, -, hchunk⟩ := Option.map_eq_some_iff.mp hread
        cases chunk with
        | nil => simp only [hread, Option.some.injEq, Prod.mk.injEq, reduceCtorEq, false_and] at h
        | cons b chunk =>
          simp only [hread] at h
          by_cases hwrite : env.writesAll api.clock
          · rw [if_pos hwrite] at h
            have hself : (b :: chunk) = pread fd (b :: chunk).length (offset + data.length) := by
              rw [← hchunk, pread_self]
            have hle : (b :: chunk).length ≤ length - data.length := by
              rw [← hchunk, length_pread]
              omega
            have hdata' : data ++ b :: chunk = pread fd (data ++ b :: chunk).length offset := by
              rw [List.length_append, pread_add, ← hdata, ← hself]
            have hlength' : (data ++ b :: chunk).length ≤ length := by
              rw [List.length_append]
              omega
            have hrest := ih hdata' hlength' h
            exact hrest
          · rw [if_neg hwrite] at h
            cases h
    · rw [if_neg hmore] at h
      obtain ⟨-, rfl, rfl⟩ := Prod.mk.inj (Option.some.inj h) |>.imp_right Prod.mk.inj
      have hfull : data.length = length := le_antisymm hlength (Nat.not_lt.mp hmore)
      exact ⟨hfull ▸ hdata, hfull, rfl, rfl⟩

theorem sendLocal_ok {fuel offset length : ℕ} {api api' : Api}
    (h : sendLocal env fuel uploadid offset length fd api = some (.ok, api')) :
    offset < 2 ^ 63 ∧ (pread fd length offset).length = length ∧
      api'.sent = api.sent ++ [.write offset uploadid (pread fd length offset)] ∧ api'.answers = api.answers := by
  rw [sendLocal] at h
  split_ifs at h with hfail
  · cases h
  obtain ⟨⟨ret, data, api₁⟩, hchunks, hpair⟩ := Option.map_eq_some_iff.mp h
  obtain ⟨rfl, rfl⟩ := Prod.mk.inj hpair
  have hnil : ([] : Bytes) = pread fd ([] : Bytes).length offset := by
    rw [pread]
    rfl
  obtain ⟨rfl, hlength, hsent, hanswers⟩ := sendChunks_ok hnil (Nat.zero_le _) hchunks
  rw [not_or, not_not] at hfail
  refine ⟨hfail.1.1, hlength, ?_, hanswers⟩
  rw [Api.send, hsent]
  rfl

theorem sendCopyFrom_ok {offset length : ℕ} {api : Api}
    (h : (sendCopyFrom env uploadid offset length fileid hash api).1 = .ok) :
    (sendCopyFrom env uploadid offset length fileid hash api).2 =
      api.send (.writefromfile offset uploadid fileid hash offset length) := by
  rw [sendCopyFrom] at h ⊢
  split_ifs with hsends
  · rfl
  · rw [if_neg hsends] at h
    cases h

/-- A round that does not fail sent its request. -/
theorem finish_cases (env : Env) (ret : NetResult) (s : Loop) :
    (∃ perm, Round.finish env ret s = .fails perm) ∨
      ret = .ok ∧ Round.finish env ret s = .goes { s with api := s.api.tick } := by
  rw [Round.finish]
  split_ifs with hret hstop
  · exact .inl ⟨_, rfl⟩
  · exact .inl ⟨_, rfl⟩
  · exact .inr ⟨not_not.mp hret, rfl⟩

/-! ### The loop of the requests -/

/-- What the requests so far have done when the loop stands at `coff`. -/
structure Sending (uploadid fileid hash : ℕ) (fd : Bytes) (tree : IntervalTree) (coff : ℕ) (s : Loop) : Prop where
  coff_eq : s.coff = coff
  coff_lt : coff < 2 ^ 63
  split : ∃ before, tree = before ++ s.tree ∧ ∀ i ∈ before, i.2 ≤ coff
  ahead : ∀ i ∈ s.tree, coff ≤ i.1
  chained : Chained 0 (min coff fd.length) s.api.sent
  right : ∀ c ∈ s.api.sent, c.Right uploadid fileid hash fd (points tree)
  answers : s.reqs + s.api.answers = s.api.sent.length

/-- The loop went to an offset that no file has. -/
structure Lost (s : Loop) : Prop where
  ahead : ∃ from_ to_ rest, s.tree = (from_, to_) :: rest ∧ 2 ^ 63 ≤ from_ ∧ from_ < to_ ∧ to_ < 2 ^ 64 ∧
    s.coff = s64 from_

variable {tree : IntervalTree} {coff : ℕ} {s s' : Loop}

/-- Reading a response or not, the loop stays where it is. -/
theorem readIfReady_ok (h : readIfReady env s = .ok s') :
    s'.coff = s.coff ∧ s'.tree = s.tree ∧ s'.api.sent = s.api.sent ∧
      s'.reqs + s'.api.answers = s.reqs + s.api.answers := by
  rw [readIfReady] at h
  by_cases hready : s.reqs ≠ 0 ∧ env.readable s.api.clock
  · rw [if_pos hready, readReq] at h
    cases hresult : env.getResult s.api.tick.clock with
    | none =>
      simp only [hresult] at h
      cases h
    | some result =>
      simp only [hresult] at h
      by_cases hzero : result = 0
      · simp only [hzero, ne_eq, not_true_eq_false, if_false] at h
        obtain rfl := Except.ok.inj h
        refine ⟨rfl, rfl, rfl, ?_⟩
        show s.reqs - 1 + (s.api.answers + 1) = s.reqs + s.api.answers
        have := hready.1
        omega
      · simp only [hzero, ne_eq, not_false_eq_true, if_true, handleApiResult] at h
        split_ifs at h
  · rw [if_neg hready] at h
    obtain rfl := Except.ok.inj h
    exact ⟨rfl, rfl, rfl, rfl⟩

theorem Sending.readIfReady (hs : Sending uploadid fileid hash fd tree coff s) (h : readIfReady env s = .ok s') :
    Sending uploadid fileid hash fd tree coff s' := by
  obtain ⟨hcoff, htree, hsent, hanswers⟩ := readIfReady_ok h
  exact ⟨hcoff.trans hs.coff_eq, hs.coff_lt, htree ▸ hs.split, htree ▸ hs.ahead, hsent ▸ hs.chained, hsent ▸ hs.right,
    hanswers.trans (hsent ▸ hs.answers)⟩

theorem Lost.readIfReady (hs : Lost s) (h : OpenFile.readIfReady env s = .ok s') : Lost s' := by
  obtain ⟨hcoff, htree, -⟩ := readIfReady_ok h
  obtain ⟨from_, to_, rest, heq, hrest⟩ := hs.ahead
  exact ⟨from_, to_, rest, htree.trans heq, hrest.1, hrest.2.1, hrest.2.2.1, hcoff.trans hrest.2.2.2⟩

theorem Lost.coff_neg (hs : Lost s) : s.coff < 0 := by
  obtain ⟨from_, to_, rest, -, hlarge, hft, hto, hcoff⟩ := hs.ahead
  rw [hcoff, s64, Int.bmod_def]
  omega

theorem u64OfS64_s64_natCast {x : ℕ} (h : x < 2 ^ 64) : u64OfS64 (s64 x) = x := by
  rw [u64OfS64_s64]
  omega

/-- From there no request goes out. -/
theorem Lost.sendNext {fuel : ℕ} {r : Round} (hs : Lost s)
    (h : OpenFile.sendNext env fuel uploadid fileid hash fd s = some r) : ∃ perm, r = .fails perm := by
  obtain ⟨from_, to_, rest, htree, hlarge, hft, hto, hcoff⟩ := hs.ahead
  have hu : u64OfS64 s.coff = from_ := by rw [hcoff, u64OfS64_s64_natCast (hft.trans hto)]
  simp only [OpenFile.sendNext, htree, hu, gt_iff_lt, lt_irrefl, if_false, le_refl, hft, true_and, if_true] at h
  obtain ⟨⟨ret, api⟩, hlocal, h⟩ := Option.bind_eq_some_iff.mp h
  have hret : ret ≠ .ok := by
    rintro rfl
    exact absurd (sendLocal_ok hlocal).1 (Nat.not_lt.mpr hlarge)
  refine ⟨decide (ret = .permfail), ?_⟩
  rw [← Option.some.inj h, Round.finish, if_pos hret]

theorem s64_add_s64 (x y : ℤ) : s64 (x + s64 y) = s64 (x + y) := Int.add_bmod_bmod ..

theorem s64_natCast_of_ge {n : ℕ} (hlarge : 2 ^ 63 ≤ n) (hn : n < 2 ^ 64) : s64 n = n - 2 ^ 64 := by
  rw [s64, Int.bmod_def]
  omega

/-- How much of an interval, or of what is before it, is in the file. -/
theorem s64_i64min {n m k : ℕ} (hn : n < 2 ^ 63) (hm : m < 2 ^ 63) (hk : k ≤ min n m) :
    s64 (i64min (s64 n) m - k) = ((min n m - k : ℕ) : ℤ) := by
  have hs : s64 n = n := s64_of_range (by omega) (by omega)
  have hmin : i64min n m = ((min n m : ℕ) : ℤ) := by
    rw [i64min]
    split_ifs
    · omega
    · omega
  rw [hs, hmin, s64_of_range (by omega) (by omega)]
  omega

/-- An offset with the sign bit is before every other one. -/
theorem i64min_large {n m : ℕ} (hlarge : 2 ^ 63 ≤ n) (hn : n < 2 ^ 64) : i64min (s64 n) m = n - 2 ^ 64 := by
  rw [i64min, s64_natCast_of_ge hlarge hn, if_pos (by omega)]

/-- A request for the part up to `coff'`. -/
theorem Sending.next {coff' reqs : ℕ} {rest : IntervalTree} {c : Command} {api : Api}
    (hs : Sending uploadid fileid hash fd tree coff s) (hlt : coff' < 2 ^ 63)
    (hsplit : ∃ before, tree = before ++ rest ∧ ∀ i ∈ before, i.2 ≤ coff') (hahead : ∀ i ∈ rest, coff' ≤ i.1)
    (hoffset : c.uploadoffset = min coff fd.length) (hcount : min coff fd.length + c.count = min coff' fd.length)
    (hright : c.Right uploadid fileid hash fd (points tree)) (hsent : api.sent = s.api.sent ++ [c])
    (hanswers : api.answers = s.api.answers) (hreqs : reqs = s.reqs + 1) :
    Sending uploadid fileid hash fd tree coff' ⟨coff', reqs, rest, api⟩ := by
  refine ⟨rfl, hlt, hsplit, hahead, ?_, ?_, ?_⟩
  · show Chained 0 _ api.sent
    rw [hsent]
    exact hs.chained.concat hoffset hcount
  · show ∀ c ∈ api.sent, _
    rw [hsent]
    exact List.forall_mem_append.mpr ⟨hs.right, List.forall_mem_singleton.mpr hright⟩
  · show reqs + api.answers = api.sent.length
    rw [hsent, List.length_append, List.length_singleton, ← hs.answers, hanswers, hreqs]
    omega

/-- What an interval that is still ahead does not have. -/
theorem Sending.not_mem_points (hs : Sending uploadid fileid hash fd tree coff s) {x : ℕ} (hx : coff ≤ x)
    (hahead : ∀ i ∈ s.tree, x < i.1) : x ∉ points tree := by
  rintro ⟨i, hi, hlo, hhi⟩
  obtain ⟨before, rfl, hbefore⟩ := hs.split
  rcases List.mem_append.mp hi with hi | hi
  · have := hbefore i hi
    omega
  · have := hahead i hi
    omega

/-- A round sends the part up to where the next interval begins or ends, or it fails. -/
theorem Sending.sendNext {fuel : ℕ} {r : Round} (hs : Sending uploadid fileid hash fd tree coff s)
    (hmore : coff < fd.length) (hfd : fd.length < 2 ^ 63) (hsep : Separated tree) (hbound : ∀ i ∈ tree, i.2 < 2 ^ 64)
    (h : OpenFile.sendNext env fuel uploadid fileid hash fd s = some r) :
    (∃ perm, r = .fails perm) ∨
      ∃ s', r = .goes s' ∧ ((∃ coff', Sending uploadid fileid hash fd tree coff' s') ∨ Lost s') := by
  have hcoff := hs.coff_eq
  have hu : u64OfS64 s.coff = coff := by rw [hcoff, u64OfS64_natCast (by omega)]
  have hmin : min coff fd.length = coff := min_eq_left hmore.le
  obtain ⟨before, hsplit, hbefore⟩ := hs.split
  cases htree : s.tree with
  | nil =>
    have hlen : u64OfS64 (fileSize fd - s.coff) = fd.length - coff := by
      rw [hcoff, fileSize, u64OfS64]
      omega
    simp only [OpenFile.sendNext, htree, hu, hlen] at h
    obtain rfl := Option.some.inj h
    rcases finish_cases env _ _ with hfail | ⟨hok, hgoes⟩
    · exact .inl hfail
    refine .inr ⟨_, hgoes, .inl ⟨fd.length, ?_⟩⟩
    rw [sendCopyFrom_ok hok]
    refine hs.next hfd ⟨before, htree ▸ hsplit, fun i hi => (hbefore i hi).trans hmore.le⟩ (List.forall_mem_nil _)
      (c := .writefromfile coff uploadid fileid hash coff (fd.length - coff)) hmin.symm ?_ ?_ rfl rfl rfl
    · rw [hmin, min_self]
      exact Nat.add_sub_cancel' hmore.le
    · exact ⟨rfl, rfl, rfl, rfl, fun x hlo _ => hs.not_mem_points hlo (by rw [htree]; exact List.forall_mem_nil _)⟩
  | cons i rest =>
    obtain ⟨from_, to_⟩ := i
    rw [htree] at hsplit
    have hmem : (from_, to_) ∈ tree := by simp [hsplit]
    have hft : from_ < to_ := hsep.nonempty _ hmem
    have hto : to_ < 2 ^ 64 := hbound _ hmem
    have hle : coff ≤ from_ := hs.ahead (from_, to_) (by simp [htree])
    have hgap : ∀ j ∈ rest, to_ < j.1 := fun j hj => by
      rw [hsplit] at hsep
      exact hsep.after.2 j hj
    simp only [OpenFile.sendNext, htree, hu] at h
    by_cases hahead : from_ > coff
    · -- the old revision has everything before the interval
      rw [if_pos hahead] at h
      obtain rfl := Option.some.inj h
      rcases finish_cases env _ _ with hfail | ⟨hok, hgoes⟩
      · exact .inl hfail
      refine .inr ⟨_, hgoes, ?_⟩
      rw [sendCopyFrom_ok hok, hcoff]
      by_cases hlarge : 2 ^ 63 ≤ from_
      · refine .inr ⟨from_, to_, rest, rfl, hlarge, hft, hto, ?_⟩
        have hfrom : from_ < 2 ^ 64 := hft.trans hto
        have hmin' : i64min (s64 from_) (fileSize fd) = s64 from_ :=
          (i64min_large hlarge hfrom).trans (s64_natCast_of_ge hlarge hfrom).symm
        simp only [hmin', s64_add_s64, add_sub_cancel]
        exact Int.bmod_bmod
      · have hto63 : from_ < 2 ^ 63 := Nat.not_le.mp hlarge
        have hlen : s64 (i64min (s64 from_) (fileSize fd) - coff) = ((min from_ fd.length - coff : ℕ) : ℤ) :=
          s64_i64min hto63 hfd (by omega)
        have hnext : s64 (coff + ((min from_ fd.length - coff : ℕ) : ℤ)) = ((min from_ fd.length : ℕ) : ℤ) := by
          rw [s64_of_range (by omega) (by omega)]
          omega
        refine .inl ⟨min from_ fd.length, ?_⟩
        rw [hlen, hnext, u64OfS64_natCast (by omega)]
        refine hs.next (by omega) ⟨before, hsplit, fun i hi => (hbefore i hi).trans (by omega)⟩ ?_
          (c := .writefromfile coff uploadid fileid hash coff (min from_ fd.length - coff)) hmin.symm ?_ ?_ rfl rfl rfl
        · exact List.forall_mem_cons.mpr ⟨min_le_left .., fun j hj => by have := hgap j hj; omega⟩
        · show min coff fd.length + (min from_ fd.length - coff) = _
          omega
        · refine ⟨rfl, rfl, rfl, rfl, fun x hlo hhi => hs.not_mem_points hlo ?_⟩
          rw [htree]
          exact List.forall_mem_cons.mpr ⟨by simp only; omega, fun j hj => by have := hgap j hj; omega⟩
    · obtain rfl : from_ = coff := le_antisymm (Nat.not_lt.mp hahead) hle
      rw [if_neg hahead, if_pos ⟨le_rfl, hft⟩] at h
      obtain ⟨⟨ret, api⟩, hlocal, h⟩ := Option.bind_eq_some_iff.mp h
      obtain rfl := Option.some.inj h
      rcases finish_cases env ret ⟨s64 to_, s.reqs + 1, rest, api⟩ with hfail | ⟨rfl, hgoes⟩
      · exact .inl hfail
      obtain ⟨-, hlength, hsent, hanswers⟩ := sendLocal_ok hlocal
      rw [hcoff] at hlength hsent
      have hsmall : to_ < 2 ^ 63 := by
        -- a longer part would end at the end of the file
        by_contra hlarge
        have hlen : u64OfS64 (s64 (i64min (s64 to_) (fileSize fd) - from_)) = to_ - from_ := by
          rw [fileSize, i64min_large (Nat.not_lt.mp hlarge) hto, u64OfS64_s64]
          omega
        rw [hlen, length_pread] at hlength
        omega
      have hlen : u64OfS64 (s64 (i64min (s64 to_) (fileSize fd) - from_)) = min to_ fd.length - from_ := by
        rw [fileSize, s64_i64min hsmall hfd (by omega), u64OfS64_natCast (by omega)]
      rw [hlen] at hlength hsent
      refine .inr ⟨_, hgoes, .inl ⟨to_, ?_⟩⟩
      rw [s64_of_range (by omega) (by omega)]
      refine hs.next hsmall ⟨before ++ [(from_, to_)], by rw [hsplit, List.append_assoc]; rfl, ?_⟩ (fun j hj => (hgap j hj).le)
        (c := .write from_ uploadid (pread fd (min to_ fd.length - from_) from_)) hmin.symm ?_ ?_ hsent hanswers rfl
      · refine List.forall_mem_append.mpr ⟨fun i hi => (hbefore i hi).trans hft.le, ?_⟩
        exact List.forall_mem_singleton.mpr le_rfl
      · show min from_ fd.length + (pread fd (min to_ fd.length - from_) from_).length = _
        rw [hlength]
        omega
      · refine ⟨rfl, pread_self.symm, fun x hlo hhi => ⟨_, hmem, hlo, ?_⟩⟩
        rw [hlength] at hhi
        simp only
        omega

/-- A loop that ends has sent everything up to the end of the file. -/
theorem uploadLoop_ok {fuel rounds : ℕ} (hs : (∃ coff, Sending uploadid fileid hash fd tree coff s) ∨ Lost s)
    (hfd : fd.length < 2 ^ 63) (hsep : Separated tree) (hbound : ∀ i ∈ tree, i.2 < 2 ^ 64)
    (h : uploadLoop env fuel uploadid fileid hash fd rounds s = some (.ok s')) :
    ∃ coff, fd.length ≤ coff ∧ Sending uploadid fileid hash fd tree coff s' := by
  induction rounds generalizing s with
  | zero => cases h
  | succ rounds ih =>
    rw [uploadLoop] at h
    by_cases hmore : s.coff < fileSize fd
    · rw [if_pos hmore] at h
      cases hread : readIfReady env s with
      | error perm =>
        simp only [hread] at h
        cases h
      | ok s₁ =>
        simp only [hread] at h
        obtain ⟨r, hsend, h⟩ := Option.bind_eq_some_iff.mp h
        have hround : (∃ perm, r = .fails perm) ∨
            ∃ s', r = .goes s' ∧ ((∃ coff', Sending uploadid fileid hash fd tree coff' s') ∨ Lost s') := by
          rcases hs with ⟨coff, hs⟩ | hlost
          · have hmore' : coff < fd.length := by
              rw [hs.coff_eq, fileSize] at hmore
              omega
            exact (hs.readIfReady hread).sendNext hmore' hfd hsep hbound hsend
          · exact .inl ((hlost.readIfReady hread).sendNext hsend)
        rcases hround with ⟨perm, rfl⟩ | ⟨s₂, rfl, hs₂⟩
        · cases h
        · exact ih hs₂ h
    · rw [if_neg hmore] at h
      obtain rfl := Except.ok.inj (Option.some.inj h)
      rcases hs with ⟨coff, hs⟩ | hlost
      · refine ⟨coff, ?_, hs⟩
        rw [hs.coff_eq, fileSize] at hmore
        omega
      · refine absurd (hlost.coff_neg.trans_le ?_) hmore
        exact Int.natCast_nonneg _

theorem readRest_ok {reqs : ℕ} {api api' : Api} (h : readRest env reqs api = .ok api') :
    api'.sent = api.sent ∧ api'.answers = api.answers + reqs := by
  induction reqs generalizing api with
  | zero =>
    obtain rfl := Except.ok.inj h
    exact ⟨rfl, rfl⟩
  | succ reqs ih =>
    rw [readRest, readReq] at h
    cases hresult : env.getResult api.clock with
    | none =>
      simp only [hresult] at h
      cases h
    | some result =>
      simp only [hresult] at h
      by_cases hzero : result = 0
      · simp only [hzero, ne_eq, not_true_eq_false, if_false] at h
        obtain ⟨hsent, hanswers⟩ := ih h
        refine ⟨hsent, hanswers.trans ?_⟩
        show api.answers + 1 + reqs = _
        omega
      · simp only [hzero, ne_eq, not_false_eq_true, if_true, handleApiResult] at h
        split_ifs at h

/-- An upload that is saved went through the loop and read the responses that were left. -/
theorem uploadModify_save {calls : Calls} {fuel writeid : ℕ} {index : Bytes} {api : Api}
    (h : uploadModify calls env fuel fileid hash writeid index fd = some (.save uploadid api)) :
    ∃ cnt tree s, loadIntervalTree index index.length [] = some (cnt, tree) ∧
      uploadLoop env fuel uploadid fileid hash fd fuel ⟨0, 0, tree, ⟨0, [], 0⟩⟩ = some (.ok s) ∧
      readRest env s.reqs s.api = .ok api := by
  unfold uploadModify at h
  split at h
  · cases h
  · cases h
  split at h
  · cases h
  obtain ⟨⟨cnt, tree⟩, hload, h⟩ := Option.bind_eq_some_iff.mp h
  dsimp only at h
  split at h
  · cases h
  split at h
  · cases h
  split at h
  · cases h
  split at h
  · cases h
  · cases h
  split at h
  · cases h
  obtain ⟨ended, hloop, h⟩ := Option.bind_eq_some_iff.mp h
  cases ended with
  | error perm => cases h
  | ok s =>
    dsimp only at h
    cases hrest : readRest env s.reqs s.api with
    | error perm =>
      rw [hrest] at h
      cases h
    | ok api' =>
      simp only [hrest] at h
      split at h
      · cases h
      cases h
      exact ⟨cnt, tree, s, hload, hloop, hrest⟩

/-- An upload that is saved wrote the file once and in order: what the index records from
the data file, everything else from the old revision, and every request was answered. -/
theorem upload_assembles {calls : Calls} {fuel writeid : ℕ} {index : Bytes} {api : Api} (hfd : fd.length < 2 ^ 63)
    (h : uploadModify calls env fuel fileid hash writeid index fd = some (.save uploadid api)) :
    Chained 0 fd.length api.sent ∧ (∀ c ∈ api.sent, c.Right uploadid fileid hash fd (recorded index)) ∧
      api.answers = api.sent.length := by
  obtain ⟨cnt, tree, s, hload, hloop, hrest⟩ := uploadModify_save h
  obtain ⟨hsep, hpoints, hfit⟩ := loadIntervalTree_spec hload
  have hbound : ∀ i ∈ tree, i.2 < 2 ^ 64 := by
    intro i hi
    have hlt := hsep.nonempty i hi
    obtain ⟨rec, hrec, -, hlast⟩ : i.2 - 1 ∈ recorded index := hpoints ▸ ⟨i, hi, by omega, by omega⟩
    have := (hfit rec hrec).2
    omega
  have hstart : Sending uploadid fileid hash fd tree 0 ⟨0, 0, tree, ⟨0, [], 0⟩⟩ :=
    ⟨rfl, by decide, ⟨[], rfl, List.forall_mem_nil _⟩, fun _ _ => Nat.zero_le _, (Nat.zero_min _).symm,
      List.forall_mem_nil _, rfl⟩
  obtain ⟨coff, hend, hs⟩ := uploadLoop_ok (.inl ⟨0, hstart⟩) hfd hsep hbound hloop
  obtain ⟨hsent, hanswers⟩ := readRest_ok hrest
  rw [hsent, hanswers, ← hpoints, Nat.add_comm]
  have hchained := hs.chained
  rw [min_eq_right hend] at hchained
  exact ⟨hchained, hs.right, hs.answers⟩

/-- One changed byte in the middle of three. -/
theorem upload_assembles_middle :
    let env : Env := ⟨fun _ => false, fun _ => some 0, fun _ => true, fun _ => true, fun _ => some 0, fun _ => true,
      fun _ => false⟩
    let calls : Calls := ⟨.opens, true, true, true, some (0, 7), .opens, true, 5⟩
    let sent : List Command := [.writefromfile 0 7 8 9 0 1, .write 1 7 [42], .writefromfile 2 7 8 9 2 1]
    let index := FsCrypto.indexRecord (1, 1)
    uploadModify calls env 9 8 9 5 index [0, 42, 0] = some (.save 7 ⟨14, sent, 3⟩) ∧ Chained 0 3 sent ∧
      ∀ c ∈ sent, c.Right 7 8 9 [0, 42, 0] (recorded index) := by
  intro env calls sent index
  have hrun : uploadModify calls env 9 8 9 5 index [0, 42, 0] = some (.save 7 ⟨14, sent, 3⟩) := by decide +kernel
  obtain ⟨hchained, hright, -⟩ := upload_assembles (by decide) hrun
  exact ⟨hrun, hchained, hright⟩

end Pclsync.OpenFile
