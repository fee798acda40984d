import Pclsync.Lib.Machine
import Pclsync.Lib.Pipelined
import Pclsync.Lib.Transition

/-! `upload_big_file` of `pupload.c`, from the list of ranges on: the commands are sent without waiting for the answers,
and a copy that the server rejects is made an upload, from which the list is sent again.

The server answers the commands of a connection in their order. Of a byte there is only where it is from. -/
namespace Pclsync.Transfers.BlockUpload
open Lib.Machine Lib.Pipelined Lib.Transition

def copyBufferSize : ℕ := 64 * 1024

inductive RangeType where
  | upload
  | copyFile (fileid hash : ℕ)
  | copyUpload (uploadid : ℕ)
  | last
deriving DecidableEq, Repr

/-- `psync_upload_range_list_t`. -/
structure Range where
  uploadoffset : ℕ
  off : ℕ
  len : ℕ
  type : RangeType
  id : ℕ
deriving DecidableEq, Repr

/-- Where a byte is from: the local file, a file on the server or another upload, and its offset there. -/
inductive Byte where
  | localFile (offset : ℕ)
  | file (fileid hash offset : ℕ)
  | upload (uploadid offset : ℕ)
deriving DecidableEq, Repr

inductive Request where
  | uploadWrite (data : List Byte)
  | uploadWriteFromFile (fileid hash offset count : ℕ)
  | uploadWriteFromUpload (readuploadid offset count : ℕ)
  | uploadInfo
deriving DecidableEq, Repr

/-- `le` is the place in the list that the command is for. -/
structure Command where
  le : ℕ
  uploadoffset : ℕ
  id : ℕ
  request : Request
deriving DecidableEq, Repr

/-- A command that is rejected may have spoilt its bytes, and may not report its id. -/
inductive Outcome where
  | accepted
  | rejected (spoilt reported : Bool)
deriving DecidableEq, Repr

/-- Where the loop is: at its top, at the answers, at `restart`, in `upload_range`, behind the loop, or at
`upload_save`. -/
inductive Phase where
  | looping
  | reading
  /-- A range was rejected, and the other answers are read. -/
  | draining (id : ℕ)
  | sending
  | writing (data : List Byte)
  | ending
  | saving
  | failed
  /-- `assert(respwait==0)`. -/
  | aborted
deriving DecidableEq, Repr

structure State where
  ranges : List Range
  le : ℕ
  uploadoffset : ℕ
  rid : ℕ
  respwait : ℕ
  phase : Phase
  line : Line Command Outcome
deriving Repr

inductive Event where
  | begin
  /-- `get_result`. With `fits` the size and the checksum are as expected. -/
  | answer (fits : Bool)
  | drain
  | restart
  /-- There are no more answers yet, or none to wait for. -/
  | proceed
  | send
  /-- `psync_file_read`, and the bytes are written to the connection. -/
  | copy (rrd : ℕ)
  | copied
  | save (sameSize : Bool)
  /-- The upload is stopped, or the file or the connection fails. -/
  | fail
  | serve (outcome : Outcome)
deriving DecidableEq, Repr

/-- The bytes from an offset on. -/
def bytesOf (source : ℕ → Byte) (off len : ℕ) : List Byte := (List.range len).map fun i => source (off + i)

namespace Request

def bytes : Request → List Byte
  | .uploadWrite data => data
  | .uploadWriteFromFile fileid hash offset count => bytesOf (.file fileid hash) offset count
  | .uploadWriteFromUpload readuploadid offset count => bytesOf (.upload readuploadid) offset count
  | .uploadInfo => []

end Request

def Command.Covers (c : Command) (o : ℕ) : Prop := c.uploadoffset ≤ o ∧ o < c.uploadoffset + c.request.bytes.length

instance (c : Command) (o : ℕ) : Decidable (c.Covers o) := inferInstanceAs (Decidable (_ ∧ _))

/-- What a command changes on the server. -/
def execute (written : ℕ → Option Byte) (p : Command × Outcome) (o : ℕ) : Option Byte :=
  if p.1.Covers o then
    match p.2 with
    | .accepted => p.1.request.bytes[o - p.1.uploadoffset]?
    | .rejected spoilt _ => if spoilt then none else written o
  else written o

namespace State

/-- What the server has of the file. -/
def written (st : State) : ℕ → Option Byte := (st.line.sent.zip st.line.served).foldl execute fun _ => none

/-- A command that is complete, and the next range. -/
def sent (st : State) (r : Range) (request : Request) : State :=
  { st with
    line := st.line.send ⟨st.le, r.uploadoffset, r.id, request⟩
    respwait := st.respwait + 1
    uploadoffset := st.uploadoffset + r.len
    le := st.le + 1
    phase := .looping }

def begin (st : State) : State :=
  match st.ranges[st.le]? with
  | none => { st with phase := .ending }
  | some r =>
    let rid := u32 (st.rid + 1)
    let st := { st with
      ranges := st.ranges.set st.le { r with uploadoffset := st.uploadoffset, id := rid }
      rid
      phase := .reading }
    if r.type = .last then
      { st with line := st.line.send ⟨st.le, st.uploadoffset, rid, .uploadInfo⟩, respwait := st.respwait + 1 }
    else st

/-- An answer is read, while the loop is at `r`. -/
def answer (st : State) (r : Range) (c : Command) (outcome : Outcome) (fits : Bool) : State :=
  let st := { st with line := st.line.receive, respwait := st.respwait - 1 }
  match outcome with
  | .rejected _ reported =>
    let id := if reported then c.id else 0
    if id = 0 then { st with phase := .failed } else { st with phase := .draining id }
  | .accepted =>
    if r.type = .last ∧ r.id = c.id then
      if c.request = .uploadInfo ∧ fits = true then
        if st.respwait = 0 then st else { st with phase := .aborted }
      else { st with phase := .failed }
    else st

def restart (st : State) (id : ℕ) : State :=
  match st.ranges.findIdx? (·.id = id) with
  | none => { st with phase := .failed }
  | some le2 =>
    match st.ranges[le2]? with
    | none => { st with phase := .failed }
    | some r =>
      if r.type = .last ∨ r.type = .upload then { st with phase := .failed }
      else
        { st with
          ranges := st.ranges.set le2 { r with type := .upload, off := r.uploadoffset }
          uploadoffset := r.uploadoffset
          le := le2
          phase := .sending }

def send (st : State) (r : Range) : State :=
  match r.type with
  | .upload => { st with phase := .writing [] }
  | .copyFile fileid hash => st.sent r (.uploadWriteFromFile fileid hash r.off r.len)
  | .copyUpload uploadid => st.sent r (.uploadWriteFromUpload uploadid r.off r.len)
  | .last => { st with phase := .ending }

def run (st : State) : Event → Option State
  | .begin => if st.phase = .looping then some st.begin else none
  | .answer fits =>
    match st.phase, st.ranges[st.le]?, st.line.answer with
    | .reading, some r, some (c, outcome) => if st.respwait = 0 then none else some (st.answer r c outcome fits)
    | _, _, _ => none
  | .drain =>
    match st.phase, st.line.answer with
    | .draining _, some _ => if st.respwait = 0 then none else some { st with line := st.line.receive, respwait := st.respwait - 1 }
    | _, _ => none
  | .restart =>
    match st.phase with
    | .draining id => if st.respwait = 0 then some (st.restart id) else none
    | _ => none
  | .proceed =>
    match st.phase, st.ranges[st.le]? with
    | .reading, some r => if st.respwait = 0 ∨ r.type ≠ .last then some { st with phase := .sending } else none
    | _, _ => none
  | .send =>
    match st.phase, st.ranges[st.le]? with
    | .sending, some r => some (st.send r)
    | _, _ => none
  | .copy rrd =>
    match st.phase, st.ranges[st.le]? with
    | .writing data, some r =>
      if data.length < r.len ∧ 0 < rrd ∧ rrd ≤ min (r.len - data.length) copyBufferSize then
        some { st with phase := .writing (data ++ bytesOf .localFile (r.off + data.length) rrd) }
      else none
    | _, _ => none
  | .copied =>
    match st.phase, st.ranges[st.le]? with
    | .writing data, some r => if data.length < r.len then none else some (st.sent r (.uploadWrite data))
    | _, _ => none
  | .save sameSize =>
    if st.phase = .ending then some { st with phase := if sameSize then .saving else .failed } else none
  | .fail => if st.phase = .saving then none else some { st with phase := .failed }
  | .serve outcome => (st.line.serve outcome).map fun line => { st with line }

end State

def step (st : State) (e : Event) (st' : State) : Prop := st.run e = some st'

/-! ## The plan -/

/-- Where a range of a plan starts in the file. -/
def start (offset : ℕ) (plan : List Range) (j : ℕ) : ℕ := offset + ((plan.take j).map Range.len).sum

/-- A plan covers the file from an offset on. The ids and offsets of its ranges are not set yet. -/
structure Plan (offset fsize : ℕ) (plan : List Range) : Prop where
  covers : start offset plan plan.length = max offset fsize
  types : ∀ r ∈ plan, r.type ≠ .last
  offs : ∀ j r, plan[j]? = some r → r.type = .upload → r.off = start offset plan j

/-- At the loop. -/
structure Start (offset : ℕ) (plan : List Range) (st : State) : Prop where
  ranges : ∃ r, r.type = .last ∧ st.ranges = plan ++ [r]
  offset : st.uploadoffset = offset
  first : st.le = 0
  respwait : st.respwait = 0
  phase : st.phase = .looping
  line : st.line = .fresh

/-- The byte of a range that stands for a copy. -/
def Range.copied (r : Range) (i : ℕ) : Option Byte :=
  match r.type with
  | .copyFile fileid hash => some (.file fileid hash (r.off + i))
  | .copyUpload uploadid => some (.upload uploadid (r.off + i))
  | _ => none

/-- A byte is that of the local file, or the plan has a copy of it. -/
def Planned (offset : ℕ) (plan : List Range) (o : ℕ) (b : Byte) : Prop :=
  b = .localFile o ∨
    ∃ j r, plan[j]? = some r ∧ start offset plan j ≤ o ∧ o < start offset plan j + r.len ∧
      r.copied (o - start offset plan j) = some b

/-- The server has the file as it was planned, a copy that was rejected was sent again with all that follows it, and
for each command an answer was read. -/
structure Uploaded (offset fsize : ℕ) (plan : List Range) (st : State) : Prop where
  bytes : ∀ o, offset ≤ o → o < fsize → ∃ b, st.written o = some b ∧ Planned offset plan o b
  again : ∀ (k : ℕ) (c : Command) (spoilt reported : Bool), st.line.sent[k]? = some c → st.line.served[k]? = some (.rejected spoilt reported) →
    ∀ (j : ℕ) (r : Range), c.le ≤ j → plan[j]? = some r → ∃ (k' : ℕ) (c' : Command), k < k' ∧ st.line.sent[k']? = some c' ∧ c'.le = j ∧
      c'.uploadoffset = start offset plan j ∧ c'.request.bytes.length = r.len ∧ st.line.served[k']? = some .accepted
  answers : st.line.read = st.line.sent.length ∧ st.line.served.length = st.line.sent.length

end Pclsync.Transfers.BlockUpload
