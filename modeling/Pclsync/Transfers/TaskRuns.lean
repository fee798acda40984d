import Pclsync.Lib.Framing
import Pclsync.Lib.Pipelined
import Pclsync.Lib.Transition

/-! `psync_fsupload_run_tasks` and `psync_fsupload_process_tasks` of `pfsupload.c`: the commands of a list of tasks are
sent without waiting, and a second cursor gives the answers to their tasks.

What a command says, and what is made of an answer, is left out: `valid` tells what `parse_result` takes. -/
namespace Pclsync.Transfers.TaskRuns
open Lib.Framing Lib.Pipelined Lib.Transition

def directUploadLimit : ℕ := 256 * 1024

/-- `fsupload_task_t`. -/
structure Task where
  type : ℕ
  status : ℕ
  needprocessing : Bool
  ccreat : Bool
  res : Option (List UInt8)
deriving DecidableEq, Repr

/-- What a function of `psync_send_task_func` returns: `0`, `-1` or `-2`. -/
inductive Sending where
  | sent
  | failed
  | deferred
deriving DecidableEq, Repr

/-- Where the loop is: at its top, at the call of the function of a task, at the answers, at the loop that reads the
rest, or behind `psync_fsupload_process_tasks`. -/
inductive Phase where
  | looping
  | sending
  | reading
  | draining
  | done
  /-- `err0`. -/
  | failed
  /-- `assert(&rtask->list!=tasks)`, or a call of `NULL`. -/
  | aborted
deriving DecidableEq, Repr

/-- `line` has the tasks of the commands that were sent, and their answers. Of the answers `incoming` is what was not
read yet. -/
structure State where
  tasks : List Task
  task : ℕ
  rtask : ℕ
  phase : Phase
  reader : Reader
  incoming : List UInt8
  line : Line ℕ (List UInt8)
deriving Repr

inductive Event where
  | visit
  /-- The size of the file to create is known, and the command is written. -/
  | send (size : Option ℕ) (written : Bool)
  /-- `psync_socket_read_noblock` has nothing. -/
  | wouldblock
  | receive (rd : ℕ)
  /-- The connection is lost. -/
  | lost
  | drain
  | serve (body : List UInt8)
deriving DecidableEq, Repr

/-- `psync_send_task_creat`. -/
def sendTaskCreat (size : Option ℕ) (written : Bool) : Sending :=
  match size with
  | none => .failed
  | some size => if directUploadLimit < size then .deferred else if written then .sent else .failed

def sendTask (written : Bool) : Sending := if written then .sent else .failed

/-- `psync_send_task_func`, where `psync_send_task_modify` always defers, and two are `NULL`. -/
def sendTaskFunc (type : ℕ) (size : Option ℕ) (written : Bool) : Option Sending :=
  match type with
  | 1 | 2 | 4 | 6 | 8 | 10 => some (sendTask written)
  | 3 => some (sendTaskCreat size written)
  | 9 => some .deferred
  | _ => none

def sizeofSendTaskFunc : ℕ := 11

/-- A type that the loop passes by. -/
def BadType (type : ℕ) : Prop := type = 0 ∨ sizeofSendTaskFunc ≤ type

instance (type : ℕ) : Decidable (BadType type) := inferInstanceAs (Decidable (_ ∨ _))

/-- Where the cursor stops: the next task whose `needprocessing` is not set. -/
def nextTask (tasks : List Task) (rtask : ℕ) : Option ℕ :=
  ((tasks.drop rtask).findIdx? fun task => !task.needprocessing).map (rtask + ·)

namespace State

def setTask (st : State) (i : ℕ) (task : Task) : State := { st with tasks := st.tasks.set i task }

/-- The loop goes on. -/
def next (st : State) : State := { st with task := st.task + 1, phase := .looping }

def visit (st : State) : State :=
  match st.tasks[st.task]? with
  | none => { st with phase := .draining }
  | some task =>
    if BadType task.type then (st.setTask st.task { task with needprocessing := false }).next
    else if task.status = 11 then (st.setTask st.task { task with needprocessing := true }).next
    else { st.setTask st.task { task with needprocessing := false } with phase := .sending }

def send (st : State) (task : Task) : Option Sending → State
  | none => { st with phase := .aborted }
  | some .failed => { st with phase := .failed }
  | some .deferred => (st.setTask st.task { task with needprocessing := true }).next
  | some .sent =>
    { st.setTask st.task { task with ccreat := if task.type = 3 then true else task.ccreat } with
      line := st.line.send st.task
      phase := .reading }

/-- A task gets its answer, and the cursor is behind it. -/
def give (st : State) (i : ℕ) (task : Task) (body : List UInt8) : State :=
  { st.setTask i { task with res := some body } with rtask := i + 1, line := st.line.receive }

/-- `get_result_async` has a whole answer. -/
def ready (st : State) (valid : List UInt8 → Bool) (body : List UInt8) : State :=
  if valid body = true then
    match nextTask st.tasks st.rtask with
    | none => { st with phase := .aborted }
    | some i =>
      match st.tasks[i]? with
      | none => { st with phase := .aborted }
      | some task => st.give i task body
  else { st with line := st.line.receive, phase := .failed }

/-- `get_result`. -/
def getResult (st : State) (valid : List UInt8 → Bool) (task : Task) : Option State :=
  let ressize := value (st.incoming.take 4)
  if 4 + ressize ≤ st.incoming.length then
    let body := (st.incoming.drop 4).take ressize
    let after := { st with incoming := st.incoming.drop (4 + ressize) }
    if valid body = true then some (after.give st.rtask task body)
    else some { after with line := st.line.receive, phase := .failed }
  else none

def run (valid : List UInt8 → Bool) (st : State) : Event → Option State
  | .visit => if st.phase = .looping then some st.visit else none
  | .send size written =>
    match st.phase, st.tasks[st.task]? with
    | .sending, some task => some (st.send task (sendTaskFunc task.type size written))
    | _, _ => none
  | .wouldblock => if st.phase = .reading then some st.next else none
  | .receive rd =>
    if st.phase = .reading ∧ 0 < rd ∧ rd ≤ st.reader.wants ∧ rd ≤ st.incoming.length then
      let after := { st with incoming := st.incoming.drop rd }
      match st.reader.take (st.incoming.take rd) with
      | .whole body => some ({ after with reader := .init }.ready valid body)
      | .more reader =>
        if st.reader.size = none ∧ reader.size ≠ none then some { after with reader }
        else some { after with reader }.next
    else none
  | .lost =>
    match st.phase with
    | .reading | .draining => some { st with phase := .failed }
    | _ => none
  | .drain =>
    if st.phase = .draining then
      match st.tasks[st.rtask]? with
      | none => some { st with phase := .done }
      | some task => if task.needprocessing = true then some { st with rtask := st.rtask + 1 } else st.getResult valid task
    else none
  | .serve body =>
    if body.length < 2 ^ 32 then
      (st.line.serve body).map fun line => { st with line, incoming := st.incoming ++ frame body }
    else none

/-- The tasks that `psync_fsupload_process_tasks` processes, with their answers. -/
def processed (st : State) : List (ℕ × List UInt8) :=
  (st.tasks.zipIdx.filter fun p => p.1.status ≠ 11).filterMap fun p => p.1.res.map fun body => (p.2, body)

end State

def step (valid : List UInt8 → Bool) (st : State) (e : Event) (st' : State) : Prop := st.run valid e = some st'

structure Start (st : State) : Prop where
  tasks : ∀ task ∈ st.tasks, task.res = none
  task : st.task = 0
  rtask : st.rtask = 0
  phase : st.phase = .looping
  reader : st.reader = .init
  incoming : st.incoming = []
  line : st.line = .fresh

/-- The answer to the command of a task was read. -/
def Answered (valid : List UInt8 → Bool) (st : State) (i : ℕ) (body : List UInt8) : Prop :=
  ∃ k < st.line.read, st.line.sent[k]? = some i ∧ st.line.served[k]? = some body ∧ valid body = true

/-- Each task has the answer to its own command and no other, those that have one are processed, and at the end each
command has one, and nothing else was read. -/
structure Matched (valid : List UInt8 → Bool) (st : State) : Prop where
  own : ∀ i task body, st.tasks[i]? = some task → (task.res = some body ↔ Answered valid st i body)
  once : st.line.sent.Pairwise (· < ·)
  processed : ∀ i body, (i, body) ∈ st.processed ↔ Answered valid st i body
  ends : st.phase = .done → st.line.read = st.line.sent.length ∧ st.line.served.length = st.line.sent.length ∧
    st.reader = .init ∧ st.incoming = []

/-- What goes wrong: the cursor stops at a task of a bad type, which has sent nothing, or `get_result` is called while
the reader has a part of an answer. -/
inductive Drift (st : State) : Event → Prop
  | stops {rd i : ℕ} {body : List UInt8} {task : Task} (hwhole : st.reader.take (st.incoming.take rd) = .whole body)
    (hnext : nextTask st.tasks st.rtask = some i) (htask : st.tasks[i]? = some task) (hbad : BadType task.type) :
    Drift st (.receive rd)
  | waits {task : Task} (htask : st.tasks[st.rtask]? = some task) (hneed : task.needprocessing = false)
    (hbad : BadType task.type) : Drift st .drain
  | splits {task : Task} (htask : st.tasks[st.rtask]? = some task) (hneed : task.needprocessing = false)
    (hpart : st.reader ≠ .init) : Drift st .drain

/-! ## What is kept -/

variable {valid : List UInt8 → Bool} {st st' : State} {i k : ℕ} {task task' : Task} {body : List UInt8}

theorem nextTask_eq {tasks : List Task} {rtask : ℕ} (h : nextTask tasks rtask = some i) :
    rtask ≤ i ∧ (∃ task, tasks[i]? = some task ∧ task.needprocessing = false) ∧
      ∀ j task, rtask ≤ j → j < i → tasks[j]? = some task → task.needprocessing = true := by
  obtain ⟨d, hfind, rfl⟩ := Option.map_eq_some_iff.mp h
  obtain ⟨hd, hneed, hbefore⟩ := List.findIdx?_eq_some_iff_getElem.mp hfind
  refine ⟨Nat.le_add_right _ _, ⟨(tasks.drop rtask)[d], ?_, ?_⟩, fun j task hle hlt htask => ?_⟩
  · rw [← List.getElem?_drop, List.getElem?_eq_getElem hd]
  · simpa using hneed
  · obtain ⟨e, rfl⟩ := Nat.exists_eq_add_of_le hle
    rw [← List.getElem?_drop] at htask
    have := hbefore e (Nat.lt_of_add_lt_add_left hlt)
    obtain ⟨_, rfl⟩ := List.getElem?_eq_some_iff.mp htask
    simpa using this

theorem nextTask_none {tasks : List Task} {rtask : ℕ} (h : nextTask tasks rtask = none) (hle : rtask ≤ i)
    (htask : tasks[i]? = some task) : task.needprocessing = true := by
  have hfind := Option.map_eq_none_iff.mp h
  obtain ⟨e, rfl⟩ := Nat.exists_eq_add_of_le hle
  rw [← List.getElem?_drop] at htask
  have := List.findIdx?_eq_none_iff.mp hfind task (List.mem_of_getElem? htask)
  simpa using this

/-- What is so in every phase. -/
structure Kept (valid : List UInt8 → Bool) (st : State) : Prop where
  sound : st.line.Sound
  once : st.line.sent.Pairwise (· < ·)
  small : ∀ body ∈ st.line.served, body.length < 2 ^ 32
  sends : ∀ i ∈ st.line.sent, ∃ task, st.tasks[i]? = some task ∧ task.needprocessing = false ∧ task.status ≠ 11
  own : ∀ i task body, st.tasks[i]? = some task → (task.res = some body ↔ Answered valid st i body)
  reader : st.reader.Valid
  stream : st.reader.taken ++ st.incoming = (st.line.served.drop st.line.read).flatMap frame

/-- How many tasks were visited. -/
def State.visited (st : State) : ℕ := if st.phase = .reading then st.task + 1 else st.task

/-- What is so while the tasks are run. -/
structure Runs (st : State) : Prop where
  before : ∀ i ∈ st.line.sent, i < st.visited
  visited : ∀ i task, i < st.visited → st.tasks[i]? = some task → task.needprocessing = false →
    i ∈ st.line.sent ∨ BadType task.type
  cursor : ∀ k i, st.line.sent[k]? = some i → (k < st.line.read ↔ i < st.rtask)
  le : st.rtask ≤ st.visited
  all : st.phase = .draining → st.tasks.length ≤ st.task

structure Holds (valid : List UInt8 → Bool) (st : State) : Prop extends Kept valid st where
  runs : st.phase = .looping ∨ st.phase = .sending ∨ st.phase = .reading ∨ st.phase = .draining → Runs st
  sending : st.phase = .sending → ∃ task, st.tasks[st.task]? = some task ∧ task.needprocessing = false ∧ task.status ≠ 11
  ends : st.phase = .done → st.line.read = st.line.sent.length

/-- A task is changed, but for its answer. -/
theorem Kept.setTask (h : Kept valid st) (htask : st.tasks[i]? = some task) (hres : task'.res = task.res)
    (hsends : i ∈ st.line.sent → task'.needprocessing = false ∧ task'.status ≠ 11) : Kept valid (st.setTask i task') where
  sound := h.sound
  once := h.once
  small := h.small
  sends j hj := by
    obtain ⟨t, ht, hneed⟩ := h.sends j hj
    by_cases hji : j = i
    · subst hji
      exact ⟨task', List.getElem?_set_self (List.getElem?_eq_some_iff.mp htask).1, hsends hj⟩
    · exact ⟨t, (List.getElem?_set_ne (Ne.symm hji)).trans ht, hneed⟩
  own j t body ht := by
    by_cases hji : j = i
    · subst hji
      have hset : (st.setTask j task').tasks[j]? = some task' := List.getElem?_set_self (List.getElem?_eq_some_iff.mp htask).1
      rw [hset] at ht
      cases ht
      rw [hres]
      exact h.own j task body htask
    · exact h.own j t body ((List.getElem?_set_ne (Ne.symm hji)).symm.trans ht)
  reader := h.reader
  stream := h.stream

/-- The next answer is that of the first task from the cursor on that has sent a command. -/
theorem Runs.first (hkept : Kept valid st) (h : Runs st) (hi : st.rtask ≤ i) (hsent : i ∈ st.line.sent)
    (hfirst : ∀ j task, st.rtask ≤ j → j < i → st.tasks[j]? = some task → task.needprocessing = true) :
    st.line.sent[st.line.read]? = some i := by
  obtain ⟨k, hk⟩ := List.mem_iff_getElem?.mp hsent
  have hread : st.line.read ≤ k := by
    by_contra hlt
    exact absurd ((h.cursor k i hk).mp (Nat.not_le.mp hlt)) (Nat.not_lt_of_le hi)
  rcases Nat.lt_or_eq_of_le hread with hlt | rfl
  · have hklt := (List.getElem?_eq_some_iff.mp hk).1
    have hj : st.line.sent[st.line.read]? = some st.line.sent[st.line.read] := List.getElem?_eq_getElem (Nat.lt_trans hlt hklt)
    have hji : st.line.sent[st.line.read] < i := by
      have := List.pairwise_iff_getElem.mp hkept.once st.line.read k (Nat.lt_trans hlt hklt) hklt hlt
      rwa [(List.getElem?_eq_some_iff.mp hk).2] at this
    have hrtask : st.rtask ≤ st.line.sent[st.line.read] := by
      by_contra hbelow
      exact absurd ((h.cursor _ _ hj).mpr (Nat.not_le.mp hbelow)) (Nat.lt_irrefl _)
    obtain ⟨task, htask, hneed, _⟩ := hkept.sends _ (List.mem_of_getElem? hj)
    rw [hfirst _ task hrtask hji htask] at hneed
    cases hneed
  · exact hk

/-- The next message is an answer that was not read. -/
theorem Kept.next_message (h : Kept valid st) (hmore : 0 < st.incoming.length) :
    ∃ body, st.line.served[st.line.read]? = some body ∧ body.length < 2 ^ 32 ∧
      st.reader.taken ++ st.incoming = frame body ++ (st.line.served.drop (st.line.read + 1)).flatMap frame := by
  have hlt : st.line.read < st.line.served.length := by
    by_contra hge
    have hstream := h.stream
    rw [List.drop_of_length_le (Nat.not_lt.mp hge), List.flatMap_nil, List.append_eq_nil_iff] at hstream
    rw [hstream.2] at hmore
    exact absurd hmore (Nat.lt_irrefl _)
  refine ⟨st.line.served[st.line.read], List.getElem?_eq_getElem hlt, h.small _ (List.getElem_mem hlt), ?_⟩
  rw [h.stream, ← List.getElem_cons_drop hlt, List.flatMap_cons]

/-- An answer is read: what is new are the answers to the command that is next. -/
theorem answered_receive {reader : Reader} {incoming : List UInt8} {phase : Phase} {b : List UInt8} (j : ℕ) :
    Answered valid { st with reader, incoming, phase, line := st.line.receive } j b ↔
      Answered valid st j b ∨
        st.line.sent[st.line.read]? = some j ∧ st.line.served[st.line.read]? = some b ∧ valid b = true := by
  constructor
  · rintro ⟨k, hk, hsent, hserved, hvalid⟩
    rcases Nat.lt_succ_iff_lt_or_eq.mp hk with hk | rfl
    · exact .inl ⟨k, hk, hsent, hserved, hvalid⟩
    · exact .inr ⟨hsent, hserved, hvalid⟩
  · rintro (⟨k, hk, hsent, hserved, hvalid⟩ | ⟨hsent, hserved, hvalid⟩)
    · exact ⟨k, Nat.lt_succ_of_lt hk, hsent, hserved, hvalid⟩
    · exact ⟨st.line.read, Nat.lt_succ_self _, hsent, hserved, hvalid⟩

theorem Kept.receive_sound (h : Kept valid st) (hserved : st.line.served[st.line.read]? = some body) : st.line.receive.Sound where
  read := (List.getElem?_eq_some_iff.mp hserved).1
  served := h.sound.served

/-- An answer of which `parse_result` makes nothing. -/
theorem Kept.refuse (h : Kept valid st) (hserved : st.line.served[st.line.read]? = some body) (hinvalid : valid body ≠ true)
    {incoming : List UInt8} (hrest : incoming = (st.line.served.drop (st.line.read + 1)).flatMap frame) :
    Kept valid { st with reader := .init, incoming, line := st.line.receive, phase := .failed } where
  sound := h.receive_sound hserved
  once := h.once
  small := h.small
  sends := h.sends
  own j t b ht := by
    rw [h.own j t b ht, answered_receive]
    refine ⟨.inl, fun hanswered => hanswered.resolve_right fun ⟨_, hb, hvalid⟩ => ?_⟩
    rw [hserved] at hb
    cases hb
    exact hinvalid hvalid
  reader := init_valid
  stream := by rw [hrest, taken_init, List.nil_append]; rfl

/-- A task gets its own answer. -/
theorem Kept.give (h : Kept valid st) (hsent : st.line.sent[st.line.read]? = some i) (hserved : st.line.served[st.line.read]? = some body)
    (hvalid : valid body = true) (htask : st.tasks[i]? = some task) {incoming : List UInt8}
    (hrest : incoming = (st.line.served.drop (st.line.read + 1)).flatMap frame) :
    Kept valid ({ st with reader := .init, incoming }.give i task body) where
  sound := h.receive_sound hserved
  once := h.once
  small := h.small
  sends j hj := by
    obtain ⟨t, ht, hneed⟩ := h.sends j hj
    by_cases hji : j = i
    · subst hji
      rw [htask] at ht
      cases ht
      exact ⟨_, List.getElem?_set_self (List.getElem?_eq_some_iff.mp htask).1, hneed⟩
    · exact ⟨t, (List.getElem?_set_ne (Ne.symm hji)).trans ht, hneed⟩
  own j t b ht := by
    have hnew := @answered_receive valid st .init incoming st.phase b j
    by_cases hji : j = i
    · subst hji
      have hset : ({ st with reader := .init, incoming }.give j task body).tasks[j]? = some { task with res := some body } :=
        List.getElem?_set_self (List.getElem?_eq_some_iff.mp htask).1
      rw [hset] at ht
      cases ht
      refine ⟨fun hb => hnew.mpr (.inr ⟨hsent, Option.some.inj hb ▸ hserved, Option.some.inj hb ▸ hvalid⟩), fun hb => ?_⟩
      rcases hnew.mp hb with ⟨k, hk, hk', _⟩ | ⟨_, hb, _⟩
      · have hlt := List.getElem?_eq_some_iff.mp hsent
        have := List.pairwise_iff_getElem.mp h.once k st.line.read (Nat.lt_trans hk hlt.1) hlt.1 hk
        rw [(List.getElem?_eq_some_iff.mp hk').2, hlt.2] at this
        exact absurd this (Nat.lt_irrefl _)
      · rw [hserved] at hb
        exact hb
    · have hold : st.tasks[j]? = some t := (List.getElem?_set_ne (Ne.symm hji)).symm.trans ht
      rw [h.own j t b hold]
      refine ⟨fun hb => hnew.mpr (.inl hb), fun hb => (hnew.mp hb).resolve_right fun ⟨hj, _⟩ => ?_⟩
      rw [hsent] at hj
      exact hji (Option.some.inj hj).symm
  reader := init_valid
  stream := by rw [hrest]; rfl

/-- And the cursor is behind it. -/
theorem Runs.give (hkept : Kept valid st) (h : Runs st) (hsent : st.line.sent[st.line.read]? = some i)
    (incoming : List UInt8) : Runs ({ st with reader := .init, incoming }.give i task body) where
  before := h.before
  visited j t hj ht hneed := by
    by_cases hji : j = i
    · rw [hji]
      exact .inl (List.mem_of_getElem? hsent)
    · exact h.visited j t hj ((List.getElem?_set_ne (Ne.symm hji)).symm.trans ht) hneed
  cursor k j hk := by
    show k < st.line.read + 1 ↔ j < i + 1
    have hk : st.line.sent[k]? = some j := hk
    rw [Nat.lt_succ_iff, Nat.lt_succ_iff]
    obtain ⟨hklt, hkj⟩ := List.getElem?_eq_some_iff.mp hk
    obtain ⟨hread, hi⟩ := List.getElem?_eq_some_iff.mp hsent
    have hpairs := List.pairwise_iff_getElem.mp hkept.once
    constructor
    · intro hle
      rcases Nat.lt_or_eq_of_le hle with hlt | rfl
      · have := hpairs k st.line.read hklt hread hlt
        rw [hkj, hi] at this
        exact Nat.le_of_lt this
      · exact Nat.le_of_eq (hkj.symm.trans hi)
    · intro hle
      by_contra hgt
      have := hpairs st.line.read k hread hklt (Nat.not_le.mp hgt)
      rw [hkj, hi] at this
      exact absurd hle (Nat.not_le_of_lt this)
  le := h.before i (List.mem_of_getElem? hsent)
  all hphase := (List.length_set ..).symm ▸ h.all hphase

theorem State.visited_eq (h : st.phase ≠ .reading) : st.visited = st.task := if_neg h

theorem Runs.not_sent (h : Runs st) (hphase : st.phase ≠ .reading) : st.task ∉ st.line.sent := by
  intro hmem
  have hlt := h.before _ hmem
  rw [State.visited_eq hphase] at hlt
  exact absurd hlt (Nat.lt_irrefl _)

/-- The loop goes on to the next task, and the one it leaves has sent its command or is none that sends one. -/
theorem Runs.next (h : Runs st) (hphase : st.phase ≠ .reading) (htask : st.tasks[st.task]? = some task)
    (hneed : task'.needprocessing = false → BadType task'.type) : Runs (st.setTask st.task task').next where
  before j hj := by
    have hlt := h.before j hj
    rw [State.visited_eq hphase] at hlt
    exact Nat.lt_succ_of_lt hlt
  visited j t hj ht hfalse := by
    have hj : j < st.task + 1 := hj
    rcases Nat.lt_succ_iff_lt_or_eq.mp hj with hj | rfl
    · refine h.visited j t ?_ ((List.getElem?_set_ne (Nat.ne_of_gt hj)).symm.trans ht) hfalse
      rw [State.visited_eq hphase]
      exact hj
    · have hself : (st.setTask st.task task').next.tasks[st.task]? = some task' :=
        List.getElem?_set_self (List.getElem?_eq_some_iff.mp htask).1
      rw [hself] at ht
      cases ht
      exact .inr (hneed hfalse)
  cursor := h.cursor
  le := by
    have hle := h.le
    rw [State.visited_eq hphase] at hle
    exact Nat.le_succ_of_le hle
  all := nofun

/-- There is no answer, or not all of it. -/
theorem Runs.leave (h : Runs st) (hphase : st.phase = .reading) {incoming : List UInt8} {reader : Reader} :
    Runs { st with incoming, reader }.next := by
  have hvisited : st.visited = st.task + 1 := if_pos hphase
  have hbefore := h.before
  have hold := h.visited
  have hle := h.le
  rw [hvisited] at hbefore hold hle
  exact ⟨hbefore, hold, h.cursor, hle, nofun⟩

/-- The loop comes to a task that sends nothing. -/
theorem pass_holds (hkept : Kept valid st) (hruns : Runs st) (hphase : st.phase ≠ .reading)
    (htask : st.tasks[st.task]? = some task) {need : Bool} (hneed : need = false → BadType task.type) :
    Holds valid (st.setTask st.task { task with needprocessing := need }).next := by
  have hset := @Kept.setTask _ _ _ _ { task with needprocessing := need } hkept htask rfl fun hmem =>
    absurd hmem (hruns.not_sent hphase)
  exact ⟨⟨hset.sound, hset.once, hset.small, hset.sends, hset.own, hset.reader, hset.stream⟩,
    fun _ => hruns.next hphase htask hneed, nofun, nofun⟩

theorem visit_holds (hkept : Kept valid st) (hruns : Runs st) (hphase : st.phase = .looping) : Holds valid st.visit := by
  have hne : st.phase ≠ .reading := hphase ▸ nofun
  have hvisited := State.visited_eq hne
  have hbefore : ∀ j ∈ st.line.sent, j < st.task := fun j hj => hvisited ▸ hruns.before j hj
  have hle : st.rtask ≤ st.task := hvisited ▸ hruns.le
  unfold State.visit
  split
  next hnone =>
    refine ⟨⟨hkept.sound, hkept.once, hkept.small, hkept.sends, hkept.own, hkept.reader, hkept.stream⟩,
      fun _ => ⟨?_, ?_, hruns.cursor, ?_, fun _ => List.getElem?_eq_none_iff.mp hnone⟩, nofun, nofun⟩
    · exact hbefore
    · exact fun j t hj => hruns.visited j t (hvisited.symm ▸ hj)
    · exact hle
  next task htask =>
    split
    next hbad => exact pass_holds hkept hruns hne htask fun _ => hbad
    next hgood =>
      split
      · exact pass_holds hkept hruns hne htask nofun
      next hstatus =>
        have hset := @Kept.setTask _ _ _ _ { task with needprocessing := false } hkept htask rfl fun hmem =>
          absurd hmem (hruns.not_sent hne)
        have hself : (st.setTask st.task { task with needprocessing := false }).tasks[st.task]? =
            some { task with needprocessing := false } := List.getElem?_set_self (List.getElem?_eq_some_iff.mp htask).1
        refine ⟨⟨hset.sound, hset.once, hset.small, hset.sends, hset.own, hset.reader, hset.stream⟩,
          fun _ => ⟨?_, ?_, hruns.cursor, ?_, nofun⟩, fun _ => ⟨_, hself, rfl, hstatus⟩, nofun⟩
        · exact hbefore
        · intro j t hj ht hfalse
          exact hruns.visited j t (hvisited.symm ▸ hj) ((List.getElem?_set_ne (Nat.ne_of_gt hj)).symm.trans ht) hfalse
        · exact hle

theorem send_holds (hkept : Kept valid st) (hruns : Runs st) (hphase : st.phase = .sending) (htask : st.tasks[st.task]? = some task)
    (hneed : task.needprocessing = false) (hstatus : task.status ≠ 11) (sending : Option Sending) :
    Holds valid (st.send task sending) := by
  have hne : st.phase ≠ .reading := hphase ▸ nofun
  have hvisited := State.visited_eq hne
  have hle : st.rtask ≤ st.task := hvisited ▸ hruns.le
  unfold State.send
  split
  · exact ⟨⟨hkept.sound, hkept.once, hkept.small, hkept.sends, hkept.own, hkept.reader, hkept.stream⟩, nofun, nofun, nofun⟩
  · exact ⟨⟨hkept.sound, hkept.once, hkept.small, hkept.sends, hkept.own, hkept.reader, hkept.stream⟩, nofun, nofun, nofun⟩
  · exact pass_holds hkept hruns hne htask nofun
  · have hset := @Kept.setTask _ _ _ _ { task with ccreat := if task.type = 3 then true else task.ccreat } hkept htask rfl
      fun _ => ⟨hneed, hstatus⟩
    have hread : st.line.read ≤ st.line.sent.length := Nat.le_trans hkept.sound.read hkept.sound.served
    have hbelow : ∀ j ∈ st.line.sent, j < st.task := fun j hj => hvisited ▸ hruns.before j hj
    have hself : (st.setTask st.task { task with ccreat := if task.type = 3 then true else task.ccreat }).tasks[st.task]? =
        some { task with ccreat := if task.type = 3 then true else task.ccreat } :=
      List.getElem?_set_self (List.getElem?_eq_some_iff.mp htask).1
    refine ⟨⟨hset.sound.send, ?_, hset.small, ?_, ?_, hset.reader, hset.stream⟩, fun _ => ⟨?_, ?_, ?_, ?_, nofun⟩, nofun, nofun⟩
    · refine List.pairwise_append.mpr ⟨hset.once, List.pairwise_singleton _ _, fun a ha b hb => ?_⟩
      cases List.mem_singleton.mp hb
      exact hbelow a ha
    · intro j hj
      rcases List.mem_append.mp hj with hj | hj
      · exact hset.sends j hj
      · cases List.mem_singleton.mp hj
        exact ⟨_, hself, hneed, hstatus⟩
    · intro j t body ht
      rw [hset.own j t body ht]
      constructor
      · rintro ⟨k, hk, hsent, hrest⟩
        exact ⟨k, hk, send_old hsent, hrest⟩
      · rintro ⟨k, hk, hsent, hrest⟩
        rcases sent_send hsent with hold | ⟨rfl, _⟩
        · exact ⟨k, hk, hold, hrest⟩
        · exact absurd hread (Nat.not_le_of_lt hk)
    · intro j hj
      rcases List.mem_append.mp hj with hj | hj
      · exact Nat.lt_succ_of_lt (hbelow j hj)
      · cases List.mem_singleton.mp hj
        exact Nat.lt_succ_self _
    · intro j t hj ht hfalse
      have hj : j < st.task + 1 := hj
      rcases Nat.lt_succ_iff_lt_or_eq.mp hj with hj | rfl
      · rcases hruns.visited j t (hvisited.symm ▸ hj) ((List.getElem?_set_ne (Nat.ne_of_gt hj)).symm.trans ht) hfalse with
          hmem | hbad
        · exact .inl (List.mem_append_left _ hmem)
        · exact .inr hbad
      · exact .inl (List.mem_append_right _ (List.mem_singleton_self _))
    · intro k j hk
      rcases sent_send hk with hold | ⟨rfl, rfl⟩
      · exact hruns.cursor k j hold
      · exact ⟨fun hlt => absurd hread (Nat.not_le_of_lt hlt), fun hlt =>
          absurd hle (Nat.not_le_of_lt hlt)⟩
    · exact Nat.le_succ_of_le hle

/-- The reader has a whole answer. -/
theorem ready_holds (hkept : Kept valid st) (hruns : Runs st) (hphase : st.phase = .reading)
    (hserved : st.line.served[st.line.read]? = some body) {incoming : List UInt8}
    (hrest : incoming = (st.line.served.drop (st.line.read + 1)).flatMap frame)
    (hgood : ∀ i task, nextTask st.tasks st.rtask = some i → st.tasks[i]? = some task → ¬BadType task.type) :
    Holds valid ({ st with incoming, reader := .init }.ready valid body) := by
  have hvisited : st.visited = st.task + 1 := if_pos hphase
  unfold State.ready
  split
  next hvalid =>
    -- The command of the next answer was sent, so the cursor does not get to the end of the list.
    obtain ⟨hread, _⟩ := List.getElem?_eq_some_iff.mp hserved
    obtain ⟨next, hsent⟩ : ∃ next, st.line.sent[st.line.read]? = some next :=
      ⟨_, List.getElem?_eq_getElem (Nat.lt_of_lt_of_le hread hkept.sound.served)⟩
    obtain ⟨t, ht, hneed, _⟩ := hkept.sends _ (List.mem_of_getElem? hsent)
    have hle : st.rtask ≤ next := by
      by_contra hbelow
      exact absurd ((hruns.cursor _ _ hsent).mpr (Nat.not_le.mp hbelow)) (Nat.lt_irrefl _)
    cases hnext : nextTask st.tasks st.rtask with
    | none =>
      rw [nextTask_none hnext hle ht] at hneed
      cases hneed
    | some i =>
      obtain ⟨hri, ⟨task, htask, hfalse⟩, hfirst⟩ := nextTask_eq hnext
      have hil : i ≤ next := by
        by_contra hgt
        rw [hfirst _ t hle (Nat.not_le.mp hgt) ht] at hneed
        cases hneed
      have hlast := hruns.before _ (List.mem_of_getElem? hsent)
      have hmem : i ∈ st.line.sent :=
        (hruns.visited i task (Nat.lt_of_le_of_lt hil hlast) htask hfalse).resolve_right (hgood i task hnext htask)
      have hown := hruns.first hkept hri hmem hfirst
      simp only [htask]
      have hgiven := @Runs.give _ _ _ task body hkept hruns hown incoming
      exact ⟨hkept.give hown hserved hvalid htask hrest, fun _ => hgiven, (fun hsending => nomatch hphase.symm.trans hsending),
        (fun hdone => nomatch hphase.symm.trans hdone)⟩
  next hinvalid =>
    exact ⟨hkept.refuse hserved hinvalid hrest, nofun, nofun, nofun⟩

theorem receive_holds {rd : ℕ} (hkept : Kept valid st) (hruns : Runs st) (hstep : step valid st (.receive rd) st')
    (hdrift : ¬Drift st (.receive rd)) : Holds valid st' := by
  unfold step State.run at hstep
  simp only at hstep
  split at hstep
  next hread =>
    obtain ⟨hphase, hpos, hwants, hle⟩ := hread
    obtain ⟨body, hserved, hsmall, hstream⟩ := hkept.next_message (Nat.lt_of_lt_of_le hpos hle)
    have hlength : (st.incoming.take rd).length = rd := List.length_take_of_le hle
    split at hstep
    next message htake =>
      cases hstep
      rw [← List.take_append_drop rd st.incoming] at hstream
      obtain ⟨rfl, hrest⟩ := take_whole hkept.reader hsmall hstream htake
      refine ready_holds hkept hruns hphase hserved hrest fun i task hnext htask hbad => ?_
      exact hdrift (.stops htake hnext htask hbad)
    next reader htake =>
      obtain ⟨hvalid, htaken⟩ := take_more hkept.reader (hlength.symm ▸ hwants) htake
      have hafter : reader.taken ++ st.incoming.drop rd = (st.line.served.drop st.line.read).flatMap frame := by
        rw [htaken, List.append_assoc, List.take_append_drop, hkept.stream]
      have hkept' : Kept valid { st with incoming := st.incoming.drop rd, reader } :=
        ⟨hkept.sound, hkept.once, hkept.small, hkept.sends, hkept.own, hvalid, hafter⟩
      split at hstep
      · cases hstep
        exact ⟨hkept', fun _ => ⟨hruns.before, hruns.visited, hruns.cursor, hruns.le, hruns.all⟩,
          (fun hsending => nomatch hphase.symm.trans hsending), (fun hdone => nomatch hphase.symm.trans hdone)⟩
      · cases hstep
        exact ⟨⟨hkept'.sound, hkept'.once, hkept'.small, hkept'.sends, hkept'.own, hkept'.reader, hkept'.stream⟩,
          fun _ => hruns.leave hphase, nofun, nofun⟩
  · cases hstep

theorem drain_holds (hkept : Kept valid st) (hruns : Runs st) (hstep : step valid st .drain st') (hdrift : ¬Drift st .drain) :
    Holds valid st' := by
  unfold step State.run at hstep
  simp only at hstep
  split at hstep
  next hphase =>
    have hne : st.phase ≠ .reading := hphase ▸ nofun
    have hall := hruns.all hphase
    split at hstep
    next hnone =>
      cases hstep
      have hend := List.getElem?_eq_none_iff.mp hnone
      refine ⟨⟨hkept.sound, hkept.once, hkept.small, hkept.sends, hkept.own, hkept.reader, hkept.stream⟩, nofun, nofun, fun _ => ?_⟩
      refine Nat.le_antisymm (Nat.le_trans hkept.sound.read hkept.sound.served) ?_
      by_contra hmore
      obtain ⟨i, hi⟩ : ∃ i, st.line.sent[st.line.read]? = some i := ⟨_, List.getElem?_eq_getElem (Nat.not_le.mp hmore)⟩
      obtain ⟨t, ht, _⟩ := hkept.sends i (List.mem_of_getElem? hi)
      have hlt := Nat.lt_of_lt_of_le (List.getElem?_eq_some_iff.mp ht).1 hend
      exact absurd ((hruns.cursor _ i hi).mpr hlt) (Nat.lt_irrefl _)
    next task htask =>
      have hlt := (List.getElem?_eq_some_iff.mp htask).1
      have hvisited : st.rtask < st.visited := State.visited_eq hne ▸ Nat.lt_of_lt_of_le hlt hall
      split at hstep
      next hneed =>
        cases hstep
        refine ⟨⟨hkept.sound, hkept.once, hkept.small, hkept.sends, hkept.own, hkept.reader, hkept.stream⟩,
          fun _ => ⟨hruns.before, hruns.visited, fun k j hk => ?_, hvisited, hruns.all⟩,
          (fun hsending => nomatch hphase.symm.trans hsending), (fun hdone => nomatch hphase.symm.trans hdone)⟩
        rw [hruns.cursor k j hk]
        refine ⟨Nat.lt_succ_of_lt, fun hj => (Nat.lt_succ_iff_lt_or_eq.mp hj).resolve_right ?_⟩
        rintro rfl
        obtain ⟨t, ht, hfalse, _⟩ := hkept.sends _ (List.mem_of_getElem? hk)
        rw [htask] at ht
        cases ht
        rw [hneed] at hfalse
        cases hfalse
      next hneed =>
        have hfalse := Bool.not_eq_true _ ▸ hneed
        have hinit : st.reader = .init := by
          by_contra hpart
          exact hdrift (.splits htask hfalse hpart)
        have hmem : st.rtask ∈ st.line.sent :=
          (hruns.visited _ task hvisited htask hfalse).resolve_right fun hbad => hdrift (.waits htask hfalse hbad)
        have hown := hruns.first hkept (Nat.le_refl _) hmem fun j t hle hlt => absurd hle (Nat.not_le_of_lt hlt)
        unfold State.getResult at hstep
        simp only at hstep
        split at hstep
        next hlength =>
          obtain ⟨body, hserved, hsmall, hstream⟩ := hkept.next_message (Nat.lt_of_lt_of_le (Nat.lt_of_lt_of_le (Nat.succ_pos 3) (Nat.le_add_right _ _)) hlength)
          rw [hinit, taken_init, List.nil_append] at hstream
          rw [hstream, value_frame hsmall, body_frame, rest_frame] at hstep
          have hst : st = { st with reader := .init } := by rw [← hinit]
          split at hstep
          next hvalid =>
            cases hstep
            have hgiven := @Runs.give _ _ _ task body hkept hruns hown
              ((st.line.served.drop (st.line.read + 1)).flatMap frame)
            have hkeeps := hkept.give hown hserved hvalid htask rfl
            rw [← hinit] at hgiven hkeeps
            exact ⟨hkeeps, fun _ => hgiven, (fun hsending => nomatch hphase.symm.trans hsending),
              (fun hdone => nomatch hphase.symm.trans hdone)⟩
          next hinvalid =>
            cases hstep
            have hkeeps := hkept.refuse hserved hinvalid rfl
            rw [← hinit] at hkeeps
            exact ⟨hkeeps, nofun, nofun, nofun⟩
        · cases hstep
  · cases hstep

/-- What one event keeps. -/
theorem step_holds {e : Event} (h : Holds valid st) (hstep : step valid st e st') (hdrift : ¬Drift st e) : Holds valid st' := by
  have hkept := h.toKept
  cases e with
  | visit =>
    unfold step State.run at hstep
    simp only at hstep
    split at hstep
    next hphase =>
      cases hstep
      exact visit_holds hkept (h.runs (.inl hphase)) hphase
    · cases hstep
  | send size written =>
    unfold step State.run at hstep
    simp only at hstep
    split at hstep
    next task hphase htask =>
      cases hstep
      obtain ⟨t, ht, hneed, hstatus⟩ := h.sending hphase
      rw [htask] at ht
      cases ht
      exact send_holds hkept (h.runs (.inr (.inl hphase))) hphase htask hneed hstatus _
    · cases hstep
  | wouldblock =>
    unfold step State.run at hstep
    simp only at hstep
    split at hstep
    next hphase =>
      cases hstep
      exact ⟨⟨hkept.sound, hkept.once, hkept.small, hkept.sends, hkept.own, hkept.reader, hkept.stream⟩,
        fun _ => (h.runs (.inr (.inr (.inl hphase)))).leave hphase, nofun, nofun⟩
    · cases hstep
  | receive rd =>
    have hphase : st.phase = .reading := by
      unfold step State.run at hstep
      by_contra hne
      simp [hne] at hstep
    exact receive_holds hkept (h.runs (.inr (.inr (.inl hphase)))) hstep hdrift
  | lost =>
    unfold step State.run at hstep
    simp only at hstep
    split at hstep
    · cases hstep
      exact ⟨⟨hkept.sound, hkept.once, hkept.small, hkept.sends, hkept.own, hkept.reader, hkept.stream⟩, nofun, nofun, nofun⟩
    · cases hstep
      exact ⟨⟨hkept.sound, hkept.once, hkept.small, hkept.sends, hkept.own, hkept.reader, hkept.stream⟩, nofun, nofun, nofun⟩
    · cases hstep
  | drain =>
    have hphase : st.phase = .draining := by
      unfold step State.run at hstep
      by_contra hne
      simp [hne] at hstep
    exact drain_holds hkept (h.runs (.inr (.inr (.inr hphase)))) hstep hdrift
  | serve body =>
    unfold step State.run at hstep
    simp only at hstep
    split at hstep
    next hsmall =>
      obtain ⟨line, hserve, rfl⟩ := Option.map_eq_some_iff.mp hstep
      have hsound := hkept.sound.serve hserve
      obtain ⟨_, rfl⟩ := serve_eq hserve
      refine ⟨⟨hsound, hkept.once, fun b hb => ?_, hkept.sends, fun i task b htask => ?_, hkept.reader, ?_⟩,
        fun hphase => ?_, h.sending, h.ends⟩
      · rcases List.mem_append.mp hb with hb | hb
        · exact hkept.small b hb
        · exact List.mem_singleton.mp hb ▸ hsmall
      · rw [hkept.own i task b htask]
        constructor
        · rintro ⟨k, hk, hsent, hserved, hvalid⟩
          exact ⟨k, hk, hsent, (List.getElem?_append_left (Nat.lt_of_lt_of_le hk hkept.sound.read)).trans hserved, hvalid⟩
        · rintro ⟨k, hk, hsent, hserved, hvalid⟩
          exact ⟨k, hk, hsent, (List.getElem?_append_left (Nat.lt_of_lt_of_le hk hkept.sound.read)).symm.trans hserved, hvalid⟩
      · show st.reader.taken ++ (st.incoming ++ frame body) = ((st.line.served ++ [body]).drop st.line.read).flatMap frame
        rw [← List.append_assoc, hkept.stream, List.drop_append_of_le_length hkept.sound.read, List.flatMap_append,
          List.flatMap_singleton]
      · have hruns := h.runs hphase
        exact ⟨hruns.before, hruns.visited, hruns.cursor, hruns.le, hruns.all⟩
    · cases hstep

theorem start_holds (h : Start st) : Holds valid st := by
  have hfresh : st.line = .fresh := h.line
  refine ⟨⟨hfresh ▸ fresh_sound, ?_, ?_, ?_, fun i task body htask => ?_, h.reader ▸ init_valid, ?_⟩, fun _ => ?_, ?_, ?_⟩
  · rw [hfresh]
    exact List.Pairwise.nil
  · rw [hfresh]
    exact nofun
  · rw [hfresh]
    exact nofun
  · rw [h.tasks task (List.mem_of_getElem? htask), Answered, hfresh]
    refine ⟨nofun, ?_⟩
    rintro ⟨k, hk, _⟩
    exact absurd hk (Nat.not_lt_zero k)
  · rw [h.reader, h.incoming, hfresh]
    rfl
  · have hvisited : st.visited = 0 := (State.visited_eq (h.phase ▸ nofun)).trans h.task
    refine ⟨?_, fun i _ hi => ?_, ?_, ?_, ?_⟩
    · rw [hfresh]
      exact nofun
    · rw [hvisited] at hi
      exact absurd hi (Nat.not_lt_zero i)
    · rw [hfresh]
      exact nofun
    · rw [h.rtask]
      exact Nat.zero_le _
    · rw [h.phase]
      exact nofun
  · rw [h.phase]
    exact nofun
  · rw [h.phase]
    exact nofun

/-! ## The answers go to their tasks -/

theorem mem_processed {b : List UInt8} :
    (i, b) ∈ st.processed ↔ ∃ task, st.tasks[i]? = some task ∧ task.status ≠ 11 ∧ task.res = some b := by
  unfold State.processed
  rw [List.mem_filterMap]
  constructor
  · rintro ⟨⟨task, j⟩, hmem, hres⟩
    obtain ⟨hzip, hstatus⟩ := List.mem_filter.mp hmem
    obtain ⟨body, hbody, heq⟩ := Option.map_eq_some_iff.mp hres
    cases heq
    exact ⟨task, List.mem_zipIdx_iff_getElem?.mp hzip, of_decide_eq_true hstatus, hbody⟩
  · rintro ⟨task, htask, hstatus, hres⟩
    refine ⟨(task, i), List.mem_filter.mpr ⟨List.mem_zipIdx_iff_getElem?.mpr htask, decide_eq_true hstatus⟩, ?_⟩
    rw [Option.map_eq_some_iff]
    exact ⟨b, hres, rfl⟩

theorem eq_init_of_taken {reader : Reader} (h : reader.taken = []) : reader = .init := by
  obtain ⟨size, held⟩ := reader
  unfold Reader.taken at h
  cases size with
  | none =>
    simp only at h
    rw [h]
    rfl
  | some n => cases (List.append_eq_nil_iff.mp h).1

theorem Holds.matched (h : Holds valid st) : Matched valid st where
  own := h.own
  once := h.once
  processed j b := by
    rw [mem_processed]
    constructor
    · rintro ⟨task, htask, _, hres⟩
      exact (h.own j task b htask).mp hres
    · intro hanswered
      have hsent := hanswered.choose_spec.2.1
      obtain ⟨task, htask, _, hstatus⟩ := h.sends j (List.mem_of_getElem? hsent)
      exact ⟨task, htask, hstatus, (h.own j task b htask).mpr hanswered⟩
  ends hphase := by
    have hread := h.ends hphase
    have hserved : st.line.served.length = st.line.sent.length := Nat.le_antisymm h.sound.served (hread ▸ h.sound.read)
    have hstream := h.stream
    rw [List.drop_of_length_le (Nat.le_of_eq (hserved.trans hread.symm)), List.flatMap_nil, List.append_eq_nil_iff] at hstream
    exact ⟨hread, hserved, eq_init_of_taken hstream.1, hstream.2⟩

/-- In the runs where the cursor stops at no task of a bad type and no answer is split between the two readers, each
task gets the answer to its command. -/
theorem matched_of_avoiding (h : Reachable Start (Avoiding (step valid) Drift) st) : Matched valid st :=
  (h.invariant (fun _ => start_holds) fun _ _ _ h hstep => step_holds h hstep.1 hstep.2).matched

/-- A folder is created, and a task is cancelled. -/
def State.small : State := ⟨[⟨1, 0, true, false, none⟩, ⟨4, 11, false, false, none⟩], 0, 0, .looping, .init, [], .fresh⟩

/-- Its answer comes in two pieces. -/
def State.waiting (reader : Reader) (incoming : List UInt8) : State :=
  ⟨[⟨1, 0, false, false, none⟩, ⟨4, 11, false, false, none⟩], 0, 0, .reading, reader, incoming, ⟨[0], [[7]], 0⟩⟩

def State.answered (task : ℕ) (phase : Phase) (cancelled : Task) : State :=
  ⟨[⟨1, 0, false, false, some [7]⟩, cancelled], task, 1, phase, .init, [], ⟨[0], [[7]], 1⟩⟩

theorem small_matched : Matched (fun _ => true) (State.answered 2 .draining ⟨4, 11, true, false, none⟩) := by
  have hsent : Reachable Start (Avoiding (step fun _ => true) Drift) (State.waiting .init (frame [7])) := by
    refine Reachable.foldlM [.visit, .send none true, .serve [7]] (.start (s := State.small) ⟨by decide, rfl, rfl, rfl, rfl, rfl, rfl⟩) rfl ?_
    intro e he st hdrift
    cases hdrift with
    | stops => simp at he
    | waits => simp at he
    | splits => simp at he
  have hsize : Reachable Start (Avoiding (step fun _ => true) Drift) (State.waiting ⟨some 1, []⟩ [7]) := by
    refine hsent.next (a := .receive 4) ⟨rfl, fun hdrift => ?_⟩
    cases hdrift with
    | stops hwhole => cases hwhole
  have hbody : Reachable Start (Avoiding (step fun _ => true) Drift) (State.answered 0 .reading ⟨4, 11, false, false, none⟩) := by
    refine hsize.next (a := .receive 1) ⟨rfl, fun hdrift => ?_⟩
    cases hdrift with
    | stops _ hnext htask hbad =>
      cases hnext
      cases htask
      exact absurd hbad (by decide)
  refine matched_of_avoiding (hbody.foldlM [.wouldblock, .visit, .visit] rfl ?_)
  intro e he st hdrift
  cases hdrift with
  | stops => simp at he
  | waits => simp at he
  | splits => simp at he

/-- A task of a bad type, and a folder that is created: the first one gets the answer. -/
def State.odd : State := ⟨[⟨0, 0, true, false, none⟩, ⟨1, 0, true, false, none⟩], 0, 0, .looping, .init, [], .fresh⟩

def State.mistaken : State :=
  ⟨[⟨0, 0, false, false, some [7]⟩, ⟨1, 0, false, false, none⟩], 1, 1, .reading, .init, [], ⟨[1], [[7]], 1⟩⟩

theorem odd_mistaken : ¬∀ (valid : List UInt8 → Bool) (st : State), Reachable Start (step valid) st → Matched valid st := by
  intro h
  have hreach : Reachable Start (step fun _ => true) State.mistaken :=
    Reachable.runs [.visit, .visit, .send none true, .serve [7], .receive 4, .receive 1]
      (.start (s := State.odd) ⟨by decide, rfl, rfl, rfl, rfl, rfl, rfl⟩) rfl
  obtain ⟨k, hk, hsent, _⟩ := ((h _ _ hreach).own 0 _ [7] rfl).mp rfl
  cases Nat.lt_one_iff.mp hk
  cases hsent

end Pclsync.Transfers.TaskRuns
