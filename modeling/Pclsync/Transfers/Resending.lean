import Mathlib.Algebra.Order.BigOperators.Group.List
import Pclsync.Transfers.BlockUpload

/-! What `upload_big_file` keeps: the commands that are not answered are those of ascending places in the list, so that
what follows a range that was rejected is sent again. -/
namespace Pclsync.Transfers.BlockUpload
open Lib.Machine Lib.Pipelined Lib.Transition

variable {offset fsize j : ℕ} {plan ranges : List Range} {st st' : State} {r r' : Range} {c : Command} {outcome : Outcome}

def Accepted (outcome : Outcome) : Prop := outcome = .accepted

/-! ## The list -/

/-- A range of the list has its length and its source from the plan, or has become an upload. -/
def Stems (offset : ℕ) (plan : List Range) (j : ℕ) (r r' : Range) : Prop :=
  r'.len = r.len ∧
    (r'.type = .upload ∧ r'.off = start offset plan j ∨ r'.type = r.type ∧ r.type ≠ .upload ∧ r'.off = r.off)

structure Listed (offset : ℕ) (plan ranges : List Range) : Prop where
  length : ranges.length = plan.length + 1
  stems : ∀ j r, plan[j]? = some r → ∃ r', ranges[j]? = some r' ∧ Stems offset plan j r r'
  last : ∃ r, ranges[plan.length]? = some r ∧ r.type = .last

theorem Listed.set (h : Listed offset plan ranges) (hr : ranges[j]? = some r)
    (hstems : ∀ p, plan[j]? = some p → Stems offset plan j p r → Stems offset plan j p r')
    (hlast : r.type = .last → r'.type = .last) : Listed offset plan (ranges.set j r') where
  length := by rw [List.length_set, h.length]
  stems k p hp := by
    obtain ⟨s, hs, hstem⟩ := h.stems k p hp
    by_cases hk : k = j
    · subst hk
      rw [hr] at hs
      cases hs
      exact ⟨r', List.getElem?_set_self (List.getElem?_eq_some_iff.mp hr).1, hstems p hp hstem⟩
    · exact ⟨s, (List.getElem?_set_ne (Ne.symm hk)).trans hs, hstem⟩
  last := by
    obtain ⟨s, hs, htype⟩ := h.last
    by_cases hk : plan.length = j
    · subst hk
      rw [hr] at hs
      cases hs
      exact ⟨r', List.getElem?_set_self (List.getElem?_eq_some_iff.mp hr).1, hlast htype⟩
    · exact ⟨s, (List.getElem?_set_ne (Ne.symm hk)).trans hs, htype⟩

theorem Listed.exists_range (h : Listed offset plan ranges) (hj : j ≤ plan.length) : ∃ r, ranges[j]? = some r :=
  ⟨_, List.getElem?_eq_getElem (h.length ▸ Nat.lt_succ_of_le hj)⟩

/-- Only the last range is the last. -/
theorem Listed.type_eq_last (h : Listed offset plan ranges) (hplan : Plan offset fsize plan) (hr : ranges[j]? = some r) :
    r.type = .last ↔ j = plan.length := by
  constructor
  · intro htype
    have hj := (List.getElem?_eq_some_iff.mp hr).1
    rw [h.length] at hj
    by_contra hne
    have hlt : j < plan.length := Nat.lt_of_le_of_ne (Nat.le_of_lt_succ hj) hne
    obtain ⟨s, hs, hstem⟩ := h.stems j plan[j] (List.getElem?_eq_getElem hlt)
    rw [hr] at hs
    cases hs
    rcases hstem.2 with ⟨hup, _⟩ | ⟨hsame, _⟩
    · rw [hup] at htype
      cases htype
    · exact hplan.types _ (List.getElem_mem hlt) (hsame ▸ htype)
  · rintro rfl
    obtain ⟨s, hs, htype⟩ := h.last
    rw [hr] at hs
    cases hs
    exact htype

/-! ## Where the ranges are -/

theorem start_succ (hr : plan[j]? = some r) : start offset plan (j + 1) = start offset plan j + r.len := by
  obtain ⟨hj, rfl⟩ := List.getElem?_eq_some_iff.mp hr
  unfold start
  rw [List.take_succ_eq_append_getElem hj, List.map_append, List.sum_append, Nat.add_assoc]
  simp

theorem start_mono {k : ℕ} (h : j ≤ k) : start offset plan j ≤ start offset plan k := by
  unfold start
  obtain ⟨d, rfl⟩ := Nat.exists_eq_add_of_le h
  rw [List.take_add, List.map_append, List.sum_append]
  omega

/-- Every offset is in a range. -/
theorem exists_covering {o n : ℕ} (hn : n ≤ plan.length) (hlow : offset ≤ o) (hhigh : o < start offset plan n) :
    ∃ j r, plan[j]? = some r ∧ start offset plan j ≤ o ∧ o < start offset plan j + r.len := by
  induction n with
  | zero =>
    unfold start at hhigh
    simp at hhigh
    omega
  | succ n ih =>
    have hr : plan[n]? = some plan[n] := List.getElem?_eq_getElem hn
    by_cases hbelow : o < start offset plan n
    · exact ih (Nat.le_of_succ_le hn) hbelow
    · exact ⟨n, plan[n], hr, Nat.not_lt.mp hbelow, start_succ hr ▸ hhigh⟩

/-! ## The commands -/

/-- A command asks for the checksum, or writes the bytes of a range of the plan. -/
def Suits (offset : ℕ) (plan : List Range) (c : Command) : Prop :=
  c.request = .uploadInfo ∧ c.le = plan.length ∨
    ∃ r, plan[c.le]? = some r ∧ c.uploadoffset = start offset plan c.le ∧ c.request.bytes.length = r.len ∧
      ∀ i b, c.request.bytes[i]? = some b → Planned offset plan (start offset plan c.le + i) b

theorem length_bytesOf {source : ℕ → Byte} {off len : ℕ} : (bytesOf source off len).length = len := by
  unfold bytesOf
  rw [List.length_map, List.length_range]

theorem getElem_bytesOf {source : ℕ → Byte} {off len i : ℕ} {b : Byte} (h : (bytesOf source off len)[i]? = some b) :
    i < len ∧ b = source (off + i) := by
  have hi := (List.getElem?_eq_some_iff.mp h).1
  rw [length_bytesOf] at hi
  unfold bytesOf at h
  rw [List.getElem?_map, List.getElem?_range hi] at h
  exact ⟨hi, (Option.some.inj h).symm⟩

theorem bytesOf_append {source : ℕ → Byte} {off len n : ℕ} :
    bytesOf source off len ++ bytesOf source (off + len) n = bytesOf source off (len + n) := by
  unfold bytesOf
  rw [List.range_add, List.map_append, List.map_map]
  refine congrArg _ (List.map_congr_left fun i _ => ?_)
  rw [Function.comp_apply, Nat.add_assoc]

/-- A command that was made from a range of the list. -/
theorem suits_of_stems {source : ℕ → Byte} {request : Request} (hr : plan[j]? = some r) (hstem : Stems offset plan j r r')
    (hbytes : request.bytes = bytesOf source r'.off r'.len)
    (hsource : ∀ i < r.len, Planned offset plan (start offset plan j + i) (source (r'.off + i))) (id : ℕ) :
    Suits offset plan ⟨j, start offset plan j, id, request⟩ := by
  refine .inr ⟨r, hr, rfl, ?_, fun i b hb => ?_⟩
  · show request.bytes.length = r.len
    rw [hbytes, length_bytesOf, hstem.1]
  · simp only at hb
    rw [hbytes] at hb
    obtain ⟨hi, rfl⟩ := getElem_bytesOf hb
    exact hsource i (hstem.1 ▸ hi)

/-- A range that is an upload is at its own place of the local file. -/
theorem Stems.upload (hstem : Stems offset plan j r r') (htype : r'.type = .upload) : r'.off = start offset plan j := by
  rcases hstem.2 with ⟨_, hoff⟩ | ⟨hsame, hne, _⟩
  · exact hoff
  · exact absurd (hsame ▸ htype) hne

theorem Stems.copied (hr : plan[j]? = some r) (hstem : Stems offset plan j r r') (htype : r'.type ≠ .upload) {i : ℕ} {b : Byte}
    (hi : i < r.len) (hb : r'.copied i = some b) : Planned offset plan (start offset plan j + i) b := by
  rcases hstem.2 with ⟨hup, _⟩ | ⟨hsame, _, hoff⟩
  · exact absurd hup htype
  · refine .inr ⟨j, r, hr, Nat.le_add_right _ _, Nat.add_lt_add_left hi _, ?_⟩
    rw [Nat.add_sub_cancel_left, ← hb]
    unfold Range.copied
    rw [hsame, hoff]

/-! ## What is kept -/

/-- What is so in every phase. -/
structure Kept (offset : ℕ) (plan : List Range) (st : State) : Prop where
  listed : Listed offset plan st.ranges
  sound : st.line.Sound
  count : st.line.sent.length = st.line.read + st.respwait
  suits : ∀ c ∈ st.line.sent, Suits offset plan c
  ordered : st.line.Ordered Command.le

/-- The ranges before `m` know their places. -/
def Placed (offset : ℕ) (plan : List Range) (m : ℕ) (st : State) : Prop :=
  ∀ j < m, ∃ r, st.ranges[j]? = some r ∧ r.uploadoffset = start offset plan j

/-- The commands that are not answered are for ranges before `b`, and have their ids. -/
def Numbered (b : ℕ) (st : State) : Prop :=
  ∀ k c, st.line.read ≤ k → st.line.sent[k]? = some c → c.le < b ∧ ∃ r, st.ranges[c.le]? = some r ∧ r.id = c.id

/-- The loop is at a range, and none before it was rejected. -/
structure At (offset : ℕ) (plan : List Range) (m b : ℕ) (st : State) : Prop where
  here : st.uploadoffset = start offset plan st.le
  bound : st.le ≤ plan.length
  placed : Placed offset plan m st
  settled : st.line.Settled Command.le Accepted st.le
  numbered : Numbered b st

/-- A range with the id was rejected, or one after it, and none before it. -/
structure Rejecting (offset : ℕ) (plan : List Range) (id : ℕ) (st : State) : Prop where
  bound : st.le ≤ plan.length
  placed : Placed offset plan (st.le + 1) st
  closed : ∃ q ≤ st.le, (∃ r, st.ranges[q]? = some r ∧ r.id = id) ∧ st.line.Closed Command.le Accepted q

/-- The commands that may be waited for at the answers: at the last range also its own. -/
def State.outstanding (plan : List Range) (st : State) : ℕ := if st.le < plan.length then st.le else st.le + 1

def Follows (offset : ℕ) (plan : List Range) (st : State) : Prop :=
  match st.phase with
  | .looping => At offset plan st.le st.le st
  | .reading => At offset plan (st.le + 1) (st.outstanding plan) st
  | .draining id => Rejecting offset plan id st
  | .sending => At offset plan (st.le + 1) st.le st ∧ (st.le = plan.length → st.respwait = 0)
  | .writing data =>
    At offset plan (st.le + 1) st.le st ∧
      ∃ r, st.ranges[st.le]? = some r ∧ r.type = .upload ∧ data = bytesOf .localFile r.off data.length ∧ data.length ≤ r.len
  | .ending | .saving => st.line.Settled Command.le Accepted plan.length ∧ st.respwait = 0
  | .failed | .aborted => True

structure Holds (offset : ℕ) (plan : List Range) (st : State) : Prop extends Kept offset plan st where
  follows : Follows offset plan st

theorem Numbered.mono {b b' : ℕ} (h : Numbered b st) (hle : b ≤ b') : Numbered b' st := by
  intro k c hk hc
  obtain ⟨hlt, hid⟩ := h k c hk hc
  exact ⟨Nat.lt_of_lt_of_le hlt hle, hid⟩

theorem Kept.numbered_of_respwait (h : Kept offset plan st) (hwait : st.respwait = 0) (b : ℕ) : Numbered b st := by
  intro k c hk hc
  have hlt := (List.getElem?_eq_some_iff.mp hc).1
  rw [h.count, hwait] at hlt
  exact absurd hk (Nat.not_le_of_lt hlt)

/-- An answer is read. -/
theorem Kept.receive (h : Kept offset plan st) (hanswer : st.line.answer = some (c, outcome)) (hwait : st.respwait ≠ 0) (phase : Phase) :
    Kept offset plan { st with line := st.line.receive, respwait := st.respwait - 1, phase } where
  listed := h.listed
  sound := h.sound.receive hanswer
  count := by
    have := h.count
    show st.line.sent.length = st.line.read + 1 + (st.respwait - 1)
    omega
  suits := h.suits
  ordered := h.ordered.receive

/-- A command is sent for a range, when those that are not answered are for ranges before it. -/
theorem Kept.send (h : Kept offset plan st) (hsuits : Suits offset plan c) (hlast : Numbered c.le st)
    (uploadoffset le : ℕ) (phase : Phase) :
    Kept offset plan
      { st with line := st.line.send c, respwait := st.respwait + 1, uploadoffset, le, phase } where
  listed := h.listed
  sound := h.sound.send
  count := by
    show (st.line.sent ++ [c]).length = st.line.read + (st.respwait + 1)
    rw [List.length_append, h.count]
    rfl
  suits d hd := by
    rcases List.mem_append.mp hd with hd | hd
    · exact h.suits d hd
    · cases List.mem_singleton.mp hd
      exact hsuits
  ordered := h.ordered.send fun k d hk hd => (hlast k d hk hd).1

theorem Numbered.send {b : ℕ} (h : Numbered b st) (hlt : c.le < b) (hr : st.ranges[c.le]? = some r) (hid : r.id = c.id) :
    Numbered b { st with line := st.line.send c } := by
  intro k d hk hd
  rcases sent_send hd with hold | ⟨_, rfl⟩
  · exact h k d hk hold
  · exact ⟨hlt, r, hr, hid⟩

/-- A range gets its place and its id. -/
theorem Placed.set (h : Placed offset plan st.le st) (hoffset : st.uploadoffset = start offset plan st.le)
    (hr : st.ranges[st.le]? = some r) (id : ℕ) :
    Placed offset plan (st.le + 1) { st with ranges := st.ranges.set st.le { r with uploadoffset := st.uploadoffset, id } } := by
  intro j hj
  rcases Nat.lt_succ_iff_lt_or_eq.mp hj with hj | rfl
  · obtain ⟨s, hs, hplace⟩ := h j hj
    exact ⟨s, (List.getElem?_set_ne (Nat.ne_of_gt hj)).trans hs, hplace⟩
  · exact ⟨_, List.getElem?_set_self (List.getElem?_eq_some_iff.mp hr).1, hoffset⟩

theorem Numbered.set (h : Numbered st.le st) (r : Range) :
    Numbered st.le { st with ranges := st.ranges.set st.le r } := by
  intro k c hk hc
  obtain ⟨hlt, s, hs, hid⟩ := h k c hk hc
  exact ⟨hlt, s, (List.getElem?_set_ne (Nat.ne_of_gt hlt)).trans hs, hid⟩

/-! ## The steps -/

theorem begin_holds (hplan : Plan offset fsize plan) (h : Kept offset plan st) (hat : At offset plan st.le st.le st) :
    Holds offset plan st.begin := by
  obtain ⟨r, hr⟩ := h.listed.exists_range hat.bound
  have hlisted : ∀ id, Listed offset plan (st.ranges.set st.le { r with uploadoffset := st.uploadoffset, id }) := fun id =>
    h.listed.set hr (fun _ _ hstem => hstem) (fun htype => htype)
  have hself : ∀ id, (st.ranges.set st.le { r with uploadoffset := st.uploadoffset, id })[st.le]? =
      some { r with uploadoffset := st.uploadoffset, id } := fun id =>
    List.getElem?_set_self (List.getElem?_eq_some_iff.mp hr).1
  unfold State.begin
  rw [hr]
  simp only
  by_cases htype : r.type = .last
  · have hle := (h.listed.type_eq_last hplan hr).mp htype
    rw [if_pos htype]
    have hkept : Kept offset plan { st with
        ranges := st.ranges.set st.le { r with uploadoffset := st.uploadoffset, id := u32 (st.rid + 1) } } :=
      ⟨hlisted _, h.sound, h.count, h.suits, h.ordered⟩
    have hnumbered := hat.numbered.set { r with uploadoffset := st.uploadoffset, id := u32 (st.rid + 1) }
    refine ⟨?_, ?_⟩
    · have hsent := hkept.send (c := ⟨st.le, st.uploadoffset, u32 (st.rid + 1), .uploadInfo⟩) (.inl ⟨rfl, hle⟩) hnumbered
        st.uploadoffset st.le .reading
      exact ⟨hsent.listed, hsent.sound, hsent.count, hsent.suits, hsent.ordered⟩
    · have hout : State.outstanding plan st = st.le + 1 := if_neg (hle ▸ Nat.lt_irrefl _)
      have hsent := (hnumbered.mono (Nat.le_succ _)).send (c := ⟨st.le, st.uploadoffset, u32 (st.rid + 1), .uploadInfo⟩)
        (Nat.lt_succ_self _) (hself _) rfl
      show At offset plan (st.le + 1) (State.outstanding plan st) _
      rw [hout]
      exact ⟨hat.here, hat.bound, hat.placed.set hat.here hr _, hat.settled.sendAbove (Nat.le_refl _), hsent⟩
  · have hlt : st.le < plan.length :=
      Nat.lt_of_le_of_ne hat.bound fun hle => htype ((h.listed.type_eq_last hplan hr).mpr hle)
    rw [if_neg htype]
    refine ⟨⟨hlisted _, h.sound, h.count, h.suits, h.ordered⟩, ?_⟩
    have hout : State.outstanding plan st = st.le := if_pos hlt
    show At offset plan (st.le + 1) (State.outstanding plan st) _
    rw [hout]
    exact ⟨hat.here, hat.bound, hat.placed.set hat.here hr _, hat.settled, hat.numbered.set _⟩

theorem At.receive {m b : ℕ} (h : At offset plan m b st) (hanswer : st.line.answer = some (c, .accepted)) (phase : Phase) :
    At offset plan m b { st with line := st.line.receive, respwait := st.respwait - 1, phase } :=
  ⟨h.here, h.bound, h.placed, h.settled.receive hanswer rfl, fun k d hk => h.numbered k d (Nat.le_of_succ_le hk)⟩

theorem answer_holds (h : Kept offset plan st) (hat : At offset plan (st.le + 1) (st.outstanding plan) st)
    (hphase : st.phase = .reading) (hanswer : st.line.answer = some (c, outcome)) (hwait : st.respwait ≠ 0) (fits : Bool) :
    Holds offset plan (st.answer r c outcome fits) := by
  have hkept := h.receive hanswer hwait
  unfold State.answer
  cases outcome with
  | rejected spoilt reported =>
    simp only
    by_cases hid : (if reported = true then c.id else 0) = 0
    · rw [if_pos hid]
      exact ⟨hkept _, trivial⟩
    · rw [if_neg hid]
      have hreported : reported = true := by
        by_contra hne
        rw [Bool.not_eq_true] at hne
        subst hne
        exact hid rfl
      obtain ⟨hlt, hrange⟩ := hat.numbered _ _ (Nat.le_refl _) (answer_eq hanswer).1
      have hle : c.le ≤ st.le := by
        unfold State.outstanding at hlt
        split at hlt <;> omega
      refine ⟨hkept _, hat.bound, hat.placed, c.le, hle, ?_, (hat.settled.refuse h.ordered hanswer hle).receive⟩
      rw [if_pos hreported]
      exact hrange
  | accepted =>
    simp only
    have hgoes : Holds offset plan { st with line := st.line.receive, respwait := st.respwait - 1 } := by
      refine ⟨⟨(hkept .reading).listed, (hkept .reading).sound, (hkept .reading).count, (hkept .reading).suits,
        (hkept .reading).ordered⟩, ?_⟩
      unfold Follows
      simp only [hphase]
      have hafter := hat.receive hanswer .reading
      exact ⟨hafter.here, hafter.bound, hafter.placed, hafter.settled, hafter.numbered⟩
    split
    · split
      · split
        · exact hgoes
        · exact ⟨hkept _, trivial⟩
      · exact ⟨hkept _, trivial⟩
    · exact hgoes

theorem drain_holds {id : ℕ} (h : Kept offset plan st) (hrejecting : Rejecting offset plan id st) (hphase : st.phase = .draining id)
    (hanswer : st.line.answer = some (c, outcome)) (hwait : st.respwait ≠ 0) :
    Holds offset plan { st with line := st.line.receive, respwait := st.respwait - 1 } := by
  have hkept := h.receive hanswer hwait (.draining id)
  refine ⟨⟨hkept.listed, hkept.sound, hkept.count, hkept.suits, hkept.ordered⟩, ?_⟩
  unfold Follows
  simp only [hphase]
  obtain ⟨q, hq, hid, hclosed⟩ := hrejecting.closed
  exact ⟨hrejecting.bound, hrejecting.placed, q, hq, hid, hclosed.receive⟩

/-- The range that is found is the one that was rejected, or before it. -/
theorem restart_holds {id : ℕ} (h : Kept offset plan st) (hrejecting : Rejecting offset plan id st) (hwait : st.respwait = 0) :
    Holds offset plan (st.restart id) := by
  have hfails : Holds offset plan { st with phase := .failed } := ⟨⟨h.listed, h.sound, h.count, h.suits, h.ordered⟩, trivial⟩
  unfold State.restart
  split
  · exact hfails
  next le2 hfind =>
    obtain ⟨hlt, hid, hbefore⟩ := List.findIdx?_eq_some_iff_getElem.mp hfind
    split
    · exact hfails
    next r hr =>
      split
      · exact hfails
      next htype =>
        obtain ⟨hlast, hup⟩ := not_or.mp htype
        obtain ⟨q, hq, ⟨s, hs, hsid⟩, hclosed⟩ := hrejecting.closed
        have hfirst : le2 ≤ q := by
          by_contra hgt
          have hmiss := hbefore q (Nat.not_le.mp hgt)
          rw [(List.getElem?_eq_some_iff.mp hs).2, hsid] at hmiss
          exact hmiss (decide_eq_true rfl)
        have hle := Nat.le_trans hfirst hq
        have hplaced : ∀ j < le2 + 1, ∃ s, st.ranges[j]? = some s ∧ s.uploadoffset = start offset plan j :=
          fun j hj => hrejecting.placed j (Nat.lt_of_lt_of_le hj (Nat.succ_le_succ hle))
        have hplace : r.uploadoffset = start offset plan le2 := by
          obtain ⟨s, hs, hplace⟩ := hplaced le2 (Nat.lt_succ_self _)
          rw [hr] at hs
          cases hs
          exact hplace
        have hkept : Kept offset plan { st with
            ranges := st.ranges.set le2 { r with type := .upload, off := r.uploadoffset }
            uploadoffset := r.uploadoffset
            le := le2
            phase := .sending } := by
          refine ⟨h.listed.set hr (fun p _ hstem => ?_) fun htype => absurd htype hlast, h.sound, h.count, h.suits, h.ordered⟩
          exact ⟨hstem.1, .inl ⟨rfl, hplace⟩⟩
        refine ⟨hkept, ⟨hplace, Nat.le_trans hle hrejecting.bound, fun j hj => ?_, (hclosed.mono hfirst).settled,
          hkept.numbered_of_respwait hwait _⟩, fun _ => hwait⟩
        by_cases hj' : j = le2
        · subst hj'
          exact ⟨_, List.getElem?_set_self hlt, hplace⟩
        · obtain ⟨s, hs, hplace⟩ := hplaced j hj
          exact ⟨s, (List.getElem?_set_ne (Ne.symm hj')).trans hs, hplace⟩

/-- The command of a range is sent. -/
theorem sent_holds {source : ℕ → Byte} {request : Request} {p : Range} (h : Kept offset plan st)
    (hat : At offset plan (st.le + 1) st.le st) (hr : st.ranges[st.le]? = some r) (hp : plan[st.le]? = some p)
    (hstem : Stems offset plan st.le p r) (hbytes : request.bytes = bytesOf source r.off r.len)
    (hsource : ∀ i < p.len, Planned offset plan (start offset plan st.le + i) (source (r.off + i))) :
    Holds offset plan (st.sent r request) := by
  have hplace : r.uploadoffset = start offset plan st.le := by
    obtain ⟨s, hs, hplace⟩ := hat.placed st.le (Nat.lt_succ_self _)
    rw [hr] at hs
    cases hs
    exact hplace
  have hsuits : Suits offset plan ⟨st.le, r.uploadoffset, r.id, request⟩ := by
    rw [hplace]
    exact suits_of_stems hp hstem hbytes hsource r.id
  have hsent := (hat.numbered.mono (Nat.le_succ _)).send (c := ⟨st.le, r.uploadoffset, r.id, request⟩) (Nat.lt_succ_self _) hr rfl
  refine ⟨h.send hsuits hat.numbered _ _ _, ?_, (List.getElem?_eq_some_iff.mp hp).1, hat.placed, hat.settled.send h.sound, hsent⟩
  show st.uploadoffset + r.len = start offset plan (st.le + 1)
  rw [start_succ hp, hat.here, hstem.1]

theorem send_holds (hplan : Plan offset fsize plan) (h : Kept offset plan st) (hat : At offset plan (st.le + 1) st.le st)
    (hlast : st.le = plan.length → st.respwait = 0) (hr : st.ranges[st.le]? = some r) : Holds offset plan (st.send r) := by
  have hcopy : r.type ≠ .last → ∃ p, plan[st.le]? = some p ∧ Stems offset plan st.le p r := fun htype => by
    have hlt : st.le < plan.length :=
      Nat.lt_of_le_of_ne hat.bound fun hle => htype ((h.listed.type_eq_last hplan hr).mpr hle)
    obtain ⟨s, hs, hstem⟩ := h.listed.stems _ _ (List.getElem?_eq_getElem hlt)
    rw [hr] at hs
    cases hs
    exact ⟨_, List.getElem?_eq_getElem hlt, hstem⟩
  unfold State.send
  split
  next htype =>
    exact ⟨⟨h.listed, h.sound, h.count, h.suits, h.ordered⟩,
      ⟨hat.here, hat.bound, hat.placed, hat.settled, hat.numbered⟩, r, hr, htype, rfl, Nat.zero_le _⟩
  next fileid hash htype =>
    obtain ⟨p, hp, hstem⟩ := hcopy (htype ▸ nofun)
    refine sent_holds h hat hr hp hstem rfl fun i hi => Stems.copied hp hstem (htype ▸ nofun) hi ?_
    unfold Range.copied
    rw [htype]
  next uploadid htype =>
    obtain ⟨p, hp, hstem⟩ := hcopy (htype ▸ nofun)
    refine sent_holds h hat hr hp hstem rfl fun i hi => Stems.copied hp hstem (htype ▸ nofun) hi ?_
    unfold Range.copied
    rw [htype]
  next htype =>
    have hle := (h.listed.type_eq_last hplan hr).mp htype
    exact ⟨⟨h.listed, h.sound, h.count, h.suits, h.ordered⟩, hle ▸ hat.settled, hlast hle⟩

theorem Kept.serve {line : Line Command Outcome} (h : Kept offset plan st) (hserve : st.line.serve outcome = some line) :
    Kept offset plan { st with line } := by
  have hsound := h.sound.serve hserve
  have hordered := h.ordered.serve hserve
  obtain ⟨_, rfl⟩ := serve_eq hserve
  exact ⟨h.listed, hsound, h.count, h.suits, hordered⟩

theorem At.serve {m b : ℕ} {line : Line Command Outcome} (h : At offset plan m b st) (hsound : st.line.Sound)
    (hserve : st.line.serve outcome = some line) (phase : Phase) : At offset plan m b { st with line, phase } := by
  have hsettled := h.settled.serve hsound hserve
  obtain ⟨_, rfl⟩ := serve_eq hserve
  exact ⟨h.here, h.bound, h.placed, hsettled, h.numbered⟩

/-- What one event keeps. -/
theorem step_holds (hplan : Plan offset fsize plan) {e : Event} (h : Holds offset plan st) (hstep : step st e st') :
    Holds offset plan st' := by
  have hkept := h.toKept
  have hfollows := h.follows
  unfold Follows at hfollows
  unfold step State.run at hstep
  cases e with
  | begin =>
    simp only at hstep
    split at hstep
    next hphase =>
      cases hstep
      rw [hphase] at hfollows
      exact begin_holds hplan hkept hfollows
    · cases hstep
  | answer fits =>
    simp only at hstep
    split at hstep
    next r c outcome hphase hr hanswer =>
      split at hstep
      · cases hstep
      next hwait =>
        cases hstep
        rw [hphase] at hfollows
        exact answer_holds hkept hfollows hphase hanswer hwait fits
    · cases hstep
  | drain =>
    simp only at hstep
    split at hstep
    next id p hphase hanswer =>
      split at hstep
      · cases hstep
      next hwait =>
        cases hstep
        rw [hphase] at hfollows
        exact drain_holds hkept hfollows hphase hanswer hwait
    · cases hstep
  | restart =>
    simp only at hstep
    split at hstep
    next id hphase =>
      split at hstep
      next hwait =>
        cases hstep
        rw [hphase] at hfollows
        exact restart_holds hkept hfollows hwait
      · cases hstep
    · cases hstep
  | proceed =>
    simp only at hstep
    split at hstep
    next r hphase hr =>
      split at hstep
      next hgoes =>
        cases hstep
        rw [hphase] at hfollows
        have hat : At offset plan (st.le + 1) (st.outstanding plan) st := hfollows
        have hlast : st.le = plan.length → st.respwait = 0 := fun hle =>
          hgoes.resolve_right fun htype => htype ((hkept.listed.type_eq_last hplan hr).mpr hle)
        have hnumbered : Numbered st.le st := by
          by_cases hle : st.le = plan.length
          · exact hkept.numbered_of_respwait (hlast hle) _
          · have hout : st.outstanding plan = st.le := if_pos (Nat.lt_of_le_of_ne hat.bound hle)
            exact hout ▸ hat.numbered
        exact ⟨⟨hkept.listed, hkept.sound, hkept.count, hkept.suits, hkept.ordered⟩,
          ⟨hat.here, hat.bound, hat.placed, hat.settled, hnumbered⟩, hlast⟩
      · cases hstep
    · cases hstep
  | send =>
    simp only at hstep
    split at hstep
    next r hphase hr =>
      cases hstep
      rw [hphase] at hfollows
      exact send_holds hplan hkept hfollows.1 hfollows.2 hr
    · cases hstep
  | copy rrd =>
    simp only at hstep
    split at hstep
    next data r hphase hr =>
      split at hstep
      next hread =>
        cases hstep
        rw [hphase] at hfollows
        obtain ⟨hat, s, hs, htype, hdata, _⟩ := hfollows
        rw [hr] at hs
        cases hs
        have hmore : data ++ bytesOf .localFile (r.off + data.length) rrd = bytesOf .localFile r.off (data.length + rrd) := by
          rw [← bytesOf_append, ← hdata]
        refine ⟨⟨hkept.listed, hkept.sound, hkept.count, hkept.suits, hkept.ordered⟩,
          ⟨hat.here, hat.bound, hat.placed, hat.settled, hat.numbered⟩, r, hr, htype, ?_, ?_⟩
        · rw [hmore, length_bytesOf]
        · rw [hmore, length_bytesOf]
          omega
      · cases hstep
    · cases hstep
  | copied =>
    simp only at hstep
    split at hstep
    next data r hphase hr =>
      split at hstep
      · cases hstep
      next hwhole =>
        cases hstep
        rw [hphase] at hfollows
        obtain ⟨hat, s, hs, htype, hdata, hle⟩ := hfollows
        rw [hr] at hs
        cases hs
        have hlt : st.le < plan.length := Nat.lt_of_le_of_ne hat.bound fun hle => by
          rw [(hkept.listed.type_eq_last hplan hr).mpr hle] at htype
          cases htype
        have hp : plan[st.le]? = some plan[st.le] := List.getElem?_eq_getElem hlt
        obtain ⟨s, hs, hstem⟩ := hkept.listed.stems _ _ hp
        rw [hr] at hs
        cases hs
        refine @sent_holds _ _ _ _ .localFile _ _ hkept hat hr hp hstem ?_ fun i _ => .inl ?_
        · rw [Nat.le_antisymm hle (Nat.not_lt.mp hwhole)] at hdata
          exact hdata
        · rw [hstem.upload htype]
    · cases hstep
  | save sameSize =>
    simp only at hstep
    split at hstep
    next hphase =>
      cases hstep
      rw [hphase] at hfollows
      refine ⟨⟨hkept.listed, hkept.sound, hkept.count, hkept.suits, hkept.ordered⟩, ?_⟩
      cases sameSize with
      | true => exact hfollows
      | false => trivial
    · cases hstep
  | fail =>
    simp only at hstep
    split at hstep
    · cases hstep
    · cases hstep
      exact ⟨⟨hkept.listed, hkept.sound, hkept.count, hkept.suits, hkept.ordered⟩, trivial⟩
  | serve outcome =>
    obtain ⟨line, hserve, rfl⟩ := Option.map_eq_some_iff.mp hstep
    refine ⟨hkept.serve hserve, ?_⟩
    have hat : ∀ {m b : ℕ} (phase : Phase), At offset plan m b st → At offset plan m b { st with line, phase } :=
      fun phase hat => hat.serve hkept.sound hserve phase
    unfold Follows
    simp only
    split at hfollows
    next hphase =>
      rw [hphase]
      exact hat _ hfollows
    next hphase =>
      rw [hphase]
      exact hat _ hfollows
    next hphase =>
      rw [hphase]
      obtain ⟨q, hq, hid, hclosed⟩ := hfollows.closed
      exact ⟨hfollows.bound, hfollows.placed, q, hq, hid, hclosed.serve hserve⟩
    next hphase =>
      rw [hphase]
      exact ⟨hat _ hfollows.1, hfollows.2⟩
    next hphase =>
      rw [hphase]
      exact ⟨hat _ hfollows.1, hfollows.2⟩
    · exact ⟨hfollows.1.serve hkept.sound hserve, hfollows.2⟩
    · exact ⟨hfollows.1.serve hkept.sound hserve, hfollows.2⟩
    · trivial
    · trivial

theorem start_holds (hplan : Plan offset fsize plan) (hstart : Start offset plan st) : Holds offset plan st := by
  obtain ⟨last, hlast, hranges⟩ := hstart.ranges
  have hstems : ∀ j r, plan[j]? = some r → ∃ r', st.ranges[j]? = some r' ∧ Stems offset plan j r r' := fun j r hr => by
    refine ⟨r, ?_, rfl, ?_⟩
    · rw [hranges, List.getElem?_append_left (List.getElem?_eq_some_iff.mp hr).1, hr]
    · by_cases htype : r.type = .upload
      · exact .inl ⟨htype, hplan.offs j r hr htype⟩
      · exact .inr ⟨rfl, htype, rfl⟩
  have hend : st.ranges[plan.length]? = some last := by
    rw [hranges, List.getElem?_append_right (Nat.le_refl _), Nat.sub_self]
    rfl
  refine ⟨⟨⟨?_, hstems, last, hend, hlast⟩, ?_, ?_, ?_, ?_⟩, ?_⟩
  · rw [hranges, List.length_append, List.length_singleton]
  · exact hstart.line ▸ fresh_sound
  · rw [hstart.line, hstart.respwait]
    rfl
  · rw [hstart.line]
    exact nofun
  · exact hstart.line ▸ fresh_ordered
  · unfold Follows
    rw [hstart.phase]
    refine ⟨?_, hstart.first ▸ Nat.zero_le _, ?_, ?_, ?_⟩
    · rw [hstart.offset, hstart.first]
      rfl
    · rw [hstart.first]
      exact nofun
    · rw [hstart.first, hstart.line]
      exact fresh_settled
    · rw [Numbered, hstart.line]
      exact nofun

/-! ## At `upload_save` -/

theorem Holds.closed (h : Holds offset plan st) (hphase : st.phase = .saving) :
    st.line.Closed Command.le Accepted plan.length ∧ st.line.read = st.line.sent.length := by
  have hfollows := h.follows
  unfold Follows at hfollows
  rw [hphase] at hfollows
  have hread : st.line.read = st.line.sent.length := by rw [h.count, hfollows.2, Nat.add_zero]
  exact ⟨hfollows.1.closed hread, hread⟩

theorem Holds.suits_of_sent (h : Holds offset plan st) {k : ℕ} (hc : st.line.sent[k]? = some c) (hr : plan[c.le]? = some r) :
    c.uploadoffset = start offset plan c.le ∧ c.request.bytes.length = r.len ∧
      ∀ i b, c.request.bytes[i]? = some b → Planned offset plan (start offset plan c.le + i) b := by
  rcases h.suits c (List.mem_of_getElem? hc) with ⟨_, hle⟩ | ⟨r', hr', hplace, hlength, hbytes⟩
  · exact absurd hle (Nat.ne_of_lt (List.getElem?_eq_some_iff.mp hr).1)
  · rw [hr] at hr'
    cases hr'
    exact ⟨hplace, hlength, hbytes⟩

/-- A command for a range after one writes nothing to it. -/
theorem Suits.not_covers {o : ℕ} (hsuits : Suits offset plan c) (hr : plan[j]? = some r) (hlt : j < c.le)
    (ho : o < start offset plan j + r.len) : ¬c.Covers o := by
  rintro ⟨hlow, hhigh⟩
  rcases hsuits with ⟨hinfo, _⟩ | ⟨_, _, hplace, _⟩
  · rw [hinfo] at hhigh
    exact absurd hlow (Nat.not_le_of_lt hhigh)
  · have hmono : start offset plan (j + 1) ≤ start offset plan c.le := start_mono hlt
    rw [start_succ hr] at hmono
    omega

theorem Holds.written (h : Holds offset plan st) (hphase : st.phase = .saving) {o : ℕ} (hr : plan[j]? = some r)
    (hlow : start offset plan j ≤ o) (hhigh : o < start offset plan j + r.len) :
    ∃ b, st.written o = some b ∧ Planned offset plan o b := by
  obtain ⟨hclosed, hread⟩ := h.closed hphase
  obtain ⟨k, c, rfl, hlatest, outcome, hserved, rfl⟩ := hclosed j (List.getElem?_eq_some_iff.mp hr).1
  obtain ⟨hplace, hlength, hbytes⟩ := h.suits_of_sent hlatest.1 hr
  have hi : o - start offset plan c.le < c.request.bytes.length := by
    rw [hlength]
    omega
  refine ⟨c.request.bytes[o - start offset plan c.le], ?_, ?_⟩
  · refine foldl_last (f := execute) (a := (c, .accepted)) (k := k) _ ?_ (fun written => ?_) fun k' p hk' hp written => ?_
    · rw [List.getElem?_zip_eq_some]
      exact ⟨hlatest.1, hserved⟩
    · unfold execute
      rw [if_pos]
      · rw [hplace, List.getElem?_eq_getElem hi]
      · unfold Command.Covers
        rw [hplace]
        simp only
        omega
    · obtain ⟨hc', _⟩ := List.getElem?_zip_eq_some.mp hp
      have hnot := (h.suits _ (List.mem_of_getElem? hc')).not_covers hr (hlatest.2 k' p.1 hk' hc') hhigh
      unfold execute
      rw [if_neg hnot]
  · have := hbytes _ _ (List.getElem?_eq_getElem hi)
    rwa [Nat.add_sub_cancel' hlow] at this

/-- Where the upload is saved, the server has the file as it was planned. -/
theorem uploaded_of_saving (hplan : Plan offset fsize plan) (h : Reachable (Start offset plan) step st)
    (hphase : st.phase = .saving) : Uploaded offset fsize plan st := by
  have hholds : Holds offset plan st :=
    h.invariant (fun _ => start_holds hplan) fun _ _ _ h hstep => step_holds hplan h hstep
  obtain ⟨hclosed, hread⟩ := hholds.closed hphase
  refine ⟨fun o hlow hhigh => ?_, ?_, hread, ?_⟩
  · have hend : o < start offset plan plan.length := hplan.covers ▸ Nat.lt_of_lt_of_le hhigh (Nat.le_max_right _ _)
    obtain ⟨j, r, hr, hfrom, hto⟩ := exists_covering (Nat.le_refl _) hlow hend
    exact hholds.written hphase hr hfrom hto
  · intro k c spoilt reported hsent hserved j r hle hr
    obtain ⟨k', c', w', hlater, hsent', rfl, hserved', rfl⟩ :=
      hclosed.again hsent hserved nofun hle (List.getElem?_eq_some_iff.mp hr).1
    obtain ⟨hplace, hlength, _⟩ := hholds.suits_of_sent hsent' hr
    exact ⟨k', c', hlater, hsent', rfl, hplace, hlength, hserved'⟩
  · exact Nat.le_antisymm hholds.sound.served (hread ▸ hholds.sound.read)

/-- Four bytes of a file on the server, then two of the local file. -/
def small : List Range := [⟨0, 100, 4, .copyFile 9 8, 0⟩, ⟨0, 4, 2, .upload, 0⟩]

theorem small_plan : Plan 0 6 small := by
  refine ⟨by decide, by decide, fun j r hr htype => ?_⟩
  match j with
  | 0 =>
    cases hr
    cases htype
  | 1 =>
    cases hr
    decide
  | j + 2 => cases hr

def State.small : State := ⟨BlockUpload.small ++ [⟨0, 0, 0, .last, 0⟩], 0, 0, 0, 0, .looping, .fresh⟩

/-- The copy is rejected while the upload is sent, and both are sent again. -/
def rejecting : List Event :=
  [.begin, .proceed, .send, .begin, .proceed, .send, .copy 2, .copied, .serve (.rejected true true), .begin, .answer true,
    .serve .accepted, .drain, .serve .accepted, .drain, .restart, .send, .copy 3, .copy 1, .copied, .begin, .proceed, .send,
    .copy 2, .copied, .begin, .serve .accepted, .answer true, .serve .accepted, .answer true, .serve .accepted, .answer true,
    .proceed, .send, .save true]

theorem small_uploaded : ∃ st, rejecting.foldlM State.run State.small = some st ∧ st.phase = .saving ∧ Uploaded 0 6 small st := by
  have hsome : (rejecting.foldlM State.run State.small).isSome = true := by decide
  obtain ⟨st, hrun⟩ := Option.isSome_iff_exists.mp hsome
  have hphase : st.phase = .saving := by
    have h : (rejecting.foldlM State.run State.small).map State.phase = some .saving := by decide
    rw [hrun] at h
    exact Option.some.inj h
  refine ⟨st, hrun, hphase, uploaded_of_saving small_plan (Reachable.runs rejecting (.start ?_) hrun) hphase⟩
  exact ⟨⟨_, rfl, rfl⟩, rfl, rfl, rfl, rfl, rfl⟩

end Pclsync.Transfers.BlockUpload
