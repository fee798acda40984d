import Mathlib.Logic.Function.Basic
import Pclsync.Lib.Transition
import Pclsync.Locks.Calls

/-! Transactions of `plibs.c`: who has `psync_db_lock`, and whether SQLite has a transaction open.

A thread runs single statements, or `psync_sql_start_transaction`, some statements and the end
of the transaction, whether or not it looks at what the first call returned. A thread that
finds the lock taken waits, that is, it has no step. -/
namespace Pclsync.Sql
open Lib.Transition
open Locks (Rwlock Lockcnt)

/-- The changes that the database has, each by the number of the transaction, or of the single
statement, that made it, and what it goes back to while a transaction is open. -/
structure Db where
  rows : List ℕ
  saved : Option (List ℕ)
deriving DecidableEq, Repr

/-- What SQLite is asked. `fails` is that it cannot commit. -/
inductive Query where
  | begin
  | commit (fails : Bool)
  | rollback
  | change (number count : ℕ)
deriving DecidableEq, Repr

/-- `sqlite3_exec`, or `sqlite3_step`: the database, and whether there was no error. -/
def Db.exec (db : Db) : Query → Db × Bool
  | .begin => if db.saved.isSome then (db, false) else ({ db with saved := some db.rows }, true)
  | .commit fails => if db.saved.isNone || fails then (db, false) else ({ db with saved := none }, true)
  | .rollback =>
    match db.saved with
    | some rows => (⟨rows, none⟩, true)
    | none => (db, false)
  | .change number count => ({ db with rows := db.rows ++ List.replicate count number }, true)

/-- Where a thread is. -/
inductive Phase where
  | idle
  /-- `psync_sql_start_transaction` has locked. -/
  | starting (ignores : Bool)
  /-- `BEGIN` has failed. -/
  | refused (ignores : Bool)
  /-- It thinks that it has a transaction. -/
  | owner (number : ℕ)
  /-- `psync_sql_prep_statement` has locked. -/
  | statement (number : ℕ) (owned : Bool)
  /-- The transaction has ended, but for the lock. -/
  | ending
deriving DecidableEq, Repr

/-- `undone` are the changes that a `ROLLBACK` took back, each with the transaction it was for, and
`failed` is that an assertion of the lock has failed. -/
structure State (T : Type) where
  db : Db
  rw : Rwlock
  cnt : T → Lockcnt
  phase : T → Phase
  numbers : ℕ
  taken : T → ℕ
  released : T → ℕ
  undone : List (ℕ × ℕ)
  failed : Bool

variable {T : Type} [DecidableEq T]

namespace State

def setPhase (s : State T) (t : T) (p : Phase) : State T := { s with phase := Function.update s.phase t p }

/-- `psync_sql_lock`. -/
def lock (s : State T) (t : T) : Option (State T) :=
  match Locks.wrlock.once s.rw (s.cnt t) with
  | .returns 0 rw cnt =>
    some { s with rw, cnt := Function.update s.cnt t cnt, taken := Function.update s.taken t (s.taken t + 1) }
  | _ => none

/-- `psync_sql_unlock`. -/
def unlock (s : State T) (t : T) : State T :=
  let s := { s with released := Function.update s.released t (s.released t + 1) }
  match Locks.unlock s.rw (s.cnt t) with
  | some k => { s with rw := k.rw, cnt := Function.update s.cnt t k.cnt }
  | none => { s with failed := true }

/-- `psync_sql_statement`. -/
def statement (s : State T) (t : T) (query : Query) : Option (State T × Bool) :=
  (s.lock t).map fun s => (({ s with db := (s.db.exec query).1 } : State T).unlock t, (s.db.exec query).2)

end State

inductive Event (T : Type) where
  | startTransaction (t : T) (ignores : Bool)
  | begin (t : T)
  /-- It unlocks, as `BEGIN` has failed. -/
  | refuse (t : T)
  | prepStatement (t : T)
  /-- `psync_sql_run_free`, or a query and `psync_sql_free_result`. -/
  | runFree (t : T) (count : ℕ)
  | commit (t : T) (fails : Bool)
  | rollback (t : T)
  /-- The unlocking at the end of a transaction. -/
  | unlock (t : T)

def State.run (s : State T) : Event T → Option (State T)
  | .startTransaction t ignores =>
    match s.phase t with
    | .idle => (s.lock t).map (·.setPhase t (.starting ignores))
    | _ => none
  | .begin t =>
    match s.phase t with
    | .starting ignores =>
      (s.statement t .begin).map fun (s, ok) =>
        if ok then { s with numbers := s.numbers + 1 }.setPhase t (.owner s.numbers) else s.setPhase t (.refused ignores)
    | _ => none
  | .refuse t =>
    match s.phase t with
    | .refused ignores =>
      let s := s.unlock t
      some (if ignores then { s with numbers := s.numbers + 1 }.setPhase t (.owner s.numbers) else s.setPhase t .idle)
    | _ => none
  | .prepStatement t =>
    match s.phase t with
    | .idle => (s.lock t).map fun s => { s with numbers := s.numbers + 1 }.setPhase t (.statement s.numbers false)
    | .owner number => (s.lock t).map (·.setPhase t (.statement number true))
    | _ => none
  | .runFree t count =>
    match s.phase t with
    | .statement number owned =>
      some ((({ s with db := (s.db.exec (.change number count)).1 } : State T).unlock t).setPhase t
        (if owned then .owner number else .idle))
    | _ => none
  | .commit t fails =>
    match s.phase t with
    | .owner _ => (s.statement t (.commit fails)).map fun (s, _) => s.setPhase t .ending
    | _ => none
  | .rollback t =>
    match s.phase t with
    | .owner number =>
      let back := s.db.rows.drop (s.db.saved.getD s.db.rows).length
      (s.statement t .rollback).map fun (s, _) =>
        { s with undone := s.undone ++ back.map (·, number) }.setPhase t .ending
    | _ => none
  | .unlock t =>
    match s.phase t with
    | .ending => some ((s.unlock t).setPhase t .idle)
    | _ => none

/-- A failed assertion ends the program. -/
def step (s : State T) (e : Event T) (s' : State T) : Prop := s.failed = false ∧ s.run e = some s'

structure Initial (s : State T) : Prop where
  rw : s.rw = Locks.init
  cnt : ∀ t, s.cnt t = ⟨0, 0⟩
  phase : ∀ t, s.phase t = .idle
  saved : s.db.saved = none
  counts : ∀ t, s.taken t = s.released t
  undone : s.undone = []
  failed : s.failed = false

/-! ## The lock -/

/-- The lock is free, or one thread has it some times. -/
def State.Held (s : State T) : Option (T × ℕ) → Prop
  | none => s.rw = Locks.init ∧ ∀ t, s.cnt t = ⟨0, 0⟩
  | some (t, depth) =>
    s.rw = { Locks.init with wcount := 1 } ∧ s.cnt t = ⟨0, depth⟩ ∧ 0 < depth ∧ ∀ t' ≠ t, s.cnt t' = ⟨0, 0⟩

variable {s s' : State T} {t t' : T}

theorem lock_free (h : s.Held none) (t : T) : s.lock t = some
    { s with
      rw := { Locks.init with wcount := 1 }
      cnt := Function.update s.cnt t ⟨0, 1⟩
      taken := Function.update s.taken t (s.taken t + 1) } := by
  obtain ⟨hrw, hcnt⟩ := h
  unfold State.lock
  rw [hrw, hcnt]
  rfl

theorem lock_own {depth : ℕ} (h : s.Held (some (t, depth))) (hlt : depth < 3) : s.lock t = some
    { s with
      cnt := Function.update s.cnt t ⟨0, depth + 1⟩
      taken := Function.update s.taken t (s.taken t + 1) } := by
  obtain ⟨hrw, hcnt, hpos, -⟩ := h
  unfold State.lock
  rw [hcnt]
  obtain rfl | rfl : depth = 1 ∨ depth = 2 := by omega
  · rfl
  · rfl

theorem lock_other {depth : ℕ} (h : s.Held (some (t, depth))) (hne : t' ≠ t) : s.lock t' = none := by
  obtain ⟨hrw, -, -, hothers⟩ := h
  unfold State.lock
  rw [hrw, hothers t' hne]
  rfl

theorem unlock_last (h : s.Held (some (t, 1))) : s.unlock t =
    { s with
      rw := Locks.init
      cnt := Function.update s.cnt t ⟨0, 0⟩
      released := Function.update s.released t (s.released t + 1) } := by
  obtain ⟨hrw, hcnt, -⟩ := h
  unfold State.unlock
  dsimp only
  rw [hrw, hcnt]
  rfl

theorem unlock_nested {depth : ℕ} (h : s.Held (some (t, depth + 2))) : s.unlock t =
    { s with
      cnt := Function.update s.cnt t ⟨0, depth + 1⟩
      released := Function.update s.released t (s.released t + 1) } := by
  obtain ⟨hrw, hcnt, -⟩ := h
  unfold State.unlock
  dsimp only
  rw [hrw, hcnt]
  rfl

theorem held_free (h : s.Held none) (t : T) {s' : State T} (hrw : s'.rw = { Locks.init with wcount := 1 })
    (hcnt : s'.cnt = Function.update s.cnt t ⟨0, 1⟩) : s'.Held (some (t, 1)) := by
  refine ⟨hrw, ?_, Nat.one_pos, fun t' ht' => ?_⟩
  · rw [hcnt, Function.update_self]
  · rw [hcnt, Function.update_of_ne ht']
    exact h.2 t'

theorem held_own {depth depth' : ℕ} (h : s.Held (some (t, depth))) {s' : State T} (hrw : s'.rw = s.rw)
    (hcnt : s'.cnt = Function.update s.cnt t ⟨0, depth'⟩) (hpos : 0 < depth') : s'.Held (some (t, depth')) := by
  refine ⟨hrw.trans h.1, ?_, hpos, fun t' ht' => ?_⟩
  · rw [hcnt, Function.update_self]
  · rw [hcnt, Function.update_of_ne ht']
    exact h.2.2.2 t' ht'

theorem held_last (h : s.Held (some (t, 1))) {s' : State T} (hrw : s'.rw = Locks.init)
    (hcnt : s'.cnt = Function.update s.cnt t ⟨0, 0⟩) : s'.Held none := by
  refine ⟨hrw, fun t' => ?_⟩
  rw [hcnt]
  by_cases ht : t' = t
  · rw [ht, Function.update_self]
  · rw [Function.update_of_ne ht]
    exact h.2.2.2 t' ht

/-- A statement of a thread that has the lock leaves the lock as it is. -/
theorem statement_own {depth : ℕ} (h : s.Held (some (t, depth))) (hlt : depth < 3) (query : Query) :
    s.statement t query = some
      ({ s with
          db := (s.db.exec query).1
          taken := Function.update s.taken t (s.taken t + 1)
          released := Function.update s.released t (s.released t + 1) }, (s.db.exec query).2) := by
  obtain ⟨n, rfl⟩ : ∃ n, depth = n + 1 := ⟨depth - 1, by have := h.2.2.1; omega⟩
  unfold State.statement
  rw [lock_own h hlt, Option.map_some]
  have hheld : ({ s with
      db := (s.db.exec query).1
      cnt := Function.update s.cnt t ⟨0, n + 1 + 1⟩
      taken := Function.update s.taken t (s.taken t + 1) } : State T).Held (some (t, n + 2)) :=
    held_own h rfl rfl (Nat.succ_pos _)
  dsimp only
  rw [unlock_nested hheld]
  dsimp only
  rw [Function.update_idem, ← h.2.1, Function.update_eq_self]

/-! ## Runs in which no commit fails -/

/-- How often a thread has locked. -/
def Phase.depth : Phase → ℕ
  | .idle => 0
  | .starting _ | .refused _ | .owner _ | .ending => 1
  | .statement _ owned => if owned then 2 else 1

/-- The transaction of a thread is open, with the changes it made, and no other is. -/
def Phase.Opened (db : Db) : Phase → Prop
  | .owner number | .statement number true =>
    ∃ rows count, db.saved = some rows ∧ db.rows = rows ++ List.replicate count number
  | .refused _ => False
  | _ => db.saved = none

/-- At most one thread is at work. -/
inductive Place (s : State T) : Prop where
  | free : (∀ t, s.phase t = .idle) → s.Held none → s.db.saved = none → Place s
  | held (t : T) : s.phase t ≠ .idle → (∀ t' ≠ t, s.phase t' = .idle) → s.Held (some (t, (s.phase t).depth)) →
      (s.phase t).Opened s.db → Place s

structure Sound (s : State T) : Prop where
  place : Place s
  counts : ∀ t, s.taken t = s.released t + (s.phase t).depth
  undone : ∀ change ∈ s.undone, change.1 = change.2
  failed : s.failed = false

omit [DecidableEq T] in
theorem Initial.sound (h : Initial s) : Sound s where
  place := .free h.phase ⟨h.rw, h.cnt⟩ h.saved
  counts := fun t => by
    rw [h.phase t]
    exact h.counts t
  undone := by
    rw [h.undone]
    exact nofun
  failed := h.failed

/-- Who is not idle has the lock. -/
theorem Place.of_phase (h : Place s) (hne : s.phase t ≠ .idle) : (∀ t' ≠ t, s.phase t' = .idle) ∧
    s.Held (some (t, (s.phase t).depth)) ∧ (s.phase t).Opened s.db := by
  cases h with
  | free hidle => exact absurd (hidle t) hne
  | held t₀ hne₀ hothers hheld hopened =>
    have ht : t = t₀ := by
      by_contra ht
      exact hne (hothers t ht)
    rw [ht]
    exact ⟨hothers, hheld, hopened⟩

/-- Who is idle and gets the lock finds it free. -/
theorem Place.of_lock (h : Place s) (hidle : s.phase t = .idle) (hlock : s.lock t = some s') :
    (∀ t, s.phase t = .idle) ∧ s.Held none ∧ s.db.saved = none := by
  cases h with
  | free hall hheld hsaved => exact ⟨hall, hheld, hsaved⟩
  | held t₀ hne hothers hheld =>
    have ht : t ≠ t₀ := by
      rintro rfl
      exact hne hidle
    rw [lock_other hheld ht] at hlock
    cases hlock

/-- A thread that had the lock goes on with it. -/
theorem Place.next {p : Phase} (hp : s'.phase = Function.update s.phase t p) (hne : p ≠ .idle)
    (hothers : ∀ t' ≠ t, s.phase t' = .idle) (hheld : s'.Held (some (t, p.depth))) (hopened : p.Opened s'.db) :
    Place s' := by
  have hphase : s'.phase t = p := by rw [hp, Function.update_self]
  refine .held t (by rw [hphase]; exact hne) (fun t' ht' => ?_) (by rw [hphase]; exact hheld) (by rw [hphase]; exact hopened)
  rw [hp, Function.update_of_ne ht']
  exact hothers t' ht'

/-- It leaves. -/
theorem Place.leave (hp : s'.phase = Function.update s.phase t .idle) (hothers : ∀ t' ≠ t, s.phase t' = .idle)
    (hheld : s'.Held none) (hsaved : s'.db.saved = none) : Place s' := by
  refine .free (fun t' => ?_) hheld hsaved
  rw [hp]
  by_cases ht : t' = t
  · rw [ht, Function.update_self]
  · rw [Function.update_of_ne ht]
    exact hothers t' ht

/-- The counts of the thread that has moved. -/
theorem counts_next {p : Phase} (h : ∀ t, s.taken t = s.released t + (s.phase t).depth)
    (hp : s'.phase = Function.update s.phase t p) {a b : ℕ}
    (htaken : s'.taken = Function.update s.taken t (s.taken t + a))
    (hreleased : s'.released = Function.update s.released t (s.released t + b))
    (hdepth : (s.phase t).depth + a = p.depth + b) (t' : T) : s'.taken t' = s'.released t' + (s'.phase t').depth := by
  rw [hp, htaken, hreleased]
  by_cases ht : t' = t
  · subst ht
    rw [Function.update_self, Function.update_self, Function.update_self, h t']
    omega
  · rw [Function.update_of_ne ht, Function.update_of_ne ht, Function.update_of_ne ht]
    exact h t'

/-- SQLite does not commit. -/
def Fails (_ : State T) : Event T → Prop
  | .commit _ fails => fails = true
  | _ => False

theorem Sound.step {e : Event T} (h : Sound s) (hd : ¬Fails s e) (hstep : step s e s') : Sound s' := by
  obtain ⟨-, hrun⟩ := hstep
  cases e with
  | startTransaction t ignores =>
    simp only [State.run] at hrun
    split at hrun
    · next hidle =>
      obtain ⟨s₁, hlock, hs'⟩ := Option.map_eq_some_iff.mp hrun
      obtain ⟨hall, hheld, hsaved⟩ := h.place.of_lock hidle hlock
      rw [lock_free hheld] at hlock
      cases hlock
      subst hs'
      refine ⟨.next rfl nofun (fun t' _ => hall t') (held_free hheld t rfl rfl) hsaved, ?_, h.undone, h.failed⟩
      refine counts_next h.counts rfl rfl (b := 0) (Function.update_eq_self ..).symm ?_
      rw [hidle]
      rfl
    · cases hrun
  | begin t =>
    simp only [State.run] at hrun
    split at hrun
    · next ignores hphase =>
      obtain ⟨hothers, hheld, hopened⟩ := h.place.of_phase (t := t) (by rw [hphase]; exact nofun)
      rw [hphase] at hheld hopened
      rw [statement_own hheld (Nat.lt_add_of_pos_right (Nat.succ_pos 1)), Option.map_some] at hrun
      have hsaved : s.db.saved = none := hopened
      simp only [Db.exec, hsaved, Option.isSome_none, Bool.false_eq_true, if_false, if_true, Option.some.injEq] at hrun
      subst hrun
      refine ⟨.next rfl nofun hothers hheld ⟨s.db.rows, 0, rfl, (List.append_nil _).symm⟩, ?_, h.undone, h.failed⟩
      refine counts_next h.counts rfl rfl rfl ?_
      rw [hphase]
      rfl
    · cases hrun
  | refuse t =>
    simp only [State.run] at hrun
    split at hrun
    · next ignores hphase =>
      obtain ⟨-, -, hopened⟩ := h.place.of_phase (t := t) (by rw [hphase]; exact nofun)
      rw [hphase] at hopened
      exact hopened.elim
    · cases hrun
  | prepStatement t =>
    simp only [State.run] at hrun
    split at hrun
    · next hidle =>
      obtain ⟨s₁, hlock, hs'⟩ := Option.map_eq_some_iff.mp hrun
      obtain ⟨hall, hheld, hsaved⟩ := h.place.of_lock hidle hlock
      rw [lock_free hheld] at hlock
      cases hlock
      subst hs'
      refine ⟨.next rfl nofun (fun t' _ => hall t') (held_free hheld t rfl rfl) hsaved, ?_, h.undone, h.failed⟩
      refine counts_next h.counts rfl rfl (b := 0) (Function.update_eq_self ..).symm ?_
      rw [hidle]
      rfl
    · next number hphase =>
      obtain ⟨hothers, hheld, hopened⟩ := h.place.of_phase (t := t) (by rw [hphase]; exact nofun)
      rw [hphase] at hheld hopened
      rw [lock_own hheld (Nat.lt_add_of_pos_right (Nat.succ_pos 1)), Option.map_some] at hrun
      cases hrun
      refine ⟨.next rfl nofun hothers (held_own hheld rfl rfl (Nat.succ_pos _)) hopened, ?_, h.undone, h.failed⟩
      refine counts_next h.counts rfl rfl (b := 0) (Function.update_eq_self ..).symm ?_
      rw [hphase]
      rfl
    · cases hrun
  | runFree t count =>
    simp only [State.run] at hrun
    split at hrun
    · next number owned hphase =>
      cases hrun
      obtain ⟨hothers, hheld, hopened⟩ := h.place.of_phase (t := t) (by rw [hphase]; exact nofun)
      rw [hphase] at hheld hopened
      cases owned with
      | true =>
        obtain ⟨rows, old, hsaved, hrows⟩ := hopened
        have hrun : ({ s with db := (s.db.exec (.change number count)).1 } : State T).Held (some (t, 0 + 2)) := hheld
        rw [unlock_nested hrun]
        refine ⟨.next rfl nofun hothers (held_own hheld rfl rfl Nat.one_pos) ⟨rows, old + count, hsaved, ?_⟩, ?_,
          h.undone, h.failed⟩
        · show s.db.rows ++ List.replicate count number = _
          rw [hrows, List.append_assoc, List.replicate_append_replicate]
        · refine counts_next h.counts rfl (a := 0) (Function.update_eq_self ..).symm rfl ?_
          rw [hphase]
          rfl
      | false =>
        have hrun : ({ s with db := (s.db.exec (.change number count)).1 } : State T).Held (some (t, 1)) := hheld
        rw [unlock_last hrun]
        refine ⟨.leave rfl hothers (held_last hheld rfl rfl) hopened, ?_, h.undone, h.failed⟩
        refine counts_next h.counts rfl (a := 0) (Function.update_eq_self ..).symm rfl ?_
        rw [hphase]
        rfl
    · cases hrun
  | commit t fails =>
    have hok : fails = false := Bool.eq_false_iff.mpr hd
    subst hok
    simp only [State.run] at hrun
    split at hrun
    · next number hphase =>
      obtain ⟨hothers, hheld, hopened⟩ := h.place.of_phase (t := t) (by rw [hphase]; exact nofun)
      rw [hphase] at hheld hopened
      obtain ⟨rows, old, hsaved, hrows⟩ := hopened
      rw [statement_own hheld (Nat.lt_add_of_pos_right (Nat.succ_pos 1)), Option.map_some] at hrun
      cases hrun
      refine ⟨.next rfl nofun hothers hheld ?_, ?_, h.undone, h.failed⟩
      · show (s.db.exec (.commit false)).1.saved = none
        simp only [Db.exec, hsaved, Option.isNone_some, Bool.or_false, Bool.false_eq_true, if_false]
      · refine counts_next h.counts rfl rfl rfl ?_
        rw [hphase]
        rfl
    · cases hrun
  | rollback t =>
    simp only [State.run] at hrun
    split at hrun
    · next number hphase =>
      obtain ⟨hothers, hheld, hopened⟩ := h.place.of_phase (t := t) (by rw [hphase]; exact nofun)
      rw [hphase] at hheld hopened
      obtain ⟨rows, old, hsaved, hrows⟩ := hopened
      rw [statement_own hheld (Nat.lt_add_of_pos_right (Nat.succ_pos 1)), Option.map_some] at hrun
      cases hrun
      refine ⟨.next rfl nofun hothers hheld ?_, ?_, fun change hchange => ?_, h.failed⟩
      · show (s.db.exec .rollback).1.saved = none
        simp only [Db.exec, hsaved]
      · refine counts_next h.counts rfl rfl rfl ?_
        rw [hphase]
        rfl
      · obtain hchange | hchange := List.mem_append.mp hchange
        · exact h.undone change hchange
        · -- what goes is what this transaction has added
          rw [hsaved, Option.getD_some, hrows, List.drop_left] at hchange
          obtain ⟨row, hrow, rfl⟩ := List.mem_map.mp hchange
          exact List.eq_of_mem_replicate hrow
    · cases hrun
  | unlock t =>
    simp only [State.run] at hrun
    split at hrun
    · next hphase =>
      cases hrun
      obtain ⟨hothers, hheld, hopened⟩ := h.place.of_phase (t := t) (by rw [hphase]; exact nofun)
      rw [hphase] at hheld hopened
      rw [unlock_last hheld]
      refine ⟨.leave rfl hothers (held_last hheld rfl rfl) hopened, ?_, h.undone, h.failed⟩
      refine counts_next h.counts rfl (a := 0) (Function.update_eq_self ..).symm rfl ?_
      rw [hphase]
      rfl
    · cases hrun

/-- Nobody's transaction is open when the lock is free, a thread that is done has unlocked as often
as it has locked, no assertion of the lock fails, and a `ROLLBACK` takes back only what its own
transaction has changed. -/
structure Clean (s : State T) : Prop where
  closed : s.rw.wcount = 0 → s.db.saved = none
  balanced : ∀ t, s.phase t = .idle → s.taken t = s.released t
  unlocked : s.failed = false
  undone : ∀ change ∈ s.undone, change.1 = change.2

omit [DecidableEq T] in
theorem Sound.clean (h : Sound s) : Clean s where
  closed := fun hzero => by
    cases h.place with
    | free _ _ hsaved => exact hsaved
    | held t _ _ hheld =>
      rw [hheld.1] at hzero
      cases hzero
  balanced := fun t hidle => by
    have := h.counts t
    rw [hidle] at this
    exact this
  unlocked := h.failed
  undone := h.undone

def fresh : State ℕ := ⟨⟨[], none⟩, Locks.init, fun _ => ⟨0, 0⟩, fun _ => .idle, 0, fun _ => 0, fun _ => 0, [], false⟩

theorem fresh_initial : Initial fresh := ⟨rfl, fun _ => rfl, fun _ => rfl, rfl, fun _ => rfl, rfl, rfl⟩

end Pclsync.Sql
