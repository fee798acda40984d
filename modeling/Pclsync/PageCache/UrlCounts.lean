import Mathlib.Tactic.Common
import Pclsync.PageCache.Urls

/-! The entries of the download links, one by one: what holds of an entry depends on the entry,
on its place in the tree and on the threads that refer to it, and a step is about one entry. -/
namespace Pclsync.PageCache.Urls
open Lib.BinaryTree Lib.Census Lib.Machine Lib.Transition

/-! ### The order of the hashes -/

@[simp] theorem compareHash_self (a : ℕ) : compareHash a a = .eq := by
  simp [compareHash, difference, s64]

theorem compareHash_lt_iff {a b : ℕ} : compareHash a b = .lt ↔ difference a b < 0 := by
  unfold compareHash
  split_ifs with h0 h
  · simp [h0]
  · simp [h]
  · simp [h]

/-- The same side as an equal hash. -/
theorem compareHash_congr {a b c : ℕ} (h : compareHash a b = .eq) : compareHash c b = compareHash c a := by
  have hzero : difference a b = 0 := by
    unfold compareHash at h
    split_ifs at h with h0
    exact h0
  have hdiff : difference c b = difference c a := by
    unfold difference s64 at hzero ⊢
    rw [Int.bmod_eq_bmod_iff_bmod_sub_eq_zero, show (c - b - (c - a) : ℤ) = a - b by omega]
    exact hzero
  rw [compareHash, hdiff]
  rfl

/-- A hash after another one has that one before it. -/
theorem compareHash_gt {a b : ℕ} (h : compareHash a b = .gt) : compareHash b a = .lt := by
  rw [compareHash_lt_iff]
  have hpos : 0 < difference a b := by
    unfold compareHash at h
    split_ifs at h with h0 hlt
    omega
  have hle : difference a b < (2 ^ 64 + 1) / 2 := Int.bmod_lt (by decide)
  have hneg : difference b a = s64 (-difference a b) := by
    unfold difference s64
    rw [Int.bmod_neg_bmod]
    congr 1
    omega
  rw [hneg, s64_of_range] <;> omega

/-! ### One entry -/

/-- The thread reads the links of the entry. -/
def Phase.Uses (p : Phase) (e : ℕ) : Prop :=
  match p with
  | .using e' _ _ => e' = e
  | _ => False

/-- The entry that a thread is about. -/
def Phase.entry : Phase → Option ℕ
  | .idle | .retrying .. => none
  | .waiting e _ _ | .creating e _ _ | .asking e _ _ | .using e _ _ => some e

variable {T : Type} {s s' : State T} {t : T} {e : ℕ}

/-- What holds of an entry. -/
structure Good (s : State T) (e : ℕ) : Prop where
  alive : ∀ {t}, (s.phase t).Refers e ∨ (s.phase t).Creates e → s.Alive e
  once : s.freed e ≤ 1
  fresh : s.entries ≤ e → s.freed e = 0
  counted : s.Alive e → Counts (fun t => (s.phase t).Refers e) (s.heap e).refcnt
  pending : s.Alive e → ((s.heap e).status = .pending ↔ ∃ t, (s.phase t).Creates e)
  referred : s.Alive e → (s.heap e).status ≠ .pending → 0 < (s.heap e).refcnt
  creator : ∀ {t t'}, (s.phase t).Creates e → (s.phase t').Creates e → t = t'
  uses : ∀ {t}, (s.phase t).Uses e → (s.heap e).status ≠ .pending
  listed : e ∈ s.urlCacheTree.toList ↔ s.Alive e ∧ (s.heap e).status ≠ .dead
  urls : s.Alive e → ((s.heap e).status = .pending → (s.heap e).urls = none) ∧
    ((s.heap e).status = .usable → (s.heap e).urls ≠ none)

/-- A step of thread `t` about entry `e`. -/
structure Local (t : T) (e : ℕ) (s s' : State T) : Prop where
  others : ∀ u, u ≠ t → s'.phase u = s.phase u
  before : ∀ {a}, (s.phase t).entry = some a → a = e
  after : ∀ {a}, (s'.phase t).entry = some a → a = e
  heap : ∀ a, a ≠ e → s'.heap a = s.heap a
  freed : ∀ a, a ≠ e → s'.freed a = s.freed a
  entries : ∀ a, a ≠ e → (a < s'.entries ↔ a < s.entries)
  tree : ∀ a, a ≠ e → (a ∈ s'.urlCacheTree.toList ↔ a ∈ s.urlCacheTree.toList)

theorem Phase.entry_of_refers {p : Phase} (h : p.Refers e) : p.entry = some e := by
  unfold Refers at h
  split at h
  · exact congrArg some h
  · exact congrArg some h
  · exact h.elim

theorem Phase.entry_of_creates {p : Phase} (h : p.Creates e) : p.entry = some e := by
  unfold Creates at h
  split at h
  · exact congrArg some h
  · exact congrArg some h
  · exact h.elim

theorem Phase.refers_of_uses {p : Phase} (h : p.Uses e) : p.Refers e := by
  unfold Uses at h
  split at h
  · exact h
  · exact h.elim

theorem Phase.not_of_entry {p : Phase} (hp : p.entry = none) (e : ℕ) : ¬p.Refers e ∧ ¬p.Creates e :=
  ⟨fun hr => (nomatch hp.symm.trans (entry_of_refers hr)), fun hc => nomatch hp.symm.trans (entry_of_creates hc)⟩

/-- The other entries stay as they are. -/
theorem Good.other (h : Good s e') (hlocal : Local t e s s') (hne : e' ≠ e) : Good s' e' := by
  have hrefers : ∀ u, (s'.phase u).Refers e' ↔ (s.phase u).Refers e' := fun u => by
    by_cases hu : u = t
    · subst hu
      exact iff_of_false (fun hr => hne (hlocal.after (Phase.entry_of_refers hr)))
        (fun hr => hne (hlocal.before (Phase.entry_of_refers hr)))
    · rw [hlocal.others u hu]
  have hcreates : ∀ u, (s'.phase u).Creates e' ↔ (s.phase u).Creates e' := fun u => by
    by_cases hu : u = t
    · subst hu
      exact iff_of_false (fun hr => hne (hlocal.after (Phase.entry_of_creates hr)))
        (fun hr => hne (hlocal.before (Phase.entry_of_creates hr)))
    · rw [hlocal.others u hu]
  have huses : ∀ u, (s'.phase u).Uses e' ↔ (s.phase u).Uses e' := fun u => by
    by_cases hu : u = t
    · subst hu
      exact iff_of_false (fun hr => hne (hlocal.after (Phase.entry_of_refers (Phase.refers_of_uses hr))))
        (fun hr => hne (hlocal.before (Phase.entry_of_refers (Phase.refers_of_uses hr))))
    · rw [hlocal.others u hu]
  have halive : s'.Alive e' ↔ s.Alive e' := by
    rw [State.Alive, State.Alive, hlocal.entries e' hne, hlocal.freed e' hne]
  have hentries := hlocal.entries e' hne
  obtain ⟨alive, once, fresh, counted, pending, referred, creator, uses, listed, urls⟩ := h
  constructor
  case counted =>
    intro ha
    rw [hlocal.heap e' hne]
    exact (counted (halive.mp ha)).congr fun u => (hrefers u).symm
  case fresh =>
    intro hle
    rw [hlocal.freed e' hne]
    exact fresh (by omega)
  all_goals simp only [hrefers, hcreates, huses, halive, hlocal.heap e' hne, hlocal.freed e' hne, hlocal.tree e' hne]
  all_goals assumption

theorem Phase.not_creates_of_refers {p : Phase} (h : p.Refers e) : ¬p.Creates e := by
  cases p <;> exact fun hc => by first | exact h | exact hc

/-- The entry of the step stays allocated. -/
theorem Good.move (h : Good s e) (hothers : ∀ u, u ≠ t → s'.phase u = s.phase u) (halive : s.Alive e)
    (halive' : s'.Alive e)
    (hcount : (s'.heap e).refcnt + (if (s.phase t).Refers e then 1 else 0) =
      (s.heap e).refcnt + if (s'.phase t).Refers e then 1 else 0)
    (hcreates : (s'.phase t).Creates e → (s.phase t).Creates e)
    (hpending : (s'.heap e).status = .pending ↔
      (s.heap e).status = .pending ∧ ((s.phase t).Creates e → (s'.phase t).Creates e))
    (hreferred : (s'.heap e).status ≠ .pending → 0 < (s'.heap e).refcnt)
    (huses : (s'.phase t).Uses e → (s'.heap e).status ≠ .pending)
    (hlisted : e ∈ s'.urlCacheTree.toList ↔ (s'.heap e).status ≠ .dead)
    (hurls : ((s'.heap e).status = .pending → (s'.heap e).urls = none) ∧
      ((s'.heap e).status = .usable → (s'.heap e).urls ≠ none)) : Good s' e where
  alive := fun _ => halive'
  once := by rw [halive'.2]; exact Nat.zero_le _
  fresh := fun hle => absurd halive'.1 (Nat.not_lt.mpr hle)
  counted := fun _ => (h.counted halive).move (fun u hu => by rw [hothers u hu]) hcount
  pending := fun _ => by
    rw [hpending, h.pending halive]
    constructor
    · rintro ⟨⟨u, hu⟩, ht⟩
      by_cases hut : u = t
      · subst hut
        exact ⟨u, ht hu⟩
      · exact ⟨u, by rwa [hothers u hut]⟩
    · rintro ⟨u, hu⟩
      by_cases hut : u = t
      · subst hut
        exact ⟨⟨u, hcreates hu⟩, fun _ => hu⟩
      · rw [hothers u hut] at hu
        exact ⟨⟨u, hu⟩, fun ht => absurd (h.creator hu ht) hut⟩
  referred := fun _ => hreferred
  creator := fun {u u'} hu hu' => by
    have hold : ∀ v, (s'.phase v).Creates e → (s.phase v).Creates e := fun v hv => by
      by_cases hvt : v = t
      · subst hvt
        exact hcreates hv
      · rwa [← hothers v hvt]
    exact h.creator (hold u hu) (hold u' hu')
  uses := fun {u} hu => by
    by_cases hut : u = t
    · subst hut
      exact huses hu
    · rw [hothers u hut] at hu
      exact fun hp => h.uses hu (hpending.mp hp).1
  listed := by rw [hlisted]; exact (and_iff_right halive').symm
  urls := fun _ => hurls

/-- The entry of the step is freed. -/
theorem Good.gone (hfreed : s'.freed e = 1) (hnot : ∀ u, ¬(s'.phase u).Refers e ∧ ¬(s'.phase u).Creates e)
    (hentries : e < s'.entries) (htree : e ∉ s'.urlCacheTree.toList) : Good s' e := by
  have hdead : ¬s'.Alive e := fun ha => by rw [State.Alive, hfreed] at ha; exact absurd ha.2 (by decide)
  exact {
    alive := fun {u} hu => (hu.elim (hnot u).1 (hnot u).2).elim
    once := hfreed.le
    fresh := fun hle => absurd hentries (Nat.not_lt.mpr hle)
    counted := fun ha => absurd ha hdead
    pending := fun ha => absurd ha hdead
    referred := fun ha => absurd ha hdead
    creator := fun {u _} hu => ((hnot u).2 hu).elim
    uses := fun {u} hu => ((hnot u).1 (Phase.refers_of_uses hu)).elim
    listed := iff_of_false htree fun ha => hdead ha.1
    urls := fun ha => absurd ha hdead }

/-! ### All entries -/

/-- The tree is in the order of the hashes. -/
def State.Sorted (s : State T) : Prop :=
  s.urlCacheTree.toList.Pairwise fun a b => compareHash (s.heap a).hash (s.heap b).hash = .lt

/-- Where a result can be: in an entry, in the cache, or it is freed. -/
def State.place (s : State T) (e r : ℕ) : ℕ :=
  (if s.Alive e ∧ (s.heap e).urls = some r then 1 else 0) + (s.cache.map Prod.snd).count r + s.freedResults r

def State.due (s : State T) (r : ℕ) : ℕ := if r < s.results then 1 else 0

structure Sound (s : State T) : Prop where
  good : ∀ e, Good s e
  sorted : s.Sorted
  results : ∀ r, ∃ k, Counts (fun e => s.Alive e ∧ (s.heap e).urls = some r) k ∧
    k + (s.cache.map Prod.snd).count r + s.freedResults r = s.due r

theorem Local.alive_iff (h : Local t e s s') {a : ℕ} (ha : a ≠ e) : s'.Alive a ↔ s.Alive a := by
  rw [State.Alive, State.Alive, h.entries a ha, h.freed a ha]

/-- A step is about one entry, and moves the results of that entry only. -/
theorem Sound.local_step (h : Sound s) (hlocal : Local t e s s') (hgood : Good s' e) (hsorted : s'.Sorted)
    (hplace : ∀ r, s'.place e r + s.due r = s.place e r + s'.due r) : Sound s' where
  good := fun a => by
    by_cases ha : a = e
    · exact ha ▸ hgood
    · exact (h.good a).other hlocal ha
  sorted := hsorted
  results := fun r => by
    obtain ⟨k, hk, hsum⟩ := h.results r
    have hr := hplace r
    have hpos : (if s.Alive e ∧ (s.heap e).urls = some r then 1 else 0) ≤ k := by
      split
      · next hown => exact hk.pos hown
      · exact Nat.zero_le _
    unfold State.place at hr
    refine ⟨k + (if s'.Alive e ∧ (s'.heap e).urls = some r then 1 else 0)
      - (if s.Alive e ∧ (s.heap e).urls = some r then 1 else 0), hk.move (t := e) (fun a ha => ?_) ?_, ?_⟩
    · rw [hlocal.alive_iff ha, hlocal.heap a ha]
    · omega
    · omega

end Pclsync.PageCache.Urls
