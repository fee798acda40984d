import Pclsync.Cache.Holders

/-! Every value that was added has one owner: it is in an element, or it was returned once, or
freed once. -/
namespace Pclsync.Cache
open Lib.Transition

variable {T V F : Type}

/-- The value of a call of `psync_cache_add` is in an element. -/
def State.Cached (s : State T V F) (n : ℕ) : Prop := ∃ he e, s.elements he = some e ∧ e.ticket = n

def State.returnsOf (s : State T V F) (n : ℕ) : List (ℕ × V) := s.returned.filter (·.1 = n)
def State.freesOf (s : State T V F) (n : ℕ) : List (ℕ × F × V) := s.freed.filter (·.1 = n)

/-- Where the value of one call of `psync_cache_add` is. -/
inductive State.Owned (s : State T V F) (n : ℕ) (item : Item V F) : Prop where
  | cached : s.Cached n → s.returnsOf n = [] → s.freesOf n = [] → Owned s n item
  | returned : ¬s.Cached n → s.returnsOf n = [(n, item.value)] → s.freesOf n = [] → Owned s n item
  | freed : ¬s.Cached n → s.returnsOf n = [] → s.freesOf n = [(n, item.free, item.value)] → Owned s n item

structure State.Accounted (s : State T V F) : Prop where
  item : ∀ he e, s.elements he = some e → s.added[e.ticket]? = some e.item
  unique : ∀ he he' e e', s.elements he = some e → s.elements he' = some e' → e.ticket = e'.ticket → he = he'
  owned : ∀ n item, s.added[n]? = some item → s.Owned n item
  /-- The logs are about calls that were made. -/
  logged : ∀ n, s.added.length ≤ n → s.returnsOf n = [] ∧ s.freesOf n = []

variable {s s' : State T V F} {he : Addr} {e : Element V F}

/-- Only the flags of elements differ. -/
structure SameItems (s s' : State T V F) : Prop where
  elements : ∀ he, (s'.elements he).map (fun e => (e.item, e.ticket)) = (s.elements he).map fun e => (e.item, e.ticket)
  added : s'.added = s.added
  returned : s'.returned = s.returned
  freed : s'.freed = s.freed

theorem SameItems.element (h : SameItems s s') {e' : Element V F} (he' : s'.elements he = some e') :
    ∃ e, s.elements he = some e ∧ e.item = e'.item ∧ e.ticket = e'.ticket := by
  have hsame := h.elements he
  rw [he', Option.map_some] at hsame
  obtain ⟨e, hel, heq⟩ := Option.map_eq_some_iff.mp hsame.symm
  exact ⟨e, hel, (Prod.mk.inj heq).1, (Prod.mk.inj heq).2⟩

theorem SameItems.symm (h : SameItems s s') : SameItems s' s :=
  ⟨fun he => (h.elements he).symm, h.added.symm, h.returned.symm, h.freed.symm⟩

theorem SameItems.cached (h : SameItems s s') (n : ℕ) : s'.Cached n ↔ s.Cached n := by
  constructor
  · rintro ⟨he, e', hel', rfl⟩
    obtain ⟨e, hel, -, hticket⟩ := h.element hel'
    exact ⟨he, e, hel, hticket⟩
  · rintro ⟨he, e, hel, rfl⟩
    obtain ⟨e', hel', -, hticket⟩ := h.symm.element hel
    exact ⟨he, e', hel', hticket⟩

theorem SameItems.accounted (h : SameItems s s') (hs : s.Accounted) : s'.Accounted where
  item he e' hel' := by
    obtain ⟨e, hel, hitem, hticket⟩ := h.element hel'
    rw [h.added, ← hticket, ← hitem]
    exact hs.item he e hel
  unique he he' e e' hel hel' hsame := by
    obtain ⟨e₁, hel₁, -, hticket₁⟩ := h.element hel
    obtain ⟨e₂, hel₂, -, hticket₂⟩ := h.element hel'
    exact hs.unique he he' e₁ e₂ hel₁ hel₂ (by rw [hticket₁, hticket₂, hsame])
  owned n item hn := by
    rw [h.added] at hn
    have hcached := h.cached n
    have hreturns : s'.returnsOf n = s.returnsOf n := by rw [State.returnsOf, h.returned]; rfl
    have hfrees : s'.freesOf n = s.freesOf n := by rw [State.freesOf, h.freed]; rfl
    rcases hs.owned n item hn with ⟨hc, hr, hf⟩ | ⟨hc, hr, hf⟩ | ⟨hc, hr, hf⟩
    · exact .cached (hcached.mpr hc) (hreturns.trans hr) (hfrees.trans hf)
    · exact .returned (fun h => hc (hcached.mp h)) (hreturns.trans hr) (hfrees.trans hf)
    · exact .freed (fun h => hc (hcached.mp h)) (hreturns.trans hr) (hfrees.trans hf)
  logged n hn := by
    rw [h.added] at hn
    rw [State.returnsOf, State.freesOf, h.returned, h.freed]
    exact hs.logged n hn

/-- An element goes, with its value returned or freed. -/
structure Removes (s s' : State T V F) (he : Addr) (e : Element V F) : Prop where
  before : s.elements he = some e
  after : s'.elements he = none
  others : ∀ x ≠ he, s'.elements x = s.elements x
  added : s'.added = s.added
  logs : s'.returned = (e.ticket, e.item.value) :: s.returned ∧ s'.freed = s.freed ∨
    s'.returned = s.returned ∧ s'.freed = e.freeing :: s.freed

theorem Removes.element (h : Removes s s' he e) {x : Addr} {e' : Element V F} (hx : s'.elements x = some e') :
    x ≠ he ∧ s.elements x = some e' := by
  have hne : x ≠ he := by
    rintro rfl
    exact nomatch h.after.symm.trans hx
  exact ⟨hne, (h.others x hne).symm.trans hx⟩

theorem Removes.cached (h : Removes s s' he e) (hs : s.Accounted) (n : ℕ) : s'.Cached n ↔ s.Cached n ∧ n ≠ e.ticket := by
  constructor
  · rintro ⟨x, e', hx, rfl⟩
    obtain ⟨hne, hx⟩ := h.element hx
    exact ⟨⟨x, e', hx, rfl⟩, fun hsame => hne (hs.unique x he e' e hx h.before hsame)⟩
  · rintro ⟨⟨x, e', hx, rfl⟩, hne⟩
    have hother : x ≠ he := by
      rintro rfl
      exact hne (congrArg Element.ticket (Option.some_inj.mp (hx.symm.trans h.before)))
    exact ⟨x, e', (h.others x hother).trans hx, rfl⟩

theorem Removes.logsOf (h : Removes s s' he e) {n : ℕ} (hne : n ≠ e.ticket) :
    s'.returnsOf n = s.returnsOf n ∧ s'.freesOf n = s.freesOf n := by
  have hnot : ¬decide (e.ticket = n) = true := by simpa using hne.symm
  unfold State.returnsOf State.freesOf
  rcases h.logs with ⟨hr, hf⟩ | ⟨hr, hf⟩
  · rw [hr, hf]
    exact ⟨List.filter_cons_of_neg hnot, rfl⟩
  · rw [hr, hf]
    exact ⟨rfl, List.filter_cons_of_neg hnot⟩

theorem Removes.accounted (h : Removes s s' he e) (hs : s.Accounted) : s'.Accounted where
  item x e' hx := by
    rw [h.added]
    exact hs.item x e' (h.element hx).2
  unique x x' e₁ e₂ hx hx' hsame := hs.unique x x' e₁ e₂ (h.element hx).2 (h.element hx').2 hsame
  owned n item hn := by
    rw [h.added] at hn
    by_cases hne : n = e.ticket
    · subst hne
      obtain rfl := Option.some_inj.mp ((hs.item he e h.before).symm.trans hn)
      have hgone : ¬s'.Cached e.ticket := fun hc => ((h.cached hs _).mp hc).2 rfl
      have hcached : s.Cached e.ticket := ⟨he, e, h.before, rfl⟩
      rcases hs.owned _ _ hn with ⟨-, hr, hf⟩ | ⟨hc, -, -⟩ | ⟨hc, -, -⟩
      · rw [State.returnsOf] at hr
        rw [State.freesOf] at hf
        rcases h.logs with ⟨hr', hf'⟩ | ⟨hr', hf'⟩
        · refine .returned hgone ?_ ?_
          · rw [State.returnsOf, hr', List.filter_cons_of_pos (by simp), hr]
          · rw [State.freesOf, hf', hf]
        · refine .freed hgone ?_ ?_
          · rw [State.returnsOf, hr', hr]
          · rw [State.freesOf, hf', List.filter_cons_of_pos (by simp [Element.freeing]), hf]
            rfl
      · exact absurd hcached hc
      · exact absurd hcached hc
    · obtain ⟨hr', hf'⟩ := h.logsOf hne
      have hcached : s'.Cached n ↔ s.Cached n := (h.cached hs n).trans (and_iff_left hne)
      rcases hs.owned n item hn with ⟨hc, hr, hf⟩ | ⟨hc, hr, hf⟩ | ⟨hc, hr, hf⟩
      · exact .cached (hcached.mpr hc) (hr'.trans hr) (hf'.trans hf)
      · exact .returned (fun h => hc (hcached.mp h)) (hr'.trans hr) (hf'.trans hf)
      · exact .freed (fun h => hc (hcached.mp h)) (hr'.trans hr) (hf'.trans hf)
  logged n hn := by
    rw [h.added] at hn
    have hlt : e.ticket < s.added.length := (List.getElem?_eq_some_iff.mp (hs.item he e h.before)).1
    obtain ⟨hr', hf'⟩ := h.logsOf (Nat.ne_of_gt (Nat.lt_of_lt_of_le hlt hn))
    rw [hr', hf']
    exact hs.logged n hn

/-! ### The steps -/

theorem add_accounted (seed : ℕ) (item : Item V F) (maxkeys : ℕ) (timer : Addr) (hs : s.Accounted) (hhe : s.elements he = none) :
    (s.add seed item maxkeys he timer).Accounted := by
  have hlast : ∀ n i, (s.added ++ [item])[n]? = some i → s.added[n]? = some i ∨ n = s.added.length ∧ i = item := by
    intro n i hn
    rcases Nat.lt_or_ge n s.added.length with hlt | hge
    · rw [List.getElem?_append_left hlt] at hn
      exact .inl hn
    · rw [List.getElem?_append_right hge] at hn
      obtain ⟨hzero, hi⟩ := List.getElem?_eq_some_iff.mp hn
      rw [List.length_singleton] at hzero
      have hn' : n = s.added.length := by omega
      subst hn'
      simp at hi
      exact .inr ⟨rfl, hi.symm⟩
  have hbefore : ∀ n i, s.added[n]? = some i → (s.added ++ [item])[n]? = some i := fun n i hn => by
    rw [List.getElem?_append_left (List.getElem?_eq_some_iff.mp hn).1, hn]
  have hold : ∀ x e, s.elements x = some e → e.ticket < s.added.length := fun x e hx =>
    (List.getElem?_eq_some_iff.mp (hs.item x e hx)).1
  have hfresh : ¬s.Cached s.added.length := by
    rintro ⟨x, e, hx, hticket⟩
    exact absurd (hold x e hx) (Nat.not_lt.mpr (Nat.le_of_eq hticket.symm))
  obtain ⟨hreturns, hfrees⟩ := hs.logged s.added.length (Nat.le_refl _)
  rw [State.add]
  split_ifs
  · -- The value is freed.
    have hfreesOf : ∀ n, n ≠ s.added.length → ((s.added.length, item.free, item.value) :: s.freed).filter (·.1 = n) = s.freesOf n :=
      fun n hne => List.filter_cons_of_neg (by simpa using hne.symm)
    refine ⟨fun x e hx => hbefore _ _ (hs.item x e hx), hs.unique, fun n i hn => ?_, fun n hn => ?_⟩
    · rcases hlast n i hn with hn | ⟨rfl, rfl⟩
      · have hne : n ≠ s.added.length := Nat.ne_of_lt (List.getElem?_eq_some_iff.mp hn).1
        rcases hs.owned n i hn with ⟨hc, hr, hf⟩ | ⟨hc, hr, hf⟩ | ⟨hc, hr, hf⟩
        · exact .cached hc hr ((hfreesOf n hne).trans hf)
        · exact .returned hc hr ((hfreesOf n hne).trans hf)
        · exact .freed hc hr ((hfreesOf n hne).trans hf)
      · refine .freed hfresh hreturns ?_
        rw [State.freesOf] at hfrees
        rw [State.freesOf, List.filter_cons_of_pos (by simp), hfrees]
    · rw [List.length_append, List.length_singleton] at hn
      obtain ⟨hr, hf⟩ := hs.logged n (Nat.le_of_succ_le hn)
      exact ⟨hr, (hfreesOf n (Nat.ne_of_gt hn)).trans hf⟩
  · -- The value is in the new element.
    generalize hashToBucket (hashFunc seed item.key) = h
    generalize hashFunc seed item.key = hash
    have hnew : Function.update s.elements he (some ⟨item, hash, timer, false, false, s.added.length⟩) he =
        some ⟨item, hash, timer, false, false, s.added.length⟩ := Function.update_self ..
    have helement : ∀ x e, Function.update s.elements he (some ⟨item, hash, timer, false, false, s.added.length⟩) x = some e →
        x = he ∧ e.ticket = s.added.length ∧ e.item = item ∨ s.elements x = some e := by
      intro x e hx
      by_cases heq : x = he
      · subst heq
        obtain rfl := Option.some_inj.mp (hnew.symm.trans hx)
        exact .inl ⟨rfl, rfl, rfl⟩
      · rw [Function.update_of_ne heq] at hx
        exact .inr hx
    have hkeeps : ∀ x e, s.elements x = some e →
        Function.update s.elements he (some ⟨item, hash, timer, false, false, s.added.length⟩) x = some e := by
      intro x e hx
      have hne : x ≠ he := by
        rintro rfl
        cases hhe.symm.trans hx
      rw [Function.update_of_ne hne, hx]
    refine ⟨fun x e hx => ?_, fun x x' e e' hx hx' hsame => ?_, fun n i hn => ?_, fun n hn => ?_⟩
    · rcases helement x e hx with ⟨-, hticket, hitem⟩ | hx
      · show (s.added ++ [item])[e.ticket]? = some e.item
        rw [hticket, hitem, List.getElem?_concat_length]
      · exact hbefore _ _ (hs.item x e hx)
    · rcases helement x e hx with ⟨rfl, hticket, -⟩ | hx
      · rcases helement x' e' hx' with ⟨rfl, -, -⟩ | hx'
        · rfl
        · exact absurd (hold x' e' hx') (by rw [← hsame, hticket]; exact Nat.lt_irrefl _)
      · rcases helement x' e' hx' with ⟨-, hticket, -⟩ | hx'
        · exact absurd (hold x e hx) (by rw [hsame, hticket]; exact Nat.lt_irrefl _)
        · exact hs.unique x x' e e' hx hx' hsame
    · rcases hlast n i hn with hn | ⟨rfl, rfl⟩
      · have hlt : n < s.added.length := (List.getElem?_eq_some_iff.mp hn).1
        have hgone : ∀ {P : Prop}, (∃ x e, Function.update s.elements he (some ⟨item, hash, timer, false, false, s.added.length⟩) x = some e ∧
            e.ticket = n) → (s.Cached n → P) → P := by
          rintro P ⟨x, e, hx, rfl⟩ hp
          rcases helement x e hx with ⟨-, hticket, -⟩ | hx
          · exact absurd hlt (by rw [hticket]; exact Nat.lt_irrefl _)
          · exact hp ⟨x, e, hx, rfl⟩
        rcases hs.owned n i hn with ⟨⟨x, e, hx, hticket⟩, hr, hf⟩ | ⟨hc, hr, hf⟩ | ⟨hc, hr, hf⟩
        · exact .cached ⟨x, e, hkeeps x e hx, hticket⟩ hr hf
        · exact .returned (fun h => hgone h hc) hr hf
        · exact .freed (fun h => hgone h hc) hr hf
      · exact .cached ⟨he, _, hnew, rfl⟩ hreturns hfrees
    · rw [List.length_append, List.length_singleton] at hn
      exact hs.logged n (Nat.le_of_succ_le hn)

theorem timerStop_same {timer : Addr} {running : Bool} (h : s.timerStop timer = some (s', running)) :
    s'.elements = s.elements ∧ s'.added = s.added ∧ s'.returned = s.returned ∧ s'.freed = s.freed := by
  rw [State.timerStop] at h
  obtain ⟨t, -, heq⟩ := Option.map_eq_some_iff.mp h
  split_ifs at heq
  · obtain ⟨rfl, -⟩ := Prod.mk.inj heq
    exact ⟨rfl, rfl, rfl, rfl⟩
  · obtain ⟨rfl, -⟩ := Prod.mk.inj heq
    exact ⟨rfl, rfl, rfl, rfl⟩

/-- An element whose flags change. -/
theorem State.Accounted.set (hs : s.Accounted) (e' : Element V F) (hel : s.elements he = some e) (hitem : e'.item = e.item)
    (hticket : e'.ticket = e.ticket) (hs' : s'.elements = Function.update s.elements he (some e')) (hadded : s'.added = s.added)
    (hreturned : s'.returned = s.returned) (hfreed : s'.freed = s.freed) : s'.Accounted := by
  have hsame : SameItems s s' := by
    refine ⟨fun x => ?_, hadded, hreturned, hfreed⟩
    rw [hs']
    by_cases heq : x = he
    · subst heq
      rw [Function.update_self, hel, Option.map_some, Option.map_some, hitem, hticket]
    · rw [Function.update_of_ne heq]
  exact hsame.accounted hs

theorem State.Accounted.of_eq (hs : s.Accounted) (helements : s'.elements = s.elements) (hadded : s'.added = s.added)
    (hreturned : s'.returned = s.returned) (hfreed : s'.freed = s.freed) : s'.Accounted :=
  SameItems.accounted ⟨fun x => by rw [helements], hadded, hreturned, hfreed⟩ hs

theorem cleanOne_accounted {prefixes : Option (List Key)} (hs : s.Accounted) (h : s.cleanOne prefixes he = some s') : s'.Accounted := by
  obtain ⟨e, hel, hone⟩ := Option.bind_eq_some_iff.mp h
  split_ifs at hone
  · obtain ⟨⟨s₁, running⟩, hstop, heq⟩ := Option.map_eq_some_iff.mp hone
    obtain ⟨helements, hadded, hreturned, hfreed⟩ := timerStop_same hstop
    have hsame := hs.of_eq helements hadded hreturned hfreed
    simp only at heq
    split_ifs at heq
    · exact heq ▸ hsame
    · subst heq
      have hremoves : Removes s₁ { (s₁.unlink he).setElement he none with freed := e.freeing :: s₁.freed } he e :=
        ⟨by rw [helements, hel], Function.update_self .., fun x hx => Function.update_of_ne hx .., rfl, .inr ⟨rfl, rfl⟩⟩
      exact hremoves.accounted hsame
  · exact Option.some_inj.mp hone ▸ hs

theorem Adds.accounted {seed : ℕ} (h : Adds seed s s') (hs : s.Accounted) : s'.Accounted := by
  induction h with
  | none => exact hs
  | next hhe _ _ ih => exact ih (add_accounted _ _ _ _ hs hhe)

theorem Cleans.accounted {seed : ℕ} {prefixes : Option (List Key)} {rest : List Addr} {r : Option (State T V F)}
    (h : Cleans seed prefixes s rest r) (hs : s.Accounted) (hr : r = some s') : s'.Accounted := by
  induction h with
  | done => exact Option.some_inj.mp hr ▸ hs
  | next hone hadds _ ih => exact ih (hadds.accounted (cleanOne_accounted hs hone)) hr
  | faults => exact nomatch hr

theorem cacheTimer_accounted {timer : Addr} (hs : s.Accounted) (h : s.cacheTimer timer he = some s') : s'.Accounted := by
  obtain ⟨e, hel, heq⟩ := Option.map_eq_some_iff.mp h
  split_ifs at heq
  · subst heq
    exact hs.set { e with called := true } hel rfl rfl rfl rfl rfl rfl
  · subst heq
    exact hs.of_eq rfl rfl rfl rfl

theorem release_accounted {timer : Addr} (hs : s.Accounted) (h : s.release timer he = some s') : s'.Accounted := by
  obtain ⟨e, hel, rfl⟩ := Option.map_eq_some_iff.mp h
  have hremoves : Removes s { s.setElement he none with freed := e.freeing :: s.freed, timerCall := .stopping timer } he e :=
    ⟨hel, Function.update_self .., fun x hx => Function.update_of_ne hx .., rfl, .inr ⟨rfl, rfl⟩⟩
  exact hremoves.accounted hs

variable [DecidableEq T]

theorem setCall_accounted {t : T} {call : Option Call} (hs : s.Accounted) : (s.setCall t call).Accounted :=
  hs.of_eq rfl rfl rfl rfl

theorem takeOut_accounted {t : T} {purpose : Purpose} (hs : s.Accounted) (h : s.takeOut t purpose he = some s') : s'.Accounted := by
  obtain ⟨e, hel, htake⟩ := Option.bind_eq_some_iff.mp h
  obtain ⟨⟨s₁, running⟩, hstop, heq⟩ := Option.map_eq_some_iff.mp htake
  obtain ⟨helements, hadded, hreturned, hfreed⟩ := timerStop_same hstop
  simp only at heq
  split_ifs at heq
  · subst heq
    refine hs.set { e with wait := true } hel rfl rfl ?_ hadded hreturned hfreed
    show Function.update s₁.elements he _ = _
    rw [helements]
    rfl
  · subst heq
    exact hs.of_eq helements hadded hreturned hfreed

theorem lookUp_accounted {seed : ℕ} {t : T} {purpose : Purpose} {key : Key} (hs : s.Accounted) (h : s.lookUp seed t purpose key = some s') :
    s'.Accounted := by
  rw [State.lookUp] at h
  cases hfind : s.find seed key with
  | none =>
    rw [hfind] at h
    exact Option.some_inj.mp h ▸ setCall_accounted hs
  | some he =>
    rw [hfind] at h
    exact takeOut_accounted hs h

theorem finish_accounted {t : T} {purpose : Purpose} (hs : s.Accounted) (h : s.finish t he purpose = some s') : s'.Accounted := by
  obtain ⟨e, hel, heq⟩ := Option.map_eq_some_iff.mp h
  have hremoves : Removes s s' he e := by
    cases purpose with
    | get =>
      subst heq
      exact ⟨hel, Function.update_self .., fun x hx => Function.update_of_ne hx .., rfl, .inl ⟨rfl, rfl⟩⟩
    | del key =>
      subst heq
      exact ⟨hel, Function.update_self .., fun x hx => Function.update_of_ne hx .., rfl, .inr ⟨rfl, rfl⟩⟩
  exact hremoves.accounted hs

theorem step_accounted {seed : ℕ} {a : Action T V F} {r : Option (State T V F)} (hs : s.Accounted) (ha : Acts seed s a r) (hr : r = some s') :
    s'.Accounted := by
  cases ha with
  | get => exact lookUp_accounted hs hr
  | del => exact Option.some_inj.mp hr ▸ setCall_accounted hs
  | delNext => exact lookUp_accounted hs hr
  | resume =>
    obtain ⟨e, -, heq⟩ := Option.map_eq_some_iff.mp hr
    split_ifs at heq
    · exact heq ▸ setCall_accounted hs
    · exact heq ▸ hs
  | finish => exact finish_accounted hs hr
  | add hhe => exact Option.some_inj.mp hr ▸ add_accounted _ _ _ _ hs hhe
  | clean => exact Option.some_inj.mp hr ▸ setCall_accounted hs
  | cleanNext _ _ hclean =>
    obtain ⟨s₁, hs₁, heq⟩ := Option.map_eq_some_iff.mp hr
    exact heq ▸ setCall_accounted (hclean.accounted hs hs₁)
  | cleanEnd => exact Option.some_inj.mp hr ▸ setCall_accounted hs
  | @queue timers =>
    have hs' := Option.some_inj.mp hr
    exact hs' ▸ hs.of_eq rfl rfl rfl rfl
  | callback =>
    obtain ⟨t, -, hcall⟩ := Option.bind_eq_some_iff.mp hr
    refine cacheTimer_accounted ?_ hcall
    exact hs.of_eq rfl rfl rfl rfl
  | release => exact release_accounted hs hr
  | stopSelf =>
    obtain ⟨⟨s₁, running⟩, hstop, heq⟩ := Option.map_eq_some_iff.mp hr
    obtain ⟨helements, hadded, hreturned, hfreed⟩ := timerStop_same hstop
    subst heq
    have hstopped : s₁.Accounted := hs.of_eq helements hadded hreturned hfreed
    exact hstopped.of_eq rfl rfl rfl rfl
  | process =>
    have hs' := Option.some_inj.mp hr
    exact hs' ▸ hs.of_eq rfl rfl rfl rfl

/-! ### Runs -/

/-- What is promised in a state. -/
structure State.OneOwner (seed : ℕ) (s : State T V F) : Prop where
  /-- A value that was added is in an element, or was returned once, or freed once with its function. -/
  owned : ∀ n item, s.added[n]? = some item → s.Owned n item
  /-- The element of a value has one holder: its bucket, one call that will return or free it, or the
  callback that will free it. -/
  held : ∀ he e, s.elements he = some e → s.added[e.ticket]? = some e.item ∧
    (∃ a, s.HeldBy he a ∧ ∀ b, s.HeldBy he b → b = a) ∧ ∀ he' e', s.elements he' = some e' → e'.ticket = e.ticket → he' = he
  /-- What a timer that will call `cache_timer` leads to is not freed. -/
  reached : ∀ timer t, s.timers timer = some t → t.queued = false ∨ timer ∈ s.run → ∃ e, s.elements t.he = some e
  /-- Nor is the element of a callback that goes on. -/
  called : ∀ timer he, s.timerCall = .owning timer he → ∃ e, s.elements he = some e
  /-- No step accesses memory that is not allocated. -/
  safe : ∀ a, ¬Acts seed s a none

omit [DecidableEq T] in
theorem accounted_init : (State.init : State T V F).Accounted := ⟨nofun, nofun, fun n item hn => by simp [State.init] at hn, fun _ _ => ⟨rfl, rfl⟩⟩

omit [DecidableEq T] in
theorem kept_init : (State.init : State T V F).Kept := by
  have hnobody : ∀ x (a : Holder T), ¬(State.init : State T V F).HeldBy x a := by
    intro x a
    cases a with
    | bucket h => exact List.not_mem_nil
    | waiting t => rintro ⟨p, h⟩; exact nomatch h
    | holding t => rintro ⟨p, h⟩; exact nomatch h
    | timer => rintro ⟨y, h⟩; exact nomatch h
  exact ⟨fun _ => List.nodup_nil, fun x a ha => absurd ha (hnobody x a), fun x a _ ha => absurd ha (hnobody x a), nofun, nofun⟩

omit [DecidableEq T] in
theorem queued_init : (State.init : State T V F).Queued where
  queued := nofun
  listed timer h := by simp [State.init] at h
  distinct := ⟨List.nodup_nil, nofun⟩
  stopped := nofun
  calling timer h := by
    rcases h with h | ⟨x, h⟩
    · exact nomatch h
    · exact nomatch h
  idle _ := ⟨rfl, rfl⟩

/-- In every state of every run each value has one owner, and no element is freed that its timer can still reach. -/
theorem values_have_one_owner (seed : ℕ) (h : Reachable (· = (State.init : State T V F)) (Step seed) s) : s.OneOwner seed := by
  have hsound : (s.Kept ∧ s.Queued) ∧ s.Accounted := @Reachable.invariant _ _ _ _ (fun s => (s.Kept ∧ s.Queued) ∧ s.Accounted) _ h
    (fun _ hinit => hinit ▸ ⟨⟨kept_init, queued_init⟩, accounted_init⟩)
    (fun s a s' hs hstep => by
      obtain ⟨s₁, heq, hsound⟩ := acts_sound hs.1.1 hs.1.2 hstep
      exact ⟨Option.some_inj.mp heq ▸ hsound, step_accounted hs.2 hstep rfl⟩)
  obtain ⟨⟨hkept, hqueued⟩, haccounted⟩ := hsound
  refine ⟨haccounted.owned, fun he e hel => ⟨haccounted.item he e hel, ?_, ?_⟩, fun timer t ht hpending => ?_, fun timer he howning => ?_, fun a ha => ?_⟩
  · obtain ⟨a, ha⟩ := hkept.owned he e hel
    exact ⟨a, ha, fun b hb => hkept.one he b a hb ha⟩
  · intro he' e' hel' hsame
    exact haccounted.unique he' he e' e hel' hel hsame
  · obtain ⟨e, hel, -⟩ := hkept.leads timer t ht hpending
    exact ⟨e, hel⟩
  · obtain ⟨e, hel, -⟩ := hkept.held he .timer ⟨timer, howning⟩
    exact ⟨e, hel⟩
  · obtain ⟨s', heq, -⟩ := acts_sound hkept hqueued ha
    exact nomatch heq

theorem Acts.step {seed : ℕ} {a : Action T V F} {r : Option (State T V F)} (h : Acts seed s a r) (hr : r = some s') : Step seed s a s' := by
  rwa [hr] at h

/-- A value whose timer is queued when `psync_cache_get` finds it: the call waits for the callback, and returns it. -/
theorem values_have_one_owner_waiting : ∃ s : State (Fin 1) ℕ ℕ, s.returned = [(0, 5)] ∧ s.OneOwner 0 := by
  have h : Reachable (· = (State.init : State (Fin 1) ℕ ℕ)) (Step 0) State.init := .start rfl
  have h := h.next (show Step 0 _ _ (State.add 0 _ ⟨[], 5, 6⟩ 2 1 1) from .add rfl rfl)
  have h := h.next (show Step 0 _ _ (State.queue _ [1]) from .queue rfl (List.nodup_singleton 1) fun timer htimer => by
    obtain rfl := List.mem_singleton.mp htimer
    exact ⟨⟨1, false, false⟩, rfl, rfl⟩)
  have h := h.next (Acts.step (a := .get 0 []) (.get rfl) rfl)
  have h := h.next ((Acts.callback rfl rfl).step rfl)
  have h := h.next ((Acts.resume (t := 0) rfl).step rfl)
  have h := h.next ((Acts.finish (t := 0) rfl).step rfl)
  exact ⟨_, rfl, values_have_one_owner 0 h⟩

end Pclsync.Cache
