import Pclsync.PageCache.UrlCounts

/-! What each step of `psync_pagecache_read_unmodified_thread` does to its entry, and what
therefore holds in every run. -/
namespace Pclsync.PageCache.Urls
open Lib.BinaryTree Lib.Census Lib.Machine Lib.Transition

variable {T : Type} [DecidableEq T] {s s' : State T} {t : T} {e hash tries : ℕ} {p : Phase} {x : Entry}

omit [DecidableEq T] in
theorem State.Sorted.congr (h : s.Sorted) (hlist : s'.urlCacheTree.toList.Sublist s.urlCacheTree.toList)
    (hhash : ∀ a ∈ s'.urlCacheTree.toList, (s'.heap a).hash = (s.heap a).hash) : s'.Sorted :=
  (h.sublist hlist).imp_of_mem fun ha hb hlt => by rwa [hhash _ ha, hhash _ hb]

theorem Local.of_fields (hphase : s'.phase = Function.update s.phase t p) (hheap : s'.heap = Function.update s.heap e x)
    (hbefore : ∀ a, (s.phase t).entry = some a → a = e) (hafter : ∀ a, p.entry = some a → a = e)
    (hfreed : ∀ a, a ≠ e → s'.freed a = s.freed a) (hentries : ∀ a, a ≠ e → (a < s'.entries ↔ a < s.entries))
    (htree : ∀ a, a ≠ e → (a ∈ s'.urlCacheTree.toList ↔ a ∈ s.urlCacheTree.toList)) : Local t e s s' where
  others := fun u hu => by rw [hphase, Function.update_of_ne hu]
  before := hbefore _
  after := fun ha => hafter _ (by rwa [hphase, Function.update_self] at ha)
  heap := fun a ha => by rw [hheap, Function.update_of_ne ha]
  freed := hfreed
  entries := hentries
  tree := htree

/-! ### Getting an entry -/

/-- A thread refers to an entry of the tree. -/
theorem Sound.found (h : Sound s) (hphase : s.phase t = .retrying hash tries) (he : e ∈ s.urlCacheTree.toList)
    (hp : (s.heap e).status = .pending ∧ p = .waiting e hash tries ∨ (s.heap e).status ≠ .pending ∧ p = .using e hash tries) :
    Sound ((s.setEntry e { s.heap e with refcnt := (s.heap e).refcnt + 1 }).setPhase t p) := by
  have hgood := h.good e
  obtain ⟨halive, hdead⟩ := hgood.listed.mp he
  have hurls := hgood.urls halive
  have hrefers : p.Refers e ∧ ¬p.Creates e := by
    rcases hp with ⟨-, rfl⟩ | ⟨-, rfl⟩
    · exact ⟨rfl, id⟩
    · exact ⟨rfl, id⟩
  generalize hs' : (s.setEntry e { s.heap e with refcnt := (s.heap e).refcnt + 1 }).setPhase t p = s'
  have hphase' : s'.phase t = p := by rw [← hs']; exact Function.update_self ..
  have hheap : s'.heap e = { s.heap e with refcnt := (s.heap e).refcnt + 1 } := by
    rw [← hs']
    exact Function.update_self ..
  have hlocal : Local t e s s' := by
    refine .of_fields (p := p) (x := { s.heap e with refcnt := (s.heap e).refcnt + 1 }) (by rw [← hs']; rfl)
      (by rw [← hs']; rfl) (by rw [hphase]; nofun) (fun a ha => ?_) (fun _ _ => by rw [← hs']; rfl)
      (fun _ _ => by rw [← hs']; rfl) (fun _ _ => by rw [← hs']; rfl)
    exact Option.some.inj (ha.symm.trans (Phase.entry_of_refers hrefers.1))
  have halive' : s'.Alive e := by rw [← hs']; exact halive
  have htree : s'.urlCacheTree = s.urlCacheTree := by rw [← hs']; rfl
  have hgood' : Good s' e := by
    refine hgood.move hlocal.others halive halive' ?_ ?_ ?_ ?_ ?_ ?_ ?_
    all_goals simp only [hphase', hheap, hphase, htree]
    · rw [if_pos hrefers.1]
      exact congrArg _ (if_neg id)
    · exact fun hc => (hrefers.2 hc).elim
    · simp [Phase.Creates]
    · exact fun _ => Nat.succ_pos _
    · rcases hp with ⟨-, rfl⟩ | ⟨hp, rfl⟩
      · exact fun hc => hc.elim
      · exact fun _ => hp
    · exact iff_of_true he hdead
    · exact hurls
  refine h.local_step hlocal hgood' (h.sorted.congr (by rw [htree]) fun a _ => ?_) fun r => ?_
  · by_cases ha : a = e
    · rw [ha, hheap]
    · rw [hlocal.heap a ha]
  · unfold State.place State.due
    rw [hheap]
    simp only [halive, halive', true_and]
    rw [← hs']
    rfl

omit [DecidableEq T] in
/-- In a sorted tree whose hashes are ordered together with the one searched for, the search
finds each entry of that hash. -/
theorem State.Sorted.search_eq_none (h : s.Sorted)
    (hordered : Ordered (hash :: s.urlCacheTree.toList.map fun e => (s.heap e).hash))
    (hsearch : s.urlCacheTree.search (s.side hash) = none) (he : e ∈ s.urlCacheTree.toList) : s.side hash e ≠ .eq := by
  intro heq
  have hmem : ∀ a ∈ s.urlCacheTree.toList, (s.heap a).hash ∈ hash :: s.urlCacheTree.toList.map fun e => (s.heap e).hash :=
    fun a ha => List.mem_cons_of_mem _ (List.mem_map_of_mem ha)
  refine BinTree.search_ne_none h he (fun a ha hlt => ?_) (fun a _ hlt => ?_) heq hsearch
  · intro hside
    have := hordered hash List.mem_cons_self _ (hmem a ha) _ (hmem e he) hside hlt
    rw [show compareHash hash (s.heap e).hash = .eq from heq] at this
    cases this
  · intro hside
    have := compareHash_gt hside
    have hcongr : compareHash (s.heap a).hash (s.heap e).hash = compareHash (s.heap a).hash hash := compareHash_congr heq
    have := hordered _ (hmem e he) _ (hmem a ‹_›) _ (hmem e he) hlt (hcongr.trans this)
    simp at this

/-- A new entry is put in the tree. -/
theorem Sound.created (h : Sound s) (hphase : s.phase t = .retrying hash tries)
    (hordered : Ordered (hash :: s.urlCacheTree.toList.map fun e => (s.heap e).hash))
    (hsearch : s.urlCacheTree.search (s.side hash) = none)
    (hentries : s'.entries = s.entries + 1)
    (hheap : s'.heap = Function.update s.heap s.entries ⟨hash, 0, .pending, none⟩)
    (htree : s'.urlCacheTree.toList = (s.urlCacheTree.addLeaf (s.side hash) s.entries).toList)
    (hphase' : s'.phase = Function.update s.phase t (.creating s.entries hash tries))
    (hfreed : s'.freed = s.freed) (hcache : s'.cache = s.cache) (hfreedResults : s'.freedResults = s.freedResults)
    (hresults : s'.results = s.results) : Sound s' := by
  have hgood := h.good s.entries
  have hnone : ¬s.Alive s.entries := fun ha => absurd ha.1 (Nat.lt_irrefl _)
  have hmem : ∀ a, a ∈ s'.urlCacheTree.toList ↔ a = s.entries ∨ a ∈ s.urlCacheTree.toList := fun a => by
    rw [htree, BinTree.mem_addLeaf]
  have hself : s'.heap s.entries = ⟨hash, 0, .pending, none⟩ := by rw [hheap, Function.update_self]
  have halive : s'.Alive s.entries := ⟨by rw [hentries]; exact Nat.lt_succ_self _, by rw [hfreed]; exact hgood.fresh le_rfl⟩
  have hlocal : Local t s.entries s s' := by
    refine .of_fields hphase' hheap (by rw [hphase]; nofun) (fun a ha => (Option.some.inj ha).symm) (fun _ _ => by rw [hfreed])
      (fun a ha => by rw [hentries]; omega) (fun a ha => ?_)
    rw [hmem, or_iff_right ha]
  have hphaset : s'.phase t = .creating s.entries hash tries := by rw [hphase', Function.update_self]
  have hnot : ∀ u, u ≠ t → ¬((s'.phase u).Refers s.entries ∨ (s'.phase u).Creates s.entries) := fun u hu hr => by
    rw [hlocal.others u hu] at hr
    exact hnone (hgood.alive hr)
  have honly : ∀ u, (s'.phase u).Creates s.entries → u = t := fun u hu => by
    by_contra hne
    exact hnot u hne (.inr hu)
  have hrefers : ∀ u, ¬(s'.phase u).Refers s.entries := fun u hu => by
    by_cases hut : u = t
    · rw [hut, hphaset] at hu
      exact hu
    · exact hnot u hut (.inl hu)
  have hgood' : Good s' s.entries := {
    alive := fun _ => halive
    once := by rw [halive.2]; exact Nat.zero_le _
    fresh := fun hle => absurd halive.1 (Nat.not_lt.mpr hle)
    counted := fun _ => by rw [hself]; exact counts_none hrefers
    pending := fun _ => by rw [hself]; exact iff_of_true rfl ⟨t, by rw [hphaset]; rfl⟩
    referred := fun _ hne => by rw [hself] at hne; exact absurd rfl hne
    creator := fun {u u'} hu hu' => (honly u hu).trans (honly u' hu').symm
    uses := fun {u} hu => (hrefers u (Phase.refers_of_uses hu)).elim
    listed := iff_of_true ((hmem _).mpr (.inl rfl)) ⟨halive, by rw [hself]; nofun⟩
    urls := fun _ => by rw [hself]; exact ⟨fun _ => rfl, nofun⟩ }
  have hold : ∀ a ∈ s.urlCacheTree.toList, s'.heap a = s.heap a := fun a ha =>
    hlocal.heap a (Nat.ne_of_lt ((h.good a).listed.mp ha).1.1)
  have hin : ∀ a ∈ s.urlCacheTree.toList, (s.heap a).hash ∈ hash :: s.urlCacheTree.toList.map fun e => (s.heap e).hash :=
    fun a ha => List.mem_cons_of_mem _ (List.mem_map_of_mem ha)
  have hsorted : s'.Sorted := by
    rw [State.Sorted, htree]
    refine BinTree.pairwise_addLeaf (h.sorted.imp_of_mem fun ha hb hlt => by rwa [hold _ ha, hold _ hb])
      (fun a ha hlt => ?_) (fun a ha hlt => ?_) (fun a ha b hb hlt hlt' => ?_) (fun a ha b hb hlt hlt' => ?_)
    · rw [hself, hold a ha]
      exact hlt
    · rw [hself, hold a ha]
      refine compareHash_gt ?_
      cases hside : s.side hash a with
      | lt => exact absurd hside hlt
      | eq => exact absurd hside (h.sorted.search_eq_none hordered hsearch ha)
      | gt => exact hside
    · rw [hself, hold a ha] at hlt
      rw [hold a ha, hold b hb] at hlt'
      rw [hself, hold b hb]
      exact hordered _ List.mem_cons_self _ (hin a ha) _ (hin b hb) hlt hlt'
    · rw [hold a ha, hold b hb] at hlt
      rw [hself, hold b hb] at hlt'
      rw [hself, hold a ha]
      exact hordered _ (hin a ha) _ (hin b hb) _ List.mem_cons_self hlt hlt'
  refine h.local_step hlocal hgood' hsorted fun r => ?_
  unfold State.place State.due
  rw [hcache, hfreedResults, hresults, hself]
  simp only [hnone, reduceCtorEq, and_false, false_and, if_false]

/-- `set_urls` with a result, which comes from the cache or from the API. -/
theorem Sound.setUrls (h : Sound s) {r : ℕ} (hcreates : (s.phase t).Creates e)
    (hphase : s'.phase = Function.update s.phase t (.using e hash tries))
    (hheap : s'.heap = Function.update s.heap e
      { s.heap e with status := .usable, urls := some r, refcnt := (s.heap e).refcnt + 1 })
    (htree : s'.urlCacheTree = s.urlCacheTree) (hfreed : s'.freed = s.freed) (hentries : s'.entries = s.entries)
    (hplace : ∀ a, (if r = a then 1 else 0) + (s'.cache.map Prod.snd).count a + s'.freedResults a + s.due a =
      (s.cache.map Prod.snd).count a + s.freedResults a + s'.due a) : Sound s' := by
  have hgood := h.good e
  have halive := hgood.alive (.inr hcreates)
  have hpending := (hgood.pending halive).mpr ⟨t, hcreates⟩
  have halive' : s'.Alive e := by rw [State.Alive, hentries, hfreed]; exact halive
  have hself : s'.heap e = { s.heap e with status := .usable, urls := some r, refcnt := (s.heap e).refcnt + 1 } := by
    rw [hheap, Function.update_self]
  have hphaset : s'.phase t = .using e hash tries := by rw [hphase, Function.update_self]
  have hlocal : Local t e s s' := by
    refine .of_fields hphase hheap (fun a ha => ?_) (fun a ha => (Option.some.inj ha).symm) (fun _ _ => by rw [hfreed])
      (fun _ _ => by rw [hentries]) (fun _ _ => by rw [htree])
    exact Option.some.inj (ha.symm.trans (Phase.entry_of_creates hcreates))
  have hgood' : Good s' e := by
    refine hgood.move hlocal.others halive halive' ?_ ?_ ?_ ?_ ?_ ?_ ?_
    all_goals simp only [hself, hphaset]
    · rw [if_neg fun hr => Phase.not_creates_of_refers hr hcreates, if_pos (show (Phase.using e hash tries).Refers e from rfl)]
    · exact fun hc => hc.elim
    · exact iff_of_false (by decide) fun hp => hp.2 hcreates
    · exact fun _ => Nat.succ_pos _
    · exact fun _ => by decide
    · rw [htree]
      exact iff_of_true (hgood.listed.mpr ⟨halive, by rw [hpending]; decide⟩) (by decide)
    · exact ⟨by simp, by simp⟩
  refine h.local_step hlocal hgood' (h.sorted.congr (by rw [htree]) fun a _ => ?_) fun a => ?_
  · by_cases ha : a = e
    · rw [ha, hself]
    · rw [hlocal.heap a ha]
  · have ha := hplace a
    have hurls := (hgood.urls halive).1 hpending
    unfold State.place
    rw [hself, hurls]
    simp only [halive, halive', true_and, Option.some.injEq, reduceCtorEq, if_false]
    omega

omit [DecidableEq T] in
theorem State.Sorted.nodup (h : s.Sorted) : s.urlCacheTree.toList.Nodup :=
  h.imp fun hlt heq => by rw [heq, compareHash_self] at hlt; cases hlt

omit [DecidableEq T] in
/-- The last reference is the thread's. -/
theorem Good.only (h : Good s e) (halive : s.Alive e) (hrefers : (s.phase t).Refers e) (hlast : (s.heap e).refcnt ≤ 1)
    {u : T} (hu : (s.phase u).Refers e) : u = t :=
  (h.counted halive).unique hlast hu hrefers

/-- A reference is given back that is not the last one. -/
theorem Sound.dropped (h : Sound s) {status : Status} (hrefers : (s.phase t).Refers e)
    (hstatus : (s.heap e).status ≠ .pending) (hphase : s'.phase = Function.update s.phase t p) (hp : p.entry = none)
    (hheap : s'.heap = Function.update s.heap e { s.heap e with status := status, refcnt := (s.heap e).refcnt - 1 })
    (htree : status = (s.heap e).status ∧ s'.urlCacheTree.toList = s.urlCacheTree.toList ∨
      status = .dead ∧ s'.urlCacheTree.toList = s.urlCacheTree.toList.erase e)
    (hmore : (s.heap e).refcnt - 1 ≠ 0) (hfreed : s'.freed = s.freed) (hentries : s'.entries = s.entries)
    (hcache : s'.cache = s.cache) (hfreedResults : s'.freedResults = s.freedResults) (hresults : s'.results = s.results) :
    Sound s' := by
  have hgood := h.good e
  have halive := hgood.alive (.inl hrefers)
  have halive' : s'.Alive e := by rw [State.Alive, hentries, hfreed]; exact halive
  have hself : s'.heap e = { s.heap e with status := status, refcnt := (s.heap e).refcnt - 1 } := by
    rw [hheap, Function.update_self]
  have hphaset : s'.phase t = p := by rw [hphase, Function.update_self]
  have hnot := Phase.not_of_entry hp e
  have hstatus' : status ≠ .pending := by
    rcases htree with ⟨rfl, -⟩ | ⟨rfl, -⟩
    · exact hstatus
    · decide
  have hmem : ∀ a, a ≠ e → (a ∈ s'.urlCacheTree.toList ↔ a ∈ s.urlCacheTree.toList) := fun a ha => by
    rcases htree with ⟨-, htree⟩ | ⟨-, htree⟩
    · rw [htree]
    · rw [htree, List.mem_erase_of_ne ha]
  have hlocal : Local t e s s' := by
    refine .of_fields hphase hheap (fun a ha => ?_) (fun a ha => by rw [hp] at ha; cases ha) (fun _ _ => by rw [hfreed])
      (fun _ _ => by rw [hentries]) hmem
    exact Option.some.inj (ha.symm.trans (Phase.entry_of_refers hrefers))
  have hgood' : Good s' e := by
    refine hgood.move hlocal.others halive halive' ?_ ?_ ?_ ?_ ?_ ?_ ?_
    all_goals simp only [hself, hphaset]
    · rw [if_pos hrefers, if_neg hnot.1]
      omega
    · exact fun hc => (hnot.2 hc).elim
    · exact iff_of_false hstatus' fun hc => hstatus hc.1
    · exact fun _ => Nat.pos_of_ne_zero hmore
    · exact fun _ => hstatus'
    · rcases htree with ⟨rfl, htree⟩ | ⟨rfl, htree⟩
      · rw [htree, hgood.listed]
        exact and_iff_right halive
      · rw [htree]
        exact iff_of_false (h.sorted.nodup.not_mem_erase) (fun hne => hne rfl)
    · refine ⟨fun hc => absurd hc hstatus', fun hu => ?_⟩
      rcases htree with ⟨rfl, -⟩ | ⟨rfl, -⟩
      · exact (hgood.urls halive).2 hu
      · cases hu
  refine h.local_step hlocal hgood' (h.sorted.congr ?_ fun a _ => ?_) fun a => ?_
  · rcases htree with ⟨-, htree⟩ | ⟨-, htree⟩
    · rw [htree]
    · rw [htree]
      exact List.erase_sublist
  · by_cases ha : a = e
    · rw [ha, hself]
    · rw [hlocal.heap a ha]
  · unfold State.place State.due
    rw [hself, hcache, hfreedResults, hresults]
    simp only [halive, halive']

/-- The last reference is given back, and the entry is freed. -/
theorem Sound.last (h : Sound s) (hrefers : (s.phase t).Refers e) (hstatus : (s.heap e).status ≠ .pending)
    (hphase : s'.phase = Function.update s.phase t p) (hp : p.entry = none)
    (hheap : s'.heap = Function.update s.heap e x) (hhash : x.hash = (s.heap e).hash)
    (htree : (s.heap e).status = .dead ∧ s'.urlCacheTree.toList = s.urlCacheTree.toList ∨
      s'.urlCacheTree.toList = s.urlCacheTree.toList.erase e)
    (hlast : (s.heap e).refcnt - 1 = 0) (hfreed : s'.freed = Function.update s.freed e (s.freed e + 1))
    (hentries : s'.entries = s.entries) (hresults : s'.results = s.results)
    (hplace : ∀ a, (s'.cache.map Prod.snd).count a + s'.freedResults a =
      (if (s.heap e).urls = some a then 1 else 0) + (s.cache.map Prod.snd).count a + s.freedResults a) : Sound s' := by
  have hgood := h.good e
  have halive := hgood.alive (.inl hrefers)
  have hphaset : s'.phase t = p := by rw [hphase, Function.update_self]
  have hnot := Phase.not_of_entry hp e
  have hgone : s'.freed e = 1 := by rw [hfreed, Function.update_self, halive.2]
  have hout : e ∉ s'.urlCacheTree.toList := by
    rcases htree with ⟨hdead, htree⟩ | htree
    · rw [htree, hgood.listed]
      exact fun hl => hl.2 hdead
    · rw [htree]
      exact h.sorted.nodup.not_mem_erase
  have hlocal : Local t e s s' := by
    refine .of_fields hphase hheap (fun a ha => ?_) (fun a ha => by rw [hp] at ha; cases ha)
      (fun a ha => by rw [hfreed, Function.update_of_ne ha]) (fun _ _ => by rw [hentries]) (fun a ha => ?_)
    · exact Option.some.inj (ha.symm.trans (Phase.entry_of_refers hrefers))
    · rcases htree with ⟨-, htree⟩ | htree
      · rw [htree]
      · rw [htree, List.mem_erase_of_ne ha]
  have hgood' : Good s' e := by
    refine .gone hgone (fun u => ?_) (by rw [hentries]; exact halive.1) hout
    by_cases hut : u = t
    · rw [hut, hphaset]
      exact hnot
    · rw [hlocal.others u hut]
      exact ⟨fun hr => hut (hgood.only halive hrefers (by omega) hr),
        fun hc => hstatus ((hgood.pending halive).mpr ⟨u, hc⟩)⟩
  refine h.local_step hlocal hgood' (h.sorted.congr ?_ fun a ha => ?_) fun a => ?_
  · rcases htree with ⟨-, htree⟩ | htree
    · rw [htree]
    · rw [htree]
      exact List.erase_sublist
  · rw [hlocal.heap a fun heq => hout (heq ▸ ha)]
  · have ha := hplace a
    have hdead : ¬s'.Alive e := fun ha => by rw [State.Alive, hgone] at ha; exact absurd ha.2 (by decide)
    unfold State.place State.due
    rw [hresults, if_neg fun ha => hdead ha.1]
    simp only [halive, true_and]
    omega

/-- `set_urls` with `NULL`: the entry leaves the tree, and stays while threads wait. -/
theorem Sound.failed (h : Sound s) (hcreates : (s.phase t).Creates e) (hphase : s'.phase = Function.update s.phase t p)
    (hp : p.entry = none) (htree : s'.urlCacheTree.toList = s.urlCacheTree.toList.erase e)
    (hcases : (s.heap e).refcnt ≠ 0 ∧ s'.heap = Function.update s.heap e { s.heap e with status := .dead } ∧ s'.freed = s.freed ∨
      (s.heap e).refcnt = 0 ∧ s'.heap = s.heap ∧ s'.freed = Function.update s.freed e (s.freed e + 1))
    (hentries : s'.entries = s.entries) (hcache : s'.cache = s.cache) (hfreedResults : s'.freedResults = s.freedResults)
    (hresults : s'.results = s.results) : Sound s' := by
  have hgood := h.good e
  have halive := hgood.alive (.inr hcreates)
  have hpending := (hgood.pending halive).mpr ⟨t, hcreates⟩
  have hurls := (hgood.urls halive).1 hpending
  have hphaset : s'.phase t = p := by rw [hphase, Function.update_self]
  have hnot := Phase.not_of_entry hp e
  have hout : e ∉ s'.urlCacheTree.toList := by
    rw [htree]
    exact h.sorted.nodup.not_mem_erase
  have hmem : ∀ a, a ≠ e → (a ∈ s'.urlCacheTree.toList ↔ a ∈ s.urlCacheTree.toList) := fun a ha => by
    rw [htree, List.mem_erase_of_ne ha]
  have hbefore : ∀ a, (s.phase t).entry = some a → a = e := fun a ha =>
    Option.some.inj (ha.symm.trans (Phase.entry_of_creates hcreates))
  have hafter : ∀ a, p.entry = some a → a = e := fun a ha => by
    rw [hp] at ha
    cases ha
  have hsub : s'.urlCacheTree.toList.Sublist s.urlCacheTree.toList := by
    rw [htree]
    exact List.erase_sublist
  obtain ⟨hmore, hheap, hfreed⟩ | ⟨hlast, hheap, hfreed⟩ := hcases
  · have halive' : s'.Alive e := by rw [State.Alive, hentries, hfreed]; exact halive
    have hself : s'.heap e = { s.heap e with status := .dead } := by rw [hheap, Function.update_self]
    have hlocal : Local t e s s' := .of_fields hphase hheap hbefore hafter (fun _ _ => by rw [hfreed])
      (fun _ _ => by rw [hentries]) hmem
    have hgood' : Good s' e := by
      refine hgood.move hlocal.others halive halive' ?_ ?_ ?_ ?_ ?_ ?_ ?_
      all_goals simp only [hself, hphaset]
      · rw [if_neg fun hr => Phase.not_creates_of_refers hr hcreates, if_neg hnot.1]
      · exact fun hc => (hnot.2 hc).elim
      · exact iff_of_false (by decide) fun hc => hnot.2 (hc.2 hcreates)
      · exact fun _ => Nat.pos_of_ne_zero hmore
      · exact fun _ => by decide
      · exact iff_of_false hout fun hne => hne rfl
      · exact ⟨by simp, by simp⟩
    refine h.local_step hlocal hgood' (h.sorted.congr hsub fun a ha => ?_) fun a => ?_
    · rw [hlocal.heap a fun heq => hout (heq ▸ ha)]
    · unfold State.place State.due
      rw [hself, hcache, hfreedResults, hresults]
      simp only [halive, halive']
  · have hgone : s'.freed e = 1 := by rw [hfreed, Function.update_self, halive.2]
    have hlocal : Local t e s s' := .of_fields (x := s.heap e) hphase (by rw [hheap, Function.update_eq_self]) hbefore hafter
      (fun a ha => by rw [hfreed, Function.update_of_ne ha]) (fun _ _ => by rw [hentries]) hmem
    have hgood' : Good s' e := by
      refine .gone hgone (fun u => ?_) (by rw [hentries]; exact halive.1) hout
      by_cases hut : u = t
      · rw [hut, hphaset]
        exact hnot
      · rw [hlocal.others u hut]
        refine ⟨fun hr => ?_, fun hc => hut (hgood.creator hc hcreates)⟩
        have := (hgood.counted halive).pos hr
        omega
    refine h.local_step hlocal hgood' (h.sorted.congr hsub fun a _ => by rw [hheap]) fun a => ?_
    have hdead : ¬s'.Alive e := fun ha => by rw [State.Alive, hgone] at ha; exact absurd ha.2 (by decide)
    unfold State.place State.due
    rw [hcache, hfreedResults, hresults, hurls]
    simp only [hdead, reduceCtorEq, and_false, false_and, if_false]

/-! ### Steps that leave the entries -/

/-- A thread goes on, and refers to the same as before. -/
theorem Sound.goOn (h : Sound s) (hentry : p.entry = (s.phase t).entry) (hrefers : ∀ e, p.Refers e ↔ (s.phase t).Refers e)
    (hcreates : ∀ e, p.Creates e ↔ (s.phase t).Creates e) (huses : ∀ e, p.Uses e → (s.heap e).status ≠ .pending) :
    Sound (s.setPhase t p) := by
  have hphase : ∀ u, (s.setPhase t p).phase u = if u = t then p else s.phase u := fun u => by
    simp [State.setPhase, Function.update_apply]
  have hr : ∀ u e, ((s.setPhase t p).phase u).Refers e ↔ (s.phase u).Refers e := fun u e => by
    rw [hphase]
    split
    · next hut => rw [hut, hrefers]
    · rfl
  have hc : ∀ u e, ((s.setPhase t p).phase u).Creates e ↔ (s.phase u).Creates e := fun u e => by
    rw [hphase]
    split
    · next hut => rw [hut, hcreates]
    · rfl
  refine ⟨fun e => ?_, h.sorted, h.results⟩
  obtain ⟨alive, once, fresh, counted, pending, referred, creator, uses, listed, urls⟩ := h.good e
  refine ⟨?_, once, fresh, fun ha => (counted ha).congr fun u => (hr u e).symm, ?_, referred, ?_, ?_, listed, urls⟩
  · intro u hu
    rw [hr, hc] at hu
    exact alive hu
  · intro ha
    simp only [hc]
    exact pending ha
  · intro u u' hu hu'
    rw [hc] at hu hu'
    exact creator hu hu'
  · intro u hu
    rw [hphase] at hu
    split at hu
    · exact huses e hu
    · exact uses hu

omit [DecidableEq T] in
theorem count_erase {cache : List (ℕ × ℕ)} {element : ℕ × ℕ} (hmem : element ∈ cache) (a : ℕ) :
    (cache.map Prod.snd).count a = ((cache.erase element).map Prod.snd).count a + if element.2 = a then 1 else 0 := by
  rw [((List.perm_cons_erase hmem).map Prod.snd).count_eq, List.map_cons, List.count_cons]
  simp

omit [DecidableEq T] in
/-- The cache drops a result, which is freed. -/
theorem Sound.expire (h : Sound s) {element : ℕ × ℕ} (hmem : element ∈ s.cache) :
    Sound ({ s with cache := s.cache.erase element }.freeResult (some element.2)) := by
  refine ⟨fun e => ?_, h.sorted, fun r => ?_⟩
  · obtain ⟨alive, once, fresh, counted, pending, referred, creator, uses, listed, urls⟩ := h.good e
    exact ⟨alive, once, fresh, counted, pending, referred, creator, uses, listed, urls⟩
  · obtain ⟨k, hk, hsum⟩ := h.results r
    refine ⟨k, hk, ?_⟩
    rw [count_erase hmem] at hsum
    show k + ((s.cache.erase element).map Prod.snd).count r
      + Function.update s.freedResults element.2 (s.freedResults element.2 + 1) r = s.due r
    rw [Function.update_apply]
    by_cases hr : r = element.2
    · rw [if_pos hr.symm] at hsum
      rw [if_pos hr, ← hr]
      omega
    · rw [if_neg (Ne.symm hr)] at hsum
      rw [if_neg hr]
      exact hsum

/-! ### Steps -/

theorem setTree_some {list : List ℕ} {tree : BinTree ℕ} (h : s.setTree list tree = some s') :
    tree.toList = list ∧ s' = { s with urlCacheTree := tree } := by
  unfold State.setTree at h
  split at h
  · next heq => exact ⟨heq, (Option.some.inj h).symm⟩
  · cases h

theorem Sound.getUrlsForRequest (h : Sound s) {tree : BinTree ℕ} (hphase : s.phase t = .retrying hash tries)
    (hordered : Ordered (hash :: s.urlCacheTree.toList.map fun e => (s.heap e).hash))
    (hs : s.getUrlsForRequest t hash tries tree = some s') : Sound s' := by
  unfold State.getUrlsForRequest at hs
  split at hs
  · next e hsearch =>
    have he := (BinTree.search_mem hsearch).1
    obtain ⟨-, hdead⟩ := (h.good e).listed.mp he
    have hstatus : ((s.setEntry e { s.heap e with refcnt := (s.heap e).refcnt + 1 }).heap e).status = (s.heap e).status := by
      simp [State.setEntry]
    simp only [hstatus] at hs
    by_cases hpending : (s.heap e).status = .pending
    · rw [if_pos hpending] at hs
      exact Option.some.inj hs ▸ h.found hphase he (.inl ⟨hpending, rfl⟩)
    · rw [if_neg hpending, State.wake] at hs
      simp only [hstatus] at hs
      split at hs
      · cases hs
      · exact Option.some.inj hs ▸ h.found hphase he (.inr ⟨hpending, rfl⟩)
      · next hd => exact absurd hd hdead
  · next hsearch =>
    obtain ⟨s₁, hs₁, rfl⟩ := Option.map_eq_some_iff.mp hs
    obtain ⟨htree, rfl⟩ := setTree_some hs₁
    exact h.created hphase hordered hsearch rfl rfl htree rfl rfl rfl rfl rfl

/-- A waiting thread finds the entry usable, or dead. -/
theorem Sound.wake (h : Sound s) (hphase : s.phase t = .waiting e hash tries)
    (hkept : ¬((s.heap e).status = .dead ∧ (s.heap e).urls ≠ none ∧ (s.heap e).refcnt = 1))
    (hs : s.wake t e hash tries = some s') : Sound s' := by
  have hrefers : (s.phase t).Refers e := by rw [hphase]; rfl
  have halive := (h.good e).alive (.inl hrefers)
  unfold State.wake at hs
  dsimp only at hs
  split at hs
  · cases hs
  · next hstatus =>
    obtain rfl := Option.some.inj hs
    refine h.goOn (by rw [hphase]; rfl) (fun a => by rw [hphase]; rfl) (fun a => by rw [hphase]; rfl) fun a ha => ?_
    obtain rfl : e = a := ha
    rw [hstatus]
    nofun
  · next hstatus =>
    have hne : (s.heap e).status ≠ .pending := by rw [hstatus]; nofun
    by_cases hlast : (s.heap e).refcnt - 1 = 0
    · rw [if_pos hlast] at hs
      obtain rfl := Option.some.inj hs
      have hpos := (h.good e).referred halive hne
      have hurls : (s.heap e).urls = none := by
        by_contra hurls
        exact hkept ⟨hstatus, hurls, by omega⟩
      refine h.last hrefers hne (p := .idle) (x := { s.heap e with refcnt := (s.heap e).refcnt - 1 }) rfl rfl rfl rfl
        (.inl ⟨hstatus, rfl⟩) hlast rfl rfl rfl fun a => ?_
      rw [hurls, if_neg nofun, Nat.zero_add]
      rfl
    · rw [if_neg hlast] at hs
      exact Option.some.inj hs ▸ h.dropped hrefers hne (p := .idle) rfl rfl rfl (.inl ⟨rfl, rfl⟩)
        hlast rfl rfl rfl rfl rfl

omit [DecidableEq T] in
theorem freeResult_spec (s : State T) (urls : Option ℕ) : ∃ cache freedResults,
    s.freeResult urls = { s with cache := cache, freedResults := freedResults } ∧
    ∀ a, (cache.map Prod.snd).count a + freedResults a =
      (if urls = some a then 1 else 0) + (s.cache.map Prod.snd).count a + s.freedResults a := by
  cases urls with
  | none => exact ⟨s.cache, s.freedResults, rfl, fun a => by rw [if_neg nofun, Nat.zero_add]⟩
  | some r =>
    refine ⟨s.cache, _, rfl, fun a => ?_⟩
    rw [Function.update_apply]
    by_cases ha : a = r
    · rw [if_pos ha, if_pos (by rw [ha]), ha]
      omega
    · rw [if_neg ha, if_neg fun h => ha (Option.some.inj h).symm]
      omega

omit [DecidableEq T] in
theorem cacheAdd_spec (s : State T) (hash : ℕ) (urls : Option ℕ) : ∃ cache freedResults,
    s.cacheAdd hash urls = { s with cache := cache, freedResults := freedResults } ∧
    ∀ a, (cache.map Prod.snd).count a + freedResults a =
      (if urls = some a then 1 else 0) + (s.cache.map Prod.snd).count a + s.freedResults a := by
  cases urls with
  | none => exact freeResult_spec s none
  | some r =>
    unfold State.cacheAdd
    dsimp only
    split
    · exact freeResult_spec s (some r)
    · refine ⟨(hash, r) :: s.cache, s.freedResults, rfl, fun a => ?_⟩
      rw [List.map_cons, List.count_cons]
      simp only [beq_iff_eq, Option.some.injEq]
      omega

theorem Sound.releaseUrls (h : Sound s) {late : Bool} {tree : BinTree ℕ} (hphase : s.phase t = .using e hash tries)
    (hp : p.entry = none) {s₁ : State T} (hs : s.releaseUrls e late tree = some s₁) : Sound (s₁.setPhase t p) := by
  have hrefers : (s.phase t).Refers e := by rw [hphase]; rfl
  have hne : (s.heap e).status ≠ .pending := (h.good e).uses (by rw [hphase]; rfl)
  have halive := (h.good e).alive (.inl hrefers)
  unfold State.releaseUrls at hs
  dsimp only at hs
  by_cases hlast : (s.heap e).refcnt - 1 = 0
  · rw [if_pos hlast] at hs
    by_cases hstatus : (s.heap e).status = .usable
    · rw [if_pos hstatus] at hs
      obtain ⟨s₂, hs₂, rfl⟩ := Option.map_eq_some_iff.mp hs
      obtain ⟨htree, rfl⟩ := setTree_some hs₂
      cases late with
      | true =>
        obtain ⟨cache, freedResults, hadd, hcount⟩ := cacheAdd_spec
          ({ s.setEntry e { s.heap e with refcnt := (s.heap e).refcnt - 1 } with urlCacheTree := tree }) (s.heap e).hash (s.heap e).urls
        rw [if_pos rfl, hadd]
        refine h.last hrefers hne (p := p) (x := { s.heap e with refcnt := 0, urls := none }) rfl hp ?_ rfl
          (.inr htree) hlast rfl rfl rfl hcount
        exact Function.update_idem ..
      | false =>
        obtain ⟨cache, freedResults, hfree, hcount⟩ := freeResult_spec
          ({ s.setEntry e { s.heap e with refcnt := (s.heap e).refcnt - 1 } with urlCacheTree := tree }) (s.heap e).urls
        rw [if_neg nofun, hfree]
        exact h.last hrefers hne (p := p) rfl hp rfl rfl (.inr htree) hlast rfl rfl rfl hcount
    · rw [if_neg hstatus] at hs
      obtain rfl := Option.some.inj hs
      obtain ⟨cache, freedResults, hfree, hcount⟩ := freeResult_spec
        (s.setEntry e { s.heap e with refcnt := (s.heap e).refcnt - 1 }) (s.heap e).urls
      rw [hfree]
      have hdead : (s.heap e).status = .dead := by
        cases hc : (s.heap e).status with
        | pending => exact absurd hc hne
        | usable => exact absurd hc hstatus
        | dead => rfl
      exact h.last hrefers hne (p := p) rfl hp rfl rfl (.inl ⟨hdead, rfl⟩) hlast rfl rfl rfl hcount
  · rw [if_neg hlast] at hs
    obtain rfl := Option.some.inj hs
    exact h.dropped hrefers hne (p := p) rfl hp rfl (.inl ⟨rfl, rfl⟩) hlast rfl rfl rfl rfl rfl

theorem Sound.releaseBadUrls (h : Sound s) {tree : BinTree ℕ} (hphase : s.phase t = .using e hash tries)
    (hp : p.entry = none) {s₁ : State T} (hs : s.releaseBadUrls e tree = some s₁) : Sound (s₁.setPhase t p) := by
  have hrefers : (s.phase t).Refers e := by rw [hphase]; rfl
  have hne : (s.heap e).status ≠ .pending := (h.good e).uses (by rw [hphase]; rfl)
  unfold State.releaseBadUrls at hs
  dsimp only at hs
  obtain ⟨s₂, hs₂, rfl⟩ := Option.map_eq_some_iff.mp hs
  by_cases hstatus : (s.heap e).status = .usable
  · rw [if_pos hstatus] at hs₂
    obtain ⟨htree, hs₂⟩ := setTree_some hs₂
    have hheap : s₂.heap = Function.update s.heap e { s.heap e with status := .dead } := by rw [hs₂]; rfl
    have hheap' : Function.update s₂.heap e { s₂.heap e with refcnt := (s.heap e).refcnt - 1 }
        = Function.update s.heap e { s.heap e with status := .dead, refcnt := (s.heap e).refcnt - 1 } := by
      rw [hheap, Function.update_self, Function.update_idem]
    by_cases hlast : (s.heap e).refcnt - 1 = 0
    · rw [if_neg (not_not.mpr hlast)]
      obtain ⟨cache, freedResults, hfree, hcount⟩ := freeResult_spec
        (s₂.setEntry e { s₂.heap e with refcnt := (s.heap e).refcnt - 1 }) (s.heap e).urls
      rw [hfree]
      subst hs₂
      exact h.last hrefers hne (p := p) (x := { s.heap e with status := .dead, refcnt := (s.heap e).refcnt - 1 })
        rfl hp hheap' rfl (.inr htree) hlast rfl rfl rfl hcount
    · rw [if_pos hlast]
      subst hs₂
      exact h.dropped hrefers hne (p := p) rfl hp hheap' (.inr ⟨rfl, htree⟩) hlast rfl rfl rfl rfl rfl
  · rw [if_neg hstatus] at hs₂
    obtain rfl := Option.some.inj hs₂
    have hdead : (s.heap e).status = .dead := by
      cases hc : (s.heap e).status with
      | pending => exact absurd hc hne
      | usable => exact absurd hc hstatus
      | dead => rfl
    by_cases hlast : (s.heap e).refcnt - 1 = 0
    · rw [if_neg (not_not.mpr hlast)]
      obtain ⟨cache, freedResults, hfree, hcount⟩ := freeResult_spec
        (s.setEntry e { s.heap e with refcnt := (s.heap e).refcnt - 1 }) (s.heap e).urls
      rw [hfree]
      exact h.last hrefers hne (p := p) rfl hp rfl rfl (.inl ⟨hdead, rfl⟩) hlast rfl rfl rfl hcount
    · rw [if_pos hlast]
      exact h.dropped hrefers hne (p := p) rfl hp rfl (.inl ⟨rfl, rfl⟩) hlast rfl rfl rfl rfl rfl

theorem Sound.step {event : Event T} (h : Sound s) (hs : Avoiding step Drifts s event s') : Sound s' := by
  obtain ⟨hrun, hdrift⟩ := hs
  unfold Urls.step at hrun
  cases event with
  | start t hash =>
    unfold State.run at hrun
    dsimp only at hrun
    split at hrun
    · next hphase =>
      obtain rfl := Option.some.inj hrun
      exact h.goOn (by rw [hphase]; rfl) (fun a => by rw [hphase]; rfl) (fun a => by rw [hphase]; rfl) fun _ => False.elim
    · cases hrun
  | getUrlsForRequest t tree =>
    unfold State.run at hrun
    dsimp only at hrun
    split at hrun
    · next hash tries hphase =>
      simp only [Drifts, hphase, not_not] at hdrift
      exact h.getUrlsForRequest hphase hdrift hrun
    · cases hrun
  | wake t =>
    unfold State.run at hrun
    dsimp only at hrun
    split at hrun
    · next e hash tries hphase =>
      simp only [Drifts, hphase] at hdrift
      exact h.wake hphase hdrift hrun
    · cases hrun
  | cacheGet t =>
    unfold State.run at hrun
    dsimp only at hrun
    split at hrun
    · next e hash tries hphase =>
      have hcreates : (s.phase t).Creates e := by rw [hphase]; rfl
      split at hrun
      · next hash' r hfind =>
        obtain rfl := Option.some.inj hrun
        obtain rfl : hash' = hash := by simpa using List.find?_some hfind
        refine h.setUrls hcreates (r := r) rfl rfl rfl rfl rfl fun a => ?_
        have := count_erase (List.mem_of_find?_eq_some hfind) a
        show (if r = a then 1 else 0) + ((s.cache.erase (hash', r)).map Prod.snd).count a + s.freedResults a + s.due a = _
        rw [this]
        show _ = _ + (if r = a then 1 else 0) + s.freedResults a + s.due a
        omega
      · obtain rfl := Option.some.inj hrun
        exact h.goOn (by rw [hphase]; rfl) (fun a => by rw [hphase]; rfl) (fun a => by rw [hphase]; rfl) fun _ => False.elim
    · cases hrun
  | getUrls t ok tree =>
    unfold State.run at hrun
    dsimp only at hrun
    split at hrun
    · next e hash tries hphase =>
      have hcreates : (s.phase t).Creates e := by rw [hphase]; rfl
      cases ok with
      | true =>
        obtain rfl := Option.some.inj hrun
        refine h.setUrls hcreates (r := s.results) rfl rfl rfl rfl rfl fun a => ?_
        show (if s.results = a then 1 else 0) + (s.cache.map Prod.snd).count a + s.freedResults a + s.due a =
          (s.cache.map Prod.snd).count a + s.freedResults a + if a < s.results + 1 then 1 else 0
        unfold State.due
        split_ifs <;> omega
      | false =>
        obtain ⟨s₁, hs₁, rfl⟩ := Option.map_eq_some_iff.mp hrun
        obtain ⟨s₂, hs₂, rfl⟩ := Option.map_eq_some_iff.mp hs₁
        obtain ⟨htree, rfl⟩ := setTree_some hs₂
        dsimp only
        by_cases hmore : (s.heap e).refcnt = 0
        · rw [if_neg (not_not.mpr hmore)]
          exact h.failed hcreates (p := .idle) rfl rfl htree (.inr ⟨hmore, rfl, rfl⟩) rfl rfl rfl rfl
        · rw [if_pos hmore]
          exact h.failed hcreates (p := .idle) rfl rfl htree (.inl ⟨hmore, rfl, rfl⟩) rfl rfl rfl rfl
    · cases hrun
  | keyError t => exact (hdrift trivial).elim
  | requestFailed t => exact (hdrift trivial).elim
  | badUrls t tree =>
    unfold State.run at hrun
    dsimp only at hrun
    split at hrun
    · next e hash tries hphase =>
      split at hrun
      · obtain ⟨s₁, hs₁, rfl⟩ := Option.map_eq_some_iff.mp hrun
        exact h.releaseBadUrls hphase rfl hs₁
      · cases hrun
    · cases hrun
  | finish t late tree =>
    unfold State.run at hrun
    dsimp only at hrun
    split at hrun
    · next e hash tries hphase =>
      obtain ⟨s₁, hs₁, rfl⟩ := Option.map_eq_some_iff.mp hrun
      exact h.releaseUrls hphase rfl hs₁
    · cases hrun
  | expire element =>
    unfold State.run at hrun
    dsimp only at hrun
    split at hrun
    · next hmem => exact Option.some.inj hrun ▸ h.expire hmem
    · cases hrun

/-! ### Runs -/

omit [DecidableEq T] in
theorem Initial.sound (h : Initial s) : Sound s where
  good := fun e => by
    have hdead : ¬s.Alive e := fun ha => by rw [State.Alive, h.entries] at ha; exact absurd ha.1 (Nat.not_lt_zero _)
    exact {
      alive := fun {u} hu => by rw [h.phase] at hu; exact (hu.elim id id).elim
      once := by rw [h.freed]; exact Nat.zero_le _
      fresh := fun _ => h.freed e
      counted := fun ha => absurd ha hdead
      pending := fun ha => absurd ha hdead
      referred := fun ha => absurd ha hdead
      creator := fun {u u'} hu => by rw [h.phase] at hu; exact hu.elim
      uses := fun {u} hu => by rw [h.phase] at hu; exact hu.elim
      listed := iff_of_false (by rw [h.urlCacheTree]; exact List.not_mem_nil) fun ha => hdead ha.1
      urls := fun ha => absurd ha hdead }
  sorted := by rw [State.Sorted, h.urlCacheTree]; exact .nil
  results := fun r => ⟨0, counts_none fun e ha => by
      rw [State.Alive, h.entries] at ha
      exact absurd ha.1.1 (Nat.not_lt_zero _), by
    rw [h.cache, h.freedResults, State.due, h.results]
    rfl⟩

omit [DecidableEq T] in
theorem Sound.kept (h : Sound s) : Kept s where
  counted := fun {e} => (h.good e).counted
  refers := fun {t e} => (h.good e).alive
  freed := fun {e} he => by
    by_cases hfreed : s.freed e = 0
    · refine .inl ⟨hfreed, ?_⟩
      by_cases hpending : (s.heap e).status = .pending
      · obtain ⟨t, ht⟩ := ((h.good e).pending ⟨he, hfreed⟩).mp hpending
        exact ⟨t, .inr ht⟩
      · have hpos := (h.good e).referred ⟨he, hfreed⟩ hpending
        obtain ⟨t, ht⟩ := ((h.good e).counted ⟨he, hfreed⟩).pos_iff.mp hpos
        exact ⟨t, .inl ht⟩
    · have := (h.good e).once
      exact .inr (by omega)
  inTree := fun {e} he => (h.good e).listed.mp he
  unique := by
    refine List.pairwise_map.mpr (h.sorted.imp fun {a b} hlt heq => ?_)
    rw [heq, compareHash_self] at hlt
    cases hlt
  results := fun {r} hr => by
    obtain ⟨k, hk, hsum⟩ := h.results r
    exact ⟨k, hk, by rw [hsum, State.due, if_pos hr]⟩

/-- As long as the hashes are ordered, no links turn bad under a waiting thread that is the
last, no key fails and no http request fails and is tried again, each entry is counted right,
found again, and freed once with its links. -/
theorem kept_of_avoiding (h : Reachable Initial (Avoiding step Drifts) s) : Kept s :=
  (h.invariant (fun _ => Initial.sound) fun _ _ _ h hs => h.step hs).kept

def noUrls : State T where
  phase := fun _ => .idle
  heap := fun _ => ⟨0, 0, .dead, none⟩
  entries := 0
  freed := fun _ => 0
  results := 0
  freedResults := fun _ => 0
  urlCacheTree := .nil
  cache := []

omit [DecidableEq T] in
theorem noUrls_initial : Initial (noUrls : State T) := ⟨fun _ => rfl, rfl, fun _ => rfl, rfl, fun _ => rfl, rfl, rfl⟩

/-- Two threads use the links of one file, and the first one is done. -/
theorem kept_after_finish : ∃ s : State ℕ, Kept s ∧ s.phase 2 = .using 0 7 0 ∧ (s.heap 0).refcnt = 1 := by
  have goes : ∀ {s s' : State ℕ} (e), s.run e = some s' → ¬Drifts s e →
      Reachable Initial (Avoiding step Drifts) s → Reachable Initial (Avoiding step Drifts) s' :=
    fun _ hs hd h => .next h ⟨hs, hd⟩
  have hone : Ordered [7] := by unfold Ordered; decide
  have htwo : Ordered [7, 7] := by unfold Ordered; decide
  exact ⟨_, kept_of_avoiding (goes (.finish 1 true .nil) rfl id <|
    goes (.getUrlsForRequest 2 .nil) rfl (by exact fun h => h htwo) <| goes (.start 2 7) rfl id <|
    goes (.getUrls 1 true .nil) rfl id <| goes (.cacheGet 1) rfl id <|
    goes (.getUrlsForRequest 1 (.node .nil 0 .nil)) rfl (by exact fun h => h hone) <| goes (.start 1 7) rfl id <|
    .start noUrls_initial), rfl, rfl⟩

/-- A thread that cannot make an encoder of its key leaves without its reference. -/
theorem reference_lost_with_the_key : ∃ s : State Unit, Reachable Initial step s ∧ (s.heap 0).refcnt = 1 ∧
    s.freed 0 = 0 ∧ s.phase () = .idle ∧ ¬Kept s := by
  have goes : ∀ {s s' : State Unit} (e), s.run e = some s' → Reachable Initial step s → Reachable Initial step s' :=
    fun _ hs h => .next h hs
  refine ⟨_, goes (.keyError ()) rfl <| goes (.getUrls () true .nil) rfl <| goes (.cacheGet ()) rfl <|
    goes (.getUrlsForRequest () (.node .nil 0 .nil)) rfl <| goes (.start () 7) rfl <| .start noUrls_initial,
    rfl, rfl, rfl, fun h => ?_⟩
  obtain ⟨-, t, ht⟩ | hfreed := h.freed (e := 0) (by decide)
  · exact ht.elim id id
  · cases hfreed

end Pclsync.PageCache.Urls
