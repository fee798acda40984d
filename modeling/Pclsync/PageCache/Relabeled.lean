import Pclsync.PageCache.Relabel

/-! Every page that is stored under the hash of the new revision is a page of it, and no
assertion fails. -/
namespace Pclsync.PageCache.Relabel
open Lib.Files Lib.Intervals OpenFile
open PlainReads (pageSize filePage Row clip clip_eq)

/-- The bytes of a new revision: those of the data file inside the intervals, those of the old revision outside of them. -/
structure Revision (tree : IntervalTree) (fd old new : Bytes) : Prop where
  length_eq : new.length = fd.length
  inside : ∀ x < fd.length, x ∈ points tree → get new x = get fd x
  outside : ∀ x < fd.length, x ∉ points tree → x < old.length ∧ get new x = get old x

/-- What is stored under the hash are pages of the revision. -/
structure Cache.Right (hash : ℕ) (f : Bytes) (c : Cache) : Prop where
  memory : ∀ h, ∀ page ∈ c.cacheHash h, page.isRead = true → page.hash = hash → page.page = filePage f page.pageid
  database : ∀ row ∈ c.pagecache, row.hash = hash →
    row.size = (filePage f row.pageid).length ∧ pread c.readcache row.size (row.id * pageSize) = filePage f row.pageid

/-- Both revisions are stored right. A hash is that of one content. -/
structure Cache.Both (hash oldhash : ℕ) (old new : Bytes) (c : Cache) : Prop where
  before : c.Right oldhash old
  after : c.Right hash new
  same : hash = oldhash → old = new

/-! ### The pages of the new revision -/

section Pages

variable {tree : IntervalTree} {fd old new : Bytes} {pageid : ℕ}

theorem length_filePage {f : Bytes} : (filePage f pageid).length = min pageSize (f.length - pageid * pageSize) := length_pread

theorem get_filePage {f : Bytes} {k : ℕ} : get (filePage f pageid) k = if k < pageSize then get f (pageid * pageSize + k) else 0 := get_pread

/-- A list is a page of the new revision that has its length and its bytes. -/
theorem Revision.page_eq (h : Revision tree fd old new) {page : Bytes} (hlength : page.length = min pageSize (fd.length - pageid * pageSize))
    (hget : ∀ k < pageSize, pageid * pageSize + k < fd.length → get page k = get new (pageid * pageSize + k)) : page = filePage new pageid := by
  refine ext_get (by rw [hlength, length_filePage, h.length_eq]) fun k hk => ?_
  rw [get_filePage, if_pos (by omega), hget k (by omega) (by omega)]

/-- A page that no interval touches begins as the old one does. -/
theorem Revision.old_page (h : Revision tree fd old new)
    (hout : ∀ x, pageid * pageSize ≤ x → x < pageid * pageSize + pageSize → x ∉ points tree) (hpage : pageid * pageSize < fd.length) :
    min pageSize (fd.length - pageid * pageSize) ≤ (filePage old pageid).length ∧
      (filePage old pageid).take (min pageSize (fd.length - pageid * pageSize)) = filePage new pageid := by
  have hpos : 0 < pageSize := by decide
  have hlast := (h.outside (pageid * pageSize + min pageSize (fd.length - pageid * pageSize) - 1) (by omega)
    (hout _ (by omega) (by omega))).1
  have hle : min pageSize (fd.length - pageid * pageSize) ≤ (filePage old pageid).length := by
    rw [length_filePage]
    omega
  refine ⟨hle, h.page_eq ?_ fun k hk hin => ?_⟩
  · rw [List.length_take, min_eq_left hle]
  · rw [get_take, if_pos (by omega), get_filePage, if_pos hk]
    exact (h.outside _ hin (hout _ (by omega) (by omega))).2.symm

/-- A whole page that no interval touches is the old one. -/
theorem Revision.same_page (h : Revision tree fd old new)
    (hout : ∀ x, pageid * pageSize ≤ x → x < pageid * pageSize + pageSize → x ∉ points tree)
    (hwhole : pageid * pageSize + pageSize ≤ fd.length) : filePage old pageid = filePage new pageid := by
  have hpos : 0 < pageSize := by decide
  obtain ⟨_, htake⟩ := h.old_page hout (by omega)
  rw [← htake, min_eq_left (by omega), List.take_of_length_le]
  rw [length_filePage]
  exact min_le_left ..

/-- A page inside of an interval is that of the data file. -/
theorem Revision.new_page (h : Revision tree fd old new)
    (hin : ∀ x, pageid * pageSize ≤ x → x < pageid * pageSize + pageSize → x < fd.length → x ∈ points tree) :
    filePage fd pageid = filePage new pageid := by
  refine h.page_eq length_filePage fun k hk hlt => ?_
  rw [get_filePage, if_pos hk]
  exact (h.inside _ hlt (hin _ (by omega) (by omega) hlt)).symm

end Pages

/-! ### The cache -/

section Caches

variable {env : Env} {hash oldhash pageid : ℕ} {old new f : Bytes} {c : Cache}

/-- A page of both revisions. -/
def SamePage (old new : Bytes) (pageid : ℕ) : Prop := filePage old pageid = filePage new pageid

/-- A bucket with pages of its own and a page that is right. -/
theorem Cache.Right.update {h : ℕ} {bucket : List CachePage} (hc : c.Right hash f)
    (hbucket : ∀ page ∈ bucket, page.isRead = true → page.hash = hash → page.page = filePage f page.pageid) :
    ({ c with cacheHash := Function.update c.cacheHash h bucket } : Cache).Right hash f := by
  refine ⟨fun b page hpage => ?_, hc.database⟩
  by_cases hb : b = h
  · rw [hb] at hpage
    simp only [Function.update_self] at hpage
    exact hbucket page hpage
  · simp only [Function.update_of_ne hb] at hpage
    exact hc.memory b page hpage

theorem Cache.Right.switchMemory {c' : Cache} {x : ℕ} (hc : c.Right x f) (hold : c.Right oldhash old)
    (hpage : x = hash → filePage old pageid = filePage f pageid)
    (h : switchMemoryPageToHash env c oldhash hash pageid = some c') : c'.Right x f := by
  unfold switchMemoryPageToHash at h
  obtain ⟨page, hfind, rfl⟩ := Option.map_eq_some_iff.mp h
  have hkey := List.find?_some hfind
  simp only [decide_eq_true_eq] at hkey
  have hmem := List.mem_of_find?_eq_some hfind
  have herase : Cache.Right x f { c with
      cacheHash := Function.update c.cacheHash (env.pagehash oldhash pageid) ((c.cacheHash (env.pagehash oldhash pageid)).erase page) } :=
    hc.update fun pg hpg => hc.memory _ pg (List.mem_of_mem_erase hpg)
  refine herase.update fun pg hpg hread hhash => ?_
  rcases List.mem_append.mp hpg with hpg | hpg
  · exact herase.memory _ pg hpg hread hhash
  · cases List.mem_singleton.mp hpg
    have hcontent := hold.memory _ page hmem hkey.2.2 hkey.1
    rw [hkey.2.1] at hcontent
    exact hcontent.trans ((hpage hhash.symm).trans (congrArg (filePage f) hkey.2.1.symm))

theorem Cache.Both.switchMemory {c' : Cache} (hc : c.Both hash oldhash old new) (hpage : SamePage old new pageid)
    (h : switchMemoryPageToHash env c oldhash hash pageid = some c') : c'.Both hash oldhash old new :=
  ⟨hc.before.switchMemory hc.before (fun _ => rfl) h, hc.after.switchMemory hc.before (fun _ => hpage) h, hc.same⟩

theorem Cache.Both.switchRow (hc : c.Both hash oldhash old new) (hpage : SamePage old new pageid) :
    ({ c with pagecache := Relabel.switchRow hash oldhash c.pagecache pageid } : Cache).Both hash oldhash old new := by
  have hrow : ∀ x f, c.Right x f → (x = hash → filePage old pageid = filePage f pageid) →
      ({ c with pagecache := Relabel.switchRow hash oldhash c.pagecache pageid } : Cache).Right x f := by
    intro x f hx hsame
    refine ⟨hx.memory, fun row hrow hhash => ?_⟩
    simp only [Relabel.switchRow] at hrow
    split_ifs at hrow with hany
    · exact hx.database row hrow hhash
    · obtain ⟨row', hrow', rfl⟩ := List.mem_map.mp hrow
      split_ifs at hhash ⊢ with hkey
      · have hold := hc.before.database row' hrow' hkey.1
        rw [hkey.2, hsame hhash.symm, ← hkey.2] at hold
        exact hold
      · exact hx.database row' hrow' hhash
  exact ⟨hrow oldhash old hc.before fun _ => rfl, hrow hash new hc.after fun _ => hpage, hc.same⟩

theorem Cache.Both.switchPageids {pageids : List ℕ} (hc : c.Both hash oldhash old new) (hpages : ∀ p ∈ pageids, SamePage old new p) :
    (switchPageids c hash oldhash pageids).Both hash oldhash old new := by
  induction pageids generalizing c with
  | nil => exact hc
  | cons p pageids ih =>
    exact ih (hc.switchRow (hpages p (.head _))) fun q hq => hpages q (.tail _ hq)

theorem Cache.Right.markPageFree (hc : c.Right hash f) (id : ℕ) : (markPageFree c id).Right hash f :=
  ⟨hc.memory, fun row hrow => hc.database row (List.mem_of_mem_filter hrow)⟩

theorem Cache.Both.markPageFree (hc : c.Both hash oldhash old new) (id : ℕ) : (Relabel.markPageFree c id).Both hash oldhash old new :=
  ⟨hc.before.markPageFree id, hc.after.markPageFree id, hc.same⟩

theorem Cache.Both.checkPage {buff : Bytes} {size : ℕ} (hc : c.Both hash oldhash old new) :
    (checkPageInDatabaseByHash env c oldhash pageid buff size).2.2.Both hash oldhash old new := by
  unfold checkPageInDatabaseByHash
  cases c.pagecache.find? fun row => row.hash = oldhash ∧ row.pageid = pageid with
  | none => exact hc
  | some row =>
    dsimp only
    split_ifs
    · exact hc.markPageFree _
    · exact hc.markPageFree _
    · exact hc

/-- A page that is found has the start of the old page in it. -/
theorem check_found {buff : Bytes} {size pdb : ℕ} (hc : c.Right oldhash old)
    (h : (checkPageInDatabaseByHash env c oldhash pageid buff size).1 = some pdb) :
    pdb = min size (filePage old pageid).length ∧
      (checkPageInDatabaseByHash env c oldhash pageid buff size).2.1 = pwrite buff ((filePage old pageid).take pdb) 0 := by
  unfold checkPageInDatabaseByHash at h ⊢
  cases hfind : c.pagecache.find? fun row => row.hash = oldhash ∧ row.pageid = pageid with
  | none =>
    rw [hfind] at h
    cases h
  | some row =>
    have hkey := List.find?_some hfind
    simp only [decide_eq_true_eq] at hkey
    obtain ⟨hsize, hread⟩ := hc.database row (List.mem_of_find?_eq_some hfind) hkey.1
    rw [hkey.2] at hsize hread
    have hclip : clip size 0 row.size = min size (filePage old pageid).length := by rw [clip_eq, Nat.sub_zero, hsize]
    have htake : pread c.readcache (clip size 0 row.size) (row.id * pageSize) = (filePage old pageid).take (clip size 0 row.size) := by
      rw [← hread, pread, pread, List.take_take, min_eq_left (by omega)]
    rw [hfind] at h
    dsimp only at h ⊢
    split_ifs at h
    cases h
    refine ⟨hclip, ?_⟩
    rw [htake]
    split_ifs <;> rfl

theorem Cache.Both.addPage {clock : ℕ} {page : Bytes} (hc : c.Both hash oldhash old new) (hpage : page = filePage new pageid) :
    (addPageIfNotExists env clock c ⟨hash, pageid, true, page⟩).Both hash oldhash old new := by
  unfold addPageIfNotExists
  dsimp only
  split_ifs
  · exact hc
  · have hadd : ∀ x f, c.Right x f → (x = hash → page = filePage f pageid) → ({ c with
        cacheHash := Function.update c.cacheHash (env.pagehash hash pageid)
          (c.cacheHash (env.pagehash hash pageid) ++ [⟨hash, pageid, true, page⟩]) } : Cache).Right x f := by
      intro x f hx hright
      refine hx.update fun pg hpg hread hhash => ?_
      rcases List.mem_append.mp hpg with hpg | hpg
      · exact hx.memory _ pg hpg hread hhash
      · cases List.mem_singleton.mp hpg
        exact hright hhash.symm
    exact ⟨hadd oldhash old hc.before fun heq => by rw [hpage, hc.same heq.symm], hadd hash new hc.after fun _ => hpage, hc.same⟩

end Caches

/-! ### A page with old and new fragments -/

section Fragments

variable {env : Env} {fd old new : Bytes} {tree₀ done ts : IntervalTree} {off clock low pdb : ℕ} {buff : Bytes}

/-- The page has the old bytes up to `low`, and the new ones of the intervals that are done. -/
structure Fill (fd old : Bytes) (off low : ℕ) (done : IntervalTree) (buff : Bytes) (pdb : ℕ) : Prop where
  length : buff.length = pageSize
  low_le : low ≤ pdb
  le_page : pdb ≤ pageSize
  inside : ∀ k < pageSize, off + k < fd.length → off + k ∈ points done → k < pdb ∧ get buff k = get fd (off + k)
  outside : ∀ k < low, off + k ∉ points done → get buff k = get old (off + k)

/-- `rdoff` and `rdoff + rdlen`: the part of an interval that is in the page. -/
theorem fill_one {from_ to_ rdoff rdlen : ℕ} {data : Bytes} (h : Fill fd old off low done buff pdb) (hrdoff : rdoff = max from_ off)
    (hrdlen : rdoff + rdlen = min to_ (off + pageSize)) (hlt : rdoff < min to_ (off + pageSize)) (hdata : data = pread fd rdlen rdoff)
    (hlength : data.length = rdlen) :
    Fill fd old off low (done ++ [(from_, to_)]) (pwrite buff data (rdoff - off))
      (if rdoff - off + rdlen > pdb then rdoff - off + rdlen else pdb) := by
  have hwrite : ∀ k, get (pwrite buff data (rdoff - off)) k =
      if rdoff - off ≤ k ∧ k < rdoff - off + rdlen then get fd (off + k) else get buff k := by
    intro k
    rw [get_pwrite, hlength]
    by_cases hin : rdoff - off ≤ k ∧ k < rdoff - off + rdlen
    · have hoff : rdoff + (k - (rdoff - off)) = off + k := by omega
      rw [if_pos hin, if_pos hin, hdata, get_pread, if_pos (by omega), hoff]
    · rw [if_neg hin, if_neg hin]
  have hpoint : ∀ x, x ∈ points (done ++ [(from_, to_)]) ↔ x ∈ points done ∨ from_ ≤ x ∧ x < to_ := by
    intro x
    rw [points_append, points_cons, points_nil, Set.union_empty]
    rfl
  have hlow := h.low_le
  have hpage := h.le_page
  constructor
  case length =>
    have hpos : data ≠ [] := by
      intro hnil
      rw [hnil, List.length_nil] at hlength
      omega
    rw [length_pwrite, if_neg hpos, h.length, hlength]
    omega
  case low_le => split_ifs <;> omega
  case le_page => split_ifs <;> omega
  case inside =>
    intro k hk hin hmem
    rw [hwrite]
    by_cases hrange : rdoff - off ≤ k ∧ k < rdoff - off + rdlen
    · rw [if_pos hrange]
      exact ⟨by split_ifs <;> omega, rfl⟩
    · rw [if_neg hrange]
      have hdone : off + k ∈ points done := ((hpoint _).mp hmem).resolve_right (by omega)
      obtain ⟨hlt', hget⟩ := h.inside k hk hin hdone
      exact ⟨by split_ifs <;> omega, hget⟩
  case outside =>
    intro k hk hmem
    rw [hpoint, not_or] at hmem
    rw [hwrite, if_neg (by omega)]
    exact h.outside k hk hmem.1

/-- What the loop over the intervals of a page leaves. -/
structure FilledRight (fd old : Bytes) (tree₀ : IntervalTree) (off low : ℕ) (filled : Filled) : Prop where
  suffix : ∃ before, tree₀ = before ++ filled.tree ∧ ∀ i ∈ before, i.2 ≤ off + pageSize
  good : filled.good = true → ∃ done, Fill fd old off low done filled.buff filled.pdb ∧
    ∀ x, off ≤ x → x < off + pageSize → (x ∈ points tree₀ ↔ x ∈ points done)

theorem filePread_eq {len pos : ℕ} {rd : Bytes} (h : filePread env clock fd len pos = some rd) (hlength : rd.length = len) : rd = pread fd len pos := by
  obtain ⟨k, _, rfl⟩ := Option.map_eq_some_iff.mp h
  rw [length_pread] at hlength
  rw [min_eq_left (by omega)]

/-- Points beyond a page are not in it. -/
theorem mem_points_append (hts : ∀ i ∈ ts, off + pageSize ≤ i.1) (x : ℕ) (hx : x < off + pageSize) :
    x ∈ points (done ++ ts) ↔ x ∈ points done := by
  rw [points_append]
  refine ⟨fun h => h.resolve_right fun hmem => ?_, .inl⟩
  obtain ⟨i, hi, hle, _⟩ := hmem
  have := hts i hi
  omega

theorem le_of_beyond (hsep : Separated ts) (h : beyond off ts = true) : ∀ i ∈ ts, off + pageSize ≤ i.1 := by
  cases ts with
  | nil => exact fun i hi => nomatch hi
  | cons next rest =>
    obtain ⟨from_, to_⟩ := next
    obtain ⟨hne, hgap, _⟩ := separated_cons.mp hsep
    have hfrom : off + pageSize ≤ from_ := by simpa [beyond] using h
    refine List.forall_mem_cons.mpr ⟨hfrom, fun i hi => ?_⟩
    have := hgap i hi
    omega

theorem fillPage_right {done : IntervalTree} {buff : Bytes} {pdb from_ to_ : ℕ} {rest : IntervalTree}
    (htree : tree₀ = done ++ (from_, to_) :: rest) (hsep : Separated ((from_, to_) :: rest))
    (hdone : ∀ i ∈ done, i.2 ≤ off + pageSize) (hfrom : from_ < off + pageSize) (hto : off < to_) (h : Fill fd old off low done buff pdb) :
    ∃ filled, fillPage env fd clock off ((from_, to_) :: rest) buff pdb = some filled ∧ FilledRight fd old tree₀ off low filled := by
  obtain ⟨hne, hgap, hrest⟩ := separated_cons.mp hsep
  have hpos : 0 < pageSize := by decide
  obtain ⟨rdoff, hrdoff⟩ : ∃ rdoff, (if from_ > off then from_ else off) = rdoff := ⟨_, rfl⟩
  have hroff : (if from_ > off then from_ - off else 0) = rdoff - off := by split_ifs at hrdoff ⊢ <;> omega
  have hmax : rdoff = max from_ off := by split_ifs at hrdoff <;> omega
  obtain ⟨rdlen, hrdlen⟩ : ∃ rdlen, (if to_ < off + pageSize then to_ - rdoff else pageSize - (rdoff - off)) = rdlen := ⟨_, rfl⟩
  have hend : rdoff + rdlen = min to_ (off + pageSize) := by split_ifs at hrdlen <;> omega
  rw [fillPage]
  simp only [hrdoff, hroff, hrdlen]
  rw [if_pos (by omega)]
  generalize hread : filePread env (clock + rest.length) fd rdlen rdoff = rd
  by_cases hlength : rd.map List.length ≠ some rdlen
  · rw [if_pos hlength]
    exact ⟨_, rfl, ⟨done, htree, hdone⟩, fun hgood => nomatch hgood⟩
  · rw [if_neg hlength]
    rw [not_not] at hlength
    obtain ⟨data, rfl, hdata⟩ := Option.map_eq_some_iff.mp hlength
    have hfill := fill_one h hmax hend (by omega) (filePread_eq hread hdata) hdata
    have hsplit : tree₀ = (done ++ [(from_, to_)]) ++ rest := by rw [htree, List.append_assoc, List.singleton_append]
    by_cases hover : to_ > off + pageSize
    · rw [if_pos hover]
      refine ⟨_, rfl, ⟨done, htree, hdone⟩, fun _ => ⟨done ++ [(from_, to_)], hfill, fun x _ hx => ?_⟩⟩
      rw [hsplit]
      refine mem_points_append (fun i hi => ?_) x hx
      have := hgap i hi
      omega
    · rw [if_neg hover]
      have hdone' : ∀ i ∈ done ++ [(from_, to_)], i.2 ≤ off + pageSize := by
        intro i hi
        rcases List.mem_append.mp hi with hi | hi
        · exact hdone i hi
        · cases List.mem_singleton.mp hi
          exact Nat.not_lt.mp hover
      by_cases hbeyond : beyond off rest = true
      · rw [if_pos hbeyond]
        refine ⟨_, rfl, ⟨_, hsplit, hdone'⟩, fun _ => ⟨_, hfill, fun x _ hx => ?_⟩⟩
        rw [hsplit]
        exact mem_points_append (le_of_beyond hrest hbeyond) x hx
      · rw [if_neg hbeyond]
        match rest with
        | [] => exact absurd rfl hbeyond
        | (from', to') :: rest =>
          have hfirst := hgap (from', to') (.head _)
          have hne' := hrest.nonempty (from', to') (.head _)
          have hfrom' : from' < off + pageSize := by simpa [beyond] using hbeyond
          dsimp only at hfirst hne'
          exact fillPage_right hsplit hrest hdone' hfrom' (by omega) hfill

/-- The page is put together from what was found of the old one and from its intervals. -/
theorem Revision.filled_page {pageid : ℕ} {filled : Filled} (h : Revision tree₀ fd old new) (hpage : pageid * pageSize < fd.length)
    (hfilled : FilledRight fd old tree₀ (pageid * pageSize) (filePage old pageid).length filled) (hgood : filled.good = true) :
    filled.buff.take (min filled.pdb (fd.length - pageid * pageSize)) = filePage new pageid := by
  obtain ⟨done, hfill, hpoints⟩ := hfilled.good hgood
  have hpos : 0 < pageSize := by decide
  have hle := hfill.le_page
  have hlow := hfill.low_le
  have hold : ∀ k < pageSize, pageid * pageSize + k < fd.length → pageid * pageSize + k ∉ points done →
      k < (filePage old pageid).length ∧ get new (pageid * pageSize + k) = get old (pageid * pageSize + k) := by
    intro k hk hin hmem
    obtain ⟨hlt, hget⟩ := h.outside _ hin (mt (hpoints _ (by omega) (by omega)).mp hmem)
    refine ⟨?_, hget⟩
    rw [length_filePage]
    omega
  have hlong : min pageSize (fd.length - pageid * pageSize) ≤ filled.pdb := by
    obtain ⟨k, hk⟩ : ∃ k, k + 1 = min pageSize (fd.length - pageid * pageSize) := ⟨min pageSize (fd.length - pageid * pageSize) - 1, by omega⟩
    by_cases hmem : pageid * pageSize + k ∈ points done
    · have := (hfill.inside k (by omega) (by omega) hmem).1
      omega
    · have := (hold k (by omega) (by omega) hmem).1
      omega
  refine h.page_eq ?_ fun k hk hin => ?_
  · rw [List.length_take, hfill.length]
    omega
  · rw [get_take, if_pos (by omega)]
    by_cases hmem : pageid * pageSize + k ∈ points done
    · rw [(hfill.inside k hk hin hmem).2]
      exact (h.inside _ hin ((hpoints _ (by omega) (by omega)).mpr hmem)).symm
    · obtain ⟨hlt, hget⟩ := hold k hk hin hmem
      rw [hfill.outside k hlt hmem, hget]

end Fragments

/-! ### The loop over the pages -/

section Rounds

variable {env : Env} {hash oldhash pageid : ℕ} {fd old new : Bytes} {tree₀ : IntervalTree} {s : Loop}

/-- Nobody else stores a wrong page, and a free page is as long as a page. -/
structure Env.Fair (hash oldhash : ℕ) (old new : Bytes) (env : Env) : Prop where
  others : ∀ clock c, c.Both hash oldhash old new → (env.others clock c).Both hash oldhash old new
  freePage : ∀ clock, (env.freePage clock).length = pageSize

/-- The cache is right, and every page that waits to be switched is one of both revisions. -/
structure Loop.Safe (hash oldhash : ℕ) (old new : Bytes) (s : Loop) : Prop where
  cache : s.cache.Both hash oldhash old new
  pageids : ∀ p ∈ s.pageids, SamePage old new p

/-- The intervals that were passed end before the page. -/
structure Loop.Holds (hash oldhash : ℕ) (old new : Bytes) (tree₀ : IntervalTree) (off : ℕ) (s : Loop) : Prop
    extends s.Safe hash oldhash old new where
  tree : ∃ before, tree₀ = before ++ s.tree ∧ ∀ i ∈ before, i.2 ≤ off

/-- What a round leaves. -/
def Round.Right (hash oldhash : ℕ) (old new : Bytes) (tree₀ : IntervalTree) (off : ℕ) : Round → Prop
  | .goes s => s.Holds hash oldhash old new tree₀ off
  | .breaks s => s.Safe hash oldhash old new

theorem Loop.Safe.tick (he : env.Fair hash oldhash old new) (h : s.Safe hash oldhash old new) : (s.tick env).Safe hash oldhash old new :=
  ⟨he.others _ _ h.cache, h.pageids⟩

theorem Loop.Safe.add {page : Bytes} (he : env.Fair hash oldhash old new) (h : s.Safe hash oldhash old new) (hpage : page = filePage new pageid) :
    (s.add env hash pageid page).Safe hash oldhash old new :=
  ⟨(h.tick he).cache.addPage hpage, h.pageids⟩

theorem pwrite_zero {buff data : Bytes} : pwrite buff data 0 = data ++ buff.drop data.length := by
  unfold pwrite
  split_ifs with hnil
  · rw [hnil]
    rfl
  · simp

theorem fullOldPage_right {off : ℕ} (he : env.Fair hash oldhash old new) (hr : Revision tree₀ fd old new) (hin : pageid * pageSize < fd.length)
    (h : s.Holds hash oldhash old new tree₀ off)
    (hout : ∀ x, pageid * pageSize ≤ x → x < pageid * pageSize + pageSize → x ∉ points tree₀) :
    (fullOldPage env fd hash oldhash s pageid).Right hash oldhash old new tree₀ off := by
  unfold fullOldPage
  dsimp only
  by_cases hlast : pageid * pageSize + pageSize > fd.length
  · rw [if_pos hlast]
    have hcache := @Cache.Both.checkPage env _ _ pageid _ _ _ (env.freePage s.clock) (fd.length - pageid * pageSize) h.cache
    cases hfound : (checkPageInDatabaseByHash env s.cache oldhash pageid (env.freePage s.clock) (fd.length - pageid * pageSize)).1 with
    | none => exact ⟨hcache, h.pageids⟩
    | some pdb =>
      obtain ⟨hpdb, hbuff⟩ := check_found h.cache.before hfound
      obtain ⟨hle, htake⟩ := hr.old_page hout hin
      rw [min_eq_right (by omega)] at hle htake
      refine Loop.Safe.add he ⟨hcache, h.pageids⟩ ?_
      rw [hbuff, pwrite_zero, List.take_append_of_le_length (by rw [List.length_take]; omega), List.take_take, min_self, hpdb,
        min_eq_left hle, htake]
  · rw [if_neg hlast]
    have hsame : SamePage old new pageid := hr.same_page hout (by omega)
    cases hswitch : switchMemoryPageToHash env s.cache oldhash hash pageid with
    | some cache => exact ⟨⟨h.cache.switchMemory hsame hswitch, h.pageids⟩, h.tree⟩
    | none =>
      have hpages : ∀ p ∈ s.pageids ++ [pageid], SamePage old new p := by
        intro p hp
        rcases List.mem_append.mp hp with hp | hp
        · exact h.pageids p hp
        · rwa [List.mem_singleton.mp hp]
      dsimp only
      split_ifs
      · exact ⟨⟨h.cache.switchPageids hpages, fun p hp => nomatch hp⟩, h.tree⟩
      · exact ⟨⟨h.cache, hpages⟩, h.tree⟩

theorem fullNewPage_right {off : ℕ} (he : env.Fair hash oldhash old new) (hr : Revision tree₀ fd old new) (hin : pageid * pageSize < fd.length)
    (h : s.Holds hash oldhash old new tree₀ off)
    (hnew : ∀ x, pageid * pageSize ≤ x → x < pageid * pageSize + pageSize → x < fd.length → x ∈ points tree₀) :
    (fullNewPage env fd hash s pageid).Right hash oldhash old new tree₀ off := by
  unfold fullNewPage
  dsimp only
  cases hread : filePread env s.clock fd pageSize (pageid * pageSize) with
  | none => exact h.toSafe
  | some rd =>
    dsimp only
    split_ifs with hshort
    · exact h.toSafe
    · refine ⟨h.toSafe.add he ?_, h.tree⟩
      obtain ⟨k, _, rfl⟩ := Option.map_eq_some_iff.mp hread
      rw [← hr.new_page hnew, filePage]
      rw [length_pread] at hshort
      have hmin : min pageSize (fd.length - pageid * pageSize) ≤ min pageSize k := by omega
      rw [pread, pread, ← List.take_length (l := fd.drop (pageid * pageSize)), List.take_take, List.take_take, List.length_drop]
      congr 1
      omega

theorem mixedPage_right {from_ to_ : ℕ} {rest : IntervalTree} (he : env.Fair hash oldhash old new) (hr : Revision tree₀ fd old new)
    (hsep : Separated tree₀) (hin : pageid * pageSize < fd.length) (h : s.Holds hash oldhash old new tree₀ (pageid * pageSize))
    (htree : s.tree = (from_, to_) :: rest) (hto : pageid * pageSize < to_) (hfrom : from_ < pageid * pageSize + pageSize)
    (hnew : ¬(from_ ≤ pageid * pageSize ∧ (to_ ≥ pageid * pageSize + pageSize ∨ to_ ≥ fd.length))) :
    ∃ r, mixedPage env fd hash oldhash s pageid from_ to_ = some r ∧
      r.Right hash oldhash old new tree₀ (pageid * pageSize + pageSize) := by
  obtain ⟨before, hbefore, hends⟩ := h.tree
  have hnext : ∀ i ∈ before, i.2 ≤ pageid * pageSize + pageSize := fun i hi => le_trans (hends i hi) (Nat.le_add_right ..)
  have hcache := @Cache.Both.checkPage env _ _ pageid _ _ _ (env.freePage s.clock) pageSize h.cache
  unfold mixedPage
  dsimp only
  rw [if_pos (by omega)]
  cases hfound : (checkPageInDatabaseByHash env s.cache oldhash pageid (env.freePage s.clock) pageSize).1 with
  | none => exact ⟨_, rfl, ⟨hcache, h.pageids⟩, before, hbefore, hnext⟩
  | some pdb =>
    obtain ⟨hpdb, hbuff⟩ := check_found h.cache.before hfound
    have hshort : (filePage old pageid).length ≤ pageSize := by
      rw [length_filePage]
      exact min_le_left ..
    rw [min_eq_right hshort] at hpdb
    rw [hpdb, List.take_length, pwrite_zero] at hbuff
    have hfill : Fill fd old (pageid * pageSize) (filePage old pageid).length before
        (checkPageInDatabaseByHash env s.cache oldhash pageid (env.freePage s.clock) pageSize).2.1 pdb := by
      constructor
      case length =>
        rw [hbuff, List.length_append, List.length_drop, he.freePage]
        omega
      case low_le => exact hpdb.ge
      case le_page => omega
      case inside =>
        intro k _ _ ⟨i, hi, _, hlt⟩
        have := hends i hi
        omega
      case outside =>
        intro k hk _
        rw [hbuff, get_append, if_pos hk, get_filePage, if_pos (by omega)]
    rw [htree] at hbefore
    have hseprest : Separated ((from_, to_) :: rest) := hsep.sublist (hbefore ▸ List.sublist_append_right ..)
    obtain ⟨filled, hfilled, hright⟩ := @fillPage_right env _ _ _ _ s.clock _ _ _ _ _ _ _ hbefore hseprest hnext hfrom hto hfill
    dsimp only
    rw [htree, hfilled]
    have hsafe : Loop.Safe hash oldhash old new { s with
        cache := (checkPageInDatabaseByHash env s.cache oldhash pageid (env.freePage s.clock) pageSize).2.2
        tree := filled.tree } := ⟨hcache, h.pageids⟩
    simp only [Option.bind_eq_bind, Option.bind_some]
    by_cases hgood : filled.good = true
    · have hpage := hr.filled_page hin hright hgood
      rw [if_neg (not_not.mpr hgood)]
      by_cases hlong : filled.pdb + pageid * pageSize > fd.length
      · rw [if_pos hlong, if_pos hin]
        rw [min_eq_right (by omega)] at hpage
        exact ⟨_, rfl, hsafe.add he hpage, hright.suffix⟩
      · rw [if_neg hlong]
        rw [min_eq_left (by omega)] at hpage
        exact ⟨_, rfl, hsafe.add he hpage, hright.suffix⟩
    · rw [if_pos hgood]
      exact ⟨_, rfl, hsafe, hright.suffix⟩

/-- The intervals that end before the page are passed. -/
theorem Loop.Holds.skip {off : ℕ} (h : s.Holds hash oldhash old new tree₀ off) :
    Loop.Holds hash oldhash old new tree₀ off { s with tree := s.tree.dropWhile fun i => i.2 ≤ off } := by
  obtain ⟨before, hbefore, hends⟩ := h.tree
  refine ⟨⟨h.cache, h.pageids⟩, before ++ s.tree.takeWhile fun i => i.2 ≤ off, ?_, fun i hi => ?_⟩
  · rw [List.append_assoc, List.takeWhile_append_dropWhile]
    exact hbefore
  · rcases List.mem_append.mp hi with hi | hi
    · exact hends i hi
    · exact of_decide_eq_true (List.all_eq_true.mp List.all_takeWhile i hi)

/-- No interval that was passed reaches the page. -/
theorem Loop.Holds.mem_points {off x : ℕ} (h : s.Holds hash oldhash old new tree₀ off) (hx : off ≤ x) : x ∈ points tree₀ ↔ x ∈ points s.tree := by
  obtain ⟨before, hbefore, hends⟩ := h.tree
  rw [hbefore, points_append]
  refine ⟨fun hmem => hmem.resolve_left fun hin => ?_, .inr⟩
  obtain ⟨i, hi, _, hlt⟩ := hin
  have := hends i hi
  omega

theorem nextPage_right (he : env.Fair hash oldhash old new) (hr : Revision tree₀ fd old new)
    (hsep : Separated tree₀) (hin : pageid * pageSize < fd.length) (h : s.Holds hash oldhash old new tree₀ (pageid * pageSize)) :
    ∃ r, nextPage env fd hash oldhash s pageid = some r ∧ r.Right hash oldhash old new tree₀ (pageid * pageSize + pageSize) := by
  have htick : (s.tick env).Holds hash oldhash old new tree₀ (pageid * pageSize) := ⟨h.toSafe.tick he, h.tree⟩
  have hs := htick.skip
  have hnext : ∀ {t : Loop}, t.Holds hash oldhash old new tree₀ (pageid * pageSize) →
      t.Holds hash oldhash old new tree₀ (pageid * pageSize + pageSize) := by
    intro t ht
    obtain ⟨before, hbefore, hends⟩ := ht.tree
    exact ⟨ht.toSafe, before, hbefore, fun i hi => le_trans (hends i hi) (Nat.le_add_right ..)⟩
  unfold nextPage
  dsimp only
  cases htree : (s.tick env).tree.dropWhile fun i => i.2 ≤ pageid * pageSize with
  | nil =>
    rw [htree] at hs
    refine ⟨_, rfl, fullOldPage_right he hr hin (hnext hs) fun x hx _ hmem => ?_⟩
    obtain ⟨i, hi, _⟩ := (hs.mem_points hx).mp hmem
    cases hi
  | cons next rest =>
    obtain ⟨from_, to_⟩ := next
    have hto : pageid * pageSize < to_ := by
      have hhead := List.head_dropWhile_not (fun i : ℕ × ℕ => decide (i.2 ≤ pageid * pageSize)) (l := (s.tick env).tree) (by rw [htree]; exact List.cons_ne_nil _ _)
      simp only [htree, List.head_cons, decide_eq_false_iff_not] at hhead
      exact Nat.not_le.mp hhead
    rw [htree] at hs
    obtain ⟨before, hbefore, _⟩ := hs.tree
    have hseprest : Separated ((from_, to_) :: rest) := hsep.sublist (hbefore ▸ List.sublist_append_right ..)
    dsimp only
    by_cases hold : from_ ≥ pageid * pageSize + pageSize
    · rw [if_pos hold]
      refine ⟨_, rfl, fullOldPage_right he hr hin (hnext hs) fun x hx hlt hmem => ?_⟩
      obtain ⟨i, hi, hle, _⟩ := (hs.mem_points hx).mp hmem
      have hbeyond := @le_of_beyond _ (pageid * pageSize) hseprest (decide_eq_true hold) i hi
      omega
    · rw [if_neg hold]
      by_cases hnew : from_ ≤ pageid * pageSize ∧ (to_ ≥ pageid * pageSize + pageSize ∨ to_ ≥ fd.length)
      · rw [if_pos hnew]
        refine ⟨_, rfl, fullNewPage_right he hr hin (hnext hs) fun x hx hlt hxin => ?_⟩
        exact (hs.mem_points hx).mpr ⟨(from_, to_), .head _, by dsimp only; omega, by dsimp only; omega⟩
      · rw [if_neg hnew]
        exact mixedPage_right he hr hsep hin hs rfl hto (by omega) hnew

theorem pagesLoop_right (he : env.Fair hash oldhash old new) (hr : Revision tree₀ fd old new) (hsep : Separated tree₀) (todo : ℕ)
    (htodo : fd.length ≤ (pageid + todo) * pageSize) (h : s.Holds hash oldhash old new tree₀ (pageid * pageSize)) :
    ∃ s', pagesLoop env fd hash oldhash todo pageid s = some s' ∧ s'.Safe hash oldhash old new := by
  induction todo generalizing pageid s with
  | zero =>
    rw [Nat.add_zero] at htodo
    rw [pagesLoop, if_neg (Nat.not_lt.mpr htodo)]
    exact ⟨s, rfl, h.toSafe⟩
  | succ todo ih =>
    rw [pagesLoop]
    split_ifs with hin
    · obtain ⟨r, hround, hright⟩ := nextPage_right he hr hsep hin h
      rw [hround]
      cases r with
      | goes t =>
        rw [← Nat.succ_mul] at hright
        exact ih (by rwa [Nat.add_right_comm, Nat.add_assoc]) hright
      | breaks t => exact ⟨t, rfl, hright⟩
    · exact ⟨s, rfl, h.toSafe⟩

/-- No assertion fails, and what is stored under the new hash are pages of the new revision. -/
theorem modifyToCache_right {calls : Calls} {index : Bytes} {cnt : ℤ} {c : Cache} (he : env.Fair hash oldhash old new)
    (hload : loadIntervalTree index index.length [] = some (cnt, tree₀)) (hr : Revision tree₀ fd old new) (hc : c.Both hash oldhash old new) :
    ∃ c', modifyToCache env calls hash oldhash index fd c = some c' ∧ c'.Right hash new ∧ c'.Right oldhash old := by
  obtain ⟨hsep, _⟩ := loadIntervalTree_spec hload
  have hpos : 0 < pageSize := by decide
  have htodo : fd.length ≤ (0 + (fd.length / pageSize + 1)) * pageSize := by
    rw [Nat.zero_add, Nat.add_mul, Nat.one_mul]
    exact Nat.le_of_lt (Nat.lt_div_mul_add hpos)
  obtain ⟨s, hloop, hsafe⟩ := pagesLoop_right (s := ⟨c, tree₀, [], 0⟩) he hr hsep (fd.length / pageSize + 1) htodo
    ⟨⟨hc, fun p hp => nomatch hp⟩, [], rfl, fun i hi => nomatch hi⟩
  have htick := hsafe.tick he
  have hdone := htick.cache.switchPageids htick.pageids
  unfold modifyToCache
  split_ifs with hcalls
  · exact ⟨c, rfl, hc.after, hc.before⟩
  · rw [hload]
    simp only [Option.bind_eq_bind, Option.bind_some]
    split_ifs with hopen
    · exact ⟨c, rfl, hc.after, hc.before⟩
    · rw [hloop]
      exact ⟨_, rfl, hdone.after, hdone.before⟩

end Rounds

/-- A page whose second byte is new. -/
theorem second_byte_right : ∃ c', modifyToCache ⟨fun _ => 0, fun _ _ => 0, fun _ c => c, fun _ _ _ => false, fun _ => List.replicate pageSize 0, fun _ => some pageSize⟩
    ⟨true, true, true, true⟩ 2 1 [1, 0, 0, 0, 0, 0, 0, 0, 1, 0, 0, 0, 0, 0, 0, 0] [7, 8, 9]
    ⟨fun _ => [], [⟨0, 1, 0, 4, none⟩], [1, 2, 3, 4]⟩ = some c' ∧ c'.Right 2 [1, 8, 3] ∧ c'.Right 1 [1, 2, 3, 4] := by
  refine @modifyToCache_right _ _ _ _ _ _ [(1, 2)] _ _ 1 _ ⟨fun _ _ h => h, fun _ => List.length_replicate⟩ (by decide +kernel)
    ⟨rfl, fun x hx hmem => ?_, fun x hx hmem => ?_⟩
    ⟨⟨(fun _ _ hpage => nomatch hpage), fun row hrow _ => ?_⟩, ⟨(fun _ _ hpage => nomatch hpage), fun row hrow hhash => ?_⟩, fun heq => nomatch heq⟩
  · obtain ⟨i, hi, hle, hlt⟩ := hmem
    cases List.mem_singleton.mp hi
    obtain rfl : x = 1 := by omega
    rfl
  · have hne : x ≠ 1 := fun heq => hmem ⟨(1, 2), .head _, by omega, by omega⟩
    match x with
    | 0 => exact ⟨by decide, rfl⟩
    | 2 => exact ⟨by decide, rfl⟩
    | 1 => exact absurd rfl hne
    | x + 3 => exact absurd hx (by simp)
  · cases List.mem_singleton.mp hrow
    exact ⟨rfl, rfl⟩
  · cases List.mem_singleton.mp hrow
    exact absurd hhash (by decide)

end Pclsync.PageCache.Relabel
