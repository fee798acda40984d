import Pclsync.Delta.Scan
import Pclsync.PList.Nodes

/-! `merge_list_to_element` of `pnetlibs.c`: the blocks that were found take the place of what was to be uploaded. -/
namespace Pclsync.Delta.Splice
open Lib.HeapProgram Lib.Rings Lib.Machine
open PList (del addBefore addAfter)

/-- `PSYNC_URANGE_...` -/
inductive Urange where
  | upload
  | copyFile
  | copyUpload
  | last
deriving DecidableEq, Repr

/-- `psync_upload_range_list_t`, but for its `list`. -/
structure Element extends UploadRange where
  /-- The union: `uploadid`, or `file.fileid` and `file.hash`. -/
  file : ℕ × ℕ
  type : Urange
  id : ℕ
deriving DecidableEq, Repr

structure Node (P : Type) where
  list : Links P
  element : Element

/-! ### The code -/

section
variable {P : Type}

def onList {α : Type} (x : Program P (Links P) α) : Program P (Node P) α := onPart Node.list (fun c l => { c with list := l }) x

/-- `ur->uploadoffset+ur->len` -/
def Element.stop (ur : Element) : ℕ := u64 (ur.uploadoffset + ur.len)

/-- The changes of `le` where `ur` is at its start. -/
def Element.cutStart (le ur : Element) : Element :=
  { le with uploadoffset := u64 (le.uploadoffset + ur.len), off := u64 (le.off + ur.len), len := sub64 le.len ur.len }

/-- `n`, in memory that had `junk` in it. -/
def Element.behind (junk le ur : Element) : Element :=
  { junk with
    uploadoffset := ur.stop, off := ur.stop, type := .upload
    len := sub64 (sub64 le.len (sub64 ur.uploadoffset le.uploadoffset)) ur.len }

variable [DecidableEq P]

def setElement (p : P) (f : Element → Element) : Program P (Node P) Unit := store p fun c => { c with element := f c.element }

/-- The body of the loop, with the new `le`. -/
def mergeOne (junk : Node P) (le l : P) : (fresh : List P) → Program P (Node P) (P × List P)
  | fresh => do
    let ur := (← load l).element
    onList (del l)
    let e := (← load le).element
    if ur.len = e.len then
      onList (addAfter le l)
      onList (del le)
      free le
      pure (le, fresh)
    else if ur.uploadoffset = e.uploadoffset then
      onList (addBefore le l)
      setElement le fun e => e.cutStart ur
      pure (le, fresh)
    else if ur.stop = e.stop then
      onList (addAfter le l)
      setElement le fun e => { e with len := sub64 e.len ur.len }
      pure (le, fresh)
    else
      match fresh with
      | [] => fun _ => none
      | n :: fresh =>
        alloc n { junk with element := junk.element.behind e ur }
        setElement le fun e => { e with len := sub64 ur.uploadoffset e.uploadoffset }
        onList (addAfter le l)
        onList (addAfter l n)
        pure (n, fresh)

/-- `psync_list_for_each_safe(l, lb, rlist)` -/
def mergeFrom (junk : Node P) (rlist : P) : (fuel : ℕ) → (le l lb : P) → (fresh : List P) → Program P (Node P) Unit
  | fuel, le, l, lb, fresh =>
    if l = rlist then pure ()
    else
      match fuel with
      | 0 => fun _ => none
      | fuel + 1 => do
        let (le, fresh) ← mergeOne junk le l fresh
        let next ← deref (← load lb).list.next
        mergeFrom junk rlist fuel le lb next fresh

/-- `merge_list_to_element`, where `psync_new` answers the nodes of `fresh` and `rlist` has up to `fuel` elements. -/
def mergeListToElement (junk : Node P) (fuel : ℕ) (fresh : List P) (le rlist : P) : Program P (Node P) Unit := do
  let l ← deref (← load rlist).list.next
  let lb ← deref (← load l).list.next
  mergeFrom junk rlist fuel le l lb fresh

end

/-! ### The two parts of a node -/

variable {P : Type} {h h' : Heap P (Node P)} {a e l le rlist head q : P} {xs ys before after out fresh : List P} {r ur : Element}

def links (h : Heap P (Node P)) : Heap P (Links P) := parts Node.list h

def elements (h : Heap P (Node P)) : Heap P Element := parts Node.element h

/-- An operation on the links leaves the elements, and does to the links what it is said to do. -/
theorem does_onList {α : Type} {x : Program P (Links P) α} {Q : α → Heap P (Links P) → Prop} {touched : List P}
    (hx : Does x (links h) fun a g => Q a g ∧ (∀ q ∈ touched, ∃ c, g q = some c) ∧ ∀ q ∉ touched, g q = links h q)
    (htouched : ∀ q ∈ touched, ∃ c, links h q = some c) :
    Does (onList x) h fun a h' => Q a (links h') ∧ elements h' = elements h := by
  refine does_onPart.mpr (hx.mono fun a g hg => ?_)
  obtain ⟨hq, hused, hframe⟩ := hg
  have hlinks : links (withParts (fun c l => { c with list := l }) h g) = g := by
    funext q
    cases hhq : h q with
    | none =>
      have hnone : links h q = none := by rw [links, parts, hhq, Option.map_none]
      have hout : q ∉ touched := fun hmem => by
        obtain ⟨c, hc⟩ := htouched q hmem
        cases hc.symm.trans hnone
      rw [hframe q hout, hnone, links, parts, withParts, hhq, Option.map_none]
    | some c =>
      have hg : ∃ d, g q = some d := by
        by_cases hmem : q ∈ touched
        · exact hused q hmem
        · exact ⟨c.list, by rw [hframe q hmem, links, parts, hhq, Option.map_some]⟩
      obtain ⟨d, hd⟩ := hg
      exact parts_withParts (fun _ _ => rfl) hhq hd
  rw [hlinks]
  refine ⟨hq, funext fun q => ?_⟩
  have hkeeps : ∀ (c : Node P) l, ({ c with list := l } : Node P).element = c.element := fun _ _ => rfl
  exact map_withParts hkeeps q

section Operations
variable [DecidableEq P]

theorem onList_del (hr : Ring (links h) head (xs ++ a :: ys)) :
    Does (onList (del a)) h fun _ h' => (Ring (links h') head (xs ++ ys) ∧ links h' a = links h a ∧
      ∀ q ∉ head :: (xs ++ a :: ys), links h' q = links h q) ∧ elements h' = elements h := by
  refine does_onList ((PList.del_ring hr).mono fun _ g hg => ⟨hg, fun q hq => ?_, hg.2.2⟩) fun q hq => hr.used hq
  obtain ⟨hring, hnode, -⟩ := hg
  by_cases hqa : q = a
  · rw [hqa, hnode]
    exact hr.used (List.mem_cons_of_mem head (List.mem_append_right xs List.mem_cons_self))
  · have hperm : (head :: (xs ++ a :: ys)).Perm (a :: head :: (xs ++ ys)) := (List.perm_middle.cons head).trans (.swap a head _)
    exact hring.used ((List.mem_cons.mp (hperm.mem_iff.mp hq)).resolve_left hqa)

omit [DecidableEq P] in
/-- What an insertion does to a list that it makes longer. -/
theorem onList_insert {x : Program P (Links P) Unit} (hr : Ring (links h) head xs) (ha : ∃ c, links h a = some c) (hys : ys.Perm (a :: xs))
    (hx : Does x (links h) fun _ g => Ring g head ys ∧ ∀ q ∉ a :: head :: xs, g q = links h q) :
    Does (onList x) h fun _ h' => (Ring (links h') head ys ∧ ∀ q ∉ a :: head :: xs, links h' q = links h q) ∧ elements h' = elements h := by
  refine does_onList (hx.mono fun _ g hg => ⟨hg, fun q hq => ?_, hg.2⟩) fun q hq => ?_
  · have hperm : (a :: head :: xs).Perm (head :: ys) := (List.Perm.swap head a xs).trans (hys.symm.cons head)
    exact hg.1.used (hperm.mem_iff.mp hq)
  · rcases List.mem_cons.mp hq with rfl | hq
    · exact ha
    · exact hr.used hq

theorem onList_addBefore (hr : Ring (links h) head (xs ++ e :: ys)) (ha : ∃ c, links h a = some c) (hout : a ∉ head :: (xs ++ e :: ys)) :
    Does (onList (addBefore e a)) h fun _ h' => (Ring (links h') head (xs ++ a :: e :: ys) ∧
      ∀ q ∉ a :: head :: (xs ++ e :: ys), links h' q = links h q) ∧ elements h' = elements h :=
  onList_insert hr ha List.perm_middle (PList.addBefore_ring hr ha hout)

theorem onList_addAfter (hr : Ring (links h) head (xs ++ e :: ys)) (ha : ∃ c, links h a = some c) (hout : a ∉ head :: (xs ++ e :: ys)) :
    Does (onList (addAfter e a)) h fun _ h' => (Ring (links h') head (xs ++ e :: a :: ys) ∧
      ∀ q ∉ a :: head :: (xs ++ e :: ys), links h' q = links h q) ∧ elements h' = elements h := by
  refine onList_insert hr ha ?_ (PList.addAfter_ring hr ha hout)
  rw [List.append_cons, List.append_cons xs e ys]
  exact List.perm_middle

theorem does_setElement {f : Element → Element} {Q : Unit → Heap P (Node P) → Prop} (hr : elements h a = some r)
    (hq : ∀ h', links h' = links h → elements h' = Function.update (elements h) a (some (f r)) → Q () h') :
    Does (setElement a f) h Q := by
  obtain ⟨c, hc, rfl⟩ := Option.map_eq_some_iff.mp hr
  refine does_store.mpr ⟨c, hc, hq _ (funext fun q => ?_) (funext fun q => ?_)⟩
  · by_cases hqa : q = a
    · rw [hqa, links, parts, links, parts, Function.update_self, hc, Option.map_some, Option.map_some]
    · rw [links, parts, links, parts, update_other hqa]
  · by_cases hqa : q = a
    · rw [hqa, elements, parts, Function.update_self, Function.update_self, Option.map_some]
    · rw [elements, parts, update_other hqa, Function.update_of_ne hqa, elements, parts]

theorem does_alloc_node {c : Node P} {Q : Unit → Heap P (Node P) → Prop} (ha : links h a = none)
    (hq : ∀ h', links h' = Function.update (links h) a (some c.list) → elements h' = Function.update (elements h) a (some c.element) → Q () h') :
    Does (alloc a c) h Q := by
  have hnone : h a = none := Option.map_eq_none_iff.mp ha
  refine does_alloc.mpr ⟨hnone, hq _ (funext fun q => ?_) (funext fun q => ?_)⟩
  · by_cases hqa : q = a
    · rw [hqa, links, parts, Function.update_self, Function.update_self, Option.map_some]
    · rw [links, parts, update_other hqa, Function.update_of_ne hqa, links, parts]
  · by_cases hqa : q = a
    · rw [hqa, elements, parts, Function.update_self, Function.update_self, Option.map_some]
    · rw [elements, parts, update_other hqa, Function.update_of_ne hqa, elements, parts]

theorem does_free_node {Q : Unit → Heap P (Node P) → Prop} (ha : ∃ c, links h a = some c)
    (hq : ∀ h', (∀ q, q ≠ a → links h' q = links h q ∧ elements h' q = elements h q) → Q () h') : Does (free a) h Q := by
  obtain ⟨l, hl⟩ := ha
  obtain ⟨c, hc, -⟩ := Option.map_eq_some_iff.mp hl
  refine does_free.mpr ⟨c, hc, hq _ fun q hqa => ⟨?_, ?_⟩⟩
  · rw [links, parts, update_other hqa, links, parts]
  · rw [elements, parts, update_other hqa, elements, parts]

end Operations

/-! ### Plans -/

/-- The elements `xs` are not empty, and between `start` and `stop`, one behind the other. -/
def Within (h : Heap P Element) : ℕ → List P → ℕ → Prop
  | start, [], stop => start ≤ stop
  | start, x :: xs, stop => ∃ c, h x = some c ∧ start ≤ c.uploadoffset ∧ 0 < c.len ∧ Within h (c.uploadoffset + c.len) xs stop

/-- The elements `xs` are the bytes from `start` to `stop`, in order. -/
def Covers (h : Heap P Element) : ℕ → List P → ℕ → Prop
  | start, [], stop => start = stop
  | start, x :: xs, stop => ∃ c, h x = some c ∧ c.uploadoffset = start ∧ Covers h (start + c.len) xs stop

variable {g g' : Heap P Element} {start mid stop fuel : ℕ} {x : P}

theorem Within.ordered (hw : Within g start xs stop) : start ≤ stop := by
  induction xs generalizing start with
  | nil => exact hw
  | cons x xs ih =>
    obtain ⟨c, -, hle, -, hrest⟩ := hw
    have hrest := ih hrest
    omega

theorem Within.nil_of_full (hw : Within g stop xs stop) : xs = [] := by
  cases xs with
  | nil => rfl
  | cons x xs =>
    obtain ⟨c, -, hle, hpos, hrest⟩ := hw
    have hrest := hrest.ordered
    omega

theorem Within.congr (hw : Within g start xs stop) (heq : ∀ q ∈ xs, g' q = g q) : Within g' start xs stop := by
  induction xs generalizing start with
  | nil => exact hw
  | cons x xs ih =>
    obtain ⟨hhead, htail⟩ := List.forall_mem_cons.mp heq
    obtain ⟨c, hc, hle, hpos, hrest⟩ := hw
    exact ⟨c, hhead.trans hc, hle, hpos, ih hrest htail⟩

theorem Covers.congr (hc : Covers g start xs stop) (heq : ∀ q ∈ xs, g' q = g q) : Covers g' start xs stop := by
  induction xs generalizing start with
  | nil => exact hc
  | cons x xs ih =>
    obtain ⟨hhead, htail⟩ := List.forall_mem_cons.mp heq
    obtain ⟨c, hx, hstart, hrest⟩ := hc
    exact ⟨c, hhead.trans hx, hstart, ih hrest htail⟩

theorem Covers.append (hxs : Covers g start xs mid) (hys : Covers g mid ys stop) : Covers g start (xs ++ ys) stop := by
  induction xs generalizing start with
  | nil =>
    have hstart : start = mid := hxs
    rw [hstart]
    exact hys
  | cons x xs ih =>
    obtain ⟨c, hx, hstart, hrest⟩ := hxs
    exact ⟨c, hx, hstart, ih hrest⟩

/-- Bytes to upload. -/
def ToUpload (h : Heap P Element) (q : P) : Prop := ∃ c, h q = some c ∧ c.type = .upload ∧ c.off = c.uploadoffset

/-- `le` is to be uploaded, but for the blocks `xs` that were found. -/
structure Plan (h : Heap P (Node P)) (head rlist le : P) (before after xs fresh : List P) (r : Element) : Prop where
  plan : Ring (links h) head (before ++ le :: after)
  found : Ring (links h) rlist xs
  apart : ∀ q ∈ rlist :: xs, q ∉ head :: (before ++ le :: after)
  element : elements h le = some r
  upload : r.type = .upload
  off : r.off = r.uploadoffset
  fits : r.uploadoffset + r.len < 2 ^ 64
  within : Within (elements h) r.uploadoffset xs (r.uploadoffset + r.len)
  nodup : fresh.Nodup
  unused : ∀ n ∈ fresh, links h n = none
  enough : xs.length ≤ fresh.length

/-- In the plan `out` took the place of `le`. -/
structure Spliced (h h' : Heap P (Node P)) (head rlist le : P) (before after xs fresh : List P) (r : Element) (out : List P) : Prop where
  plan : Ring (links h') head (before ++ out ++ after)
  found : Ring (links h') rlist []
  covers : Covers (elements h') r.uploadoffset out (r.uploadoffset + r.len)
  contains : xs.Sublist out
  unchanged : ∀ q, q ≠ le → q ∉ fresh → elements h' q = elements h q
  rest : ∀ q ∈ out, q ∉ xs → ToUpload (elements h') q
  links : ∀ q ∉ (head :: (before ++ le :: after)) ++ (rlist :: xs) ++ fresh, links h' q = links h q

/-- What one block leaves: `out` is done, and `le'` is what is behind the block. -/
structure Advanced (h h' : Heap P (Node P)) (head rlist le : P) (before after xs fresh : List P) (r : Element) (x : P) (le' : P)
    (fresh' : List P) (r' : Element) (out : List P) : Prop where
  plan : Plan h' head rlist le' (before ++ out) after xs fresh' r'
  stop : r'.uploadoffset + r'.len = r.uploadoffset + r.len
  covers : Covers (elements h') r.uploadoffset out r'.uploadoffset
  contains : [x].Sublist out
  unchanged : ∀ q, q ≠ le → q ∉ fresh → elements h' q = elements h q
  rest : ∀ q ∈ out, q ≠ x → ToUpload (elements h') q
  settled : ∀ q ∈ out, q ≠ le' ∧ q ∉ fresh'
  kept : fresh'.Sublist fresh
  current : le' = le ∨ le' ∈ fresh
  inside : ∀ q ∈ out, q = le ∨ q = x
  links : ∀ q ∉ (head :: (before ++ le :: after)) ++ (rlist :: x :: xs) ++ fresh, Splice.links h' q = Splice.links h q

/-- The block `x` is out of its list, and not yet in the plan. -/
structure Taken (h h1 : Heap P (Node P)) (head rlist le : P) (before after xs : List P) (x : P) : Prop where
  plan : Ring (links h1) head (before ++ le :: after)
  found : Ring (links h1) rlist xs
  node : ∃ c, links h1 x = some c
  unchanged : elements h1 = elements h
  links : ∀ q ∉ rlist :: x :: xs, Splice.links h1 q = Splice.links h q

variable [DecidableEq P] {junk : Node P} {h1 : Heap P (Node P)}

theorem Plan.taken (hp : Plan h head rlist le before after (x :: xs) fresh r) :
    Does (onList (del x)) h fun _ h1 => Taken h h1 head rlist le before after xs x := by
  have hfound : Ring (links h) rlist ([] ++ x :: xs) := hp.found
  refine (onList_del hfound).mono fun _ h1 hdel => ?_
  obtain ⟨⟨hfound1, hx, hframe⟩, helements⟩ := hdel
  refine ⟨hp.plan.congr fun q hq => hframe q fun hmem => hp.apart q hmem hq, hfound1, ?_, helements, hframe⟩
  rw [hx]
  exact hp.found.used (List.mem_cons_of_mem rlist List.mem_cons_self)

omit [DecidableEq P] in
theorem Plan.not_fresh (hp : Plan h head rlist le before after xs fresh r) (hq : q ∈ head :: (before ++ le :: after) ∨ q ∈ rlist :: xs) :
    q ∉ fresh := by
  intro hmem
  obtain ⟨c, hc⟩ : ∃ c, links h q = some c := hq.elim (fun hq => hp.plan.used hq) fun hq => hp.found.used hq
  exact nomatch hc.symm.trans (hp.unused q hmem)

omit [DecidableEq P] in
theorem Plan.ne_le (hp : Plan h head rlist le before after xs fresh r) (hq : q ∈ rlist :: xs) : q ≠ le :=
  fun heq => hp.apart q hq (heq ▸ List.mem_cons_of_mem head (List.mem_append_right before List.mem_cons_self))

omit [DecidableEq P] in
/-- The other lists are out of the reach of an insertion in the plan. -/
theorem Plan.found_out (hp : Plan h head rlist le before after (x :: xs) fresh r) (hq : q ∈ rlist :: xs) :
    q ∉ x :: head :: (before ++ le :: after) := by
  have hqx : q ≠ x := fun heq => (List.nodup_cons.mp ((List.Perm.swap x rlist xs).nodup_iff.mp hp.found.nodup)).1 (heq ▸ hq)
  have hmem : q ∈ rlist :: x :: xs := (List.Perm.swap x rlist xs).mem_iff.mpr (List.mem_cons_of_mem x hq)
  exact List.not_mem_cons_of_ne_of_not_mem hqx (hp.apart q hmem)

omit [DecidableEq P] in
theorem ne_of_out (hq : q ∉ x :: head :: (before ++ le :: after)) : q ≠ le :=
  fun heq => hq (heq ▸ List.mem_cons_of_mem x (List.mem_cons_of_mem head (List.mem_append_right before List.mem_cons_self)))

omit [DecidableEq P] in
/-- The plan with `x` behind `le`. -/
theorem perm_behind : (head :: (before ++ le :: x :: after)).Perm (x :: head :: (before ++ le :: after)) := by
  rw [List.append_cons, List.append_cons before le after]
  exact (List.perm_middle.cons head).trans (.swap x head _)

omit [DecidableEq P] in
theorem out_of_all (hq : q ∉ (head :: (before ++ le :: after)) ++ (rlist :: x :: xs) ++ fresh) :
    q ∉ x :: head :: (before ++ le :: after) ∧ q ∉ rlist :: x :: xs ∧ q ∉ fresh := by
  obtain ⟨hlists, hfresh⟩ := not_or.mp (List.mem_append.not.mp hq)
  obtain ⟨hplan, hfound⟩ := not_or.mp (List.mem_append.not.mp hlists)
  have hqx : q ≠ x := fun heq => hfound (heq ▸ List.mem_cons_of_mem rlist List.mem_cons_self)
  exact ⟨List.not_mem_cons_of_ne_of_not_mem hqx hplan, hfound, hfresh⟩

omit [DecidableEq P] in
theorem Plan.fresh_out {n : P} (hp : Plan h head rlist le before after (x :: xs) fresh r) (hn : n ∈ fresh) :
    n ∉ x :: head :: (before ++ le :: after) ∧ n ∉ rlist :: x :: xs := by
  have hfound : n ∉ rlist :: x :: xs := fun hmem => hp.not_fresh (.inr hmem) hn
  have hnx : n ≠ x := fun heq => hfound (heq ▸ List.mem_cons_of_mem rlist List.mem_cons_self)
  exact ⟨List.not_mem_cons_of_ne_of_not_mem hnx fun hmem => hp.not_fresh (.inl hmem) hn, hfound⟩

/-- A block that is the whole of `le`. -/
theorem whole_spec (hp : Plan h head rlist le before after (x :: xs) fresh r) (ht : Taken h h1 head rlist le before after xs x)
    (hur : elements h x = some ur) (hfull : ur.len = r.len) :
    Does (do
      onList (addAfter le x)
      onList (del le)
      free le
      pure (le, fresh)) h1 fun _ h' => xs = [] ∧ ∃ out, Spliced h h' head rlist le before after [x] fresh r out := by
  obtain ⟨ur', hur', hstart, hpos, hrest⟩ := hp.within
  obtain rfl := Option.some.inj (hur'.symm.trans hur)
  have hend := hrest.ordered
  have hxs : xs = [] := by
    rw [show ur'.uploadoffset + ur'.len = r.uploadoffset + r.len by omega] at hrest
    exact hrest.nil_of_full
  subst hxs
  have hx : x ∈ rlist :: [x] := List.mem_cons_of_mem rlist List.mem_cons_self
  simp only [does_bind, does_pure]
  refine (onList_addAfter ht.plan ht.node (hp.apart x hx)).mono fun _ h2 hadd => ?_
  obtain ⟨⟨hplan2, hframe2⟩, hel2⟩ := hadd
  refine (onList_del hplan2).mono fun _ h3 hdel => ?_
  obtain ⟨⟨hplan3, hle3, hframe3⟩, hel3⟩ := hdel
  have hle : ∃ c, links h3 le = some c := by
    rw [hle3]
    exact hplan2.used (List.mem_cons_of_mem head (List.mem_append_right before List.mem_cons_self))
  have hperm : (head :: (before ++ le :: x :: after)).Perm (le :: head :: (before ++ x :: after)) :=
    (List.perm_middle.cons head).trans (.swap le head _)
  have helements : elements h3 = elements h := hel3.trans (hel2.trans ht.unchanged)
  refine does_free_node hle fun h' hkept => ⟨trivial, [x], ?_, ?_, ?_, .refl [x], fun q hq _ => ?_, fun q hq hqx => ?_, fun q hq => ?_⟩
  · rw [List.append_assoc, List.singleton_append]
    refine hplan3.congr fun q hq => (hkept q fun heq => ?_).1
    exact (List.nodup_cons.mp (hperm.nodup_iff.mp hplan2.nodup)).1 (heq ▸ hq)
  · refine ht.found.congr fun q hq => ?_
    have hout := hp.found_out hq
    rw [(hkept q (ne_of_out hout)).1, hframe3 q (perm_behind.mem_iff.not.mpr hout), hframe2 q hout]
  · refine ⟨ur', ?_, by omega, ?_⟩
    · rw [(hkept x (hp.ne_le hx)).2, helements, hur]
    · have hstop : r.uploadoffset + ur'.len = r.uploadoffset + r.len := by omega
      exact hstop
  · rw [(hkept q hq).2, helements]
  · exact absurd hq hqx
  · obtain ⟨hplan, hfound, -⟩ := out_of_all hq
    rw [(hkept q (ne_of_out hplan)).1, hframe3 q (perm_behind.mem_iff.not.mpr hplan), hframe2 q hplan, ht.links q hfound]

/-- A block at the start of `le`. -/
theorem start_spec (hp : Plan h head rlist le before after (x :: xs) fresh r) (ht : Taken h h1 head rlist le before after xs x)
    (hur : elements h x = some ur) (hpart : ur.len ≠ r.len) (hfirst : ur.uploadoffset = r.uploadoffset) :
    Does (do
      onList (addBefore le x)
      setElement le fun e => e.cutStart ur
      pure (le, fresh)) h1 fun s h' => ∃ r' out, Advanced h h' head rlist le before after xs fresh r x s.1 s.2 r' out := by
  obtain ⟨ur', hur', hstart, hpos, hrest⟩ := hp.within
  obtain rfl := Option.some.inj (hur'.symm.trans hur)
  have hend := hrest.ordered
  have hfits := hp.fits
  have hoff := hp.off
  have hx : x ∈ rlist :: x :: xs := List.mem_cons_of_mem rlist List.mem_cons_self
  simp only [does_bind, does_pure]
  refine (onList_addBefore ht.plan ht.node (hp.apart x hx)).mono fun _ h2 hadd => ?_
  obtain ⟨⟨hplan2, hframe2⟩, hel2⟩ := hadd
  have hel := hel2.trans ht.unchanged
  have hle : elements h2 le = some r := by rw [hel, hp.element]
  refine does_setElement hle fun h' hlinks hel' => ?_
  have hlen : (r.cutStart ur').len = r.len - ur'.len := sub64_of_le (by omega) (by omega)
  have hoffset : (r.cutStart ur').uploadoffset = r.uploadoffset + ur'.len := u64_of_lt (by omega)
  have hoff' : (r.cutStart ur').off = r.uploadoffset + ur'.len := by
    rw [Element.cutStart, hoff]
    exact u64_of_lt (by omega)
  have hkept : ∀ q, q ≠ le → elements h' q = elements h q := fun q hq => by rw [hel', Function.update_of_ne hq, hel]
  have hfound2 : ∀ q ∈ rlist :: xs, links h' q = links h1 q := fun q hq => by rw [hlinks, hframe2 q (hp.found_out hq)]
  refine ⟨r.cutStart ur', [x], ⟨?_, ht.found.congr hfound2, fun q hq => ?_, ?_, hp.upload, hoff'.trans hoffset.symm, ?_, ?_, hp.nodup,
    fun n hn => ?_, ?_⟩, ?_, ⟨ur', ?_, hfirst, hoffset.symm⟩, .refl [x], fun q hq _ => hkept q hq, fun q hq hqx => ?_, fun q hq => ?_,
    .refl fresh, .inl rfl, fun q hq => .inr (List.mem_singleton.mp hq), fun q hq => ?_⟩
  · rw [hlinks, List.append_assoc, List.singleton_append]
    exact hplan2
  · rw [List.append_assoc, List.singleton_append]
    have hperm : (head :: (before ++ x :: le :: after)).Perm (x :: head :: (before ++ le :: after)) :=
      (List.perm_middle.cons head).trans (.swap x head _)
    exact hperm.mem_iff.not.mpr (hp.found_out hq)
  · rw [hel', Function.update_self]
  · omega
  · rw [hoffset, hlen, ← hfirst, show ur'.uploadoffset + ur'.len + (r.len - ur'.len) = r.uploadoffset + r.len by omega]
    exact hrest.congr fun q hq => hkept q (ne_of_out (hp.found_out (List.mem_cons_of_mem rlist hq)))
  · obtain ⟨hplan, hfound⟩ := hp.fresh_out hn
    rw [hlinks, hframe2 n hplan, ht.links n hfound, hp.unused n hn]
  · have henough := hp.enough
    simp only [List.length_cons] at henough
    omega
  · omega
  · rw [hkept x (hp.ne_le hx), hur]
  · exact absurd (List.mem_singleton.mp hq) hqx
  · rw [List.mem_singleton.mp hq]
    exact ⟨hp.ne_le hx, hp.not_fresh (.inr hx)⟩
  · obtain ⟨hplan, hfound, -⟩ := out_of_all hq
    rw [hlinks, hframe2 q hplan, ht.links q hfound]

/-- A block at the end of `le`. -/
theorem end_spec (hp : Plan h head rlist le before after (x :: xs) fresh r) (ht : Taken h h1 head rlist le before after xs x)
    (hur : elements h x = some ur) (hpart : ur.len ≠ r.len) (hlast : ur.stop = r.stop) :
    Does (do
      onList (addAfter le x)
      setElement le fun e => { e with len := sub64 e.len ur.len }
      pure (le, fresh)) h1 fun _ h' => xs = [] ∧ ∃ out, Spliced h h' head rlist le before after [x] fresh r out := by
  obtain ⟨ur', hur', hstart, hpos, hrest⟩ := hp.within
  obtain rfl := Option.some.inj (hur'.symm.trans hur)
  have hend := hrest.ordered
  have hfits := hp.fits
  rw [Element.stop, Element.stop, u64_of_lt (by omega), u64_of_lt hfits] at hlast
  have hxs : xs = [] := by
    rw [hlast] at hrest
    exact hrest.nil_of_full
  subst hxs
  have hx : x ∈ rlist :: [x] := List.mem_cons_of_mem rlist List.mem_cons_self
  simp only [does_bind, does_pure]
  refine (onList_addAfter ht.plan ht.node (hp.apart x hx)).mono fun _ h2 hadd => ?_
  obtain ⟨⟨hplan2, hframe2⟩, hel2⟩ := hadd
  have hel := hel2.trans ht.unchanged
  have hle : elements h2 le = some r := by rw [hel, hp.element]
  refine does_setElement hle fun h' hlinks hel' => ?_
  have hlen : sub64 r.len ur'.len = r.len - ur'.len := sub64_of_le (by omega) (by omega)
  rw [hlen] at hel'
  have hkept : ∀ q, q ≠ le → elements h' q = elements h q := fun q hq => by rw [hel', Function.update_of_ne hq, hel]
  have hle' : elements h' le = some { r with len := r.len - ur'.len } := by rw [hel', Function.update_self]
  have hcovers : Covers (elements h') r.uploadoffset [le, x] (r.uploadoffset + r.len) := by
    refine ⟨_, hle', rfl, ur', (hkept x (hp.ne_le hx)).trans hur, by dsimp only; omega, ?_⟩
    have hstop : r.uploadoffset + (r.len - ur'.len) + ur'.len = r.uploadoffset + r.len := by omega
    exact hstop
  refine ⟨trivial, [le, x], ?_, ht.found.congr fun q hq => ?_, hcovers, .cons le (.refl [x]), fun q hq _ => hkept q hq, fun q hq hqx => ?_,
    fun q hq => ?_⟩
  · rw [hlinks, List.append_assoc]
    exact hplan2
  · rw [hlinks, hframe2 q (hp.found_out hq)]
  · rcases List.mem_cons.mp hq with rfl | hq
    · exact ⟨_, hle', hp.upload, hp.off⟩
    · exact absurd hq hqx
  · obtain ⟨hplan, hfound, -⟩ := out_of_all hq
    rw [hlinks, hframe2 q hplan, ht.links q hfound]

/-- A block in the middle of `le`. -/
theorem middle_spec {n : P} {fresh' : List P} (hp : Plan h head rlist le before after (x :: xs) (n :: fresh') r)
    (ht : Taken h h1 head rlist le before after xs x) (hur : elements h x = some ur) (hfirst : ur.uploadoffset ≠ r.uploadoffset)
    (hlast : ur.stop ≠ r.stop) :
    Does (do
      alloc n { junk with element := junk.element.behind r ur }
      setElement le fun e => { e with len := sub64 ur.uploadoffset e.uploadoffset }
      onList (addAfter le x)
      onList (addAfter x n)
      pure (n, fresh')) h1 fun s h' => ∃ r' out, Advanced h h' head rlist le before after xs (n :: fresh') r x s.1 s.2 r' out := by
  obtain ⟨ur', hur', hstart, hpos, hrest⟩ := hp.within
  obtain rfl := Option.some.inj (hur'.symm.trans hur)
  have hend := hrest.ordered
  have hfits := hp.fits
  rw [Element.stop, Element.stop, u64_of_lt (by omega), u64_of_lt hfits] at hlast
  have hx : x ∈ rlist :: x :: xs := List.mem_cons_of_mem rlist List.mem_cons_self
  obtain ⟨hnplan, hnfound⟩ := hp.fresh_out (List.mem_cons_self (a := n))
  have hnle : n ≠ le := ne_of_out hnplan
  have hnone : links h1 n = none := by rw [ht.links n hnfound, hp.unused n List.mem_cons_self]
  simp only [does_bind, does_pure]
  refine does_alloc_node hnone fun h2 hlinks2 hel2 => ?_
  have hle2 : elements h2 le = some r := by rw [hel2, Function.update_of_ne hnle.symm, ht.unchanged, hp.element]
  refine does_setElement hle2 fun h3 hlinks3 hel3 => ?_
  have hframe3 : ∀ q, q ≠ n → links h3 q = links h1 q := fun q hq => by rw [hlinks3, hlinks2, Function.update_of_ne hq]
  have hplan3 := ht.plan.congr fun q hq => hframe3 q fun heq => hnplan (heq ▸ List.mem_cons_of_mem x hq)
  have hxn : x ≠ n := fun heq => hnplan (heq ▸ List.mem_cons_self)
  have hnode3 : ∃ c, links h3 x = some c := by
    rw [hframe3 x hxn]
    exact ht.node
  refine (onList_addAfter hplan3 hnode3 (hp.apart x hx)).mono fun _ h4 hadd4 => ?_
  obtain ⟨⟨hplan4, hframe4⟩, hel4⟩ := hadd4
  have hplan4' : Ring (links h4) head ((before ++ [le]) ++ x :: after) := by
    rw [List.append_assoc]
    exact hplan4
  have hnode4 : ∃ c, links h4 n = some c := by
    rw [hframe4 n hnplan, hlinks3, hlinks2, Function.update_self]
    exact ⟨_, rfl⟩
  have hnout : n ∉ head :: ((before ++ [le]) ++ x :: after) := by
    rw [List.append_assoc]
    exact perm_behind.mem_iff.not.mpr hnplan
  refine (onList_addAfter hplan4' hnode4 hnout).mono fun _ h' hadd => ?_
  obtain ⟨⟨hplan', hframe'⟩, hel'⟩ := hadd
  have hel : elements h' = elements h3 := hel'.trans hel4
  have hkept : ∀ q, q ≠ le → q ≠ n → elements h' q = elements h q := fun q hq hqn => by
    rw [hel, hel3, Function.update_of_ne hq, hel2, Function.update_of_ne hqn, ht.unchanged]
  have hle' : elements h' le = some { r with len := ur'.uploadoffset - r.uploadoffset } := by
    rw [hel, hel3, Function.update_self, sub64_of_le hstart (by omega)]
  have hn' : elements h' n = some (junk.element.behind r ur') := by
    rw [hel, hel3, Function.update_of_ne hnle, hel2, Function.update_self]
  have hoffset : (junk.element.behind r ur').uploadoffset = ur'.uploadoffset + ur'.len := u64_of_lt (by omega)
  have hlen : (junk.element.behind r ur').len = r.len - (ur'.uploadoffset - r.uploadoffset) - ur'.len := by
    have hbefore : sub64 r.len (ur'.uploadoffset - r.uploadoffset) = r.len - (ur'.uploadoffset - r.uploadoffset) :=
      sub64_of_le (by omega) (by omega)
    rw [Element.behind, sub64_of_le hstart (by omega), hbefore, sub64_of_le (by omega) (by omega)]
  have hperm : (head :: ((before ++ [le]) ++ x :: n :: after)).Perm (n :: x :: head :: (before ++ le :: after)) := by
    refine (perm_behind.trans (.cons n ?_))
    rw [List.append_assoc]
    exact perm_behind
  have hframe : ∀ q ∉ x :: head :: (before ++ le :: after), q ≠ n → links h' q = links h1 q := fun q hq hqn => by
    have hq' : q ∉ n :: head :: ((before ++ [le]) ++ x :: after) := fun hmem => by
      rw [List.append_assoc] at hmem
      exact hq (perm_behind.mem_iff.mp ((List.mem_cons.mp hmem).resolve_left hqn))
    rw [hframe' q hq', hframe4 q hq, hframe3 q hqn]
  have hfoundn : ∀ q ∈ rlist :: xs, q ≠ n := fun q hq heq =>
    hnfound (heq ▸ (List.Perm.swap x rlist xs).mem_iff.mpr (List.mem_cons_of_mem x hq))
  obtain ⟨hnfresh, hnodup⟩ := List.nodup_cons.mp hp.nodup
  refine ⟨junk.element.behind r ur', [le, x], ⟨?_, ht.found.congr fun q hq => hframe q (hp.found_out hq) (hfoundn q hq), fun q hq => ?_, hn',
    rfl, rfl, ?_, ?_, hnodup, fun m hm => ?_, ?_⟩, ?_, ⟨_, hle', rfl, ur', ?_, ?_, ?_⟩, .cons le (.refl [x]), fun q hq hqn => ?_,
    fun q hq hqx => ?_, fun q hq => ?_, List.sublist_cons_self n fresh', .inr List.mem_cons_self,
    fun q hq => (List.mem_cons.mp hq).imp_right List.mem_singleton.mp, fun q hq => ?_⟩
  · rw [List.append_assoc] at hplan' ⊢
    exact hplan'
  · have hout : q ∉ head :: ((before ++ [le]) ++ x :: n :: after) :=
      hperm.mem_iff.not.mpr (List.not_mem_cons_of_ne_of_not_mem (hfoundn q hq) (hp.found_out hq))
    rw [List.append_assoc] at hout ⊢
    exact hout
  · omega
  · have hstop : (junk.element.behind r ur').uploadoffset + (junk.element.behind r ur').len = r.uploadoffset + r.len := by omega
    rw [hstop, hoffset]
    refine hrest.congr fun q hq => ?_
    have hq := List.mem_cons_of_mem rlist hq
    exact hkept q (ne_of_out (hp.found_out hq)) (hfoundn q hq)
  · obtain ⟨hplan, hfound⟩ := hp.fresh_out (List.mem_cons_of_mem n hm)
    rw [hframe m hplan fun heq => hnfresh (heq ▸ hm), ht.links m hfound, hp.unused m (List.mem_cons_of_mem n hm)]
  · have henough := hp.enough
    simp only [List.length_cons] at henough
    omega
  · omega
  · rw [hkept x (hp.ne_le hx) hxn, hur]
  · dsimp only
    omega
  · have hmid : r.uploadoffset + (ur'.uploadoffset - r.uploadoffset) + ur'.len = (junk.element.behind r ur').uploadoffset := by omega
    exact hmid
  · obtain ⟨hqn, -⟩ := not_or.mp (List.mem_cons.not.mp hqn)
    exact hkept q hq hqn
  · rcases List.mem_cons.mp hq with rfl | hq
    · exact ⟨_, hle', hp.upload, hp.off⟩
    · exact absurd (List.mem_singleton.mp hq) hqx
  · have hused : q ∈ head :: (before ++ le :: after) ∨ q ∈ rlist :: x :: xs := by
      rcases List.mem_cons.mp hq with rfl | hq
      · exact .inl (List.mem_cons_of_mem head (List.mem_append_right before List.mem_cons_self))
      · rw [List.mem_singleton.mp hq]
        exact .inr hx
    exact not_or.mp (List.mem_cons.not.mp (hp.not_fresh hused))
  · obtain ⟨hplan, hfound, hfresh⟩ := out_of_all hq
    rw [hframe q hplan fun heq => hfresh (heq ▸ List.mem_cons_self), ht.links q hfound]

theorem mergeOne_spec (hp : Plan h head rlist le before after (x :: xs) fresh r) :
    Does (mergeOne junk le x fresh) h fun s h' =>
      (xs = [] ∧ ∃ out, Spliced h h' head rlist le before after [x] fresh r out) ∨
      ∃ r' out, Advanced h h' head rlist le before after xs fresh r x s.1 s.2 r' out := by
  obtain ⟨ur, hur, -⟩ := hp.within
  obtain ⟨c, hc, rfl⟩ := Option.map_eq_some_iff.mp hur
  rw [mergeOne, does_bind]
  refine does_load.mpr ⟨c, hc, ?_⟩
  rw [does_bind]
  refine hp.taken.mono fun _ h1 ht => ?_
  obtain ⟨d, hd, rfl⟩ : ∃ d, h1 le = some d ∧ d.element = r := by
    have hle := hp.element
    rw [← ht.unchanged] at hle
    exact Option.map_eq_some_iff.mp hle
  rw [does_bind]
  refine does_load.mpr ⟨d, hd, ?_⟩
  dsimp only
  split_ifs with hfull hfirst hlast
  · exact (whole_spec hp ht hur hfull).mono fun _ h' hdone => .inl hdone
  · exact (start_spec hp ht hur hfull hfirst).mono fun _ h' hmore => .inr hmore
  · exact (end_spec hp ht hur hfull hlast).mono fun _ h' hdone => .inl hdone
  · cases fresh with
    | nil => exact absurd hp.enough (by simp only [List.length_cons, List.length_nil]; omega)
    | cons n fresh => exact (middle_spec hp ht hur hfirst hlast).mono fun _ h' hmore => .inr hmore

/-! ### The loop -/

omit [DecidableEq P] in
/-- A plan without blocks stays as it is. -/
theorem Plan.done (hp : Plan h head rlist le before after [] fresh r) : Spliced h h head rlist le before after [] fresh r [le] := by
  refine ⟨?_, hp.found, ⟨r, hp.element, rfl, rfl⟩, List.nil_sublist _, fun _ _ _ => rfl, fun q hq _ => ?_, fun _ _ => rfl⟩
  · rw [List.append_assoc]
    exact hp.plan
  · rw [List.mem_singleton.mp hq]
    exact ⟨r, hp.element, hp.upload, hp.off⟩

omit [DecidableEq P] in
/-- What the first block leaves, then the others. -/
theorem Advanced.spliced {le' : P} {fresh' : List P} {r' : Element} {out out' : List P}
    (ha : Advanced h h1 head rlist le before after xs fresh r x le' fresh' r' out)
    (hs : Spliced h1 h' head rlist le' (before ++ out) after xs fresh' r' out') :
    Spliced h h' head rlist le before after (x :: xs) fresh r (out ++ out') := by
  have hsettled : ∀ q ∈ out, elements h' q = elements h1 q := fun q hq =>
    hs.unchanged q (ha.settled q hq).1 (ha.settled q hq).2
  refine ⟨?_, hs.found, ?_, ?_, fun q hq hqf => ?_, fun q hq hqx => ?_, fun q hq => ?_⟩
  · rw [← List.append_assoc]
    exact hs.plan
  · rw [← ha.stop]
    exact (ha.covers.congr hsettled).append hs.covers
  · exact ha.contains.append hs.contains
  · have hqle : q ≠ le' := fun heq => ha.current.elim (fun hle => hq (heq.trans hle)) fun hle => hqf (heq ▸ hle)
    rw [hs.unchanged q hqle fun hmem => hqf (ha.kept.subset hmem), ha.unchanged q hq hqf]
  · obtain ⟨hqx, hqxs⟩ := not_or.mp (List.mem_cons.not.mp hqx)
    rcases List.mem_append.mp hq with hq | hq
    · obtain ⟨c, hc, hkind⟩ := ha.rest q hq hqx
      exact ⟨c, (hsettled q hq).trans hc, hkind⟩
    · exact hs.rest q hq hqxs
  · obtain ⟨hplan, hfound, hfresh⟩ := out_of_all hq
    have hqle : q ≠ le' := fun heq => ha.current.elim (fun hle => ne_of_out hplan (heq.trans hle)) fun hle => hfresh (heq ▸ hle)
    have hqout : q ∉ out := fun hmem => (ha.inside q hmem).elim (ne_of_out hplan) fun hqx => hplan (hqx ▸ List.mem_cons_self)
    rw [hs.links q fun hmem => ?_, ha.links q hq]
    simp only [List.mem_append, List.mem_cons, not_or] at hplan hfound hmem
    rcases hmem with ((hmem | (hmem | hmem) | hmem | hmem) | hmem | hmem) | hmem
    · exact hplan.2.1 hmem
    · exact hplan.2.2.1 hmem
    · exact hqout hmem
    · exact hqle hmem
    · exact hplan.2.2.2.2 hmem
    · exact hfound.1 hmem
    · exact hfound.2.2 hmem
    · exact hfresh (ha.kept.subset hmem)

theorem mergeFrom_end {lb : P} : mergeFrom junk rlist fuel le rlist lb fresh = pure () := by
  rw [mergeFrom.eq_def]
  exact if_pos rfl

omit [DecidableEq P] in
/-- The next `lb`. -/
theorem next_found (hr : Ring (links h) rlist xs) : ∃ c, h (firstOf xs rlist) = some c ∧ c.list.next = some (firstOf xs.tail rlist) := by
  have hnext : ∃ l, links h (firstOf xs rlist) = some l ∧ l.next = some (firstOf xs.tail rlist) := by
    cases xs with
    | nil => exact hr.segment.linked_first.1
    | cons x xs => exact hr.segment.2.linked_first.1
  obtain ⟨l, hl, hnext⟩ := hnext
  obtain ⟨c, hc, rfl⟩ := Option.map_eq_some_iff.mp hl
  exact ⟨c, hc, hnext⟩

theorem mergeFrom_spec {lb : P} (hp : Plan h head rlist le before after xs fresh r) (hlb : lb = firstOf xs.tail rlist) (hfuel : xs.length ≤ fuel) :
    Does (mergeFrom junk rlist fuel le (firstOf xs rlist) lb fresh) h fun _ h' =>
      ∃ out, Spliced h h' head rlist le before after xs fresh r out := by
  induction xs generalizing h le lb before fresh r fuel with
  | nil =>
    rw [show firstOf [] rlist = rlist from rfl, mergeFrom_end, does_pure]
    exact ⟨[le], hp.done⟩
  | cons x xs ih =>
    have hx : x ≠ rlist := (List.ne_of_not_mem_cons (List.nodup_cons.mp hp.found.nodup).1).symm
    obtain ⟨fuel, rfl⟩ : ∃ n, fuel = n + 1 := ⟨fuel - 1, by simp only [List.length_cons] at hfuel; omega⟩
    rw [firstOf_cons, mergeFrom, if_neg hx]
    simp only [does_bind]
    have hlb : lb = firstOf xs rlist := hlb
    subst hlb
    refine mergeOne_spec hp |>.mono fun s h1 hone => ?_
    rcases hone with ⟨rfl, out, hs⟩ | ⟨r', out, ha⟩
    · obtain ⟨c, hc, hnext⟩ := next_found hs.found
      simp only [does_load, hc, Option.some.injEq, exists_eq_left', hnext, does_deref_some]
      rw [show firstOf [] rlist = rlist from rfl, mergeFrom_end, does_pure]
      exact ⟨out, hs⟩
    · obtain ⟨c, hc, hnext⟩ := next_found ha.plan.found
      simp only [does_load, hc, Option.some.injEq, exists_eq_left', hnext, does_deref_some]
      refine (ih ha.plan rfl (Nat.le_of_succ_le_succ hfuel)).mono fun _ h' hrest => ?_
      obtain ⟨out', hs⟩ := hrest
      exact ⟨out ++ out', ha.spliced hs⟩

/-- `merge_list_to_element` puts the blocks into the plan, and keeps what it covers. -/
theorem mergeListToElement_splices (hp : Plan h head rlist le before after xs fresh r) (hfuel : xs.length ≤ fuel) :
    Does (mergeListToElement junk fuel fresh le rlist) h fun _ h' => ∃ out, Spliced h h' head rlist le before after xs fresh r out ∧
      ∀ q ∈ xs, elements h' q = elements h q := by
  rw [mergeListToElement]
  have hhead : ∃ c, h rlist = some c ∧ c.list.next = some (firstOf xs rlist) := by
    obtain ⟨l, hl, hnext⟩ := hp.found.segment.linked_first.1
    obtain ⟨c, hc, rfl⟩ := Option.map_eq_some_iff.mp hl
    exact ⟨c, hc, hnext⟩
  obtain ⟨c, hc, hcnext⟩ := hhead
  obtain ⟨d, hd, hdnext⟩ := next_found hp.found
  simp only [does_bind, does_load, hc, hd, Option.some.injEq, exists_eq_left', hcnext, hdnext, does_deref_some]
  refine (mergeFrom_spec hp rfl hfuel).mono fun _ h' hmerged => ?_
  obtain ⟨out, hs⟩ := hmerged
  refine ⟨out, hs, fun q hq => ?_⟩
  have hq := List.mem_cons_of_mem rlist hq
  exact hs.unchanged q (hp.ne_le hq) (hp.not_fresh (.inr hq))

/-- An upload of 100 bytes, the node 1, and a block of 20 bytes in the middle of it, the node 3. -/
def middleBlock : Heap ℕ (Node ℕ)
  | 0 => some ⟨⟨some 1, some 1⟩, ⟨⟨0, 0, 0⟩, (0, 0), .last, 0⟩⟩
  | 1 => some ⟨⟨some 0, some 0⟩, ⟨⟨0, 0, 100⟩, (0, 0), .upload, 0⟩⟩
  | 2 => some ⟨⟨some 3, some 3⟩, ⟨⟨0, 0, 0⟩, (0, 0), .last, 0⟩⟩
  | 3 => some ⟨⟨some 2, some 2⟩, ⟨⟨40, 512, 20⟩, (7, 8), .copyFile, 0⟩⟩
  | _ => none

theorem mergeListToElement_splices_middle :
    Does (mergeListToElement ⟨⟨none, none⟩, ⟨⟨0, 0, 0⟩, (0, 0), .last, 0⟩⟩ 1 [4] 1 2) middleBlock fun _ h' =>
      ∃ out, Spliced middleBlock h' 0 2 1 [] [] [3] [4] ⟨⟨0, 0, 100⟩, (0, 0), .upload, 0⟩ out ∧
        ∀ q ∈ [3], elements h' q = elements middleBlock q := by
  have hplan : Segment (links middleBlock) 0 [1] 0 := ⟨⟨⟨_, rfl, rfl⟩, _, rfl, rfl⟩, ⟨_, rfl, rfl⟩, _, rfl, rfl⟩
  have hfound : Segment (links middleBlock) 2 [3] 2 := ⟨⟨⟨_, rfl, rfl⟩, _, rfl, rfl⟩, ⟨_, rfl, rfl⟩, _, rfl, rfl⟩
  have hwithin : Within (elements middleBlock) 0 [3] 100 := ⟨_, rfl, Nat.zero_le _, by decide, by unfold Within; decide⟩
  exact mergeListToElement_splices ⟨⟨hplan, by decide⟩, ⟨hfound, by decide⟩, by decide, rfl, rfl, rfl, by decide, hwithin, by decide,
    fun n hn => by rw [List.mem_singleton.mp hn]; rfl, le_rfl⟩ le_rfl

end Pclsync.Delta.Splice
