import Pclsync.Lists.Collected

/-! The block of `psync_list_builder_finalize`: when it is made of what was put in. -/
namespace Pclsync.Lists
open Lib.Chunks

variable {b : Builder} {base : ℕ} {row : Row} {rows : List Row}

/-! ### Reading the block -/

theorem length_readAt {strings bytes : List UInt8} {position length : ℕ} (h : readAt base strings position length = some bytes) :
    bytes.length = length := by
  rw [readAt] at h
  split_ifs at h with hfits
  obtain rfl := Option.some.inj h
  rw [List.length_take, List.length_drop, Nat.min_eq_left (Nat.le_sub_of_add_le' hfits.2)]

theorem readAt_append {strings bytes : List UInt8} {position length : ℕ} (h : readAt base strings position length = some bytes) (more : List UInt8) :
    readAt base (strings ++ more) position length = some bytes := by
  rw [readAt] at h ⊢
  split_ifs at h with hfits
  obtain rfl := Option.some.inj h
  rw [if_pos ⟨hfits.1, by rw [List.length_append]; exact Nat.le_add_right_of_le hfits.2⟩,
    List.drop_append_of_le_length (Nat.le_of_add_right_le hfits.2),
    List.take_append_of_le_length (by rw [List.length_drop]; exact Nat.le_sub_of_add_le' hfits.2)]

theorem readAt_last (base : ℕ) (strings bytes : List UInt8) : readAt base (strings ++ bytes) (base + strings.length) bytes.length = some bytes := by
  rw [readAt, Nat.add_sub_cancel_left, if_pos ⟨Nat.le_add_right _ _, by rw [List.length_append]⟩, List.drop_left, List.take_length]

theorem Builder.length_source {strings bytes : List UInt8} {cell : Cell} {length : ℕ} (h : b.source base strings cell length = some bytes) :
    bytes.length = length := by
  cases cell with
  | block position => exact length_readAt h
  | chunk place => exact Arena.length_read h
  | given field =>
    cases field with
    | data value => cases h
    | text text =>
      rw [source, read] at h
      · split_ifs at h with hfits
        obtain rfl := Option.some.inj h
        rw [List.length_take, List.length_append, List.length_singleton, Nat.min_eq_left hfits]
      · intro v hv
        cases hv

/-! ### One element -/

/-- The numbers of a string, as `psync_list_builder_finalize` takes them. -/
def Builder.relocates (b : Builder) (base : ℕ) (row : Row) (out : Element × List UInt8) (offset : ℕ) : Option (Element × List UInt8) :=
  b.relocate base out (offset % 2 ^ 32) (((row.text offset).length + 1) % 2 ^ 32)

/-- The cursor stays in step with the strings of an element. -/
theorem Builder.replay_eq (b : Builder) (base : ℕ) {cursor : Cursor ℕ} {offsets tail : List ℕ} (hready : cursor.Ready) (hrest : cursor.rest = offsets.flatMap row.pair ++ tail)
    (out : Element × List UInt8) : ∃ cursor' : Cursor ℕ, cursor'.Ready ∧ cursor'.rest = tail ∧
      b.replay base offsets.length cursor out = (offsets.foldlM (b.relocates base row) out).map fun out => (cursor', out) := by
  induction offsets generalizing cursor out with
  | nil => exact ⟨cursor, hready, hrest, rfl⟩
  | cons offset offsets ih =>
    rw [List.flatMap_cons, Row.pair] at hrest
    obtain ⟨c₁, hpop₁, hrest₁, hready₁⟩ := Cursor.pop_spec hready hrest
    obtain ⟨c₂, hpop₂, hrest₂, hready₂⟩ := Cursor.pop_spec hready₁ hrest₁
    have hreplay : b.replay base (offsets.length + 1) cursor out =
        (b.relocates base row out offset).bind fun out => b.replay base offsets.length c₂ out := by
      rw [replay, hpop₁]
      show c₁.pop.bind _ = _
      rw [hpop₂]
      rfl
    cases hout : b.relocates base row out offset with
    | none => exact ⟨(ih hready₂ hrest₂ out).choose, (ih hready₂ hrest₂ out).choose_spec.1, (ih hready₂ hrest₂ out).choose_spec.2.1, by
        rw [List.length_cons, hreplay, List.foldlM_cons, hout]
        rfl⟩
    | some out' =>
      obtain ⟨c₃, hready₃, hrest₃, heq⟩ := ih hready₂ hrest₂ out'
      refine ⟨c₃, hready₃, hrest₃, ?_⟩
      rw [List.length_cons, hreplay, List.foldlM_cons, hout]
      exact heq

theorem Builder.copyElement_eq (b : Builder) (base : ℕ) {p : Progress} {tail : List ℕ} (hready : p.cursor.Ready) (hrest : p.cursor.rest = row.record ++ tail)
    (hcountable : row.Countable) (element : Element) : ∃ cursor' : Cursor ℕ, cursor'.Ready ∧ cursor'.rest = tail ∧
      b.copyElement base p element =
        (row.adds.foldlM (b.relocates base row) (element, p.strings)).map fun out => ⟨cursor', p.elements ++ [out.1], out.2⟩ := by
  obtain ⟨c₁, hpop₁, hrest₁, hready₁⟩ := Cursor.pop_spec hready hrest
  obtain ⟨c₂, hready₂, hrest₂, hreplay⟩ := b.replay_eq base hready₁ hrest₁ (element, p.strings)
  refine ⟨c₂, hready₂, hrest₂, ?_⟩
  rw [copyElement, hpop₁, Nat.mod_eq_of_lt hcountable]
  show (b.replay base row.adds.length c₁ (element, p.strings)).bind _ = _
  rw [hreplay, Option.bind_map]
  cases row.adds.foldlM (b.relocates base row) (element, p.strings) <;> rfl

/-- The bytes that are copied for the strings of a row. -/
def Row.copied (row : Row) : ℕ := (row.adds.map fun offset => ((row.text offset).length + 1) % 2 ^ 32).sum

theorem Builder.relocates_some {out out' : Element × List UInt8} {offset : ℕ} (h : b.relocates base row out offset = some out') :
    ∃ more, out'.2 = out.2 ++ more ∧ more.length = ((row.text offset).length + 1) % 2 ^ 32 ∧
      out'.1 = Function.update out.1 (offset % 2 ^ 32) (.block (base + out.2.length)) := by
  obtain ⟨bytes, hbytes, hout⟩ := Option.bind_eq_some_iff.mp h
  obtain rfl := Option.some.inj hout
  exact ⟨bytes, rfl, b.length_source hbytes, rfl⟩

theorem Builder.foldlM_relocates {out out' : Element × List UInt8} {offsets : List ℕ} (h : offsets.foldlM (b.relocates base row) out = some out') :
    ∃ more, out'.2 = out.2 ++ more ∧ more.length = (offsets.map fun offset => ((row.text offset).length + 1) % 2 ^ 32).sum ∧
      ∀ o, o ∉ offsets.map (· % 2 ^ 32) → out'.1 o = out.1 o := by
  induction offsets generalizing out with
  | nil =>
    obtain rfl := Option.some.inj h
    exact ⟨[], (List.append_nil _).symm, rfl, fun _ _ => rfl⟩
  | cons offset offsets ih =>
    rw [List.foldlM_cons] at h
    obtain ⟨out₁, hout₁, hrest⟩ := Option.bind_eq_some_iff.mp h
    obtain ⟨first, hfirst, hlength, hupdate⟩ := relocates_some hout₁
    obtain ⟨more, hmore, hlengths, hothers⟩ := ih hrest
    refine ⟨first ++ more, by rw [hmore, hfirst, List.append_assoc], ?_, fun o ho => ?_⟩
    · rw [List.length_append, hlength, hlengths, List.map_cons, List.sum_cons]
    · rw [List.map_cons, List.mem_cons, not_or] at ho
      rw [hothers o ho.2, hupdate, Function.update_of_ne ho.1]

/-- The pointer of an added string is one into the block. -/
def Row.Moved (row : Row) (base : ℕ) (strings : List UInt8) (offset : ℕ) (cell : Cell) : Prop :=
  ∃ position, cell = .block position ∧ readAt base strings position ((row.text offset).length + 1) = some (row.text offset ++ [0])

theorem Row.Moved.append {strings : List UInt8} {offset : ℕ} {cell : Cell} (h : row.Moved base strings offset cell) (more : List UInt8) :
    row.Moved base (strings ++ more) offset cell := by
  obtain ⟨position, hcell, hread⟩ := h
  exact ⟨position, hcell, readAt_append hread more⟩

/-- The element is one of the row, with some of its strings in the block. -/
def Row.Moving (row : Row) (b : Builder) (base : ℕ) (out : Element × List UInt8) : Prop :=
  ∀ offset ∈ row.adds, row.Kept b.strings offset (out.1 offset) ∨ row.Moved base out.2 offset (out.1 offset)

theorem Builder.relocates_spec {out : Element × List UInt8} {offset : ℕ} (hmoving : row.Moving b base out) (hmem : offset ∈ row.adds)
    (hnarrow : row.Narrow) : ∃ out' more, b.relocates base row out offset = some out' ∧ out'.2 = out.2 ++ more ∧
      row.Moved base out'.2 offset (out'.1 offset) ∧ ∀ o, o ≠ offset → out'.1 o = out.1 o := by
  obtain ⟨hoffset, hlength⟩ := hnarrow offset hmem
  have hsource : b.source base out.2 (out.1 offset) ((row.text offset).length + 1) = some (row.text offset ++ [0]) := by
    rcases hmoving offset hmem with ⟨place, hcell, hread⟩ | ⟨position, hcell, hread⟩
    · rw [hcell]
      exact hread
    · rw [hcell]
      exact hread
  refine ⟨(Function.update out.1 offset (.block (base + out.2.length)), out.2 ++ (row.text offset ++ [0])), _, ?_, rfl,
    ⟨base + out.2.length, Function.update_self .., ?_⟩, fun o ho => Function.update_of_ne ho ..⟩
  · rw [relocates, Nat.mod_eq_of_lt hoffset, Nat.mod_eq_of_lt hlength, relocate, hsource]
    rfl
  · have hlast := readAt_last base out.2 (row.text offset ++ [0])
    rwa [List.length_append, List.length_singleton] at hlast

theorem Builder.foldlM_relocates_spec {out : Element × List UInt8} {offsets : List ℕ} (hmoving : row.Moving b base out)
    (hmem : ∀ offset ∈ offsets, offset ∈ row.adds) (hnarrow : row.Narrow) :
    ∃ out' more, offsets.foldlM (b.relocates base row) out = some out' ∧ out'.2 = out.2 ++ more ∧
      (∀ o, o ∉ offsets → out'.1 o = out.1 o) ∧ ∀ o ∈ offsets, row.Moved base out'.2 o (out'.1 o) := by
  induction offsets generalizing out with
  | nil => exact ⟨out, [], rfl, (List.append_nil _).symm, fun _ _ => rfl, fun _ h => (nomatch h)⟩
  | cons offset offsets ih =>
    obtain ⟨hoffset, hoffsets⟩ := List.forall_mem_cons.mp hmem
    obtain ⟨out₁, first, hout₁, hfirst, hmoved, hothers₁⟩ := relocates_spec hmoving hoffset hnarrow
    have hmoving₁ : row.Moving b base out₁ := by
      intro o ho
      by_cases heq : o = offset
      · exact .inr (heq ▸ hmoved)
      · rw [hothers₁ o heq, hfirst]
        exact (hmoving o ho).imp_right fun h => h.append first
    obtain ⟨out₂, more, hout₂, hmore, hothers₂, hmoved₂⟩ := ih hmoving₁ hoffsets
    refine ⟨out₂, first ++ more, by rw [List.foldlM_cons, hout₁]; exact hout₂, by rw [hmore, hfirst, List.append_assoc], fun o ho => ?_, fun o ho => ?_⟩
    · rw [List.mem_cons, not_or] at ho
      rw [hothers₂ o ho.2, hothers₁ o ho.1]
    · by_cases hin : o ∈ offsets
      · exact hmoved₂ o hin
      · obtain rfl := (List.mem_cons.mp ho).resolve_right hin
        rw [hothers₂ o hin, hmore]
        exact hmoved.append more

/-! ### All elements -/

theorem foldlM_flatten {σ α : Type} (f : σ → α → Option σ) (s : σ) (chunks : List (List α)) :
    chunks.foldlM (fun s chunk => chunk.foldlM f s) s = chunks.flatten.foldlM f s := by
  induction chunks generalizing s with
  | nil => rfl
  | cons chunk chunks ih =>
    rw [List.foldlM_cons, List.flatten_cons, List.foldlM_append]
    exact congrArg _ (funext ih)

theorem Builder.length_copied {p p' : Progress} {elements : List Element} (h : elements.foldlM (b.copyElement base) p = some p') :
    p'.elements.length = p.elements.length + elements.length := by
  induction elements generalizing p with
  | nil =>
    obtain rfl := Option.some.inj h
    rfl
  | cons element elements ih =>
    rw [List.foldlM_cons] at h
    obtain ⟨p₁, hp₁, hrest⟩ := Option.bind_eq_some_iff.mp h
    obtain ⟨⟨scnt, c⟩, -, hcopy⟩ := Option.bind_eq_some_iff.mp hp₁
    obtain ⟨⟨c', e, strings⟩, -, hdone⟩ := Option.bind_eq_some_iff.mp hcopy
    obtain rfl := Option.some.inj hdone
    rw [ih hrest, List.length_append, List.length_singleton, List.length_cons]
    show p.elements.length + 1 + elements.length = p.elements.length + (elements.length + 1)
    omega

/-- The bytes that are copied, where it ends well; a pointer at a large offset is left as it was. -/
theorem Builder.copied_some {p p' : Progress} {elements : List Element} (hready : p.cursor.Ready) (hrest : p.cursor.rest = rows.flatMap Row.record)
    (hloaded : List.Forall₂ (fun element row => Row.Loaded row b.strings element) elements rows) (hcountable : ∀ row ∈ rows, row.Countable)
    (h : elements.foldlM (b.copyElement base) p = some p') :
    p'.strings.length = p.strings.length + (rows.map Row.copied).sum ∧
      ∃ es, p'.elements = p.elements ++ es ∧
        List.Forall₂ (fun e row => ∀ o ∈ Row.adds row, 2 ^ 32 ≤ o → ∃ place, e o = Cell.chunk place) es rows := by
  induction hloaded generalizing p with
  | nil =>
    obtain rfl := Option.some.inj h
    exact ⟨rfl, [], (List.append_nil _).symm, .nil⟩
  | @cons element row elements rows hrow hrows ih =>
    obtain ⟨hcount, hcounts⟩ := List.forall_mem_cons.mp hcountable
    obtain ⟨c, hready₁, hrest₁, hcopy⟩ := b.copyElement_eq base hready hrest hcount element
    rw [List.foldlM_cons] at h
    obtain ⟨p₁, hp₁, hlast⟩ := Option.bind_eq_some_iff.mp h
    obtain ⟨out, hout, rfl⟩ := Option.map_eq_some_iff.mp (hcopy.symm.trans hp₁)
    obtain ⟨more, hmore, hlength, hothers⟩ := foldlM_relocates hout
    obtain ⟨hstrings, es, hes, hall⟩ := ih hready₁ hrest₁ hcounts hlast
    refine ⟨?_, out.1 :: es, by rw [hes, List.append_assoc]; rfl, .cons (fun o ho hlarge => ?_) hall⟩
    · rw [hstrings, List.map_cons, List.sum_cons, hmore, List.length_append, hlength, Nat.add_assoc]
      rfl
    · obtain ⟨place, hcell, -⟩ := hrow.kept o ho
      refine ⟨place, (hothers o fun hmem => ?_).trans hcell⟩
      obtain ⟨o', -, rfl⟩ := List.mem_map.mp hmem
      exact absurd (Nat.mod_lt o' (Nat.two_pow_pos 32)) (Nat.not_lt.mpr hlarge)

/-- All strings are copied. -/
theorem Builder.copied_spec {p : Progress} {elements : List Element} (hready : p.cursor.Ready) (hrest : p.cursor.rest = rows.flatMap Row.record)
    (hloaded : List.Forall₂ (fun element row => Row.Loaded row b.strings element) elements rows) (hcountable : ∀ row ∈ rows, row.Countable)
    (hnarrow : ∀ row ∈ rows, row.Narrow) :
    ∃ p' es more, elements.foldlM (b.copyElement base) p = some p' ∧ p'.elements = p.elements ++ es ∧ p'.strings = p.strings ++ more ∧
      List.Forall₂ (fun e row => (∀ o, o ∉ Row.adds row → e o = .given (row.fields o)) ∧ ∀ o ∈ row.adds, row.Moved base p'.strings o (e o)) es rows := by
  induction hloaded generalizing p with
  | nil => exact ⟨p, [], [], rfl, (List.append_nil _).symm, (List.append_nil _).symm, .nil⟩
  | @cons element row elements rows hrow hrows ih =>
    obtain ⟨hcount, hcounts⟩ := List.forall_mem_cons.mp hcountable
    obtain ⟨hsmall, hsmalls⟩ := List.forall_mem_cons.mp hnarrow
    obtain ⟨c, hready₁, hrest₁, hcopy⟩ := b.copyElement_eq base hready hrest hcount element
    have hmoving : row.Moving b base (element, p.strings) := fun o ho => .inl (hrow.kept o ho)
    obtain ⟨out, first, hout, hfirst, hothers, hmoved⟩ := foldlM_relocates_spec hmoving (fun _ h => h) hsmall
    rw [hout] at hcopy
    obtain ⟨p', es, more, hp', hes, hmore, hall⟩ := ih (p := ⟨c, p.elements ++ [out.1], out.2⟩) hready₁ hrest₁ hcounts hsmalls
    refine ⟨p', out.1 :: es, first ++ more, by rw [List.foldlM_cons, hcopy]; exact hp', by rw [hes, List.append_assoc]; rfl,
      by rw [hmore, ← List.append_assoc]; exact congrArg (· ++ more) hfirst, .cons ⟨fun o ho => (hothers o ho).trans (hrow.others o ho), fun o ho => ?_⟩ hall⟩
    rw [hmore]
    exact (hmoved o ho).append more

/-- Where `psync_list_builder_finalize` starts. -/
def Builder.started (b : Builder) : Progress := ⟨⟨b.numberList, 0⟩, [], []⟩

theorem Builder.Holds.copied (h : b.Holds rows) (base : ℕ) (hcountable : ∀ row ∈ rows, row.Countable) (hnarrow : ∀ row ∈ rows, row.Narrow) :
    ∃ p es, b.elementList.flatten.foldlM (b.copyElement base) b.started = some p ∧ p.elements = es ∧
      List.Forall₂ (fun e row => (∀ o, o ∉ Row.adds row → e o = .given (row.fields o)) ∧ ∀ o ∈ row.adds, row.Moved base p.strings o (e o)) es rows := by
  obtain ⟨p, es, -, hp, hes, -, hall⟩ := copied_spec (p := b.started) (Cursor.ready_start h.filled) h.numbers h.collects.elements hcountable hnarrow
  exact ⟨p, es, hp, hes, hall⟩

theorem Builder.Holds.copied_length (h : b.Holds rows) (hcountable : ∀ row ∈ rows, row.Countable) {p : Progress}
    (hp : b.elementList.flatten.foldlM (b.copyElement base) b.started = some p) :
    p.strings.length = (rows.map Row.copied).sum ∧
      List.Forall₂ (fun e row => ∀ o ∈ Row.adds row, 2 ^ 32 ≤ o → ∃ place, e o = Cell.chunk place) p.elements rows := by
  obtain ⟨hlength, es, hes, hall⟩ := copied_some (p := b.started) (Cursor.ready_start h.filled) h.numbers h.collects.elements hcountable hp
  exact ⟨hlength.trans (Nat.zero_add _), by rwa [hes]⟩

theorem forall₂_both {α β : Type} {r s : α → β → Prop} {as : List α} {bs : List β} (hr : List.Forall₂ r as bs) (hs : List.Forall₂ s as bs) :
    ∀ b ∈ bs, ∃ a, r a b ∧ s a b := by
  induction hr with
  | nil => exact fun _ h => (nomatch h)
  | cons h _ ih =>
    cases hs with
    | cons h' hs => exact List.forall_mem_cons.mpr ⟨⟨_, h, h'⟩, ih hs⟩

/-! ### The block -/

theorem Row.copied_eq (h : row.Narrow) : row.copied = row.size :=
  congrArg List.sum (List.map_congr_left fun offset hmem => Nat.mod_eq_of_lt (h offset hmem).2)

theorem Row.copied_le (row : Row) : row.copied ≤ row.size := List.sum_le_sum fun _ _ => Nat.mod_le _ _

/-- Built lists are what was put in where rows are refused in time and all numbers fit, and nowhere else. -/
theorem proper_iff (elementSize offset : ℕ) (actions : List Action) :
    Proper offset actions ↔ Meets elementSize offset actions ∧ ∀ row ∈ actions.flatMap Action.accepted, row.Countable := by
  obtain ⟨b, hbuild, htotals⟩ := (Builder.create elementSize offset).foldlM_totals actions
  have hsize : b.elementSize = elementSize := htotals.elementSize
  have hoffset : b.elementsOffset = offset := htotals.elementsOffset
  have hfinalize : (build elementSize offset actions).bind Builder.finalize = b.finalize := by
    rw [build, hbuild]
    rfl
  rw [Meets, hfinalize, Builder.finalize, foldlM_flatten]
  constructor
  · intro h
    have hholds := build_holds h.clean hbuild
    obtain ⟨p, es, hp, hes, hall⟩ := hholds.copied (b.elementsOffset + b.elementSize * b.cnt) h.countable h.narrow
    obtain ⟨hlength, -⟩ := hholds.copied_length h.countable hp
    have hcnt := hholds.collects.cnt
    refine ⟨⟨_, Option.bind_eq_some_iff.mpr ⟨p, hp, rfl⟩, ?_, ?_, ?_, ?_, ?_⟩, h.countable⟩
    · show b.elementsOffset + b.elementSize * b.cnt + b.stringalloc = _
      rw [hholds.collects.alloc, hcnt, hsize, hoffset]
    · show b.elementsOffset + b.elementSize * b.cnt = offset + elementSize * p.elements.length
      rw [hsize, hoffset, hes, hcnt, hall.length_eq]
    · show b.elementsOffset + b.elementSize * b.cnt + p.strings.length = b.elementsOffset + b.elementSize * b.cnt + b.stringalloc
      rw [hlength, hholds.collects.alloc, List.map_congr_left fun row hrow => Row.copied_eq (h.narrow row hrow)]
    · show b.cnt % 256 ^ min b.elementsOffset 8 = _
      rw [hcnt, hoffset]
      exact Nat.mod_eq_of_lt h.counter
    · show List.Forall₂ _ p.elements _
      rw [hes]
      exact hall
  · rintro ⟨⟨k, hk, hbuilt⟩, hcountable⟩
    obtain ⟨p, hp, hk⟩ := Option.bind_eq_some_iff.mp hk
    obtain rfl := Option.some.inj hk
    -- the number of the elements, and of the bytes
    have hcnt : b.cnt = (actions.flatMap Action.accepted).length := by
      have hcopied := Builder.length_copied hp
      have helements := htotals.elements
      have hcount := htotals.cnt
      have hlength : p.elements.length = (actions.flatMap Action.accepted).length := hbuilt.elements.length_eq
      simp only [Builder.create, List.length_nil, List.flatten_nil] at hcopied helements hcount
      omega
    have halloc : b.stringalloc = ((actions.flatMap Action.accepted).map Row.size).sum := by
      have hall : b.elementsOffset + b.elementSize * b.cnt + b.stringalloc = _ := hbuilt.size
      rw [hcnt, hsize, hoffset] at hall
      exact Nat.add_left_cancel hall
    have hclean := clean_of_totals (hcnt.symm.trans (htotals.cnt.trans (Nat.zero_add _))) (halloc.symm.trans (htotals.alloc.trans (Nat.zero_add _)))
    have hholds := build_holds hclean hbuild
    obtain ⟨hlength, hlarge⟩ := hholds.copied_length hcountable hp
    have hcopied : ((actions.flatMap Action.accepted).map Row.copied).sum = ((actions.flatMap Action.accepted).map Row.size).sum := by
      have hexact : b.elementsOffset + b.elementSize * b.cnt + p.strings.length = b.elementsOffset + b.elementSize * b.cnt + b.stringalloc :=
        hbuilt.exact
      rw [← halloc, ← Nat.add_left_cancel hexact, hlength]
    refine ⟨?_, hclean, hcountable, fun row hrow o ho => ⟨?_, ?_⟩⟩
    · have hcounter : b.cnt % 256 ^ min b.elementsOffset 8 = _ := hbuilt.counter
      rw [← hcounter, hoffset]
      exact Nat.mod_lt _ (Nat.pow_pos (by decide))
    · -- the pointer at a large offset would point into `string_list`
      by_contra hnot
      obtain ⟨e, he⟩ := forall₂_both hlarge hbuilt.elements row hrow
      obtain ⟨place, hplace⟩ := he.1 o ho (Nat.not_lt.mp hnot)
      obtain ⟨position, hposition, -⟩ := he.2.2 o ho
      rw [hplace] at hposition
      cases hposition
    · have hrowsize := eq_of_sum_eq (fun (row : Row) _ => row.copied_le) hcopied row hrow
      have hstring := eq_of_sum_eq (fun _ _ => Nat.mod_le _ _) hrowsize o ho
      rw [← hstring]
      exact Nat.mod_lt _ (Nat.two_pow_pos 32)

/-- An element with one string. -/
def Row.named (text : List UInt8) : Row := ⟨fun _ => .text text, [0], fun _ _ => ⟨text, rfl⟩⟩

/-- A row is refused behind its string, and its element is filled from the next row: the string's bytes stay in the size of the block. -/
theorem refused_traced : ¬Meets 8 8 [.sql [(.named [97], true), (.named [98, 99, 100], false)]] := by
  rintro ⟨k, hk, hbuilt⟩
  have hsize : ((build 8 8 [.sql [(.named [97], true), (.named [98, 99, 100], false)]]).bind Builder.finalize).map Block.size = some 22 := rfl
  rw [hk] at hsize
  have hsizes : 22 = 20 := (Option.some.inj hsize).symm.trans hbuilt.size
  cases hsizes

end Pclsync.Lists
