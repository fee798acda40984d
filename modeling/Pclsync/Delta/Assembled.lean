import Pclsync.Delta.Splice

/-! What the server puts together of the plan of an upload, which `merge_list_to_element` leaves as it was. -/
namespace Pclsync.Delta.Splice
open Lib.HeapProgram Lib.Rings Lib.Files

variable {P : Type} (file : Bytes) (stored : Urange → ℕ × ℕ → Bytes)

/-- The bytes of an element: of the local file, or of what the server has under its file or upload. -/
def Element.bytes (e : Element) : Bytes := pread (if e.type = .upload then file else stored e.type e.file) e.len e.off

def assembled (h : Heap P Element) (plan : List P) : Bytes := plan.flatMap fun q => (h q).elim [] (Element.bytes file stored)

/-- What the server has under an element is what the local file has there. -/
def Found (h : Heap P Element) (q : P) : Prop := ∀ e, h q = some e → e.bytes file stored = pread file e.len e.uploadoffset

variable {file stored} {g g' : Heap P Element} {plan before after xs fresh : List P} {start stop fuel : ℕ} {h : Heap P (Node P)}
  {head rlist le : P} {r : Element} {junk : Node P}

theorem assembled_congr (heq : ∀ q ∈ plan, g' q = g q) : assembled file stored g' plan = assembled file stored g plan :=
  List.flatMap_congr fun q hq => by rw [heq q hq]

/-- Elements that are the local file's bytes, one by one, are so together. -/
theorem assembled_covers (hc : Covers g start plan stop) (hfound : ∀ q ∈ plan, Found file stored g q) :
    ∃ len, stop = start + len ∧ assembled file stored g plan = pread file len start := by
  induction plan generalizing start with
  | nil =>
    have hc : start = stop := hc
    exact ⟨0, hc.symm, rfl⟩
  | cons q plan ih =>
    obtain ⟨e, he, rfl, hrest⟩ := hc
    obtain ⟨hq, hplan⟩ := List.forall_mem_cons.mp hfound
    obtain ⟨len, rfl, heq⟩ := ih hrest hplan
    refine ⟨e.len + len, Nat.add_assoc .., ?_⟩
    rw [pread_add, ← heq, ← hq e he, assembled, List.flatMap_cons, he]
    rfl

variable [DecidableEq P]

/-- With blocks that are what the local file has, the plan is put together to the same bytes as before, whatever else is
in it. -/
theorem merge_assembles (hp : Plan h head rlist le before after xs fresh r) (hfuel : xs.length ≤ fuel)
    (hfound : ∀ q ∈ xs, Found file stored (elements h) q) :
    Does (mergeListToElement junk fuel fresh le rlist) h fun _ h' => ∃ out, Ring (links h') head (before ++ out ++ after) ∧
      assembled file stored (elements h') (before ++ out ++ after) = assembled file stored (elements h) (before ++ le :: after) := by
  obtain ⟨l, hl, hnext⟩ := hp.found.segment.linked_first.1
  obtain ⟨c, hc, rfl⟩ := Option.map_eq_some_iff.mp hl
  obtain ⟨d, hd, hdnext⟩ := next_found hp.found
  rw [mergeListToElement]
  simp only [does_bind, does_load, hc, hd, Option.some.injEq, exists_eq_left', hnext, hdnext, does_deref_some]
  refine (mergeFrom_spec hp rfl hfuel).mono fun _ h' hmerged => ?_
  obtain ⟨out, hs⟩ := hmerged
  have hnodup := List.nodup_middle.mp (List.nodup_cons.mp hp.plan.nodup).2
  have hkept : ∀ q ∈ before ++ after, elements h' q = elements h q := fun q hq => by
    have hmem := List.mem_cons_of_mem head (List.perm_middle.mem_iff.mpr (List.mem_cons_of_mem le hq))
    exact hs.unchanged q (fun heq => (List.nodup_cons.mp hnodup).1 (heq ▸ hq)) (hp.not_fresh (.inl hmem))
  have hout : ∀ q ∈ out, Found file stored (elements h') q := fun q hq e he => by
    by_cases hx : q ∈ xs
    · have hx' := List.mem_cons_of_mem rlist hx
      rw [hs.unchanged q (hp.ne_le hx') (hp.not_fresh (.inr hx'))] at he
      exact hfound q hx e he
    · obtain ⟨c, hc, htype, hoff⟩ := hs.rest q hq hx
      obtain rfl := Option.some_inj.mp (hc.symm.trans he)
      rw [Element.bytes, if_pos htype, hoff]
  obtain ⟨len, hlen, heq⟩ := assembled_covers hs.covers hout
  obtain rfl : len = r.len := Nat.add_left_cancel hlen.symm
  refine ⟨out, hs.plan, ?_⟩
  rw [assembled, assembled, List.flatMap_append, List.flatMap_append, List.flatMap_append, List.flatMap_cons, hp.element, Option.elim_some,
    Element.bytes, if_pos hp.upload, hp.off, ← heq, List.append_assoc]
  exact congrArg₂ _ (assembled_congr fun q hq => hkept q (List.mem_append_left after hq))
    (congrArg _ (assembled_congr fun q hq => hkept q (List.mem_append_right before hq)))

def zeros : Bytes := .replicate 600 0

/-- The block in the middle, of zeros. -/
theorem merge_assembles_middle :
    Does (mergeListToElement ⟨⟨none, none⟩, ⟨⟨0, 0, 0⟩, (0, 0), .last, 0⟩⟩ 1 [4] 1 2) middleBlock fun _ h' =>
      ∃ out, Ring (links h') 0 ([] ++ out ++ []) ∧ assembled zeros (fun _ _ => zeros) (elements h') ([] ++ out ++ []) =
        assembled zeros (fun _ _ => zeros) (elements middleBlock) ([] ++ 1 :: []) := by
  have hplan : Segment (links middleBlock) 0 [1] 0 := ⟨⟨⟨_, rfl, rfl⟩, _, rfl, rfl⟩, ⟨_, rfl, rfl⟩, _, rfl, rfl⟩
  have hfound : Segment (links middleBlock) 2 [3] 2 := ⟨⟨⟨_, rfl, rfl⟩, _, rfl, rfl⟩, ⟨_, rfl, rfl⟩, _, rfl, rfl⟩
  have hwithin : Within (elements middleBlock) 0 [3] 100 := ⟨_, rfl, Nat.zero_le _, by decide, by unfold Within; decide⟩
  refine merge_assembles ⟨⟨hplan, by decide⟩, ⟨hfound, by decide⟩, by decide, rfl, rfl, rfl,
    by decide, hwithin, by decide, fun n hn => by rw [List.mem_singleton.mp hn]; rfl, le_rfl⟩ le_rfl fun q hq e he => ?_
  rw [List.mem_singleton.mp hq] at he
  rw [← Option.some_inj.mp he]
  rw [Element.bytes, if_neg (by decide), pread, pread, zeros, List.drop_replicate, List.drop_replicate, List.take_replicate, List.take_replicate]
  rfl

end Pclsync.Delta.Splice
