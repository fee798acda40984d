import Pclsync.Lib.Wildcards

/-! `psync_match_pattern` of `plibs.c`. A name ends with its first zero; `none` is a read past the memory of the name. -/
namespace Pclsync.Names.Patterns
open Lib.Wildcards

/-- `'*'` -/
def star : UInt8 := 42

/-- `'?'` -/
def question : UInt8 := 63

/-- What is after `strchr` finds a character, one time after the other, until it is matched by `rest`. -/
def tryEach (c : UInt8) (rest : List UInt8 → Option Bool) : List UInt8 → Option Bool
  | [] => none
  | n :: name =>
    if n = c then
      match rest name with
      | none => none
      | some true => some true
      | some false => tryEach c rest name
    else if n = 0 then some false
    else tryEach c rest name

mutual

/-- `psync_match_pattern`, from `name[i]` and `pattern[i]` on. -/
def matchPattern : List UInt8 → List UInt8 → Option Bool
  | name, [] => name.head?.map (· = 0)
  | name, p :: pattern =>
    if p = star then matchStar name pattern
    else
      match name with
      | [] => none
      | n :: name => if n = 0 ∨ p ≠ n ∧ p ≠ question then some false else matchPattern name pattern

/-- The loop after a `'*'`. -/
def matchStar : List UInt8 → List UInt8 → Option Bool
  | _, [] => some true
  | name, p :: pattern =>
    if p = question then
      match name with
      | [] => none
      | n :: name => if n = 0 then some false else matchStar name pattern
    else if p = star then matchStar name pattern
    else tryEach p (fun name => matchPattern name pattern) name

end

/-- What a character of a pattern stands for. -/
def token (c : UInt8) : Token UInt8 := if c = star then .any else if c = question then .one else .only c

/-- The answer is whether `P` holds. -/
def Tells (r : Option Bool) (P : Prop) : Prop := ∃ b, r = some b ∧ (b = true ↔ P)

variable {r : Option Bool} {P Q : Prop} {name pattern after : List UInt8} {p : UInt8}

theorem Tells.congr (h : Tells r P) (hiff : P ↔ Q) : Tells r Q := by
  obtain ⟨b, hr, hb⟩ := h
  exact ⟨b, hr, hb.trans hiff⟩

theorem tells_true (h : P) : Tells (some true) P := ⟨true, rfl, iff_of_true rfl h⟩

theorem tells_false (h : ¬P) : Tells (some false) P := ⟨false, rfl, iff_of_false Bool.false_ne_true h⟩

/-- The rest is tried after each place of the character. -/
theorem tells_tryEach {rest : List UInt8 → Option Bool} {S : List UInt8 → Prop} (hp : p ≠ 0) (hname : 0 ∉ name)
    (hrest : ∀ name, 0 ∉ name → Tells (rest (name ++ 0 :: after)) (S name)) :
    Tells (tryEach p rest (name ++ 0 :: after)) (∃ v, p :: v <:+ name ∧ S v) := by
  induction name with
  | nil =>
    rw [List.nil_append, tryEach, if_neg hp.symm, if_pos rfl]
    refine tells_false ?_
    rintro ⟨v, hv, -⟩
    exact absurd (List.suffix_nil.mp hv) (List.cons_ne_nil _ _)
  | cons n name ih =>
    obtain ⟨hn, hname⟩ := List.ne_and_not_mem_of_not_mem_cons hname
    rw [List.cons_append, tryEach]
    by_cases hnp : n = p
    · subst hnp
      rw [if_pos rfl]
      obtain ⟨b, hb, hiff⟩ := hrest name hname
      rw [hb]
      cases b with
      | true => exact tells_true ⟨name, List.suffix_rfl, hiff.mp rfl⟩
      | false =>
        refine (ih hname).congr ⟨?_, ?_⟩
        · rintro ⟨v, hv, hs⟩
          exact ⟨v, List.suffix_cons_iff.mpr (.inr hv), hs⟩
        · rintro ⟨v, hv, hs⟩
          rcases List.suffix_cons_iff.mp hv with heq | hv
          · cases heq
            exact absurd (hiff.mpr hs) Bool.false_ne_true
          · exact ⟨v, hv, hs⟩
    · rw [if_neg hnp, if_neg hn.symm]
      refine (ih hname).congr ⟨?_, ?_⟩
      · rintro ⟨v, hv, hs⟩
        exact ⟨v, List.suffix_cons_iff.mpr (.inr hv), hs⟩
      · rintro ⟨v, hv, hs⟩
        rcases List.suffix_cons_iff.mp hv with heq | hv
        · exact absurd (List.cons.inj heq).1.symm hnp
        · exact ⟨v, hv, hs⟩

/-- Both loops, by induction on the pattern. -/
theorem tells_match (hpattern : 0 ∉ pattern) : ∀ name, 0 ∉ name →
    Tells (matchPattern (name ++ 0 :: after) pattern) (name ∈ lang (pattern.map token)) ∧
      Tells (matchStar (name ++ 0 :: after) pattern) (name ∈ lang (.any :: pattern.map token)) := by
  induction pattern with
  | nil =>
    intro name hname
    constructor
    · cases name with
      | nil => exact tells_true rfl
      | cons n name =>
        have hn := (List.ne_and_not_mem_of_not_mem_cons hname).1
        rw [List.cons_append, matchPattern, List.head?_cons, Option.map_some, decide_eq_false hn.symm]
        exact tells_false (List.cons_ne_nil n name)
    · rw [matchStar]
      exact tells_true (mem_any.mpr ⟨[], List.nil_suffix, rfl⟩)
  | cons p pattern ih =>
    obtain ⟨hp, hpattern⟩ := List.ne_and_not_mem_of_not_mem_cons hpattern
    intro name hname
    have hrest := ih hpattern
    rw [List.map_cons, token]
    constructor
    · unfold matchPattern
      by_cases hstar : p = star
      · rw [if_pos hstar, if_pos hstar]
        exact (hrest name hname).2
      · rw [if_neg hstar, if_neg hstar]
        cases name with
        | nil =>
          dsimp only [List.nil_append]
          rw [if_pos (.inl rfl)]
          refine tells_false ?_
          split_ifs
          · exact nil_notMem_one
          · exact nil_notMem_only
        | cons n name =>
          obtain ⟨hn, hname⟩ := List.ne_and_not_mem_of_not_mem_cons hname
          dsimp only [List.cons_append]
          by_cases hquestion : p = question
          · rw [if_neg (by rintro (h | h); exacts [hn h.symm, h.2 hquestion]), if_pos hquestion, cons_mem_one]
            exact (hrest name hname).1
          · rw [if_neg hquestion]
            by_cases heq : p = n
            · rw [if_neg (by rintro (h | h); exacts [hn h.symm, h.1 heq])]
              refine (hrest name hname).1.congr ?_
              rw [cons_mem_only]
              exact ⟨fun h => ⟨heq.symm, h⟩, And.right⟩
            · rw [if_pos (.inr ⟨heq, hquestion⟩)]
              refine tells_false fun h => heq ?_
              exact (cons_mem_only.mp h).1.symm
    · unfold matchStar
      by_cases hquestion : p = question
      · have hstar : p ≠ star := by
          rw [hquestion]
          decide
        rw [if_pos hquestion, if_neg hstar, if_pos hquestion, lang_any_one]
        cases name with
        | nil =>
          dsimp only [List.nil_append]
          rw [if_pos rfl]
          exact tells_false nil_notMem_one
        | cons n name =>
          obtain ⟨hn, hname⟩ := List.ne_and_not_mem_of_not_mem_cons hname
          dsimp only [List.cons_append]
          rw [if_neg hn.symm, cons_mem_one]
          exact (hrest name hname).2
      · rw [if_neg hquestion]
        by_cases hstar : p = star
        · rw [if_pos hstar, if_pos hstar, lang_any_any]
          exact (hrest name hname).2
        · rw [if_neg hstar, if_neg hstar, if_neg hquestion]
          refine (tells_tryEach hp.symm hname fun name hname => (hrest name hname).1).congr ?_
          exact mem_any_only.symm

/-- The answer is 1 exactly when the whole name matches, whatever is in memory after the name. -/
theorem match_pattern_exact (name pattern after : List UInt8) (hname : 0 ∉ name) (hpattern : 0 ∉ pattern) :
    ∃ matched, matchPattern (name ++ 0 :: after) pattern = some matched ∧ (matched = true ↔ name ∈ lang (pattern.map token)) :=
  (tells_match hpattern name hname).1

/-- The name `ab.b` and the pattern `*?.b`. -/
theorem match_pattern_exact_ab :
    ∃ matched, matchPattern ([97, 98, 46, 98] ++ 0 :: []) [42, 63, 46, 98] = some matched ∧
      (matched = true ↔ [97, 98, 46, 98] ∈ lang ([42, 63, 46, 98].map token)) :=
  match_pattern_exact [97, 98, 46, 98] [42, 63, 46, 98] [] (by decide) (by decide)

end Pclsync.Names.Patterns
