import Mathlib.Computability.Language

/-! Patterns with wildcards, as the languages of what they match. -/
namespace Pclsync.Lib.Wildcards

variable {α : Type}

/-- A place of a pattern: for any word, for any letter, or for one letter only. -/
inductive Token (α : Type) where
  | any
  | one
  | only (a : α)

def Token.lang : Token α → Language α
  | .any => ⊤
  | .one => {w | ∃ a, w = [a]}
  | .only a => {[a]}

/-- The words that a pattern matches. -/
def lang (ts : List (Token α)) : Language α := (ts.map Token.lang).prod

variable {ts : List (Token α)} {w : List α} {a : α}

theorem lang_cons (t : Token α) : lang (t :: ts) = t.lang * lang ts := by rw [lang, List.map_cons, List.prod_cons, lang]

theorem mem_any : w ∈ lang (.any :: ts) ↔ ∃ v, v <:+ w ∧ v ∈ lang ts := by
  rw [lang_cons, Language.mem_mul]
  constructor
  · rintro ⟨u, -, v, hv, rfl⟩
    exact ⟨v, List.suffix_append u v, hv⟩
  · rintro ⟨v, ⟨u, rfl⟩, hv⟩
    exact ⟨u, trivial, v, hv, rfl⟩

theorem mem_one : w ∈ lang (.one :: ts) ↔ ∃ b v, w = b :: v ∧ v ∈ lang ts := by
  rw [lang_cons, Language.mem_mul]
  constructor
  · rintro ⟨_, ⟨b, rfl⟩, v, hv, rfl⟩
    exact ⟨b, v, rfl, hv⟩
  · rintro ⟨b, v, rfl, hv⟩
    exact ⟨[b], ⟨b, rfl⟩, v, hv, rfl⟩

theorem mem_only : w ∈ lang (.only a :: ts) ↔ ∃ v, w = a :: v ∧ v ∈ lang ts := by
  rw [lang_cons, Language.mem_mul]
  constructor
  · rintro ⟨_, rfl, v, hv, rfl⟩
    exact ⟨v, rfl, hv⟩
  · rintro ⟨v, rfl, hv⟩
    exact ⟨[a], rfl, v, hv, rfl⟩

theorem nil_notMem_one : [] ∉ lang (.one :: ts) := by
  intro h
  obtain ⟨_, _, heq, -⟩ := mem_one.mp h
  cases heq

theorem nil_notMem_only : [] ∉ lang (.only a :: ts) := by
  intro h
  obtain ⟨_, heq, -⟩ := mem_only.mp h
  cases heq

theorem cons_mem_one {b : α} : b :: w ∈ lang (.one :: ts) ↔ w ∈ lang ts := by
  rw [mem_one]
  constructor
  · rintro ⟨_, _, heq, hv⟩
    cases heq
    exact hv
  · exact fun hw => ⟨b, w, rfl, hw⟩

theorem cons_mem_only {b : α} : b :: w ∈ lang (.only a :: ts) ↔ b = a ∧ w ∈ lang ts := by
  rw [mem_only]
  constructor
  · rintro ⟨_, heq, hv⟩
    cases heq
    exact ⟨rfl, hv⟩
  · rintro ⟨rfl, hw⟩
    exact ⟨w, rfl, hw⟩

/-- A second one for any word adds nothing. -/
theorem lang_any_any : lang (.any :: .any :: ts) = lang (.any :: ts) := by
  ext w
  constructor
  · intro h
    obtain ⟨u, hu, hmem⟩ := mem_any.mp h
    obtain ⟨v, hv, hmem⟩ := mem_any.mp hmem
    exact mem_any.mpr ⟨v, hv.trans hu, hmem⟩
  · intro h
    exact mem_any.mpr ⟨w, List.suffix_rfl, h⟩

/-- One letter after any word is one before it. -/
theorem lang_any_one : lang (.any :: .one :: ts) = lang (.one :: .any :: ts) := by
  ext w
  constructor
  · intro h
    obtain ⟨u, ⟨before, rfl⟩, hu⟩ := mem_any.mp h
    obtain ⟨b, v, rfl, hv⟩ := mem_one.mp hu
    cases before with
    | nil => exact cons_mem_one.mpr (mem_any.mpr ⟨v, List.suffix_rfl, hv⟩)
    | cons c before => exact cons_mem_one.mpr (mem_any.mpr ⟨v, ⟨before ++ [b], by simp⟩, hv⟩)
  · intro h
    obtain ⟨b, u, rfl, hu⟩ := mem_one.mp h
    obtain ⟨v, ⟨before, rfl⟩, hv⟩ := mem_any.mp hu
    rcases List.eq_nil_or_concat before with rfl | ⟨before, c, rfl⟩
    · exact mem_any.mpr ⟨b :: v, List.suffix_rfl, cons_mem_one.mpr hv⟩
    · exact mem_any.mpr ⟨c :: v, ⟨b :: before, by simp⟩, cons_mem_one.mpr hv⟩

/-- A letter after any word. -/
theorem mem_any_only : w ∈ lang (.any :: .only a :: ts) ↔ ∃ v, a :: v <:+ w ∧ v ∈ lang ts := by
  rw [mem_any]
  constructor
  · rintro ⟨u, hu, hmem⟩
    obtain ⟨v, rfl, hv⟩ := mem_only.mp hmem
    exact ⟨v, hu, hv⟩
  · rintro ⟨v, hv, hmem⟩
    exact ⟨a :: v, hv, mem_only.mpr ⟨v, rfl, hmem⟩⟩

end Pclsync.Lib.Wildcards
