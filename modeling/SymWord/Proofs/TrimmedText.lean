import Mathlib.Data.List.DropRight
import SymWord.Text.Blank
import SymWord.Text.Lines

/-!
# Trimmed text and its lines

Trimming leaves a piece of the text without a blank at either end, and it leaves such a piece as it
is. Cutting text into lines is splitting it at the separators, less the empty line after the last
one.
-/

namespace SymWord

namespace Text

variable {cs : List Char}

/-- There is no blank at either end. -/
structure Trimmed (cs : List Char) : Prop where
  head : ∀ c, cs.head? = some c → isBlank c = false
  last : ∀ c, cs.getLast? = some c → isBlank c = false

theorem trim_eq (cs : List Char) : trim cs = (cs.dropWhile isBlank).rdropWhile isBlank := rfl

theorem mem_of_mem_trim {c : Char} (h : c ∈ trim cs) : c ∈ cs := by
  have hstart := List.rdropWhile_prefix isBlank (cs.dropWhile isBlank)
  exact (List.dropWhile_suffix isBlank).subset (hstart.subset h)

theorem trimmed_trim (cs : List Char) : Trimmed (trim cs) where
  head c hc := by
    obtain ⟨after, hafter⟩ := List.rdropWhile_prefix isBlank (cs.dropWhile isBlank)
    rw [← trim_eq] at hafter
    have hdrop : (cs.dropWhile isBlank).head? = some c := by
      rw [← hafter, List.head?_append, hc, Option.some_or]
    have hnot := List.head?_dropWhile_not isBlank cs
    rwa [hdrop] at hnot
  last c hc := by
    obtain ⟨init, hinit⟩ := List.getLast?_eq_some_iff.1 hc
    have hne : trim cs ≠ [] := by simp [hinit]
    have hlast := List.rdropWhile_last_not isBlank (cs.dropWhile isBlank) hne
    simp only [← trim_eq, hinit, List.getLast_append_singleton, Bool.not_eq_true] at hlast
    exact hlast

theorem Trimmed.trim_eq (h : Trimmed cs) : trim cs = cs := by
  have hdrop : cs.dropWhile isBlank = cs := by
    cases cs with
    | nil => rfl
    | cons c cs => exact List.dropWhile_cons_of_neg (by simp [h.head c rfl])
  rw [Text.trim_eq, hdrop]
  refine List.rdropWhile_eq_self_iff.2 fun hne => ?_
  rw [Bool.not_eq_true]
  exact h.last _ (List.getLast?_eq_some_getLast hne)

/-- Something is left exactly if there is something to be seen. -/
theorem trim_ne_nil_iff : trim cs ≠ [] ↔ ∃ c ∈ cs, isBlank c = false := by
  constructor
  · intro hne
    obtain ⟨c, rest, hc⟩ := List.exists_cons_of_ne_nil hne
    exact ⟨c, mem_of_mem_trim (by simp [hc]), (trimmed_trim cs).head c (by simp [hc])⟩
  · rintro ⟨c, hc, hblank⟩ hnil
    have hall := List.rdropWhile_eq_nil_iff.1 hnil
    rw [← List.takeWhile_append_dropWhile (p := isBlank) (l := cs)] at hc
    have htrue : isBlank c = true :=
      (List.mem_append.1 hc).elim List.mem_takeWhile_imp (hall c)
    rw [hblank] at htrue
    cases htrue

/-- A blank is never the last of what is left. -/
theorem Trimmed.exists_visible {as bs : List Char} {g : Char} (h : Trimmed (as ++ g :: bs))
    (hg : isBlank g = true) : ∃ c ∈ bs, isBlank c = false := by
  cases hlast : bs.getLast? with
  | none =>
    rw [List.getLast?_eq_none_iff] at hlast
    have hvisible := h.last g (by simp [hlast])
    rw [hg] at hvisible
    cases hvisible
  | some c =>
    exact ⟨c, List.mem_of_getLast? hlast, h.last c (by simp [List.getLast?_cons, hlast])⟩

/-- What is put between two pieces does not show at the ends. -/
theorem Trimmed.append {as cs : List Char} (ha : Trimmed as) (hane : as ≠ []) (bs : List Char)
    (hc : Trimmed cs) (hcne : cs ≠ []) : Trimmed (as ++ bs ++ cs) where
  head c h := by
    obtain ⟨a, as, rfl⟩ := List.exists_cons_of_ne_nil hane
    exact ha.head c h
  last c h := by
    rw [List.getLast?_append_of_ne_nil _ hcne] at h
    exact hc.last c h

/-! ## Lines -/

variable {α : Type} [DecidableEq α]

/-- Splitting differs from cutting into lines in an empty line at the end. -/
theorem splitOn_cases (sep : α) (l : List α) :
    l.splitOn sep = lines sep l ∨ l.splitOn sep = lines sep l ++ [[]] := by
  induction l with
  | nil => exact .inr rfl
  | cons a l ih =>
    rw [List.splitOn_cons_eq_if_modifyHead, lines]
    by_cases ha : a = sep
    · simpa [ha] using ih
    · have hne := List.splitOn_ne_nil sep l
      rw [if_neg ha, if_neg (by simpa using ha)]
      rcases ih with ih | ih <;> rw [ih] at hne ⊢
      · left
        cases hlines : lines sep l with
        | nil => exact absurd hlines hne
        | cons first rest => rfl
      · cases lines sep l with
        | nil => exact .inl rfl
        | cons first rest => exact .inr rfl

theorem notMem_of_mem_splitOn {sep : α} {l xs : List α} (h : l ∈ xs.splitOn sep) : sep ∉ l := by
  induction xs generalizing l with
  | nil =>
    rw [List.splitOn_nil, List.mem_singleton] at h
    simp [h]
  | cons x xs ih =>
    rw [List.splitOn_cons_eq_if_modifyHead] at h
    split at h
    · rcases List.mem_cons.1 h with rfl | h
      · exact List.not_mem_nil
      · exact ih h
    · rename_i hx
      -- the first piece becomes longer by `x`, the others stay
      obtain ⟨first, rest, hsplit⟩ := List.exists_cons_of_ne_nil (List.splitOn_ne_nil sep xs)
      rw [hsplit, List.modifyHead_cons] at h
      rcases List.mem_cons.1 h with rfl | h
      · have hfirst : sep ∉ first := ih (by simp [hsplit])
        have hne : sep ≠ x := fun he => hx (by simp [he])
        exact List.not_mem_cons_of_ne_of_not_mem hne hfirst
      · exact ih (by simp [hsplit, h])

end Text

end SymWord
