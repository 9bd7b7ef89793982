import Mathlib.Data.List.Induction
import Mathlib.Data.List.Shortlex
import SymWord.Proofs.LetterNumerals

/-!
# Letter numerals in order

Every word of lowercase letters is the numeral of one number. A numeral with more than one letter is
the numeral of a smaller number with one letter after it (`digits_step`), so by its last letter
every word is found among the numerals (`exists_digits`), and reading it gives the number.

Numbers are in the order of their numerals, shorter ones first and those of one length as in a
dictionary (`shortlex_digits`). Of two numerals with more than one letter, either what stands before
the last letter is in order already, or it is the same and the last letters decide. A single letter
comes before all longer numerals.
-/

namespace SymWord

namespace Letters

/-- Lowercase letters, one at least. -/
def IsName (s : String) : Prop := s ≠ "" ∧ ∀ c ∈ s.toList, c.isLower = true

/-- The number of a name, where the first name has number zero. -/
def number (s : String) : Nat := decode s.toList - 1

/-- Shorter names come first, and names of one length in alphabetical order. -/
def Precedes (s t : String) : Prop := List.Shortlex (· < ·) s.toList t.toList

/-! ## Letters -/

theorem isLower_letter {d : Nat} (h : d < 26) : (letter d).isLower = true := by
  revert d
  decide

theorem letter_lt_letter {d e : Nat} (h : d < e) (he : e < 26) : letter d < letter e := by
  rw [Char.lt_def, UInt32.lt_iff_toNat_lt]
  show (letter d).toNat < (letter e).toNat
  rw [toNat_letter he, toNat_letter (by omega)]
  omega

theorem exists_letter {c : Char} (h : c.isLower = true) : ∃ d, d < 26 ∧ c = letter d := by
  have hrange : 97 ≤ c.toNat ∧ c.toNat ≤ 122 := by
    have hbounds : (decide ('a'.val ≤ c.val) && decide (c.val ≤ 'z'.val)) = true := h
    rw [Bool.and_eq_true, decide_eq_true_eq, decide_eq_true_eq] at hbounds
    exact hbounds
  have ha : 'a'.toNat = 97 := rfl
  refine ⟨c.toNat - 97, by omega, ?_⟩
  rw [letter, ha, Nat.add_sub_cancel' hrange.1, Char.ofNat_toNat]

/-! ## Reading and writing -/

theorem digits_of_lt {n : Nat} (h : n < 26) : digits n = [letter n] := by
  rw [digits, if_pos h]

theorem digits_step (q : Nat) {d : Nat} (h : d < 26) :
    digits ((q + 1) * 26 + d) = digits q ++ [letter d] := by
  have hq : ((q + 1) * 26 + d) / 26 - 1 = q := by omega
  have hd : ((q + 1) * 26 + d) % 26 = d := by omega
  rw [digits, if_neg (by omega), hq, hd]

theorem digits_ne_nil (n : Nat) : digits n ≠ [] := by
  rw [digits]
  split <;> simp

theorem exists_digits {cs : List Char} (hne : cs ≠ []) (h : ∀ c ∈ cs, c.isLower = true) :
    ∃ n, digits n = cs := by
  induction cs using List.reverseRecOn with
  | nil => exact absurd rfl hne
  | append_singleton cs c ih =>
    obtain ⟨hcs, hc⟩ := List.forall_mem_append.1 h
    obtain ⟨d, hd, rfl⟩ := exists_letter (hc c (List.mem_singleton_self c))
    by_cases hnil : cs = []
    · exact ⟨d, by rw [hnil, digits_of_lt hd, List.nil_append]⟩
    · obtain ⟨q, hq⟩ := ih hnil hcs
      exact ⟨(q + 1) * 26 + d, by rw [digits_step q hd, hq]⟩

theorem isName_text (n : Nat) : IsName (text n) := by
  refine ⟨fun h => digits_ne_nil n ?_, fun c hc => ?_⟩
  · simpa [text] using h
  · rw [text, String.toList_ofList] at hc
    obtain ⟨d, hd, rfl⟩ := exists_letter_of_mem hc
    exact isLower_letter hd

theorem number_text (n : Nat) : number (text n) = n := by
  rw [number, text, String.toList_ofList, decode_digits, Nat.add_sub_cancel]

theorem IsName.exists_text {s : String} (h : IsName s) : ∃ n, text n = s := by
  have hne : s.toList ≠ [] := by simpa using h.1
  obtain ⟨n, hn⟩ := exists_digits hne h.2
  exact ⟨n, by rw [text, hn, String.ofList_toList]⟩

/-! ## Order -/

theorem lex_concat {cs ds : List Char} (h : List.Lex (· < ·) cs ds) (hlen : cs.length = ds.length)
    (c d : Char) : List.Lex (· < ·) (cs ++ [c]) (ds ++ [d]) := by
  induction h with
  | nil => simp at hlen
  | rel hlt => exact .rel hlt
  | cons _ ih => exact .cons (ih (by simpa using hlen))

theorem shortlex_concat {cs ds : List Char} (h : List.Shortlex (· < ·) cs ds) (c d : Char) :
    List.Shortlex (· < ·) (cs ++ [c]) (ds ++ [d]) := by
  rcases List.shortlex_def.1 h with hlen | ⟨hlen, hlex⟩
  · exact .of_length_lt (by simpa using hlen)
  · exact .of_lex (by simpa using hlen) (lex_concat hlex hlen c d)

theorem shortlex_digits {m n : Nat} (h : m < n) :
    List.Shortlex (· < ·) (digits m) (digits n) := by
  fun_induction digits n generalizing m with
  | case1 n hn =>
    rw [digits_of_lt (by omega)]
    exact (List.shortlex_singleton_iff _ _).2 (letter_lt_letter h hn)
  | case2 n hn ih =>
    by_cases hm : m < 26
    · have hpos := List.length_pos_iff.2 (digits_ne_nil (n / 26 - 1))
      refine .of_length_lt ?_
      simp only [digits_of_lt hm, List.length_append, List.length_singleton]
      omega
    · rw [digits, if_neg hm]
      -- a number is what stands before the last letter, counted in steps of 26, and the last letter
      obtain hlt | ⟨heq, hlast⟩ :
          m / 26 - 1 < n / 26 - 1 ∨ m / 26 - 1 = n / 26 - 1 ∧ m % 26 < n % 26 := by omega
      · exact shortlex_concat (ih hlt) _ _
      · have hletter := letter_lt_letter hlast (Nat.mod_lt n (by decide))
        rw [heq]
        exact ((List.shortlex_singleton_iff _ _).2 hletter).append_left _

theorem precedes_text_iff {m n : Nat} : Precedes (text m) (text n) ↔ m < n := by
  rw [Precedes, text, text, String.toList_ofList, String.toList_ofList]
  refine ⟨fun h => ?_, shortlex_digits⟩
  rcases Nat.lt_trichotomy m n with hlt | rfl | hgt
  · exact hlt
  · exact absurd h (irrefl _)
  · exact absurd h (asymm (shortlex_digits hgt))

/-- Names and numbers correspond one to one, and in order. -/
theorem text_numerals :
    (∀ n s, text n = s ↔ IsName s ∧ number s = n)
    ∧ ∀ m n, m < n ↔ Precedes (text m) (text n) := by
  refine ⟨fun n s => ⟨?_, ?_⟩, fun m n => precedes_text_iff.symm⟩
  · rintro rfl
    exact ⟨isName_text n, number_text n⟩
  · rintro ⟨hs, rfl⟩
    obtain ⟨n, rfl⟩ := hs.exists_text
    rw [number_text]

example : text 25 = "z" ∧ text 26 = "aa" ∧ text 701 = "zz" ∧ text 702 = "aaa" := by decide +kernel

end Letters

end SymWord
