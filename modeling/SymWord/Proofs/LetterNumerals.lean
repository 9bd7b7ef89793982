import SymWord.Letters

/-!
# Reading letter numerals back

Letters count from one, so that there is no digit zero and every numeral has one way to be read.
Reading the numeral of a number gives the number back (`decode_digits`), so different numbers have
different names, and a name holds lowercase letters only.
-/

namespace SymWord

namespace Letters

/-- The number that letters stand for, counted from one. -/
def decode (cs : List Char) : Nat := cs.foldl (fun n c => n * 26 + (c.toNat - 'a'.toNat) + 1) 0

theorem toNat_letter {d : Nat} (h : d < 26) : (letter d).toNat = 'a'.toNat + d := by
  revert d
  decide

theorem decode_concat (cs : List Char) {d : Nat} (h : d < 26) :
    decode (cs ++ [letter d]) = decode cs * 26 + d + 1 := by
  simp [decode, toNat_letter h]

theorem decode_digits (n : Nat) : decode (digits n) = n + 1 := by
  fun_induction digits n with
  | case1 n h => simpa [decode] using decode_concat [] h
  | case2 n h ih =>
    rw [decode_concat _ (Nat.mod_lt n (by decide)), ih]
    omega

theorem text_injective : Function.Injective text := by
  intro m n h
  have hdigits : digits m = digits n := by simpa [text] using congrArg String.toList h
  have hdecode := congrArg decode hdigits
  rw [decode_digits, decode_digits] at hdecode
  omega

theorem exists_letter_of_mem {c : Char} {n : Nat} (h : c ∈ digits n) :
    ∃ d, d < 26 ∧ c = letter d := by
  fun_induction digits n with
  | case1 n hn => exact ⟨n, hn, List.mem_singleton.1 h⟩
  | case2 n hn ih =>
    rcases List.mem_append.1 h with h | h
    · exact ih h
    · exact ⟨n % 26, Nat.mod_lt n (by decide), List.mem_singleton.1 h⟩

/-- A mark that comes before the letters is in no name. -/
theorem notMem_text {c : Char} (hc : c.toNat < 'a'.toNat) (n : Nat) : c ∉ (text n).toList := by
  intro h
  rw [text, String.toList_ofList] at h
  obtain ⟨d, hd, rfl⟩ := exists_letter_of_mem h
  rw [toNat_letter hd] at hc
  omega

end Letters

end SymWord
