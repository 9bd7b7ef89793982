import Mathlib.Algebra.Order.Ring.Int
import Mathlib.Data.Int.ModEq
import SymWord.Proofs.BitvectorOperators
import SymWord.Value

/-!
# Integers as words and back

The word of an integer and the integer of a word have the residue modulo `2 ^ w` of what they are
made from (`ofSigned_modEq`, `toSigned_modEq`), also where the number to be read is no word. The
integer of a word lies between `-2 ^ (w - 1)` and `2 ^ (w - 1)`, where every residue modulo `2 ^ w`
has one integer (`SignedResidue.unique`). So reading a word and writing it again gives the word, and
writing an integer and reading it again gives the integer of that range with the same residue.

Sixty-four bits hold that integer whenever they hold the one that was written: a word of at most 64
bits has no greater range, and a wider one gives the integer back unchanged.
-/

namespace SymWord

namespace Word

/-- What `w` bits can hold in two's complement. -/
def SignedRange (w : Nat) (m : Int) : Prop := -2 ^ (w - 1) ≤ m ∧ m < 2 ^ (w - 1)

/-- The integer `m` is what `w` bits in two's complement keep of `n`. -/
structure SignedResidue (w : Nat) (n m : Int) : Prop where
  range : SignedRange w m
  modEq : m ≡ n [ZMOD 2 ^ w]

variable {w : Nat}

theorem SignedRange.mono {w' : Nat} {m : Int} (h : SignedRange w m) (hle : w ≤ w') :
    SignedRange w' m := by
  have hpow : (2 : Int) ^ (w - 1) ≤ 2 ^ (w' - 1) :=
    pow_le_pow_right₀ (by decide) (Nat.sub_le_sub_right hle 1)
  obtain ⟨hlow, hhigh⟩ := h
  exact ⟨by omega, by omega⟩

/-- Two integers of the range are less than `2 ^ w` apart. -/
theorem SignedResidue.unique {n m m' : Int} (hw : 0 < w) (h : SignedResidue w n m)
    (h' : SignedResidue w n m') : m = m' := by
  have hdvd : (2 : Int) ^ w ∣ m' - m := (h.modEq.trans h'.modEq.symm).dvd
  have hdouble : (2 : Int) ^ w = 2 * 2 ^ (w - 1) := by
    rw [← pow_succ', Nat.sub_add_cancel hw]
  have habs : |m' - m| < 2 ^ w := by
    obtain ⟨hlow, hhigh⟩ := h.range
    obtain ⟨hlow', hhigh'⟩ := h'.range
    rw [hdouble, abs_lt]
    exact ⟨by omega, by omega⟩
  have hzero := Int.eq_zero_of_abs_lt_dvd hdvd habs
  omega

/-! ## Writing and reading -/

theorem ofSigned_eq_emod (n : Int) (w : Nat) : (ofSigned n w : Int) = n % 2 ^ w := by
  cases n with
  | ofNat v =>
    rw [ofSigned, truncate_eq]
    simp
  | negSucc v =>
    have hlt : v % 2 ^ w < 2 ^ w := Nat.mod_lt v (Nat.two_pow_pos w)
    have hmod : ((v % 2 ^ w : Nat) : Int) = v % 2 ^ w := by simp
    have hpow : ((2 ^ w : Nat) : Int) = 2 ^ w := by simp
    rw [ofSigned, complement, truncate_eq, mask_eq, Int.negSucc_emod v (pow_pos (by decide) w),
      ← hmod, ← hpow]
    omega

theorem ofSigned_modEq (n : Int) (w : Nat) : (ofSigned n w : Int) ≡ n [ZMOD 2 ^ w] := by
  rw [ofSigned_eq_emod]
  exact Int.mod_modEq n _

/-- The sign takes off `2 ^ w` or nothing, whatever bits stand above it. -/
theorem toSigned_modEq (v w : Nat) : toSigned v w ≡ v [ZMOD 2 ^ w] := by
  rw [toSigned, size_eq]
  split
  · rw [Nat.cast_pow, Nat.cast_ofNat]
    exact Int.sub_emod_right _ _
  · rfl

theorem signedRange_toSigned {v : Nat} (h : v < 2 ^ w) : SignedRange w (toSigned v w) := by
  have hv : (BitVec.ofNatLT v h).toNat = v := rfl
  rw [← hv, toSigned_toNat]
  exact ⟨BitVec.le_toInt _, BitVec.toInt_lt⟩

theorem ofSigned_toSigned (v w : Nat) : ofSigned (toSigned v w) w = v % 2 ^ w := by
  have h : (ofSigned (toSigned v w) w : Int) = (v : Int) % 2 ^ w := by
    rw [ofSigned_eq_emod]
    exact toSigned_modEq v w
  exact_mod_cast h

theorem signedResidue_toSigned (n : Int) (w : Nat) :
    SignedResidue w n (toSigned (ofSigned n w) w) where
  range := signedRange_toSigned (ofSigned_lt n w)
  modEq := (toSigned_modEq _ w).trans (ofSigned_modEq n w)

theorem toSigned_ofSigned_eq_iff (hw : 0 < w) {n m : Int} :
    toSigned (ofSigned n w) w = m ↔ SignedResidue w n m := by
  constructor
  · rintro rfl
    exact signedResidue_toSigned n w
  · exact (signedResidue_toSigned n w).unique hw

theorem toSigned_ofSigned (hw : 0 < w) {n : Int} (h : SignedRange w n) :
    toSigned (ofSigned n w) w = n :=
  (toSigned_ofSigned_eq_iff hw).2 ⟨h, rfl⟩

/-- What is read back stays in a range that the integer was in. -/
theorem SignedRange.toSigned_ofSigned {w' : Nat} {n : Int} (h : SignedRange w' n) (hw : 0 < w) :
    SignedRange w' (toSigned (ofSigned n w) w) := by
  obtain hle | hle := Nat.le_total w w'
  · exact (signedResidue_toSigned n w).range.mono hle
  · rwa [Word.toSigned_ofSigned hw (h.mono hle)]

end Word

namespace Value

open Word

theorem signedRange_toInt (n : Int64) : SignedRange 64 n.toInt := ⟨n.le_toInt, n.toInt_lt⟩

theorem toSigned64?_lit {n w : Nat} (h : SignedRange 64 (toSigned n w)) :
    (⟨.lit n w⟩ : Value).toSigned64? = some (toSigned n w) := by
  have hsize : ((size 63 : Nat) : Int) = 2 ^ 63 := by simp [size_eq]
  rw [toSigned64?]
  simp only [hsize]
  exact if_pos h

/-- Words and integers go into each other modulo `2 ^ w`, and a value made from a 64-bit integer
gives back what its width keeps of the integer, which from 64 bits on is the integer itself. -/
theorem signed_roundTrip {w : Nat} (hw : 0 < w) :
    (∀ v : Nat, ofSigned (toSigned v w) w = v % 2 ^ w)
    ∧ (∀ n m : Int, toSigned (ofSigned n w) w = m ↔ SignedResidue w n m)
    ∧ ∀ n : Int64, ∃ v, ofInt n.toInt w = .ok v
      ∧ v.toSigned64? = some (toSigned (ofSigned n.toInt w) w)
      ∧ (64 ≤ w → v.toSigned64? = some n.toInt) := by
  refine ⟨fun v => ofSigned_toSigned v w, fun n m => toSigned_ofSigned_eq_iff hw, fun n => ?_⟩
  have hrange := signedRange_toInt n
  have hread := toSigned64?_lit (hrange.toSigned_ofSigned hw)
  refine ⟨_, if_neg (by omega), hread, fun hle => ?_⟩
  rw [hread, toSigned_ofSigned hw (hrange.mono hle)]

/-- A number of nine bits read as a byte, an integer that a byte cannot hold, and the least integer
of 64 bits, which 64 bits and a hundred bits hold. -/
theorem signed_roundTrip_extremes :
    ofSigned (toSigned 0x1FE 8) 8 = 0xFE ∧ SignedResidue 8 200 (-56)
      ∧ (∃ v, ofInt Int64.minValue.toInt 64 = .ok v
        ∧ v.toSigned64? = some Int64.minValue.toInt)
      ∧ ∃ v, ofInt Int64.minValue.toInt 100 = .ok v
        ∧ v.toSigned64? = some Int64.minValue.toInt := by
  obtain ⟨hbyte, hresidue, -⟩ := signed_roundTrip (w := 8) (by decide)
  obtain ⟨v, hv, -, hread⟩ := (signed_roundTrip (w := 64) (by decide)).2.2 Int64.minValue
  obtain ⟨v', hv', -, hread'⟩ := (signed_roundTrip (w := 100) (by decide)).2.2 Int64.minValue
  exact ⟨hbyte 0x1FE, (hresidue 200 (-56)).1 (by decide), ⟨v, hv, hread (by decide)⟩,
    ⟨v', hv', hread' (by decide)⟩⟩

end Value

end SymWord
