import Mathlib.Algebra.Group.Nat.Defs
import SymWord.Operator

/-!
# Laws of the operators

Every operator gives a word of its width, whatever numbers it is given. On words the operators obey
the laws that the rules for normal forms rest on: literals may change sides and be put together, a
literal that is zero, one or all ones makes some operators trivial, and an equality may be solved
for what stands under an operation that has an inverse.
-/

namespace SymWord

namespace Word

theorem size_eq (w : Nat) : size w = 2 ^ w := Nat.one_shiftLeft w

theorem truncate_eq (v w : Nat) : truncate v w = v % 2 ^ w := by
  rw [truncate, size_eq]
  split
  · rename_i h
    by_cases hv : v = 0
    · simp [hv]
    · exact (Nat.mod_eq_of_lt ((Nat.log2_lt hv).1 h)).symm
  · rfl

theorem truncate_lt (v w : Nat) : truncate v w < 2 ^ w := by
  rw [truncate_eq]
  exact Nat.mod_lt v (Nat.two_pow_pos w)

theorem truncate_of_lt {v w : Nat} (h : v < 2 ^ w) : truncate v w = v := by
  rw [truncate_eq, Nat.mod_eq_of_lt h]

theorem isMask_iff (v w : Nat) : isMask v w = true ↔ v = mask w := by
  have hp := Nat.two_pow_pos w
  simp only [isMask, mask, size_eq, Bool.and_eq_true, decide_eq_true_eq, beq_iff_eq]
  constructor
  · rintro ⟨-, h⟩
    omega
  · intro h
    refine ⟨?_, by omega⟩
    have hlt : v < 2 ^ (v.log2 + 1) := Nat.lt_log2_self
    exact (Nat.pow_le_pow_iff_right (by decide : 1 < 2)).1 (by omega)

theorem mask_eq (w : Nat) : mask w = 2 ^ w - 1 := by rw [mask, size_eq]

theorem mask_lt (w : Nat) : mask w < 2 ^ w := by
  have := Nat.two_pow_pos w
  rw [mask_eq]
  omega

theorem complement_lt (v w : Nat) : complement v w < 2 ^ w :=
  Nat.lt_of_le_of_lt (Nat.sub_le _ _) (mask_lt w)

theorem ofSigned_lt (n : Int) (w : Nat) : ofSigned n w < 2 ^ w := by
  cases n with
  | ofNat v => exact truncate_lt v w
  | negSucc v => exact complement_lt v w

theorem complement_of_lt {v w : Nat} (h : v < 2 ^ w) : complement v w = 2 ^ w - 1 - v := by
  rw [complement, truncate_of_lt h, mask_eq]

theorem complement_complement {v w : Nat} (h : v < 2 ^ w) :
    complement (complement v w) w = v := by
  rw [complement_of_lt (complement_lt v w), complement_of_lt h]
  omega

theorem negate_eq (v w : Nat) : negate v w = (2 ^ w - v % 2 ^ w) % 2 ^ w := by
  have hp := Nat.two_pow_pos w
  have hlt := Nat.mod_lt v hp
  rw [negate, truncate_eq, size_eq]
  split
  · rename_i h
    rw [h, Nat.sub_zero, Nat.mod_self]
  · rw [Nat.mod_eq_of_lt (a := 2 ^ w - v % 2 ^ w) (by omega)]

theorem negate_lt (v w : Nat) : negate v w < 2 ^ w := by
  rw [negate_eq]
  exact Nat.mod_lt _ (Nat.two_pow_pos w)

theorem negate_negate {v w : Nat} (h : v < 2 ^ w) : negate (negate v w) w = v := by
  by_cases hv : v = 0
  · subst hv
    simp [negate, truncate]
  · have hn : negate v w = 2 ^ w - v := by
      rw [negate, truncate_of_lt h, if_neg hv, size_eq]
    rw [negate, truncate_of_lt (negate_lt v w), hn, if_neg (by omega), size_eq]
    omega

/-- A word and its negation add up to nothing. -/
theorem add_negate_mod (v w : Nat) : (v + negate v w) % 2 ^ w = 0 := by
  have hp := Nat.two_pow_pos w
  have hlt := Nat.mod_lt v hp
  rw [negate_eq, Nat.add_mod, Nat.mod_mod, ← Nat.add_mod, ← Nat.mod_add_mod,
    Nat.add_sub_cancel' (Nat.le_of_lt hlt), Nat.mod_self]

theorem xor_mask {v w : Nat} (h : v < 2 ^ w) : v ^^^ mask w = complement v w := by
  rw [complement_of_lt h, mask_eq, Nat.sub_sub, Nat.add_comm 1]
  refine Nat.eq_of_testBit_eq fun i => ?_
  rw [Nat.testBit_xor, Nat.testBit_two_pow_sub_one, Nat.testBit_two_pow_sub_succ h]
  by_cases hi : i < w
  · simp [hi]
  · simp [hi, Nat.testBit_lt_two_pow
      (Nat.lt_of_lt_of_le h (Nat.pow_le_pow_right (by decide) (Nat.le_of_not_lt hi)))]

theorem or_mask {v w : Nat} (h : v < 2 ^ w) : v ||| mask w = mask w := by
  have hle : mask w ≤ v ||| mask w := Nat.right_le_or
  have hlt : v ||| mask w < 2 ^ w := Nat.or_lt_two_pow h (mask_lt w)
  rw [mask_eq] at *
  omega

theorem and_mask {v w : Nat} (h : v < 2 ^ w) : v &&& mask w = v := by
  rw [mask_eq]
  exact Nat.and_two_pow_sub_one_of_lt_two_pow h

theorem isNegative_zero (w : Nat) : isNegative 0 w = false := by simp [isNegative]

theorem negate_zero (w : Nat) : negate 0 w = 0 := by simp [negate, truncate]

theorem magnitude_lt {v w : Nat} (h : v < 2 ^ w) : magnitude v w < 2 ^ w := by
  unfold magnitude
  split
  · exact negate_lt v w
  · exact h

theorem isNegative_one {w : Nat} (hw : 1 < w) : isNegative 1 w = false := by
  simp only [isNegative, Bool.and_eq_false_iff]
  exact .inr (Nat.testBit_lt_two_pow (Nat.one_lt_two_pow (by omega)))

/-- One has magnitude one at every width, also where it is the negative number. -/
theorem magnitude_one {w : Nat} (hw : 0 < w) : magnitude 1 w = 1 := by
  obtain rfl | h : w = 1 ∨ 1 < w := by omega
  · decide
  · simp [magnitude, isNegative_one h]

theorem negate_magnitude {v w : Nat} (h : v < 2 ^ w) (hn : isNegative v w = true) :
    negate (magnitude v w) w = v := by
  rw [magnitude, if_pos hn, negate_negate h]

theorem signExtend_lt {v w w' : Nat} (hv : v < 2 ^ w) (hw : w ≤ w') :
    signExtend v w w' < 2 ^ w' := by
  have hle : 2 ^ w ≤ 2 ^ w' := Nat.pow_le_pow_right (by decide) hw
  unfold signExtend
  split
  · exact Nat.or_lt_two_pow (Nat.lt_of_lt_of_le hv hle) (Nat.xor_lt_two_pow (mask_lt w')
      (Nat.lt_of_lt_of_le (mask_lt w) hle))
  · exact Nat.lt_of_lt_of_le hv hle

theorem shiftLeft_or_lt {a b m n : Nat} (ha : a < 2 ^ m) (hb : b < 2 ^ n) :
    (a <<< n) ||| b < 2 ^ (m + n) := by
  rw [← Nat.shiftLeft_add_eq_or_of_lt hb, Nat.shiftLeft_eq, Nat.pow_add]
  have : (a + 1) * 2 ^ n ≤ 2 ^ m * 2 ^ n := Nat.mul_le_mul_right _ ha
  rw [Nat.add_mul, Nat.one_mul] at this
  omega

end Word

namespace UnaryOp

theorem eval_lt (op : UnaryOp) (a w : Nat) : op.eval a w < 2 ^ w := by
  cases op with
  | not => exact Word.complement_lt a w
  | neg => exact Word.negate_lt a w

/-- Both operations undo themselves. -/
theorem eval_eval (op : UnaryOp) {a w : Nat} (h : a < 2 ^ w) : op.eval (op.eval a w) w = a := by
  cases op with
  | not => exact Word.complement_complement h
  | neg => exact Word.negate_negate h

/-- A truth value turned round. -/
theorem eval_not_toNat (b : Bool) : UnaryOp.not.eval b.toNat 1 = (!b).toNat := by
  cases b <;> decide

end UnaryOp

namespace BinaryOp

variable {op : BinaryOp} {a b c w : Nat}

theorem eval_of_lt (op : BinaryOp) (ha : a < 2 ^ w) (hb : b < 2 ^ w) :
    op.eval a b w = op.onWords a b w := by
  rw [eval, Word.truncate_of_lt ha, Word.truncate_of_lt hb]

theorem onWords_lt (op : BinaryOp) (ha : a < 2 ^ w) (hb : b < 2 ^ w) :
    op.onWords a b w < 2 ^ w := by
  have hdiv : ∀ {x y : Nat}, x < 2 ^ w → Word.udiv x y w < 2 ^ w := by
    intro x y hx
    unfold Word.udiv
    split
    · exact Word.mask_lt w
    · exact Nat.lt_of_le_of_lt (Nat.div_le_self x y) hx
  have hshr : ∀ {s : Nat}, Word.lshr a s w < 2 ^ w := by
    intro s
    unfold Word.lshr
    split
    · exact Nat.lt_of_le_of_lt (Nat.shiftRight_le a s) ha
    · exact Nat.two_pow_pos w
  cases op with
  | add | sub | mul => exact Word.truncate_lt _ w
  | udiv => exact hdiv ha
  | urem => exact Nat.lt_of_le_of_lt (Nat.mod_le a b) ha
  | sdiv =>
    simp only [onWords, Word.sdiv]
    split
    · exact hdiv (Word.magnitude_lt ha)
    · exact Word.negate_lt _ w
  | srem =>
    simp only [onWords, Word.srem]
    split
    · exact Word.negate_lt _ w
    · exact Nat.lt_of_le_of_lt (Nat.mod_le _ _) (Word.magnitude_lt ha)
  | and => exact Nat.and_lt_two_pow a hb
  | or => exact Nat.or_lt_two_pow ha hb
  | xor => exact Nat.xor_lt_two_pow ha hb
  | shl =>
    simp only [onWords, Word.shl]
    split
    · exact Word.truncate_lt _ w
    · exact Nat.two_pow_pos w
  | lshr => exact hshr
  | ashr =>
    simp only [onWords, Word.ashr, Word.size_eq]
    split
    · split
      · rename_i hs
        -- what is shifted in ends where the shifted word begins
        have hlow : a >>> b < 2 ^ (w - b) := by
          rw [Nat.shiftRight_eq_div_pow, Nat.div_lt_iff_lt_mul (Nat.two_pow_pos b), ← Nat.pow_add,
            Nat.sub_add_cancel (Nat.le_of_lt hs)]
          exact ha
        have hle : 2 ^ (w - b) ≤ 2 ^ w := Nat.pow_le_pow_right (by decide) (Nat.sub_le w b)
        omega
      · exact Word.mask_lt w
    · exact hshr

theorem eval_lt (op : BinaryOp) (a b w : Nat) : op.eval a b w < 2 ^ w :=
  onWords_lt op (Word.truncate_lt a w) (Word.truncate_lt b w)

theorem eval_comm (h : op.isCommutative = true) (a b w : Nat) :
    op.eval a b w = op.eval b a w := by
  cases op <;> simp only [isCommutative, Bool.false_eq_true] at h <;> simp only [eval, onWords]
  · rw [Nat.add_comm]
  · rw [Nat.mul_comm]
  · rw [Nat.and_comm]
  · rw [Nat.or_comm]
  · rw [Nat.xor_comm]

/-- The literals of a chain can be put together. -/
theorem eval_assoc (h : op.isAssociative = true) (a b c w : Nat) :
    op.eval (op.eval a b w) c w = op.eval a (op.eval b c w) w := by
  have hr : ∀ x y, Word.truncate (op.eval x y w) w = op.eval x y w := fun x y =>
    Word.truncate_of_lt (eval_lt op x y w)
  rw [eval, hr, eval, eval, hr, eval]
  cases op <;> simp only [isAssociative, isCommutative, Bool.false_eq_true] at h <;>
    simp only [onWords, Word.truncate_eq]
  · simp only [Nat.mod_add_mod, Nat.add_mod_mod, Nat.add_assoc]
  · simp only [Nat.mod_mul_mod, Nat.mul_mod_mod, Nat.mul_assoc]
  · rw [Nat.and_assoc]
  · rw [Nat.or_assoc]
  · rw [Nat.xor_assoc]

/-- To subtract is to add the negation. -/
theorem eval_sub (a c w : Nat) : sub.eval a c w = add.eval a (Word.negate c w) w := by
  have hn : Word.negate (Word.truncate c w) w = Word.negate c w := by
    rw [Word.negate_eq, Word.negate_eq, Word.truncate_eq, Nat.mod_mod]
  simp only [eval, onWords, hn, Word.truncate_of_lt (Word.negate_lt c w)]

theorem eval_sub_self (a w : Nat) : sub.eval a a w = 0 := by
  rw [eval, onWords, Word.truncate_eq, Word.add_negate_mod]

theorem eval_xor_self (a w : Nat) : xor.eval a a w = 0 := Nat.xor_self _

theorem eval_and_self (h : a < 2 ^ w) : and.eval a a w = a := by
  rw [eval_of_lt and h h, onWords, Nat.and_self]

theorem eval_or_self (h : a < 2 ^ w) : or.eval a a w = a := by
  rw [eval_of_lt or h h, onWords, Nat.or_self]

/-! ### A literal zero, one or all ones -/

section Literal

theorem eval_zero_right (op : BinaryOp) (h : a < 2 ^ w) : op.eval a 0 w = op.onWords a 0 w :=
  eval_of_lt op h (Nat.two_pow_pos w)

theorem eval_add_zero (h : a < 2 ^ w) : add.eval a 0 w = a := by
  rw [eval_zero_right add h, onWords, Nat.add_zero, Word.truncate_of_lt h]

theorem eval_sub_zero (h : a < 2 ^ w) : sub.eval a 0 w = a := by
  rw [eval_sub, Word.negate_zero, eval_add_zero h]

theorem eval_mul_zero (h : a < 2 ^ w) : mul.eval a 0 w = 0 := by
  rw [eval_zero_right mul h, onWords, Nat.mul_zero, Word.truncate_of_lt (Nat.two_pow_pos w)]

theorem eval_and_zero (h : a < 2 ^ w) : and.eval a 0 w = 0 := by
  rw [eval_zero_right and h, onWords, Nat.and_zero]

theorem eval_or_zero (h : a < 2 ^ w) : or.eval a 0 w = a := by
  rw [eval_zero_right or h, onWords, Nat.or_zero]

theorem eval_xor_zero (h : a < 2 ^ w) : xor.eval a 0 w = a := by
  rw [eval_zero_right xor h, onWords, Nat.xor_zero]

theorem eval_shl_zero (hw : 0 < w) (h : a < 2 ^ w) : shl.eval a 0 w = a := by
  rw [eval_zero_right shl h, onWords, Word.shl, if_pos hw, Nat.shiftLeft_zero,
    Word.truncate_of_lt h]

theorem eval_lshr_zero (hw : 0 < w) (h : a < 2 ^ w) : lshr.eval a 0 w = a := by
  rw [eval_zero_right lshr h, onWords, Word.lshr, if_pos hw, Nat.shiftRight_zero]

theorem eval_ashr_zero (hw : 0 < w) (h : a < 2 ^ w) : ashr.eval a 0 w = a := by
  rw [eval_zero_right ashr h, onWords, Word.ashr, if_pos hw, Word.lshr, if_pos hw,
    Nat.shiftRight_zero, Nat.sub_zero, Nat.sub_self, Nat.add_zero, ite_self]

theorem eval_one_right (op : BinaryOp) (hw : 0 < w) (h : a < 2 ^ w) :
    op.eval a 1 w = op.onWords a 1 w :=
  eval_of_lt op h (Nat.one_lt_two_pow (by omega))

theorem eval_mul_one (hw : 0 < w) (h : a < 2 ^ w) : mul.eval a 1 w = a := by
  rw [eval_one_right mul hw h, onWords, Nat.mul_one, Word.truncate_of_lt h]

theorem eval_udiv_one (hw : 0 < w) (h : a < 2 ^ w) : udiv.eval a 1 w = a := by
  rw [eval_one_right udiv hw h, onWords, Word.udiv, if_neg (by decide), Nat.div_one]

theorem eval_urem_one (hw : 0 < w) (h : a < 2 ^ w) : urem.eval a 1 w = 0 := by
  rw [eval_one_right urem hw h, onWords, Word.urem, Nat.mod_one]

/-- At width one the divisor is minus one, and its quotient still the dividend. -/
theorem eval_sdiv_one (hw : 0 < w) (h : a < 2 ^ w) : sdiv.eval a 1 w = a := by
  have hq : Word.udiv (Word.magnitude a w) 1 w = Word.magnitude a w := by
    rw [Word.udiv, if_neg (by decide), Nat.div_one]
  rw [eval_one_right sdiv hw h, onWords, Word.sdiv, Word.magnitude_one hw, hq]
  obtain rfl | hw : w = 1 ∨ 1 < w := by omega
  · obtain rfl | rfl : a = 0 ∨ a = 1 := by omega
    · decide
    · decide
  · rw [Word.isNegative_one hw]
    split
    · rename_i hneg
      simp [Word.magnitude, hneg]
    · rename_i hneg
      exact Word.negate_magnitude h (by simpa using hneg)

theorem eval_srem_one (hw : 0 < w) (h : a < 2 ^ w) : srem.eval a 1 w = 0 := by
  rw [eval_one_right srem hw h, onWords, Word.srem, Word.magnitude_one hw, Word.urem, Nat.mod_one,
    Word.negate_zero, ite_self]

theorem eval_mask_right (op : BinaryOp) (h : a < 2 ^ w) :
    op.eval a (Word.mask w) w = op.onWords a (Word.mask w) w :=
  eval_of_lt op h (Word.mask_lt w)

theorem eval_and_mask (h : a < 2 ^ w) : and.eval a (Word.mask w) w = a := by
  rw [eval_mask_right and h, onWords, Word.and_mask h]

theorem eval_or_mask (h : a < 2 ^ w) : or.eval a (Word.mask w) w = Word.mask w := by
  rw [eval_mask_right or h, onWords, Word.or_mask h]

theorem eval_xor_mask (h : a < 2 ^ w) : xor.eval a (Word.mask w) w = UnaryOp.not.eval a w := by
  rw [eval_mask_right xor h, onWords, Word.xor_mask h, UnaryOp.eval]

theorem eval_zero_left (op : BinaryOp) (h : a < 2 ^ w) : op.eval 0 a w = op.onWords 0 a w :=
  eval_of_lt op (Nat.two_pow_pos w) h

theorem eval_zero_sub (h : a < 2 ^ w) : sub.eval 0 a w = UnaryOp.neg.eval a w := by
  rw [eval_zero_left sub h, onWords, Nat.zero_add, Word.truncate_of_lt (Word.negate_lt a w),
    UnaryOp.eval]

theorem eval_zero_shl (h : a < 2 ^ w) : shl.eval 0 a w = 0 := by
  rw [eval_zero_left shl h, onWords, Word.shl, Nat.zero_shiftLeft,
    Word.truncate_of_lt (Nat.two_pow_pos w), ite_self]

theorem eval_zero_lshr (h : a < 2 ^ w) : lshr.eval 0 a w = 0 := by
  rw [eval_zero_left lshr h, onWords, Word.lshr, Nat.zero_shiftRight, ite_self]

theorem eval_zero_ashr (h : a < 2 ^ w) : ashr.eval 0 a w = 0 := by
  rw [eval_zero_left ashr h, onWords, Word.ashr, Word.isNegative_zero, if_neg (by decide),
    Word.lshr, Nat.zero_shiftRight, ite_self]

theorem eval_zero_urem (h : a < 2 ^ w) : urem.eval 0 a w = 0 := by
  rw [eval_zero_left urem h, onWords, Word.urem, Nat.zero_mod]

end Literal

end BinaryOp

namespace Comparison

variable {op : Comparison} {a b c d w : Nat}

theorem eval_negate (op : Comparison) (a b w : Nat) : op.negate.eval a b w = !op.eval a b w := by
  cases op <;> simp only [negate, eval, onWords, bne, Bool.not_not] <;>
    simp only [← decide_not, Nat.not_lt, Nat.not_le, Int.not_lt, Int.not_le]

theorem eval_swap (op : Comparison) (a b w : Nat) : op.swap.eval a b w = op.eval b a w := by
  cases op <;> simp only [swap, eval, onWords, bne]
  · rw [Bool.beq_comm]
  · rw [Bool.beq_comm]

theorem eval_self (op : Comparison) (a w : Nat) : op.eval a a w = op.isReflexive := by
  cases op <;> simp [eval, onWords, isReflexive]

@[simp] theorem negate_negate (op : Comparison) : op.negate.negate = op := by cases op <;> rfl

@[simp] theorem isEquality_negate (op : Comparison) : op.negate.isEquality = op.isEquality := by
  cases op <;> rfl

@[simp] theorem isReflexive_negate (op : Comparison) :
    op.negate.isReflexive = !op.isReflexive := by
  cases op <;> rfl

theorem swap_negate (op : Comparison) : op.negate.swap = op.swap.negate := by cases op <;> rfl

/-- An equality depends only on whether the words are equal. -/
theorem eval_congr_of_isEquality (hop : op.isEquality = true) (ha : a < 2 ^ w) (hb : b < 2 ^ w)
    (hc : c < 2 ^ w) (hd : d < 2 ^ w) (h : a = b ↔ c = d) : op.eval a b w = op.eval c d w := by
  rw [eval, eval, Word.truncate_of_lt ha, Word.truncate_of_lt hb, Word.truncate_of_lt hc,
    Word.truncate_of_lt hd]
  cases op <;> simp only [isEquality, Bool.false_eq_true] at hop
  · rw [Bool.eq_iff_iff]
    simp only [onWords, beq_iff_eq, h]
  · rw [Bool.eq_iff_iff]
    simp only [onWords, bne_iff_ne, ne_eq, h]

end Comparison

/-! ### Equalities solved for an operand -/

theorem BinaryOp.eval_add_eq_iff {a c d w : Nat} (ha : a < 2 ^ w) (hc : c < 2 ^ w) :
    add.eval a d w = c ↔ a = sub.eval c d w := by
  have hzero : add.eval d (Word.negate d w) w = 0 := by rw [← eval_sub, eval_sub_self]
  rw [eval_sub]
  constructor
  · rintro rfl
    rw [eval_assoc rfl, hzero, eval_add_zero ha]
  · rintro rfl
    rw [eval_assoc rfl, eval_comm rfl (Word.negate d w), hzero, eval_add_zero hc]

theorem BinaryOp.eval_xor_eq_iff {a c d w : Nat} (ha : a < 2 ^ w) (hc : c < 2 ^ w) :
    xor.eval a d w = c ↔ a = xor.eval c d w := by
  constructor
  · rintro rfl
    rw [eval_assoc rfl, eval_xor_self, eval_xor_zero ha]
  · rintro rfl
    rw [eval_assoc rfl, eval_xor_self, eval_xor_zero hc]

theorem UnaryOp.eval_eq_iff (op : UnaryOp) {a c w : Nat} (ha : a < 2 ^ w) (hc : c < 2 ^ w) :
    op.eval a w = c ↔ a = op.eval c w := by
  constructor
  · rintro rfl
    exact (eval_eval op ha).symm
  · rintro rfl
    exact eval_eval op hc

end SymWord
