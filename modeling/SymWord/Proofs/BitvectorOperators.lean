import SymWord.Proofs.OperatorLaws

/-!
# Operators as functions on bitvectors

Every operator is the function of the theory of fixed-size bitvectors that goes by its name, applied
to the words that its operands leave. The operators compute on numbers and by detours: a difference
is the sum with a negation, signed division goes by magnitudes, and the arithmetic shift adds the
bits that come in. So each detour is shown to stay with the function on bitvectors
(`negate_toNat`, `magnitude_toNat`, `ashr_toNat`), after which the two sides have the same cases.
-/

namespace SymWord

namespace UnaryOp

/-- `bvnot` and `bvneg`. -/
def onBitVec {w : Nat} (op : UnaryOp) (x : BitVec w) : BitVec w :=
  match op with
  | not => x.not
  | neg => x.neg

end UnaryOp

namespace BinaryOp

/-- `bvadd`, `bvsub`, `bvmul`, `bvudiv`, `bvurem`, `bvsdiv`, `bvsrem`, `bvand`, `bvor`, `bvxor`,
`bvshl`, `bvlshr` and `bvashr`. -/
def onBitVec {w : Nat} (op : BinaryOp) (x y : BitVec w) : BitVec w :=
  match op with
  | add => x.add y
  | sub => x.sub y
  | mul => x.mul y
  | udiv => x.smtUDiv y
  | urem => x.umod y
  | sdiv => x.smtSDiv y
  | srem => x.srem y
  | and => x.and y
  | or => x.or y
  | xor => x.xor y
  | shl => x.shiftLeft y.toNat
  | lshr => x.ushiftRight y.toNat
  | ashr => x.sshiftRight y.toNat

end BinaryOp

namespace Comparison

/-- Equality, `bvslt`, `bvsle`, `bvult`, `bvule`, and the same with the operands exchanged. -/
def onBitVec {w : Nat} (op : Comparison) (x y : BitVec w) : Bool :=
  match op with
  | eq => x == y
  | ne => x != y
  | slt => x.slt y
  | sgt => y.slt x
  | sle => x.sle y
  | sge => y.sle x
  | ult => x.ult y
  | ugt => y.ult x
  | ule => x.ule y
  | uge => y.ule x

end Comparison

namespace Word

variable {w : Nat} (x y : BitVec w)

theorem truncate_eq_toNat (a w : Nat) : truncate a w = (BitVec.ofNat w a).toNat := by
  rw [truncate_eq, BitVec.toNat_ofNat]

theorem isNegative_toNat : isNegative x.toNat w = x.msb := by
  rw [BitVec.msb_eq_getLsbD_last, isNegative]
  rcases w with _ | w
  · simp [BitVec.toNat_of_zero_length, BitVec.getLsbD]
  · simp [BitVec.getLsbD]

theorem toSigned_toNat : toSigned x.toNat w = x.toInt := by
  rw [toSigned, isNegative_toNat, BitVec.toInt_eq_msb_cond, size_eq]

theorem negate_toNat : negate x.toNat w = (-x).toNat := by
  rw [negate_eq, Nat.mod_eq_of_lt x.isLt, BitVec.toNat_neg]

theorem magnitude_toNat : magnitude x.toNat w = (if x.msb then -x else x).toNat := by
  rw [magnitude, isNegative_toNat, negate_toNat]
  split <;> rfl

theorem udiv_toNat : udiv x.toNat y.toNat w = (x.smtUDiv y).toNat := by
  have hzero : y.toNat = 0 ↔ y = 0#w := by simp [BitVec.toNat_eq]
  rw [udiv, BitVec.smtUDiv_eq]
  by_cases hy : y = 0#w
  · rw [if_pos (hzero.2 hy), if_pos hy, BitVec.toNat_allOnes, mask_eq]
  · rw [if_neg fun h => hy (hzero.1 h), if_neg hy, BitVec.toNat_udiv]

theorem urem_toNat : urem x.toNat y.toNat = (x % y).toNat := by
  rw [urem, BitVec.toNat_umod]

theorem sdiv_toNat : sdiv x.toNat y.toNat w = (x.smtSDiv y).toNat := by
  unfold sdiv
  simp only [magnitude_toNat, udiv_toNat, negate_toNat, isNegative_toNat, BitVec.smtSDiv_eq]
  cases x.msb <;> cases y.msb <;> rfl

theorem srem_toNat : srem x.toNat y.toNat w = (x.srem y).toNat := by
  unfold srem
  simp only [magnitude_toNat, urem_toNat, negate_toNat, isNegative_toNat, BitVec.srem_eq]
  cases x.msb <;> cases y.msb <;> rfl

theorem shl_toNat (s : Nat) : shl x.toNat s w = (x <<< s).toNat := by
  rw [shl, BitVec.toNat_shiftLeft, truncate_eq]
  split
  · rfl
  · rename_i hs
    rw [Nat.shiftLeft_eq]
    refine (Nat.mod_eq_zero_of_dvd ?_).symm
    exact Nat.dvd_mul_left_of_dvd (Nat.pow_dvd_pow 2 (Nat.le_of_not_lt hs)) _

theorem lshr_toNat (s : Nat) : lshr x.toNat s w = (x >>> s).toNat := by
  rw [lshr, BitVec.toNat_ushiftRight]
  split
  · rfl
  · rename_i hs
    have hle : 2 ^ w ≤ 2 ^ s := Nat.pow_le_pow_right (by decide) (Nat.le_of_not_lt hs)
    rw [Nat.shiftRight_eq_div_pow, Nat.div_eq_of_lt (Nat.lt_of_lt_of_le x.isLt hle)]

/-- To shift the complement right and to complement again is to shift ones in. -/
theorem complement_shiftRight {v s : Nat} (h : v < 2 ^ w) (hs : s < w) :
    2 ^ w - 1 - (2 ^ w - 1 - v) >>> s = (v >>> s) + (2 ^ w - 2 ^ (w - s)) := by
  have hpow : 2 ^ w = 2 ^ s * 2 ^ (w - s) := by
    rw [← Nat.pow_add, Nat.add_sub_cancel' (Nat.le_of_lt hs)]
  have hle : 2 ^ (w - s) ≤ 2 ^ w := Nat.pow_le_pow_right (by decide) (Nat.sub_le w s)
  have hlow : v / 2 ^ s < 2 ^ (w - s) := Nat.div_lt_of_lt_mul (hpow ▸ h)
  have hshift : (2 ^ w - 1 - v) / 2 ^ s = 2 ^ (w - s) - (v / 2 ^ s + 1) := by
    rw [Nat.sub_sub, Nat.add_comm 1, hpow]
    exact Nat.mul_sub_div v (2 ^ s) (2 ^ (w - s)) (hpow ▸ h)
  rw [Nat.shiftRight_eq_div_pow, Nat.shiftRight_eq_div_pow, hshift]
  generalize v / 2 ^ s = q at hlow ⊢
  clear hpow hshift h
  omega

theorem ashr_toNat (s : Nat) : ashr x.toNat s w = (x.sshiftRight s).toNat := by
  rw [ashr, isNegative_toNat, BitVec.toNat_sshiftRight]
  split
  · split
    · rename_i hs
      rw [complement_shiftRight x.isLt hs, size_eq, size_eq]
    · rename_i hs
      -- past the width nothing is left of the complement
      have hle : 2 ^ w ≤ 2 ^ s := Nat.pow_le_pow_right (by decide) (Nat.le_of_not_lt hs)
      have hpos := Nat.two_pow_pos w
      rw [Nat.shiftRight_eq_div_pow, Nat.div_eq_of_lt (by omega), mask_eq, Nat.sub_zero]
  · rw [lshr_toNat, BitVec.toNat_ushiftRight]

end Word

theorem UnaryOp.eval_eq_toNat (op : UnaryOp) (a w : Nat) :
    op.eval a w = (op.onBitVec (BitVec.ofNat w a)).toNat := by
  cases op with
  | not =>
    show Word.complement a w = (~~~BitVec.ofNat w a).toNat
    rw [Word.complement, Word.truncate_eq_toNat, Word.mask_eq, BitVec.toNat_not]
  | neg =>
    show Word.negate a w = (-BitVec.ofNat w a).toNat
    rw [Word.negate_eq, BitVec.toNat_neg, BitVec.toNat_ofNat]

theorem BinaryOp.onWords_toNat {w : Nat} (op : BinaryOp) (x y : BitVec w) :
    op.onWords x.toNat y.toNat w = (op.onBitVec x y).toNat := by
  cases op with
  | add =>
    show Word.truncate _ w = (x + y).toNat
    rw [Word.truncate_eq, BitVec.toNat_add]
  | sub =>
    show Word.truncate _ w = (x - y).toNat
    rw [Word.truncate_eq, Word.negate_toNat, BitVec.sub_eq_add_neg, BitVec.toNat_add]
  | mul =>
    show Word.truncate _ w = (x * y).toNat
    rw [Word.truncate_eq, BitVec.toNat_mul]
  | udiv => exact Word.udiv_toNat x y
  | urem => exact Word.urem_toNat x y
  | sdiv => exact Word.sdiv_toNat x y
  | srem => exact Word.srem_toNat x y
  | and => exact (BitVec.toNat_and x y).symm
  | or => exact (BitVec.toNat_or x y).symm
  | xor => exact (BitVec.toNat_xor x y).symm
  | shl => exact Word.shl_toNat x y.toNat
  | lshr => exact Word.lshr_toNat x y.toNat
  | ashr => exact Word.ashr_toNat x y.toNat

theorem Comparison.onWords_toNat {w : Nat} (op : Comparison) (x y : BitVec w) :
    op.onWords x.toNat y.toNat w = op.onBitVec x y := by
  have heq : ∀ x y : BitVec w, (x.toNat == y.toNat) = (x == y) := by
    intro x y
    rw [Bool.eq_iff_iff, beq_iff_eq, beq_iff_eq, BitVec.toNat_inj]
  cases op with
  | eq => exact heq x y
  | ne => exact congrArg not (heq x y)
  | ult | ugt | ule | uge => rfl
  | slt | sgt | sle | sge =>
    simp only [onWords, Word.toSigned_toNat]
    rfl

/-- On numbers of any size every operator is the bitvector function of its name on the words that
the numbers leave. Its result is a word, `negate` turns the truth of a comparison round, and `swap`
keeps it for exchanged operands. -/
theorem operators_on_bitvectors (w a b : Nat) :
    (∀ op : UnaryOp, op.eval a w = (op.onBitVec (BitVec.ofNat w a)).toNat ∧ op.eval a w < 2 ^ w)
    ∧ (∀ op : BinaryOp,
      op.eval a b w = (op.onBitVec (BitVec.ofNat w a) (BitVec.ofNat w b)).toNat
      ∧ op.eval a b w < 2 ^ w)
    ∧ ∀ op : Comparison,
      op.eval a b w = op.onBitVec (BitVec.ofNat w a) (BitVec.ofNat w b)
      ∧ op.negate.eval a b w = !op.eval a b w
      ∧ op.swap.eval b a w = op.eval a b w := by
  refine ⟨fun op => ⟨op.eval_eq_toNat a w, op.eval_lt a w⟩, fun op => ⟨?_, op.eval_lt a b w⟩,
    fun op => ⟨?_, op.eval_negate a b w, op.eval_swap b a w⟩⟩
  · rw [BinaryOp.eval, Word.truncate_eq_toNat, Word.truncate_eq_toNat, BinaryOp.onWords_toNat]
  · rw [Comparison.eval, Word.truncate_eq_toNat, Word.truncate_eq_toNat, Comparison.onWords_toNat]

end SymWord
